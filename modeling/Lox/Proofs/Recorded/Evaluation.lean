import Lox.Proofs.Objects.Classes
import Lox.Proofs.Resolution.Scoped

/-!
Evaluation that can be recorded.

The evaluation of the machine is written here once more, over any recorder.  A recorder runs
the single steps, is told what some of them are for, and keeps of that what it likes.  The
recorder that keeps nothing is the machine itself.
-/

namespace Lox.Recorded

open Machine (raise stop currentScope isFull bindingAt)
open Resolution (Site)

/-- Where an expression is evaluated: how it was checked, and the home that it runs at. -/
structure Place extends Site where
  home : Option Home := none

/-- What a change of the machine is for. -/
inductive Act where
  /-- A declaration binds its name. -/
  | declares (name : Bytes)
  /-- An assignment gives a variable another value. -/
  | assigns (target : Reference)
  | other
  deriving DecidableEq, Repr

inductive Use where
  /-- A variable, a superclass or `this` is read. -/
  | name (r : Reference)
  | super (r : Reference)
  /-- A variable gets a new value. -/
  | target (r : Reference)
  /-- An initializer gives its object, which is bound in the given scope. -/
  | receiver (scope : Nat)

inductive Note where
  /-- A statement starts, also when it then fails. -/
  | statement (s : Stmt)
  /-- A `return` has its value. -/
  | returned (v : Value)
  /-- A call that runs no function body. -/
  | passed (callee : Value) (arguments : List Value)
  /-- A call that the limit does not let run its body. -/
  | refused (callee : Value) (arguments : List Value)
  | uses (site : Site) (use : Use)
  /-- A class statement makes a class; `before` is the machine that it starts with. -/
  | declared (before : Machine) (name : Token) (superclass : Option Reference)
      (methods : List FunctionDecl) (scope : Nat) (c : ClassObject)
  | created (id : Nat) (c : ClassObject)
  /-- A function is declared, or a method is bound, and runs at a home from now on. -/
  | made (id : Nat) (code : Closure) (home : Option Home)

def Note.IsBirth : Note → Prop
  | .declared _ _ _ _ _ _ | .created _ _ | .made _ _ _ => True
  | _ => False

class Recorder (T : Type → Type) extends Monad T where
  /-- A run that only looks at the machine. -/
  look {α : Type} : Run α → T α
  /-- A run that is one change. -/
  move {α : Type} : Act → Run α → T α
  inScope {α : Type} : Nat → T α → T α
  /-- The body of a function, for a call of the value with the arguments. -/
  activation : Value → List Value → T Value → T Value
  evaluation : Place → Expr → T Value → T Value
  /-- Something to be told before a run. -/
  note {α : Type} : Note → T α → T α
  withMachine {α : Type} : (Machine → T α) → T α
  /-- With the home that the function was made for. -/
  withHome {α : Type} : Nat → (Option Home → T α) → T α

open Recorder

variable {T : Type → Type} [Recorder T]

/-! ## Methods and classes -/

def bindThis (method : Closure) (receiver : Value) : T Closure := do
  let scope ← move .other (Machine.newScope method.scope [(utf8 "this", receiver)])
  return { method with scope }

def functionOf (code : Closure) (home : Option Home) : T Value := do
  let id ← move .other Machine.newIdentity
  note (.made id code home) (return .function id code)

def methodFrom (c : ClassObject) (receiver : Value) (name : Token) : T Value := do
  match c.method? name.lexeme with
  | some method =>
      let code ← bindThis method receiver
      functionOf code (Home.of? receiver c name.lexeme)
  | none => look (raise (.undefinedProperty name.lexeme) name)

def getProperty (id : Nat) (c : ClassObject) (name : Token) : T Value := do
  match ← look (Machine.field? id name.lexeme) with
  | some v => return v
  | none => methodFrom c (.object id c) name

def getSuper (r : Reference) (method : Token) : T Value := do
  match r.hops with
  | none => look (raise .superOutside r.name)
  | some hops =>
      let scope ← look currentScope
      let parent ← look (bindingAt scope hops (utf8 "super"))
      let receiver ← look (bindingAt scope (hops - 1) (utf8 "this"))
      match parent, receiver with
      | .classObject c, .object id own => methodFrom c (.object id own) method
      | _, _ => look (raise .superOutside r.name)

def newObject (c : ClassObject) : T Value := do
  match ← move .other (Machine.newObject c) with
  | .object id c => note (.created id c) (return .object id c)
  | v => return v

def declareClass (before : Machine) (name : Token) (superclass : Option Reference)
    (parent : Option ClassObject) (methods : List FunctionDecl) : T Unit := do
  move (.declares name.lexeme) (Machine.define name.lexeme .nil)
  let outer ← look currentScope
  let scope ←
    match parent with
    | some c => move .other (Machine.newScope outer [(utf8 "super", .classObject c)])
    | none => pure outer
  let id ← move .other Machine.newIdentity
  let c := .mk id name.lexeme parent (Machine.methodsIn scope methods)
  note (.declared before name superclass methods scope c)
    (move (.declares name.lexeme) (Machine.assign name.lexeme (.classObject c)))

/-! ## Evaluation -/

mutual

def eval : Nat → Place → Expr → T Value
  | 0, _, _ => look (stop .outOfFuel)
  | n + 1, place, e => evaluation place e
      (match e with
      | .absent => look (stop .absentExpression)
      | .literal _ value => pure (.ofLiteral value)
      | .grouping _ inner => eval n place inner
      | .unary _ operator operand => do
          let v ← eval n place operand
          look (Machine.applyUnary operator v)
      | .binary _ operator left right => do
          let v ← eval n place left
          let w ← eval n place right
          look (Machine.applyBinary operator v w)
      | .logical _ operator left right => do
          let v ← eval n place left
          if Machine.decides operator v then return v else eval n place right
      | .var reference =>
          note (.uses place.toSite (.name reference)) (look (Machine.read reference))
      | .assign target value => do
          let v ← eval n place value
          note (.uses place.toSite (.target target))
            (move (.assigns target) (Machine.write target v))
          return v
      | .call _ callee paren arguments => do
          let f ← eval n place callee
          let vs ← evalList n place arguments
          callValue n f vs paren
      | .get _ object name => do
          match ← eval n place object with
          | .object id c => getProperty id c name
          | _ => look (raise .noProperties name)
      | .set _ object name value => do
          match ← eval n place object with
          | .object id _ =>
              let v ← eval n place value
              move .other (Machine.setField id name.lexeme v)
              return v
          | _ => look (raise .noFields name)
      | .thisRef reference =>
          note (.uses place.toSite (.name reference)) (look (Machine.read reference))
      | .superRef reference method =>
          note (.uses place.toSite (.super reference)) (getSuper reference method))

def evalList : Nat → Place → List Expr → T (List Value)
  | 0, _, _ => look (stop .outOfFuel)
  | n + 1, place, es =>
      match es with
      | [] => pure []
      | e :: rest => do
          let v ← eval n place e
          let vs ← evalList n place rest
          return v :: vs

def callValue : Nat → Value → List Value → Token → T Value
  | 0, _, _, _ => look (stop .outOfFuel)
  | n + 1, f, arguments, paren =>
      match f with
      | .native g =>
          note (.passed f arguments)
            (if arguments.length ≠ g.arity then
              look (raise (.wrongArity g.arity arguments.length) paren)
            else move .other (Machine.applyNative g arguments paren))
      | .function id code =>
          if arguments.length ≠ code.arity then
            note (.passed f arguments)
              (look (raise (.wrongArity code.arity arguments.length) paren))
          else withHome id fun home => callClosure n home f code arguments paren
      | .classObject c =>
          if arguments.length ≠ c.arity then
            note (.passed f arguments)
              (look (raise (.wrongArity c.arity arguments.length) paren))
          else do
            let object ← newObject c
            match c.initializer? with
            | some method =>
                let code ← bindThis method object
                let _ ← callClosure n (Home.of? object c (utf8 "init")) f code arguments paren
                return object
            | none => note (.passed f arguments) (return object)
      | _ => note (.passed f arguments) (look (raise .notCallable paren))

def callClosure : Nat → Option Home → Value → Closure → List Value → Token → T Value
  | 0, _, _, _, _, _ => look (stop .outOfFuel)
  | n + 1, home, callee, code, arguments, paren => do
      if ← look isFull then
        note (.refused callee arguments) (look (raise .stackOverflow paren))
      else
        activation callee arguments do
          let bindings ← look
            (Machine.bindParameters [] code.declaration.parameters arguments)
          let scope ← move .other (Machine.newScope code.scope bindings)
          let signal ← inScope scope (execList n home code.declaration.body)
          if code.isInitializer then
            note (.uses {} (.receiver code.scope)) (look (bindingAt code.scope 0 (utf8 "this")))
          else
            match signal with
            | .returned v => return v
            | .normal => return .nil

def exec : Nat → Option Home → Stmt → T Signal
  | 0, _, _ => look (stop .outOfFuel)
  | n + 1, home, s => note (.statement s)
      (match s with
      | .expression _ e => do
          let _ ← eval n { home } e
          return .normal
      | .print _ e => do
          let v ← eval n { home } e
          move .other (Machine.printLine v.display)
          return .normal
      | .var _ name none => do
          move (.declares name.lexeme) (Machine.define name.lexeme .nil)
          return .normal
      | .var _ name (some initial) => do
          let v ← eval n { home, pending := some name.lexeme } initial
          move (.declares name.lexeme) (Machine.define name.lexeme v)
          return .normal
      | .block _ body => do
          let outer ← look currentScope
          let scope ← move .other (Machine.newScope outer [])
          inScope scope (execList n home body)
      | .branch _ condition onTrue onFalse => do
          let v ← eval n { home } condition
          if v.isTruthy then exec n home onTrue
          else
            match onFalse with
            | some s => exec n home s
            | none => return .normal
      | .loop _ condition body => execLoop n home condition body
      | .function declaration => do
          let scope ← look currentScope
          let f ← functionOf { declaration, scope } home
          move (.declares declaration.name.lexeme) (Machine.define declaration.name.lexeme f)
          return .normal
      | .ret _ _ none => note (.returned .nil) (return .returned .nil)
      | .ret _ _ (some e) => do
          let v ← eval n { home } e
          note (.returned v) (return .returned v)
      | .classDecl _ name none methods => withMachine fun before => do
          declareClass before name none none methods
          return .normal
      | .classDecl _ name (some parent) methods => withMachine fun before => do
          match ← note (.uses {} (.name parent)) (look (Machine.read parent)) with
          | .classObject c =>
              declareClass before name (some parent) (some c) methods
              return .normal
          | _ => look (raise .superclassNotClass parent.name))

def execList : Nat → Option Home → List Stmt → T Signal
  | 0, _, _ => look (stop .outOfFuel)
  | n + 1, home, body =>
      match body with
      | [] => return .normal
      | s :: rest => do
          match ← exec n home s with
          | .returned v => return .returned v
          | .normal => execList n home rest

def execLoop : Nat → Option Home → Expr → Stmt → T Signal
  | 0, _, _, _ => look (stop .outOfFuel)
  | n + 1, home, condition, body => do
      let v ← eval n { home } condition
      if v.isTruthy then
        match ← exec n home body with
        | .returned v => return .returned v
        | .normal => execLoop n home condition body
      else return .normal

end

def execProgram (n : Nat) : List Stmt → T Unit
  | [] => pure ()
  | s :: rest => do
      let _ ← exec n none s
      execProgram n rest

/-! ## The recorder that keeps nothing -/

instance : Recorder Run where
  look p := p
  move _ p := p
  inScope := Machine.inScope
  activation _ _ := Machine.deeper
  evaluation _ _ p := p
  note _ p := p
  withMachine p m := p m m
  withHome _ p := p none

mutual

theorem eval_eq (n : Nat) (place : Place) (e : Expr) :
    (eval n place e : Run Value) = Machine.eval n e := by
  match n with
  | 0 => rfl
  | n + 1 =>
      cases e with
      | absent | literal | var | thisRef | superRef => rfl
      | grouping span inner => exact eval_eq n place inner
      | get span object name | set span object name value =>
          simp only [eval, Machine.eval, eval_eq n]
          rfl
      | _ =>
          simp only [eval, Machine.eval, eval_eq n, evalList_eq n, callValue_eq n]
          rfl

theorem evalList_eq (n : Nat) (place : Place) (es : List Expr) :
    (evalList n place es : Run (List Value)) = Machine.evalList n es := by
  match n with
  | 0 => rfl
  | n + 1 =>
      cases es with
      | nil => rfl
      | cons e rest => simp only [evalList, Machine.evalList, eval_eq n, evalList_eq n]

theorem callValue_eq (n : Nat) (f : Value) (vs : List Value) (paren : Token) :
    (callValue n f vs paren : Run Value) = Machine.callValue n f vs paren := by
  match n with
  | 0 => rfl
  | n + 1 =>
      cases f with
      | function id code =>
          simp only [callValue, Machine.callValue, callClosure_eq n]
          rfl
      | classObject c =>
          simp only [callValue, Machine.callValue, callClosure_eq n]
          rfl
      | _ => rfl

theorem callClosure_eq (n : Nat) (home : Option Home) (callee : Value) (code : Closure)
    (vs : List Value) (paren : Token) :
    (callClosure n home callee code vs paren : Run Value) =
      Machine.callClosure n code vs paren := by
  match n with
  | 0 => rfl
  | n + 1 =>
      simp only [callClosure, Machine.callClosure, execList_eq n]
      rfl

theorem exec_eq (n : Nat) (home : Option Home) (s : Stmt) :
    (exec n home s : Run Signal) = Machine.exec n s := by
  match n with
  | 0 => rfl
  | n + 1 =>
      cases s with
      | expression span e | print span e =>
          simp only [exec, Machine.exec, eval_eq n]
          rfl
      | var span name initial =>
          cases initial with
          | none => rfl
          | some e =>
              simp only [exec, Machine.exec, eval_eq n]
              rfl
      | block span body =>
          simp only [exec, Machine.exec, execList_eq n]
          rfl
      | branch span condition onTrue onFalse =>
          simp only [exec, Machine.exec, eval_eq n, exec_eq n]
          rfl
      | loop span condition body => exact execLoop_eq n home condition body
      | function f => rfl
      | ret span keyword value =>
          cases value with
          | none => rfl
          | some e =>
              simp only [exec, Machine.exec, eval_eq n]
              rfl
      | classDecl span name superclass methods => cases superclass <;> rfl

theorem execList_eq (n : Nat) (home : Option Home) (body : List Stmt) :
    (execList n home body : Run Signal) = Machine.execList n body := by
  match n with
  | 0 => rfl
  | n + 1 =>
      cases body with
      | nil => rfl
      | cons s rest =>
          rw [execList, Machine.execList, exec_eq n]
          refine congrArg (Run.bind (Machine.exec n s)) (funext fun signal => ?_)
          cases signal with
          | returned v => rfl
          | normal => exact execList_eq n home rest

theorem execLoop_eq (n : Nat) (home : Option Home) (condition : Expr) (body : Stmt) :
    (execLoop n home condition body : Run Signal) = Machine.execLoop n condition body := by
  match n with
  | 0 => rfl
  | n + 1 =>
      rw [execLoop, Machine.execLoop, eval_eq n]
      refine congrArg (Run.bind (Machine.eval n condition)) (funext fun v => ?_)
      rw [exec_eq n]
      split
      · refine congrArg (Run.bind (Machine.exec n body)) (funext fun signal => ?_)
        cases signal with
        | returned v => rfl
        | normal => exact execLoop_eq n home condition body
      · rfl

end

theorem execProgram_eq (n : Nat) (program : List Stmt) :
    (execProgram n program : Run Unit) = Machine.execProgram n program := by
  induction program with
  | nil => rfl
  | cons s rest ih => simp only [execProgram, Machine.execProgram, exec_eq, ih]

end Lox.Recorded
