import Lox.Machine.State

/-!
Evaluation.

Expressions, statements and calls are evaluated by mutual recursion on fuel, which
every step into a part uses up by one.
-/

namespace Lox

inductive Signal where
  | normal
  | returned (v : Value)

namespace Machine

/-! ## Operators -/

def applyUnary (operator : Token) (operand : Value) : Run Value :=
  match operator.kind with
  | .minus =>
      match operand with
      | .number x => pure (.number (-x))
      | _ => raise .operandNotNumber operator
  | .bang => pure (.bool !operand.isTruthy)
  | _ => raise (.unknownUnary operator.lexeme) operator

def applyArithmetic (operator : Token) (x y : Float) : Run Value :=
  match operator.kind with
  | .minus => pure (.number (x - y))
  | .star => pure (.number (x * y))
  | .slash => pure (.number (x / y))
  | .greater => pure (.bool (y < x))
  | .greaterEqual => pure (.bool (y ≤ x))
  | .less => pure (.bool (x < y))
  | .lessEqual => pure (.bool (x ≤ y))
  | _ => raise (.unknownBinary operator.lexeme) operator

def applyBinary (operator : Token) (left right : Value) : Run Value :=
  match operator.kind with
  | .equalEqual => pure (.bool (left.same right))
  | .bangEqual => pure (.bool !(left.same right))
  | .plus =>
      match left, right with
      | .number x, .number y => pure (.number (x + y))
      | .text s, .text t => pure (.text (s ++ t))
      | _, _ => raise .operandsNotAddable operator
  | _ =>
      match left, right with
      | .number x, .number y => applyArithmetic operator x y
      | _, _ => raise .operandsNotNumbers operator

def decides (operator : Token) (left : Value) : Bool :=
  if operator.kind = .orKw then left.isTruthy else !left.isTruthy

/-! ## Native functions and methods -/

def applyNative (f : Native) (arguments : List Value) (paren : Token) : Run Value := fun m =>
  match f.code (arguments.map Value.face) m.clock with
  | (.ok v, clock) => .done (.ofLiteral v) { m with clock }
  | (.error text, clock) => .fault (.runtime ⟨.raised text, paren⟩) { m with clock }

def bindThis (method : Closure) (receiver : Value) : Run Closure := do
  let scope ← newScope method.scope [(utf8 "this", receiver)]
  return { method with scope }

def functionOf (code : Closure) : Run Value := do return .function (← newIdentity) code

def getProperty (id : Nat) (c : ClassObject) (name : Token) : Run Value := do
  match ← field? id name.lexeme with
  | some v => return v
  | none =>
      match c.method? name.lexeme with
      | some method => functionOf (← bindThis method (.object id c))
      | none => raise (.undefinedProperty name.lexeme) name

def getSuper (r : Reference) (method : Token) : Run Value := do
  match r.hops with
  | none => raise .superOutside r.name
  | some hops =>
      let scope ← currentScope
      let parent ← bindingAt scope hops (utf8 "super")
      let receiver ← bindingAt scope (hops - 1) (utf8 "this")
      match parent, receiver with
      | .classObject c, .object id own =>
          match c.method? method.lexeme with
          | some code => functionOf (← bindThis code (.object id own))
          | none => raise (.undefinedProperty method.lexeme) method
      | _, _ => raise .superOutside r.name

/-- The methods of a class declaration; of two with one name the later counts. -/
def methodsIn (scope : Nat) (methods : List FunctionDecl) : Bindings Closure :=
  methods.foldl
    (fun bound f =>
      bound.set f.name.lexeme
        { declaration := f, scope, isInitializer := f.name.lexeme == utf8 "init" })
    []

def declareClass (name : Token) (parent : Option ClassObject) (methods : List FunctionDecl) :
    Run Unit := do
  define name.lexeme .nil
  let outer ← currentScope
  let scope ←
    match parent with
    | some c => newScope outer [(utf8 "super", .classObject c)]
    | none => pure outer
  let id ← newIdentity
  assign name.lexeme (.classObject (.mk id name.lexeme parent (methodsIn scope methods)))

/--
Binds every parameter to its argument, after the bindings there are; of two with one name the
later counts.  There must be an argument for each.
-/
def bindParameters (bound : Bindings Value) : List Token → List Value → Run (Bindings Value)
  | [], _ => pure bound
  | _ :: _, [] => stop .missingArgument
  | p :: parameters, v :: arguments =>
      bindParameters (bound.set p.lexeme v) parameters arguments

/-! ## Evaluation -/

mutual

def eval : Nat → Expr → Run Value
  | 0, _ => stop .outOfFuel
  | n + 1, e =>
      match e with
      | .absent => stop .absentExpression
      | .literal _ value => pure (.ofLiteral value)
      | .grouping _ inner => eval n inner
      | .unary _ operator operand => do
          let v ← eval n operand
          applyUnary operator v
      | .binary _ operator left right => do
          let v ← eval n left
          let w ← eval n right
          applyBinary operator v w
      | .logical _ operator left right => do
          let v ← eval n left
          if decides operator v then return v else eval n right
      | .var reference => read reference
      | .assign target value => do
          let v ← eval n value
          write target v
          return v
      | .call _ callee paren arguments => do
          let f ← eval n callee
          let vs ← evalList n arguments
          callValue n f vs paren
      | .get _ object name => do
          match ← eval n object with
          | .object id c => getProperty id c name
          | _ => raise .noProperties name
      | .set _ object name value => do
          match ← eval n object with
          | .object id _ =>
              let v ← eval n value
              setField id name.lexeme v
              return v
          | _ => raise .noFields name
      | .thisRef reference => read reference
      | .superRef reference method => getSuper reference method

def evalList : Nat → List Expr → Run (List Value)
  | 0, _ => stop .outOfFuel
  | n + 1, es =>
      match es with
      | [] => pure []
      | e :: rest => do
          let v ← eval n e
          let vs ← evalList n rest
          return v :: vs

def callValue : Nat → Value → List Value → Token → Run Value
  | 0, _, _, _ => stop .outOfFuel
  | n + 1, f, arguments, paren =>
      match f with
      | .native f =>
          if arguments.length ≠ f.arity then
            raise (.wrongArity f.arity arguments.length) paren
          else applyNative f arguments paren
      | .function _ code =>
          if arguments.length ≠ code.arity then
            raise (.wrongArity code.arity arguments.length) paren
          else callClosure n code arguments paren
      | .classObject c =>
          if arguments.length ≠ c.arity then
            raise (.wrongArity c.arity arguments.length) paren
          else do
            let object ← newObject c
            match c.initializer? with
            | some method =>
                let code ← bindThis method object
                let _ ← callClosure n code arguments paren
                return object
            | none => return object
      | _ => raise .notCallable paren

/--
Runs a function body in a new scope inside the scope of its declaration.  An
initializer always gives its object.
-/
def callClosure : Nat → Closure → List Value → Token → Run Value
  | 0, _, _, _ => stop .outOfFuel
  | n + 1, code, arguments, paren => do
      if ← isFull then raise .stackOverflow paren
      else
        deeper do
          let bindings ← bindParameters [] code.declaration.parameters arguments
          let scope ← newScope code.scope bindings
          let signal ← inScope scope (execList n code.declaration.body)
          if code.isInitializer then bindingAt code.scope 0 (utf8 "this")
          else
            match signal with
            | .returned v => return v
            | .normal => return .nil

def exec : Nat → Stmt → Run Signal
  | 0, _ => stop .outOfFuel
  | n + 1, s =>
      match s with
      | .expression _ e => do
          let _ ← eval n e
          return .normal
      | .print _ e => do
          let v ← eval n e
          printLine v.display
          return .normal
      | .var _ name none => do
          define name.lexeme .nil
          return .normal
      | .var _ name (some initial) => do
          let v ← eval n initial
          define name.lexeme v
          return .normal
      | .block _ body => do
          let outer ← currentScope
          let scope ← newScope outer []
          inScope scope (execList n body)
      | .branch _ condition onTrue onFalse => do
          let v ← eval n condition
          if v.isTruthy then exec n onTrue
          else
            match onFalse with
            | some s => exec n s
            | none => return .normal
      | .loop _ condition body => execLoop n condition body
      | .function declaration => do
          let scope ← currentScope
          let f ← functionOf { declaration, scope }
          define declaration.name.lexeme f
          return .normal
      | .ret _ _ none => return .returned .nil
      | .ret _ _ (some e) => do
          let v ← eval n e
          return .returned v
      | .classDecl _ name none methods => do
          declareClass name none methods
          return .normal
      | .classDecl _ name (some parent) methods => do
          match ← read parent with
          | .classObject c =>
              declareClass name (some c) methods
              return .normal
          | _ => raise .superclassNotClass parent.name

def execList : Nat → List Stmt → Run Signal
  | 0, _ => stop .outOfFuel
  | n + 1, body =>
      match body with
      | [] => return .normal
      | s :: rest => do
          match ← exec n s with
          | .returned v => return .returned v
          | .normal => execList n rest

def execLoop : Nat → Expr → Stmt → Run Signal
  | 0, _, _ => stop .outOfFuel
  | n + 1, condition, body => do
      let v ← eval n condition
      if v.isTruthy then
        match ← exec n body with
        | .returned v => return .returned v
        | .normal => execLoop n condition body
      else return .normal

end

/-- Runs statements in turn; a `return` outside a function ends only its statement. -/
def execProgram (n : Nat) : List Stmt → Run Unit
  | [] => pure ()
  | s :: rest => do
      let _ ← exec n s
      execProgram n rest

/-- Fuel that no run uses up. -/
def ample : Nat := 1000000000000000000

def evaluate (e : Expr) : Run Value := eval ample e

def interpret (program : List Stmt) : Run Unit := execProgram ample program

end Machine

end Lox
