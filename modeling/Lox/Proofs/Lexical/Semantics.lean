import Lox.Machine.Eval

/-!
Lexical scoping by locations.

Here a local name denotes a location.  Every execution of a local declaration makes a
new location, and the environment, which says where the local names are, only grows
inside a scope and is dropped at its end.  A function keeps the environment of its
declaration as it was.  A name without a location is a global, looked up when it is
used.  All that is not about local names is left to the machine, of which only the
global scope is used.
-/

namespace Lox.Lexical

/--
The locations of the local names, the latest declaration first; `none` outside all local
scopes, where declarations are global.
-/
abbrev Env := Option (Bindings Nat)

namespace Env

def names (ρ : Env) : Bindings Nat := ρ.getD []

def find? (ρ : Env) (name : Bytes) : Option Nat := ρ.names.get? name

def inner (ρ : Env) : Env := some ρ.names

end Env

/-- A function refers to its environment by the position in `captured`. -/
structure State where
  machine : Machine
  locations : Array Value := #[]
  captured : Array Env := #[]

def State.start (natives : List Native) (limit : Nat) (clock : List Int) : State where
  machine := .start natives limit clock

inductive Outcome (α : Type) where
  | done (value : α) (state : State)
  | fault (cause : Fault) (state : State)

def Outcome.state : Outcome α → State
  | .done _ s => s
  | .fault _ s => s

def Outcome.fault? : Outcome α → Option Fault
  | .done _ _ => none
  | .fault cause _ => some cause

abbrev Run (α : Type) := State → Outcome α

namespace Run

def pure (value : α) : Run α := fun s => .done value s

def bind (first : Run α) (next : α → Run β) : Run β := fun s =>
  match first s with
  | .done value s => next value s
  | .fault cause s => .fault cause s

end Run

instance : Monad Run where
  pure := Run.pure
  bind := Run.bind

def lift (step : Lox.Run α) : Run α := fun s =>
  match step s.machine with
  | .done value machine => .done value { s with machine }
  | .fault cause machine => .fault cause { s with machine }

def raise (cause : Cause) (t : Token) : Run α := lift (Machine.raise cause t)

/-! ## Locations and environments -/

def allocate (v : Value) : Run Nat := fun s =>
  .done s.locations.size { s with locations := s.locations.push v }

def load (location : Nat) : Run Value := fun s =>
  match s.locations[location]? with
  | some v => .done v s
  | none => .fault .missingScope s

def store (location : Nat) (v : Value) : Run Unit := fun s =>
  .done () { s with locations := s.locations.setIfInBounds location v }

def capture (ρ : Env) : Run Nat := fun s =>
  .done s.captured.size { s with captured := s.captured.push ρ }

def release (id : Nat) : Run Env := fun s =>
  match s.captured[id]? with
  | some ρ => .done ρ s
  | none => .fault .missingScope s

def read (ρ : Env) (r : Reference) : Run Value :=
  match ρ.find? r.name.lexeme with
  | some location => load location
  | none => lift (Machine.read { r with hops := none })

def write (ρ : Env) (r : Reference) (v : Value) : Run Unit :=
  match ρ.find? r.name.lexeme with
  | some location => store location v
  | none => lift (Machine.write { r with hops := none } v)

/-- A local declaration gets its location at once, a global one has none. -/
def declare (ρ : Env) (name : Bytes) : Run Env :=
  match ρ with
  | some names => do
      let location ← allocate .nil
      return some ((name, location) :: names)
  | none => return none

def define (ρ : Env) (name : Bytes) (v : Value) : Run Unit :=
  match ρ.find? name with
  | some location => store location v
  | none => lift (Machine.define name v)

def bindLocal (ρ : Env) (name : Bytes) (v : Value) : Run Env := do
  let location ← allocate v
  return some ((name, location) :: ρ.names)

def bindParameters (ρ : Env) : List Token → List Value → Run Env
  | [], _ => return ρ.inner
  | _ :: _, [] => lift (Machine.stop .missingArgument)
  | p :: parameters, v :: arguments => do
      let ρ ← bindLocal ρ p.lexeme v
      bindParameters ρ parameters arguments

/-! ## Methods and classes -/

def bindThis (method : Closure) (receiver : Value) : Run Closure := do
  let ρ ← release method.scope
  let ρ ← bindLocal ρ (utf8 "this") receiver
  return { method with scope := ← capture ρ }

def getProperty (id : Nat) (c : ClassObject) (name : Token) : Run Value := do
  match ← lift (Machine.field? id name.lexeme) with
  | some v => return v
  | none =>
      match c.method? name.lexeme with
      | some method => lift (Machine.functionOf (← bindThis method (.object id c)))
      | none => raise (.undefinedProperty name.lexeme) name

def getSuper (ρ : Env) (r : Reference) (method : Token) : Run Value := do
  match ρ.find? (utf8 "super"), ρ.find? (utf8 "this") with
  | some superclass, some this =>
      let parent ← load superclass
      let receiver ← load this
      match parent, receiver with
      | .classObject c, .object id own =>
          match c.method? method.lexeme with
          | some code => lift (Machine.functionOf (← bindThis code (.object id own)))
          | none => raise (.undefinedProperty method.lexeme) method
      | _, _ => raise .superOutside r.name
  | _, _ => raise .superOutside r.name

/-- Declares a class; its methods see the class itself and the superclass. -/
def declareClass (ρ : Env) (name : Token) (parent : Option ClassObject)
    (methods : List FunctionDecl) : Run Env := do
  let ρ ← declare ρ name.lexeme
  define ρ name.lexeme .nil
  let inner ←
    match parent with
    | some c => bindLocal ρ (utf8 "super") (.classObject c)
    | none => pure ρ
  let scope ← capture inner
  let id ← lift Machine.newIdentity
  define ρ name.lexeme
    (.classObject (.mk id name.lexeme parent (Machine.methodsIn scope methods)))
  return ρ

def deeper (body : Run α) : Run α := fun s =>
  match body { s with machine := { s.machine with depth := s.machine.depth + 1 } } with
  | .done value s =>
      .done value { s with machine := { s.machine with depth := s.machine.depth - 1 } }
  | .fault cause s =>
      .fault cause { s with machine := { s.machine with depth := s.machine.depth - 1 } }

/-! ## Evaluation -/

mutual

def eval : Nat → Env → Expr → Run Value
  | 0, _, _ => lift (Machine.stop .outOfFuel)
  | n + 1, ρ, e =>
      match e with
      | .absent => lift (Machine.stop .absentExpression)
      | .literal _ value => pure (.ofLiteral value)
      | .grouping _ inner => eval n ρ inner
      | .unary _ operator operand => do
          let v ← eval n ρ operand
          lift (Machine.applyUnary operator v)
      | .binary _ operator left right => do
          let v ← eval n ρ left
          let w ← eval n ρ right
          lift (Machine.applyBinary operator v w)
      | .logical _ operator left right => do
          let v ← eval n ρ left
          if Machine.decides operator v then return v else eval n ρ right
      | .var reference => read ρ reference
      | .assign target value => do
          let v ← eval n ρ value
          write ρ target v
          return v
      | .call _ callee paren arguments => do
          let f ← eval n ρ callee
          let vs ← evalList n ρ arguments
          callValue n f vs paren
      | .get _ object name => do
          match ← eval n ρ object with
          | .object id c => getProperty id c name
          | _ => raise .noProperties name
      | .set _ object name value => do
          match ← eval n ρ object with
          | .object id _ =>
              let v ← eval n ρ value
              lift (Machine.setField id name.lexeme v)
              return v
          | _ => raise .noFields name
      | .thisRef reference => read ρ reference
      | .superRef reference method => getSuper ρ reference method

def evalList : Nat → Env → List Expr → Run (List Value)
  | 0, _, _ => lift (Machine.stop .outOfFuel)
  | n + 1, ρ, es =>
      match es with
      | [] => pure []
      | e :: rest => do
          let v ← eval n ρ e
          let vs ← evalList n ρ rest
          return v :: vs

def callValue : Nat → Value → List Value → Token → Run Value
  | 0, _, _, _ => lift (Machine.stop .outOfFuel)
  | n + 1, f, arguments, paren =>
      match f with
      | .native f =>
          if arguments.length ≠ f.arity then
            raise (.wrongArity f.arity arguments.length) paren
          else lift (Machine.applyNative f arguments paren)
      | .function _ code =>
          if arguments.length ≠ code.arity then
            raise (.wrongArity code.arity arguments.length) paren
          else callClosure n code arguments paren
      | .classObject c =>
          if arguments.length ≠ c.arity then
            raise (.wrongArity c.arity arguments.length) paren
          else do
            let object ← lift (Machine.newObject c)
            match c.initializer? with
            | some method =>
                let code ← bindThis method object
                let _ ← callClosure n code arguments paren
                return object
            | none => return object
      | _ => raise .notCallable paren

/-- Runs a function body in the environment of its declaration and of its parameters. -/
def callClosure : Nat → Closure → List Value → Token → Run Value
  | 0, _, _, _ => lift (Machine.stop .outOfFuel)
  | n + 1, code, arguments, paren => do
      if ← lift Machine.isFull then raise .stackOverflow paren
      else
        deeper do
          let outer ← release code.scope
          let ρ ← bindParameters outer code.declaration.parameters arguments
          let signal ← execList n ρ code.declaration.body
          if code.isInitializer then
            match outer.find? (utf8 "this") with
            | some location => load location
            | none => lift (Machine.stop .missingScope)
          else
            match signal with
            | .returned v => return v
            | .normal => return .nil

/-- How the statement ends, and the environment after it. -/
def exec : Nat → Env → Stmt → Run (Signal × Env)
  | 0, _, _ => lift (Machine.stop .outOfFuel)
  | n + 1, ρ, s =>
      match s with
      | .expression _ e => do
          let _ ← eval n ρ e
          return (.normal, ρ)
      | .print _ e => do
          let v ← eval n ρ e
          lift (Machine.printLine v.display)
          return (.normal, ρ)
      | .var _ name none => do
          let ρ ← declare ρ name.lexeme
          define ρ name.lexeme .nil
          return (.normal, ρ)
      | .var _ name (some initial) => do
          let ρ ← declare ρ name.lexeme
          let v ← eval n ρ initial
          define ρ name.lexeme v
          return (.normal, ρ)
      | .block _ body => do
          let signal ← execList n ρ.inner body
          return (signal, ρ)
      | .branch _ condition onTrue onFalse => do
          let v ← eval n ρ condition
          if v.isTruthy then exec n ρ onTrue
          else
            match onFalse with
            | some s => exec n ρ s
            | none => return (.normal, ρ)
      | .loop _ condition body => do
          let signal ← execLoop n ρ condition body
          return (signal, ρ)
      | .function declaration => do
          let ρ ← declare ρ declaration.name.lexeme
          let scope ← capture ρ
          let f ← lift (Machine.functionOf { declaration, scope })
          define ρ declaration.name.lexeme f
          return (.normal, ρ)
      | .ret _ _ none => return (.returned .nil, ρ)
      | .ret _ _ (some e) => do
          let v ← eval n ρ e
          return (.returned v, ρ)
      | .classDecl _ name none methods => do
          let ρ ← declareClass ρ name none methods
          return (.normal, ρ)
      | .classDecl _ name (some parent) methods => do
          match ← read ρ parent with
          | .classObject c =>
              let ρ ← declareClass ρ name (some c) methods
              return (.normal, ρ)
          | _ => raise .superclassNotClass parent.name

def execList : Nat → Env → List Stmt → Run Signal
  | 0, _, _ => lift (Machine.stop .outOfFuel)
  | n + 1, ρ, body =>
      match body with
      | [] => return .normal
      | s :: rest => do
          match ← exec n ρ s with
          | (.returned v, _) => return .returned v
          | (.normal, ρ) => execList n ρ rest

def execLoop : Nat → Env → Expr → Stmt → Run Signal
  | 0, _, _, _ => lift (Machine.stop .outOfFuel)
  | n + 1, ρ, condition, body => do
      let v ← eval n ρ condition
      if v.isTruthy then
        match ← exec n ρ body with
        | (.returned v, _) => return .returned v
        | (.normal, _) => execLoop n ρ condition body
      else return .normal

end

def execProgram (n : Nat) : List Stmt → Run Unit
  | [] => pure ()
  | s :: rest => do
      let _ ← exec n none s
      execProgram n rest

def interpret (program : List Stmt) : Run Unit := execProgram Machine.ample program

end Lox.Lexical
