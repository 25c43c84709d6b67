import Lox.Machine.Fault
import Lox.Machine.Scope

/-!
The state of a running program and the steps that look at it or change it.
-/

namespace Lox

/--
`current` is the scope that statements run in, `depth` the number of function
calls under way and `limit` the greatest depth, zero being none.  `fields` holds
the fields of every instance, `fresh` the next identity of a function or class.
`clock` holds the readings still to come, in nanoseconds; the last one repeats.
`printed` holds the printed lines, the latest first.
-/
structure Machine where
  scopes : Scopes
  fields : Array (Bindings Value) := #[]
  fresh : Nat := 0
  current : Nat := 0
  depth : Nat := 0
  limit : Nat := 0
  clock : List Int := []
  printed : List Bytes := []

namespace Machine

def globalScope : Nat := 0

def start (natives : List Native) (limit : Nat) (clock : List Int) : Machine :=
  { scopes := #[{ bindings := natives.map fun f => (f.name, .native f) }], limit, clock }

def nextReading : List Int → Int × List Int
  | [] => (0, [])
  | [t] => (t, [t])
  | t :: rest => (t, rest)

def nanosecondsPerSecond : Float := 1000000000

def clockNative : Native where
  name := utf8 "clock"
  arity := 0
  code _ readings :=
    let (t, rest) := nextReading readings
    (.ok (.number (Float.ofInt t / nanosecondsPerSecond)), rest)

def standardNatives : List Native := [clockNative]

def globals (m : Machine) : List Bytes := m.scopes.names globalScope

def output (m : Machine) : Bytes := Bytes.lines m.printed.reverse

def takeOutput (m : Machine) : Bytes × Machine := (m.output, { m with printed := [] })

end Machine

/-! ## Steps -/

inductive Outcome (α : Type) where
  | done (value : α) (machine : Machine)
  | fault (cause : Fault) (machine : Machine)

def Outcome.machine : Outcome α → Machine
  | .done _ m => m
  | .fault _ m => m

abbrev Run (α : Type) := Machine → Outcome α

namespace Run

@[inline] def pure (value : α) : Run α := fun m => .done value m

@[inline] def bind (first : Run α) (next : α → Run β) : Run β := fun m =>
  match first m with
  | .done value m => next value m
  | .fault cause m => .fault cause m

end Run

instance : Monad Run where
  pure := Run.pure
  bind := Run.bind

namespace Machine

def stop (cause : Fault) : Run α := fun m => .fault cause m

def raise (cause : Cause) (t : Token) : Run α := stop (.runtime ⟨cause, t⟩)

/-! ## Names -/

def newScope (parent : Nat) (bindings : Bindings Value) : Run Nat := fun m =>
  .done m.scopes.size { m with scopes := m.scopes.push { parent := some parent, bindings } }

def currentScope : Run Nat := fun m => .done m.current m

/-- Runs in another scope and comes back, also after a fault. -/
def inScope (id : Nat) (body : Run α) : Run α := fun m =>
  let outer := m.current
  match body { m with current := id } with
  | .done value m => .done value { m with current := outer }
  | .fault cause m => .fault cause { m with current := outer }

def defineIn (id : Nat) (name : Bytes) (v : Value) : Run Unit := fun m =>
  .done () { m with scopes := m.scopes.define id name v }

def define (name : Bytes) (v : Value) : Run Unit := fun m => defineIn m.current name v m

def assign (name : Bytes) (v : Value) : Run Unit := fun m =>
  match m.scopes.owner? m.current name with
  | some owner => defineIn owner name v m
  | none => .done () m

def bindingAt (id hops : Nat) (name : Bytes) : Run Value := fun m =>
  match m.scopes.getAt? id hops name with
  | some v => .done v m
  | none => .fault .missingScope m

/-- A local value at a known distance, or a global one. -/
def read (r : Reference) : Run Value := fun m =>
  match r.hops with
  | some hops => bindingAt m.current hops r.name.lexeme m
  | none =>
      match m.scopes.get? globalScope r.name.lexeme with
      | some v => .done v m
      | none => raise (.undefinedVariable r.name.lexeme) r.name m

/-- Changes a local binding at a known distance, or a global one that exists. -/
def write (r : Reference) (v : Value) : Run Unit := fun m =>
  match r.hops with
  | some hops =>
      match m.scopes.ancestor? m.current hops with
      | some owner => defineIn owner r.name.lexeme v m
      | none => .fault .missingScope m
  | none =>
      match m.scopes.owner? globalScope r.name.lexeme with
      | some owner => defineIn owner r.name.lexeme v m
      | none => raise (.undefinedVariable r.name.lexeme) r.name m

/-! ## Identities and fields -/

def newIdentity : Run Nat := fun m => .done m.fresh { m with fresh := m.fresh + 1 }

def newObject (c : ClassObject) : Run Value := fun m =>
  .done (.object m.fields.size c) { m with fields := m.fields.push [] }

def field? (id : Nat) (name : Bytes) : Run (Option Value) := fun m =>
  .done ((m.fields[id]?).bind fun bindings => bindings.get? name) m

def setField (id : Nat) (name : Bytes) (v : Value) : Run Unit := fun m =>
  .done () { m with fields := m.fields.modify id fun bindings => bindings.set name v }

/-! ## Calls and output -/

/-- Runs one level deeper and comes back, also after a fault. -/
def deeper (body : Run α) : Run α := fun m =>
  match body { m with depth := m.depth + 1 } with
  | .done value m => .done value { m with depth := m.depth - 1 }
  | .fault cause m => .fault cause { m with depth := m.depth - 1 }

def isFull : Run Bool := fun m => .done (0 < m.limit && m.limit ≤ m.depth) m

def printLine (line : Bytes) : Run Unit := fun m =>
  .done () { m with printed := line :: m.printed }

end Machine

end Lox
