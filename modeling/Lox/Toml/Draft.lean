import Lox.Toml.Value

/-!
Tables built line by line.

Everything is written once.  Only what was so far named on the way to something
else, be it a table or an array, may still be written out: a table then keeps what
it holds, while an array is replaced.
-/

namespace Lox.Toml

/--
`implicit` holds the keys that were only named on the way to others since they were
last written, `arrays` the keys whose latest value is an array.
-/
structure Draft where
  root : Fields := []
  implicit : List Key := []
  arrays : List Key := []

namespace Draft

def markImplicit (d : Draft) (key : Key) : Draft :=
  { d with implicit := key :: d.implicit }

def unmark (d : Draft) (key : Key) : Draft :=
  { d with implicit := d.implicit.filter (· ≠ key) }

/-- Notes whether a value is an array.  The empty name stands for the table itself. -/
def note (d : Draft) (context : Key) (name : Bytes) (isArray : Bool) : Draft :=
  let key := if name = [] then context else context ++ [name]
  let key := if key = [] then [[]] else key
  let others := d.arrays.filter (· ≠ key)
  { d with arrays := if isArray then key :: others else others }

def setIn? (d : Draft) (context : Key) (name : Bytes) (v : Value) : Option Draft := do
  return { d with root := ← Fields.setIn? name v context d.root }

def place? (d : Draft) (context : Key) (name : Bytes) (v : Value) : Option Draft := do
  let fields ← Fields.table? context d.root
  let key := context ++ [name]
  match fields.get? name with
  | none => d.setIn? context name v
  | some _ =>
      if key ∉ d.implicit then none
      else if key ∈ d.arrays then (d.unmark key).setIn? context name v
      else return d.unmark key

/-- Makes the tables below `context` that a key names and that do not exist. -/
def reach? (context : Key) : Key → Draft → Option Draft
  | [], d => some d
  | name :: rest, d => do
      let fields ← Fields.table? context d.root
      let key := context ++ [name]
      match fields.get? name with
      | none => reach? key rest (← (d.markImplicit key).setIn? context name (.table []))
      | some (.table _) | some (.tables _) => reach? key rest d
      | some _ => none

def openTable? (d : Draft) (key : Key) : Option Draft := do
  let name ← key.getLast?
  (← reach? [] key.dropLast d).place? key.dropLast name (.table [])

def openElement? (d : Draft) (key : Key) : Option Draft := do
  let name ← key.getLast?
  let d ← reach? [] key.dropLast d
  match (← Fields.table? key.dropLast d.root).get? name with
  | none => d.setIn? key.dropLast name (.tables [[]])
  | some (.tables elements) => d.setIn? key.dropLast name (.tables (elements ++ [[]]))
  | some _ => none

def enter? (context : Key) : Key → Draft → Option Draft
  | [], d => some d
  | name :: rest, d => do
      let key := context ++ [name]
      enter? key rest (← (d.markImplicit key).openTable? key)

mutual

def value? (context : Key) (name : Bytes) (inArray : Bool) : Literal → Draft →
    Option (Value × Draft)
  | .scalar v, d => some (.scalar v, d)
  | .array items, d => do
      let (values, d) ← values? context name items (d.note context name true)
      return (.array values, d)
  | .record fields, d => do
      let key := context ++ [name]
      let d := d.markImplicit key
      let d ← if inArray then d.openElement? key else d.openTable? key
      let (inner, d) ← fields? key fields [] d
      return (.table inner, d)

def values? (context : Key) (name : Bytes) : List Literal → Draft → Option (List Value × Draft)
  | [], d => some ([], d)
  | item :: rest, d => do
      let (v, d) ← value? context name true item d
      let (values, d) ← values? context name rest d
      return (v :: values, d)

def fields? (context : Key) : List (Key × Literal) → Fields → Draft → Option (Fields × Draft)
  | [], known, d => some (known, d)
  | (key, literal) :: rest, known, d => do
      let name ← key.getLast?
      let owner := context ++ key.dropLast
      let d ← enter? context key.dropLast d
      let (v, d) ← value? owner name false literal d
      let d := (← d.place? owner name v).note owner name literal.isArray
      fields? context rest (← known.insert? name v key.dropLast) d

end

/-- The draft after one more line, and the table that later fields belong to. -/
def line? (context : Key) (d : Draft) : Line → Option (Key × Draft)
  | .table key => do return (key, (← d.openTable? key).note key [] false)
  | .element key => do return (key, (← d.openElement? key).note key [] false)
  | .field key literal => do
      let name ← key.getLast?
      let owner := context ++ key.dropLast
      let d ← enter? context key.dropLast d
      let (v, d) ← value? owner name false literal d
      return (context, (← d.place? owner name v).note owner name literal.isArray)

def lines? (context : Key) (d : Draft) : List Line → Option Draft
  | [] => some d
  | line :: rest => do
      let (context, d) ← d.line? context line
      lines? context d rest

end Draft

def assemble? (lines : List Line) : Option Fields :=
  (Draft.lines? [] {} lines).map Draft.root

end Lox.Toml
