import Lox.Bindings

/-!
Configuration documents, as they are written and as the tables they denote.
-/

namespace Lox.Toml

/-- A key with all its parts; the document itself is the empty key. -/
abbrev Key := List Bytes

inductive Scalar where
  | text (s : Bytes)
  | integer (n : Int)
  | float (x : Float)
  | bool (b : Bool)
  | moment (written : Bytes)
  deriving DecidableEq, Repr, Inhabited

inductive Literal where
  | scalar (v : Scalar)
  | array (items : List Literal)
  | record (fields : List (Key × Literal))
  deriving Inhabited

def Literal.isArray : Literal → Bool
  | .array _ => true
  | _ => false

inductive Line where
  | table (key : Key)
  | element (key : Key)
  | field (key : Key) (value : Literal)
  deriving Inhabited

/-- A value as a document denotes it; `tables` is an array of tables. -/
inductive Value where
  | scalar (v : Scalar)
  | array (items : List Value)
  | table (fields : List (Bytes × Value))
  | tables (elements : List (List (Bytes × Value)))
  deriving Inhabited

abbrev Fields := Bindings Value

namespace Fields

/-- The table at a key; an array of tables stands for its last element. -/
def table? : Key → Fields → Option Fields
  | [], fields => some fields
  | name :: rest, fields =>
      match fields.get? name with
      | some (.table inner) => table? rest inner
      | some (.tables elements) => elements.getLast?.bind (table? rest)
      | _ => none

def setIn? (name : Bytes) (v : Value) : Key → Fields → Option Fields
  | [], fields => some (fields.set name v)
  | part :: rest, fields =>
      match fields.get? part with
      | some (.table inner) => do
          return fields.set part (.table (← setIn? name v rest inner))
      | some (.tables elements) => do
          let inner ← setIn? name v rest (← elements.getLast?)
          return fields.set part (.tables (elements.dropLast ++ [inner]))
      | _ => none

def insert? (name : Bytes) (v : Value) : Key → Fields → Option Fields
  | [], fields => some (fields.set name v)
  | part :: rest, fields =>
      match fields.get? part with
      | none => do return fields.set part (.table (← insert? name v rest []))
      | some (.table inner) => do
          return fields.set part (.table (← insert? name v rest inner))
      | some _ => none

end Fields

end Lox.Toml
