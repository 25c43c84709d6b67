import Lox.Text.Bytes

/-!
Names bound to values, each name at most once.
-/

namespace Lox

abbrev Bindings (α : Type) := List (Bytes × α)

namespace Bindings

def get? (bindings : Bindings α) (name : Bytes) : Option α := bindings.lookup name

def has (bindings : Bindings α) (name : Bytes) : Bool := (bindings.get? name).isSome

def set (bindings : Bindings α) (name : Bytes) (value : α) : Bindings α :=
  match bindings with
  | [] => [(name, value)]
  | (key, old) :: rest =>
      if key = name then (name, value) :: rest else (key, old) :: set rest name value

def erase (bindings : Bindings α) (name : Bytes) : Bindings α :=
  bindings.filter fun entry => entry.1 != name

/-- The names in the order of their bytes. -/
def names (bindings : Bindings α) : List Bytes := Bytes.sort (bindings.map Prod.fst)

end Bindings

end Lox
