import Lox.Machine.Value

/-!
Scopes.

Scopes live in one store and are named by their position in it; each may have a
parent.  Closures share the scopes they captured, so a change made through one
chain of parents is seen through every other chain that reaches the scope.
-/

namespace Lox

structure Scope where
  parent : Option Nat := none
  bindings : Bindings Value := []

abbrev Scopes := Array Scope

namespace Scopes

def bindingsOf? (s : Scopes) (id : Nat) : Option (Bindings Value) := s[id]?.map Scope.bindings

def define (s : Scopes) (id : Nat) (name : Bytes) (v : Value) : Scopes :=
  s.modify id fun scope => { scope with bindings := scope.bindings.set name v }

/--
The innermost scope, from `id` on through its parents, that binds the name.  A
chain without repetition has at most as many links as there are scopes.
-/
def ownerWithin (s : Scopes) (name : Bytes) : (links : Nat) → (id : Nat) → Option Nat
  | 0, _ => none
  | links + 1, id =>
      match s[id]? with
      | none => none
      | some scope =>
          if scope.bindings.has name then some id
          else
            match scope.parent with
            | some parent => ownerWithin s name links parent
            | none => none

def owner? (s : Scopes) (id : Nat) (name : Bytes) : Option Nat := s.ownerWithin name s.size id

def get? (s : Scopes) (id : Nat) (name : Bytes) : Option Value := do
  let owner ← s.owner? id name
  let bindings ← s.bindingsOf? owner
  bindings.get? name

def assign? (s : Scopes) (id : Nat) (name : Bytes) (v : Value) : Option Scopes :=
  match s.owner? id name with
  | some owner => some (s.define owner name v)
  | none => none

def ancestor? (s : Scopes) (id : Nat) : (hops : Nat) → Option Nat
  | 0 => if id < s.size then some id else none
  | hops + 1 =>
      match s[id]? with
      | some ⟨some parent, _⟩ => ancestor? s parent hops
      | _ => none

/-- The value bound exactly `hops` parents away, `nil` if that scope lacks the name. -/
def getAt? (s : Scopes) (id hops : Nat) (name : Bytes) : Option Value := do
  let ancestor ← s.ancestor? id hops
  let bindings ← s.bindingsOf? ancestor
  return (bindings.get? name).getD .nil

def assignAt? (s : Scopes) (id hops : Nat) (name : Bytes) (v : Value) : Option Scopes :=
  match s.ancestor? id hops with
  | some ancestor => some (s.define ancestor name v)
  | none => none

def names (s : Scopes) (id : Nat) : List Bytes :=
  match s.bindingsOf? id with
  | some bindings => bindings.names
  | none => []

end Scopes

end Lox
