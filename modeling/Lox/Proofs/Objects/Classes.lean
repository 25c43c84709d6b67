import Lox.Machine.Eval
import Lox.Proofs.Bindings

/-!
Classes and the methods they have.

A class stands at the head of its lineage, which goes on with its superclass.  A method is
looked up in the nearest class of the lineage that declares one of that name, and of two in
one class the later is found.
-/

namespace Lox

namespace ClassObject

def lineage : ClassObject → List ClassObject
  | .mk id name none methods => [.mk id name none methods]
  | .mk id name (some parent) methods => .mk id name (some parent) methods :: parent.lineage

theorem mem_lineage_self (c : ClassObject) : c ∈ c.lineage := by
  obtain ⟨id, name, _ | parent, methods⟩ := c
  · exact List.mem_singleton.mpr rfl
  · exact List.mem_cons_self

theorem mem_lineage {a c : ClassObject} :
    a ∈ c.lineage ↔ a = c ∨ ∃ parent ∈ c.parent?, a ∈ parent.lineage := by
  obtain ⟨id, name, _ | parent, methods⟩ := c
  · simp [lineage, parent?]
  · simp [lineage, parent?]

theorem mem_lineage_trans {a b c : ClassObject} (hab : a ∈ b.lineage) (hbc : b ∈ c.lineage) :
    a ∈ c.lineage := by
  match c with
  | .mk id name none methods =>
      obtain rfl := List.mem_singleton.mp hbc
      exact hab
  | .mk id name (some parent) methods =>
      rcases List.mem_cons.mp hbc with rfl | hbc
      · exact hab
      · exact List.mem_cons_of_mem _ (mem_lineage_trans hab hbc)

theorem mem_lineage_of_parent? {parent c : ClassObject} (h : c.parent? = some parent) :
    parent ∈ c.lineage :=
  mem_lineage.mpr (.inr ⟨parent, h, mem_lineage_self parent⟩)

def provider? (name : Bytes) (c : ClassObject) : Option ClassObject :=
  c.lineage.find? fun a => a.ownMethods.has name

theorem method?_eq (name : Bytes) (c : ClassObject) :
    c.method? name = (c.provider? name).bind fun owner => owner.ownMethods.get? name := by
  match c with
  | .mk id cname none methods =>
      cases hget : methods.get? name <;>
        simp [method?, provider?, lineage, ownMethods, Bindings.has, hget]
  | .mk id cname (some parent) methods =>
      have ih := method?_eq name parent
      unfold provider? at ih
      cases hget : methods.get? name <;>
        simp [method?, provider?, lineage, ownMethods, Bindings.has, hget, ih]

theorem exists_provider {name : Bytes} {c : ClassObject} {code : Closure}
    (h : c.method? name = some code) :
    ∃ owner ∈ c.lineage, c.provider? name = some owner ∧
      owner.ownMethods.get? name = some code := by
  rw [method?_eq] at h
  obtain ⟨owner, howner, hget⟩ := Option.bind_eq_some_iff.mp h
  exact ⟨owner, List.mem_of_find?_eq_some howner, howner, hget⟩

end ClassObject

namespace Machine

theorem get?_methodsIn (scope : Nat) (methods : List FunctionDecl) (name : Bytes) :
    (methodsIn scope methods).get? name =
      (methods.reverse.find? fun f => f.name.lexeme = name).map fun f =>
        { declaration := f, scope, isInitializer := f.name.lexeme == utf8 "init" } := by
  have hfold (bound : Bindings Closure) :
      (methods.foldl (fun bound f => bound.set f.name.lexeme
        { declaration := f, scope, isInitializer := f.name.lexeme == utf8 "init" })
          bound).get? name =
        ((methods.reverse.find? fun f => f.name.lexeme = name).map fun f =>
          { declaration := f, scope, isInitializer := f.name.lexeme == utf8 "init" }).or
            (bound.get? name) := by
    induction methods generalizing bound with
    | nil => simp
    | cons f rest ih =>
        rw [List.foldl_cons, ih, List.reverse_cons, List.find?_append, Option.map_or,
          Option.or_assoc, Bindings.get?_set]
        by_cases hname : f.name.lexeme = name <;> simp [hname]
  rw [methodsIn, hfold]
  simp

theorem mem_of_get?_methodsIn {scope : Nat} {methods : List FunctionDecl} {name : Bytes}
    {code : Closure} (h : (methodsIn scope methods).get? name = some code) :
    code.declaration ∈ methods ∧ code.scope = scope := by
  rw [get?_methodsIn] at h
  obtain ⟨f, hf, rfl⟩ := Option.map_eq_some_iff.mp h
  exact ⟨List.mem_reverse.mp (List.mem_of_find?_eq_some hf), rfl⟩

def methodFrom (c : ClassObject) (receiver : Value) (name : Token) : Run Value := do
  match c.method? name.lexeme with
  | some method => functionOf (← bindThis method receiver)
  | none => raise (.undefinedProperty name.lexeme) name

end Machine

/-! ## References to the object and its superclass -/

mutual

def Expr.selves : Expr → List Reference
  | .absent | .literal _ _ | .var _ => []
  | .grouping _ inner => inner.selves
  | .unary _ _ operand => operand.selves
  | .binary _ _ left right | .logical _ _ left right => left.selves ++ right.selves
  | .assign _ value => value.selves
  | .call _ callee _ arguments => callee.selves ++ Expr.selvesList arguments
  | .get _ object _ => object.selves
  | .set _ object _ value => object.selves ++ value.selves
  | .thisRef r | .superRef r _ => [r]

def Expr.selvesList : List Expr → List Reference
  | [] => []
  | e :: rest => e.selves ++ Expr.selvesList rest

end

mutual

/-- The uses in a statement and in the functions inside it, but not in classes inside it. -/
def Stmt.selves : Stmt → List Reference
  | .expression _ e | .print _ e => e.selves
  | .var _ _ none | .ret _ _ none => []
  | .var _ _ (some e) | .ret _ _ (some e) => e.selves
  | .block _ body => Stmt.selvesList body
  | .branch _ condition onTrue none => condition.selves ++ onTrue.selves
  | .branch _ condition onTrue (some onFalse) =>
      condition.selves ++ onTrue.selves ++ onFalse.selves
  | .loop _ condition body => condition.selves ++ body.selves
  | .function f => f.selves
  | .classDecl _ _ _ _ => []

def Stmt.selvesList : List Stmt → List Reference
  | [] => []
  | s :: rest => s.selves ++ Stmt.selvesList rest

def FunctionDecl.selves : FunctionDecl → List Reference
  | .mk _ _ _ body => Stmt.selvesList body

end

theorem FunctionDecl.selves_eq (f : FunctionDecl) : f.selves = Stmt.selvesList f.body := by
  cases f
  rw [FunctionDecl.selves]
  rfl

/--
What a method runs for: the object it is bound to, the class that it was found in and its
declaration.
-/
structure Home where
  receiver : Value
  owner : ClassObject
  method : FunctionDecl

/-- The home of the method that is found from some class on, when it is bound. -/
def Home.of? (receiver : Value) (c : ClassObject) (name : Bytes) : Option Home := do
  let owner ← c.provider? name
  let code ← owner.ownMethods.get? name
  return { receiver, owner, method := code.declaration }

theorem Home.exists_of? {receiver : Value} {c : ClassObject} {name : Bytes} {code : Closure}
    (h : c.method? name = some code) :
    ∃ owner ∈ c.lineage, owner.ownMethods.get? name = some code ∧
      Home.of? receiver c name = some ⟨receiver, owner, code.declaration⟩ := by
  obtain ⟨owner, hmem, hprovider, hget⟩ := ClassObject.exists_provider h
  exact ⟨owner, hmem, hget, by simp [Home.of?, hprovider, hget]⟩

end Lox
