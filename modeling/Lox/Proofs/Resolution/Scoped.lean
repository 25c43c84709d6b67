import Lox.Proofs.WellFormed
import Lox.Resolution

/-!
What it means that a tree is resolved.

A context lists the names of the local scopes around a point of the text, innermost
scope first.  A tree is scoped in a context when every reference in it carries the
number of scopes to the nearest one with its name, and none if no scope has it; when
no name is declared twice in one scope; and when no name is read in its own
initializer.  In a checked program `super` stands inside a subclass only.
-/

namespace Lox

namespace Resolution

/-- The names of the scopes around a point, the innermost scope first. -/
abbrev Context := List (List Bytes)

namespace Context

def hops? (Γ : Context) (name : Bytes) : Option Nat := Γ.findIdx? fun names => names.contains name

/-- The context after a declaration; the global scope is not part of a context. -/
def declare : Context → Bytes → Context
  | [], _ => []
  | names :: outer, name => (names ++ [name]) :: outer

def initializing : Context → Bytes → Option Bytes
  | [], _ => none
  | _ :: _, name => some name

@[simp] theorem hops?_nil (name : Bytes) : hops? [] name = none := rfl

theorem hops?_cons (names : List Bytes) (Γ : Context) (name : Bytes) :
    hops? (names :: Γ) name = if name ∈ names then some 0 else (Γ.hops? name).map (· + 1) := by
  simp [hops?, List.findIdx?_cons]

@[simp] theorem declare_nil (name : Bytes) : declare [] name = [] := rfl

@[simp] theorem declare_cons (names : List Bytes) (Γ : Context) (name : Bytes) :
    declare (names :: Γ) name = (names ++ [name]) :: Γ := rfl

theorem hops?_declare_of_ne (Γ : Context) {name other : Bytes} (h : other ≠ name) :
    (Γ.declare name).hops? other = Γ.hops? other := by
  cases Γ with
  | nil => rfl
  | cons names outer => simp [hops?_cons, h]

theorem eq_of_mem_initializing {Γ : Context} {name : Bytes} :
    ∀ x ∈ Γ.initializing name, x = name := by
  cases Γ <;> simp [initializing]

end Context

structure Site where
  /-- It is part of a program that was checked. -/
  checked : Bool := true
  /-- The name whose initializer it is part of. -/
  pending : Option Bytes := none
  deriving DecidableEq, Repr

def Declarable (Γ : Context) (t : Token) : Prop :=
  t.Nameable ∧ ∀ names ∈ Γ.head?, t.lexeme ∉ names

end Resolution

open Resolution

/-! ## Expressions -/

mutual

def Expr.Scoped (Γ : Context) (site : Site) : Expr → Prop
  | .absent | .literal _ _ => True
  | .grouping _ inner => inner.Scoped Γ site
  | .unary _ _ operand => operand.Scoped Γ site
  | .binary _ _ left right | .logical _ _ left right =>
      left.Scoped Γ site ∧ right.Scoped Γ site
  | .var r => r.hops = Γ.hops? r.name.lexeme ∧ site.pending ≠ some r.name.lexeme
  | .assign target value =>
      target.hops = Γ.hops? target.name.lexeme ∧ target.name.Nameable ∧ value.Scoped Γ site
  | .call _ callee _ arguments => callee.Scoped Γ site ∧ Expr.ScopedList Γ site arguments
  | .get _ object _ => object.Scoped Γ site
  | .set _ object _ value => object.Scoped Γ site ∧ value.Scoped Γ site
  | .thisRef r => r.name.lexeme = utf8 "this" ∧ r.hops = Γ.hops? (utf8 "this")
  | .superRef r _ =>
      r.hops = Γ.hops? (utf8 "super") ∧ (site.checked = true → r.hops.isSome = true) ∧
        ∀ d ∈ r.hops, ∃ k, d = k + 1 ∧ Γ.hops? (utf8 "this") = some k

def Expr.ScopedList (Γ : Context) (site : Site) : List Expr → Prop
  | [] => True
  | e :: rest => e.Scoped Γ site ∧ Expr.ScopedList Γ site rest

end

/-! ## Statements -/

def Stmt.contextAfter (Γ : Context) (s : Stmt) : Context :=
  match s.declared? with
  | some name => Γ.declare name.lexeme
  | none => Γ

theorem Stmt.contextAfter_of_declared?_eq_none {s : Stmt} (h : s.declared? = none)
    (Γ : Context) : s.contextAfter Γ = Γ := by
  simp [Stmt.contextAfter, h]

@[simp] theorem Stmt.contextAfter_nil (s : Stmt) : s.contextAfter [] = [] := by
  unfold Stmt.contextAfter
  split <;> rfl

mutual

def Stmt.Scoped (Γ : Context) : Stmt → Prop
  | .expression _ e | .print _ e => e.Scoped Γ {}
  | .var _ name none => Declarable Γ name
  | .var _ name (some initial) =>
      Declarable Γ name ∧
        initial.Scoped (Γ.declare name.lexeme) { pending := Γ.initializing name.lexeme }
  | .block _ body => Stmt.ScopedList ([] :: Γ) body
  | .branch _ condition onTrue none =>
      condition.Scoped Γ {} ∧ onTrue.Scoped Γ ∧ onTrue.declared? = none
  | .branch _ condition onTrue (some onFalse) =>
      condition.Scoped Γ {} ∧ onTrue.Scoped Γ ∧ onTrue.declared? = none ∧
        onFalse.Scoped Γ ∧ onFalse.declared? = none
  | .loop _ condition body =>
      condition.Scoped Γ {} ∧ body.Scoped Γ ∧ body.declared? = none
  | .function f => Declarable Γ f.name ∧ f.Scoped (Γ.declare f.name.lexeme)
  | .ret _ _ none => True
  | .ret _ _ (some e) => e.Scoped Γ {}
  | .classDecl _ name none methods =>
      Declarable Γ name ∧
        FunctionDecl.ScopedList ([utf8 "this"] :: Γ.declare name.lexeme) methods
  | .classDecl _ name (some parent) methods =>
      Declarable Γ name ∧ parent.hops = Γ.hops? parent.name.lexeme ∧
        FunctionDecl.ScopedList ([utf8 "this"] :: [utf8 "super"] :: Γ.declare name.lexeme) methods

def Stmt.ScopedList (Γ : Context) : List Stmt → Prop
  | [] => True
  | s :: rest => s.Scoped Γ ∧ Stmt.ScopedList (s.contextAfter Γ) rest

/-- The parameters of a function are the first names in the scope of its body. -/
def FunctionDecl.Scoped (Γ : Context) : FunctionDecl → Prop
  | .mk _ _ ps body =>
      (∀ p ∈ ps, p.Nameable) ∧ (ps.map Token.lexeme).Nodup ∧
        Stmt.ScopedList (ps.map Token.lexeme :: Γ) body

def FunctionDecl.ScopedList (Γ : Context) : List FunctionDecl → Prop
  | [] => True
  | f :: rest => f.Scoped Γ ∧ FunctionDecl.ScopedList Γ rest

end

theorem FunctionDecl.scoped_iff (Γ : Context) (f : FunctionDecl) :
    f.Scoped Γ ↔ (∀ p ∈ f.parameters, p.Nameable) ∧ (f.parameters.map Token.lexeme).Nodup ∧
      Stmt.ScopedList (f.parameters.map Token.lexeme :: Γ) f.body := by
  cases f
  simp [FunctionDecl.Scoped, FunctionDecl.parameters, FunctionDecl.body]

theorem FunctionDecl.scoped_of_mem {Γ : Context} {methods : List FunctionDecl}
    (h : FunctionDecl.ScopedList Γ methods) : ∀ f ∈ methods, f.Scoped Γ := by
  induction methods with
  | nil => simp
  | cons first rest ih =>
      simp only [FunctionDecl.ScopedList] at h
      exact List.forall_mem_cons.mpr ⟨h.1, ih h.2⟩

/-! ## Without local scopes -/

mutual

theorem Expr.scoped_nil (e : Expr) (h : e.WellFormed) : e.Scoped [] { checked := false } := by
  cases e with
  | absent | literal => simp [Expr.Scoped]
  | grouping span inner =>
      simp only [Expr.WellFormed, Expr.Scoped] at h ⊢
      exact Expr.scoped_nil inner h
  | unary span operator operand =>
      simp only [Expr.WellFormed, Expr.Scoped] at h ⊢
      exact Expr.scoped_nil operand h
  | binary span operator left right | logical span operator left right =>
      simp only [Expr.WellFormed, Expr.Scoped] at h ⊢
      exact ⟨Expr.scoped_nil left h.1, Expr.scoped_nil right h.2⟩
  | var r => simp_all [Expr.WellFormed, Expr.Scoped]
  | assign target value =>
      simp only [Expr.WellFormed, Expr.Scoped, Context.hops?_nil] at h ⊢
      exact ⟨h.1, h.2.1, Expr.scoped_nil value h.2.2⟩
  | call span callee paren arguments =>
      simp only [Expr.WellFormed, Expr.Scoped] at h ⊢
      exact ⟨Expr.scoped_nil callee h.1, Expr.scopedList_nil arguments h.2⟩
  | get span object name =>
      simp only [Expr.WellFormed, Expr.Scoped] at h ⊢
      exact Expr.scoped_nil object h
  | set span object name value =>
      simp only [Expr.WellFormed, Expr.Scoped] at h ⊢
      exact ⟨Expr.scoped_nil object h.1, Expr.scoped_nil value h.2⟩
  | thisRef r => simp_all [Expr.WellFormed, Expr.Scoped]
  | superRef r method => simp_all [Expr.WellFormed, Expr.Scoped]

theorem Expr.scopedList_nil (es : List Expr) (h : Expr.WellFormedList es) :
    Expr.ScopedList [] { checked := false } es := by
  cases es with
  | nil => simp [Expr.ScopedList]
  | cons e rest =>
      simp only [Expr.WellFormedList, Expr.ScopedList] at h ⊢
      exact ⟨Expr.scoped_nil e h.1, Expr.scopedList_nil rest h.2⟩

end

end Lox
