import Lox.Proofs.Relabelling

/-!
Trees as they are read from a source.

References carry no distance yet, `this` is spelled as such, no declared name is one
of the words `this` and `super`, and the parts of `if` and `while` are statements
that declare nothing.
-/

namespace Lox

/-- Neither `this` nor `super`. -/
def Token.Nameable (t : Token) : Prop := t.lexeme ≠ utf8 "this" ∧ t.lexeme ≠ utf8 "super"

def Stmt.declared? : Stmt → Option Token
  | .var _ name _ => some name
  | .function f => some f.name
  | .classDecl _ name _ _ => some name
  | _ => none

mutual

def Expr.WellFormed : Expr → Prop
  | .absent | .literal _ _ => True
  | .grouping _ inner => inner.WellFormed
  | .unary _ _ operand => operand.WellFormed
  | .binary _ _ left right | .logical _ _ left right => left.WellFormed ∧ right.WellFormed
  | .var r => r.hops = none ∧ r.name.Nameable
  | .assign target value => target.hops = none ∧ target.name.Nameable ∧ value.WellFormed
  | .call _ callee _ arguments => callee.WellFormed ∧ Expr.WellFormedList arguments
  | .get _ object _ => object.WellFormed
  | .set _ object _ value => object.WellFormed ∧ value.WellFormed
  | .thisRef r => r.hops = none ∧ r.name.lexeme = utf8 "this"
  | .superRef r _ => r.hops = none

def Expr.WellFormedList : List Expr → Prop
  | [] => True
  | e :: rest => e.WellFormed ∧ Expr.WellFormedList rest

end

mutual

def Stmt.WellFormed : Stmt → Prop
  | .expression _ e | .print _ e => e.WellFormed
  | .var _ name initial => name.Nameable ∧ ∀ e ∈ initial, e.WellFormed
  | .block _ body => Stmt.WellFormedList body
  | .branch _ condition onTrue none =>
      condition.WellFormed ∧ onTrue.WellFormed ∧ onTrue.declared? = none
  | .branch _ condition onTrue (some onFalse) =>
      condition.WellFormed ∧ onTrue.WellFormed ∧ onTrue.declared? = none ∧
        onFalse.WellFormed ∧ onFalse.declared? = none
  | .loop _ condition body => condition.WellFormed ∧ body.WellFormed ∧ body.declared? = none
  | .function f => f.name.Nameable ∧ f.WellFormed
  | .ret _ _ value => ∀ e ∈ value, e.WellFormed
  | .classDecl _ name superclass methods =>
      name.Nameable ∧ (∀ r ∈ superclass, r.hops = none ∧ r.name.Nameable) ∧
        FunctionDecl.WellFormedList methods

def Stmt.WellFormedList : List Stmt → Prop
  | [] => True
  | s :: rest => s.WellFormed ∧ Stmt.WellFormedList rest

def FunctionDecl.WellFormed : FunctionDecl → Prop
  | .mk _ _ ps body => (∀ p ∈ ps, p.Nameable) ∧ Stmt.WellFormedList body

def FunctionDecl.WellFormedList : List FunctionDecl → Prop
  | [] => True
  | f :: rest => f.WellFormed ∧ FunctionDecl.WellFormedList rest

end

theorem Expr.WellFormedList.of_forall {es : List Expr} (h : ∀ e ∈ es, e.WellFormed) :
    Expr.WellFormedList es := by
  induction es with
  | nil => simp [Expr.WellFormedList]
  | cons e rest ih =>
      rw [List.forall_mem_cons] at h
      simpa [Expr.WellFormedList] using ⟨h.1, ih h.2⟩

/-! ## Nothing to forget -/

theorem Reference.relabel_unresolve {r : Reference} (h : r.hops = none) :
    r.relabel .unresolve = r := by
  cases r
  simp_all [Reference.relabel, Relabelling.unresolve]

mutual

theorem Expr.relabel_unresolve (e : Expr) (h : e.WellFormed) : e.relabel .unresolve = e := by
  cases e with
  | absent => rfl
  | literal span value => rfl
  | grouping span inner =>
      simp only [Expr.WellFormed] at h
      rw [Expr.relabel, Expr.relabel_unresolve inner h]
      rfl
  | unary span operator operand =>
      simp only [Expr.WellFormed] at h
      rw [Expr.relabel, Expr.relabel_unresolve operand h]
      rfl
  | binary span operator left right | logical span operator left right =>
      simp only [Expr.WellFormed] at h
      rw [Expr.relabel, Expr.relabel_unresolve left h.1, Expr.relabel_unresolve right h.2]
      rfl
  | var r | thisRef r =>
      simp only [Expr.WellFormed] at h
      rw [Expr.relabel, Reference.relabel_unresolve h.1]
  | superRef r method =>
      simp only [Expr.WellFormed] at h
      rw [Expr.relabel, Reference.relabel_unresolve h]
      rfl
  | assign target value =>
      simp only [Expr.WellFormed] at h
      rw [Expr.relabel, Reference.relabel_unresolve h.1, Expr.relabel_unresolve value h.2.2]
  | call span callee paren arguments =>
      simp only [Expr.WellFormed] at h
      rw [Expr.relabel, Expr.relabel_unresolve callee h.1,
        Expr.relabelList_unresolve arguments h.2]
      rfl
  | get span object name =>
      simp only [Expr.WellFormed] at h
      rw [Expr.relabel, Expr.relabel_unresolve object h]
      rfl
  | set span object name value =>
      simp only [Expr.WellFormed] at h
      rw [Expr.relabel, Expr.relabel_unresolve object h.1, Expr.relabel_unresolve value h.2]
      rfl

theorem Expr.relabelList_unresolve (es : List Expr) (h : Expr.WellFormedList es) :
    Expr.relabelList .unresolve es = es := by
  cases es with
  | nil => rfl
  | cons e rest =>
      simp only [Expr.WellFormedList] at h
      rw [Expr.relabelList, Expr.relabel_unresolve e h.1, Expr.relabelList_unresolve rest h.2]

end

theorem Expr.map_relabel_unresolve (e : Option Expr) (h : ∀ x ∈ e, x.WellFormed) :
    e.map (fun x => x.relabel .unresolve) = e := by
  cases e with
  | none => rfl
  | some e => simp [Expr.relabel_unresolve e (h e rfl)]

mutual

theorem Stmt.relabel_unresolve (s : Stmt) (h : s.WellFormed) : s.relabel .unresolve = s := by
  cases s with
  | expression span e | print span e =>
      simp only [Stmt.WellFormed] at h
      rw [Stmt.relabel, Expr.relabel_unresolve e h]
      rfl
  | var span name initial =>
      simp only [Stmt.WellFormed] at h
      rw [Stmt.relabel, Expr.map_relabel_unresolve initial h.2]
      rfl
  | block span body =>
      simp only [Stmt.WellFormed] at h
      rw [Stmt.relabel, Stmt.relabelList_unresolve body h]
      rfl
  | branch span condition onTrue onFalse =>
      cases onFalse with
      | none =>
          simp only [Stmt.WellFormed] at h
          rw [Stmt.relabel, Expr.relabel_unresolve condition h.1,
            Stmt.relabel_unresolve onTrue h.2.1]
          rfl
      | some onFalse =>
          simp only [Stmt.WellFormed] at h
          rw [Stmt.relabel, Expr.relabel_unresolve condition h.1,
            Stmt.relabel_unresolve onTrue h.2.1, Stmt.relabel_unresolve onFalse h.2.2.2.1]
          rfl
  | loop span condition body =>
      simp only [Stmt.WellFormed] at h
      rw [Stmt.relabel, Expr.relabel_unresolve condition h.1, Stmt.relabel_unresolve body h.2.1]
      rfl
  | function f =>
      simp only [Stmt.WellFormed] at h
      rw [Stmt.relabel, FunctionDecl.relabel_unresolve f h.2]
  | ret span keyword value =>
      simp only [Stmt.WellFormed] at h
      rw [Stmt.relabel, Expr.map_relabel_unresolve value h]
      rfl
  | classDecl span name superclass methods =>
      simp only [Stmt.WellFormed] at h
      obtain ⟨-, hParent, hMethods⟩ := h
      have hSuperclass : superclass.map (fun r => r.relabel .unresolve) = superclass := by
        cases superclass with
        | none => rfl
        | some r => simp [Reference.relabel_unresolve (hParent r rfl).1]
      rw [Stmt.relabel, hSuperclass, FunctionDecl.relabelList_unresolve methods hMethods]
      rfl

theorem Stmt.relabelList_unresolve (body : List Stmt) (h : Stmt.WellFormedList body) :
    Stmt.relabelList .unresolve body = body := by
  cases body with
  | nil => rfl
  | cons s rest =>
      simp only [Stmt.WellFormedList] at h
      rw [Stmt.relabelList, Stmt.relabel_unresolve s h.1, Stmt.relabelList_unresolve rest h.2]

theorem FunctionDecl.relabel_unresolve (f : FunctionDecl) (h : f.WellFormed) :
    f.relabel .unresolve = f := by
  cases f with
  | mk span name ps body =>
      simp only [FunctionDecl.WellFormed] at h
      rw [FunctionDecl.relabel, Stmt.relabelList_unresolve body h.2]
      simp [Relabelling.unresolve]

theorem FunctionDecl.relabelList_unresolve (methods : List FunctionDecl)
    (h : FunctionDecl.WellFormedList methods) :
    FunctionDecl.relabelList .unresolve methods = methods := by
  cases methods with
  | nil => rfl
  | cons f rest =>
      simp only [FunctionDecl.WellFormedList] at h
      rw [FunctionDecl.relabelList, FunctionDecl.relabel_unresolve f h.1,
        FunctionDecl.relabelList_unresolve rest h.2]

end

end Lox
