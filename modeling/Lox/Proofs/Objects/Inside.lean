import Lox.Proofs.Check
import Lox.Proofs.Objects.Classes
import Lox.Proofs.Resolution.Exact

/-!
In a checked program `this` and `super` stand inside classes only.

A use of either outside of all classes is a point that breaks a rule.  So where no point of a
tree breaks a rule, the tree has such uses only in its classes.
-/

namespace Lox

open Resolution

namespace Resolution

theorem class?_placeAfter (place : Place) (s : Stmt) :
    (s.placeAfter place).class? = place.class? := by
  unfold Stmt.placeAfter
  split
  · exact place.class?_declare _
  · rfl

theorem Point.violation?_located (p : Point) : p.located.violation? = p.violation? := by
  obtain ⟨place, pending, node⟩ := p
  cases node <;> rfl

def Lawful (points : List Point) : Prop := ∀ p ∈ points, p.violation? = none

theorem lawful_append {xs ys : List Point} : Lawful (xs ++ ys) ↔ Lawful xs ∧ Lawful ys :=
  List.forall_mem_append

theorem lawful_cons {p : Point} {ps : List Point} :
    Lawful (p :: ps) ↔ p.violation? = none ∧ Lawful ps :=
  List.forall_mem_cons

end Resolution

/-! ## Trees outside of classes -/

mutual

theorem Expr.selves_eq_nil (e : Expr) {place : Place} {pending : Option Bytes}
    (hclass : place.class? = none) (h : Lawful (e.points place pending)) : e.selves = [] := by
  cases e with
  | absent | literal | var => rfl
  | grouping span inner | unary span operator inner | get span inner name =>
      simp only [Expr.points] at h
      simp [Expr.selves, inner.selves_eq_nil hclass h]
  | binary span operator left right | logical span operator left right
  | set span left name right =>
      simp only [Expr.points, lawful_append] at h
      simp [Expr.selves, left.selves_eq_nil hclass h.1, right.selves_eq_nil hclass h.2]
  | assign target value =>
      simp only [Expr.points, lawful_cons] at h
      simp [Expr.selves, value.selves_eq_nil hclass h.2]
  | call span callee paren arguments =>
      simp only [Expr.points, lawful_append] at h
      simp [Expr.selves, callee.selves_eq_nil hclass h.1,
        Expr.selvesList_eq_nil arguments hclass h.2]
  | thisRef r | superRef r method =>
      simp [Expr.points, lawful_cons, Point.violation?, hclass] at h

theorem Expr.selvesList_eq_nil (es : List Expr) {place : Place} {pending : Option Bytes}
    (hclass : place.class? = none) (h : Lawful (Expr.pointsList place pending es)) :
    Expr.selvesList es = [] := by
  cases es with
  | nil => rfl
  | cons e rest =>
      simp only [Expr.pointsList, lawful_append] at h
      simp [Expr.selvesList, e.selves_eq_nil hclass h.1, Expr.selvesList_eq_nil rest hclass h.2]

end

mutual

theorem Stmt.selves_eq_nil (s : Stmt) {place : Place} (hclass : place.class? = none)
    (h : Lawful (s.points place)) : s.selves = [] := by
  cases s with
  | expression span e | print span e =>
      simp only [Stmt.points] at h
      simp [Stmt.selves, e.selves_eq_nil hclass h]
  | var span name initial =>
      simp only [Stmt.points, lawful_cons] at h
      cases initial with
      | none => rfl
      | some e =>
          rw [← place.class?_declare name.lexeme] at hclass
          simp [Stmt.selves, e.selves_eq_nil hclass h.2]
  | block span body =>
      simp only [Stmt.points] at h
      have hinner : Place.class? (.block [] :: place) = none := hclass
      simp [Stmt.selves, Stmt.selvesList_eq_nil body hinner h]
  | branch span condition onTrue onFalse =>
      cases onFalse with
      | none =>
          simp only [Stmt.points, lawful_append] at h
          simp [Stmt.selves, condition.selves_eq_nil hclass h.1, onTrue.selves_eq_nil hclass h.2]
      | some onFalse =>
          simp only [Stmt.points, lawful_append] at h
          simp [Stmt.selves, condition.selves_eq_nil hclass h.1.1,
            onTrue.selves_eq_nil hclass h.1.2, onFalse.selves_eq_nil hclass h.2]
  | loop span condition body =>
      simp only [Stmt.points, lawful_append] at h
      simp [Stmt.selves, condition.selves_eq_nil hclass h.1, body.selves_eq_nil hclass h.2]
  | function f =>
      simp only [Stmt.points, lawful_cons] at h
      rw [← place.class?_declare f.name.lexeme] at hclass
      simp [Stmt.selves, f.selves_eq_nil hclass h.2]
  | ret span keyword value =>
      simp only [Stmt.points, lawful_cons] at h
      cases value with
      | none => rfl
      | some e => simp [Stmt.selves, e.selves_eq_nil hclass h.2]
  | classDecl => rfl

theorem Stmt.selvesList_eq_nil (body : List Stmt) {place : Place}
    (hclass : place.class? = none) (h : Lawful (Stmt.pointsList place body)) :
    Stmt.selvesList body = [] := by
  cases body with
  | nil => rfl
  | cons s rest =>
      simp only [Stmt.pointsList, lawful_append] at h
      have hrest : (s.placeAfter place).class? = none := (class?_placeAfter place s).trans hclass
      simp [Stmt.selvesList, s.selves_eq_nil hclass h.1, Stmt.selvesList_eq_nil rest hrest h.2]

theorem FunctionDecl.selves_eq_nil (f : FunctionDecl) {place : Place} {initializer : Bool}
    (hclass : place.class? = none) (h : Lawful (f.points place initializer)) : f.selves = [] := by
  cases f with
  | mk span name ps body =>
      simp only [FunctionDecl.points, lawful_append] at h
      have hinner : Place.class? (.function initializer (ps.map Token.lexeme) :: place) = none :=
        hclass
      simp [FunctionDecl.selves, Stmt.selvesList_eq_nil body hinner h.2]

end

/-! ## Checked programs -/

theorem check_selves {source : Bytes} (h : (check source).report.diagnostics = []) :
    Stmt.selvesList (check source).program = [] := by
  have hclean := ((check_clean_iff source).mp h).2
  rw [check_program h]
  have hsettles := stmts_settles {} (parse source).1 mirrors_start trivial (parse_wellFormed source)
  have hlawful : Lawful (Stmt.pointsList [] (parse source).1) := by
    have hreported := hsettles.reported
    rw [show (stmts {} (parse source).1).2.reported = [] from hclean] at hreported
    exact List.filterMap_eq_nil_iff.mp hreported.nil_eq.symm
  have htop : Place.class? [] = none := rfl
  refine Stmt.selvesList_eq_nil _ htop fun p hp => ?_
  rw [show Stmt.pointsList [] (Resolution.resolve (parse source).1).program = _ from
    hsettles.located] at hp
  obtain ⟨q, hq, rfl⟩ := List.mem_map.mp hp
  rw [q.violation?_located]
  exact hlawful q hq

end Lox
