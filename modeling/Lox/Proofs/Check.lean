import Lox.Proofs.Parser.WellFormed
import Lox.Proofs.Resolution.Soundness

/-!
Checked programs.

A source is refused exactly if something was reported, because every problem is an
error.  Where nothing was reported the program is scoped, and in all cases the resolver
is back outside all scopes.
-/

namespace Lox

namespace Resolution

/-! ## Every problem is an error -/

def State.ErrorsOnly (s : State) : Prop := ∀ d ∈ s.reported, d.severity = .error

namespace State.ErrorsOnly

variable {s : State}

theorem report (h : s.ErrorsOnly) (p : Problem) (t : Token) : (s.report p t).ErrorsOnly := by
  intro d hd
  rcases List.mem_append.mp hd with hd | hd
  · exact h d hd
  · obtain rfl := List.mem_singleton.mp hd
    rfl

theorem reportIf (h : s.ErrorsOnly) (c : Prop) [Decidable c] (p : Problem) (t : Token) :
    (if c then s.report p t else s).ErrorsOnly := by
  split
  · exact h.report p t
  · exact h

theorem declare (h : s.ErrorsOnly) (name : Token) : (s.declare name).ErrorsOnly := by
  unfold State.declare
  split
  · exact h
  · rename_i frame outer _
    by_cases hhas : frame.has name.lexeme = true
    · simp only [hhas, if_true]
      exact h.report .redeclared name
    · simp only [hhas]
      exact h

theorem define (h : s.ErrorsOnly) (name : Token) : (s.define name).ErrorsOnly := by
  unfold ErrorsOnly
  rw [define_reported]
  exact h

theorem resolve (h : s.ErrorsOnly) (kind : ReferenceKind) (key name : Bytes) (r : Reference) :
    (s.resolve kind key name r).2.ErrorsOnly := by
  unfold ErrorsOnly
  rw [resolve_reported]
  exact h

theorem use (h : s.ErrorsOnly) (r : Reference) : (s.use r).2.ErrorsOnly := by
  exact (h.reportIf _ .selfInitializer r.name).resolve _ _ _ _

theorem beforeReturn (h : s.ErrorsOnly) (keyword : Token) (value : Option Expr) :
    (s.beforeReturn keyword value).ErrorsOnly := by
  exact (h.reportIf (s.function = .none) .topLevelReturn keyword).reportIf _ _ keyword

theorem parameters (h : s.ErrorsOnly) (ps : List Token) :
    (Resolution.parameters s ps).ErrorsOnly := by
  unfold Resolution.parameters
  induction ps generalizing s with
  | nil => exact h
  | cons p rest ih => exact ih ((h.declare p).define p)

theorem superclass (h : s.ErrorsOnly) (name : Token) (r : Reference) :
    (Resolution.superclass s name r).2.ErrorsOnly := by
  unfold Resolution.superclass
  refine use ?_ r
  exact h.reportIf (r.name.lexeme = name.lexeme) .selfInherit r.name

end State.ErrorsOnly

mutual

theorem expr_errorsOnly (s : State) (e : Expr) (h : s.ErrorsOnly) :
    (expr s e).2.ErrorsOnly := by
  cases e with
  | absent | literal => exact h
  | grouping span inner => exact expr_errorsOnly s inner h
  | unary span operator operand => exact expr_errorsOnly s operand h
  | binary span operator left right | logical span operator left right =>
      exact expr_errorsOnly _ right (expr_errorsOnly s left h)
  | var r => exact h.use r
  | assign target value => exact (expr_errorsOnly s value h).resolve _ _ _ _
  | call span callee paren arguments =>
      exact exprs_errorsOnly _ arguments (expr_errorsOnly s callee h)
  | get span object name => exact expr_errorsOnly s object h
  | set span object name value =>
      exact expr_errorsOnly _ object (expr_errorsOnly s value h)
  | thisRef r =>
      rw [expr_thisRef]
      split
      · exact h.report _ _
      · exact h.resolve _ _ _ _
  | superRef r method =>
      rw [expr_superRef]
      split
      · exact h.report _ _
      · exact h.report _ _
      · exact h.resolve _ _ _ _

theorem exprs_errorsOnly (s : State) (es : List Expr) (h : s.ErrorsOnly) :
    (exprs s es).2.ErrorsOnly := by
  cases es with
  | nil => exact h
  | cons e rest => exact exprs_errorsOnly _ rest (expr_errorsOnly s e h)

end

theorem expr?_errorsOnly (s : State) (e : Option Expr) (h : s.ErrorsOnly) :
    (expr? s e).2.ErrorsOnly := by
  cases e with
  | none => exact h
  | some e => exact expr_errorsOnly s e h

mutual

theorem stmt_errorsOnly (s : State) (st : Stmt) (h : s.ErrorsOnly) :
    (stmt s st).2.ErrorsOnly := by
  cases st with
  | expression span e | print span e => exact expr_errorsOnly s e h
  | var span name initial => exact (expr?_errorsOnly _ initial (h.declare name)).define name
  | block span body => exact stmts_errorsOnly s.openScope body h
  | branch span condition onTrue onFalse =>
      have hTrue := stmt_errorsOnly _ onTrue (expr_errorsOnly s condition h)
      cases onFalse with
      | none => exact hTrue
      | some onFalse => exact stmt_errorsOnly _ onFalse hTrue
  | loop span condition body => exact stmt_errorsOnly _ body (expr_errorsOnly s condition h)
  | function f => exact function_errorsOnly _ .function f ((h.declare f.name).define f.name)
  | ret span keyword value => exact expr?_errorsOnly _ value (h.beforeReturn keyword value)
  | classDecl span name parent methods =>
      have hclass : (s.inClass name).ErrorsOnly :=
        (State.ErrorsOnly.declare (s := { s with classRole := .plain }) h name).define name
      cases parent with
      | none =>
          exact functions_errorsOnly ((s.inClass name).openWith [(utf8 "this", true)]) methods
            hclass
      | some parent =>
          exact functions_errorsOnly (((superclass (s.inClass name) name parent).2.openWith
            [(utf8 "super", true)]).openWith [(utf8 "this", true)]) methods
            (hclass.superclass name parent)

theorem stmts_errorsOnly (s : State) (body : List Stmt) (h : s.ErrorsOnly) :
    (stmts s body).2.ErrorsOnly := by
  cases body with
  | nil => exact h
  | cons st rest => exact stmts_errorsOnly _ rest (stmt_errorsOnly s st h)

theorem function_errorsOnly (s : State) (role : FunctionRole) (f : FunctionDecl)
    (h : s.ErrorsOnly) : (function s role f).2.ErrorsOnly := by
  cases f with
  | mk span name ps body =>
      exact stmts_errorsOnly (s.inFunction role ps) body
        (State.ErrorsOnly.parameters (s := ({ s with function := role } : State).openScope) h ps)

theorem functions_errorsOnly (s : State) (methods : List FunctionDecl) (h : s.ErrorsOnly) :
    (functions s methods).2.ErrorsOnly := by
  cases methods with
  | nil => exact h
  | cons f rest => exact functions_errorsOnly _ rest (function_errorsOnly s _ f h)

end

theorem resolveFrom_errorsOnly (s : State) (program : List Stmt) :
    ∀ d ∈ (resolveFrom s program).1.diagnostics, d.severity = .error :=
  stmts_errorsOnly { s with reported := [] } program (by simp [State.ErrorsOnly])

end Resolution

/-! ## Checking -/

open Resolution (State)

variable {s : State} {source : Bytes}

theorem checkFrom_eq_of_parse_clean (h : (parse source).2.diagnostics = []) :
    checkFrom s source =
      (⟨(Resolution.resolveFrom s (parse source).1).1.program,
          some (Resolution.resolveFrom s (parse source).1).1.entries,
          { diagnostics := (Resolution.resolveFrom s (parse source).1).1.diagnostics }⟩,
        (Resolution.resolveFrom s (parse source).1).2) := by
  have hfailed := (parse_failed_eq_false_iff source).mpr h
  unfold checkFrom
  simp only [hfailed, h]
  simp
  rfl

theorem checkFrom_eq_of_parse_failed (h : (parse source).2.diagnostics ≠ []) :
    checkFrom s source = (⟨(parse source).1, none, (parse source).2⟩, s) := by
  have hfailed : (parse source).2.failed = true := by
    rw [← Bool.not_eq_false]
    exact fun hf => h ((parse_failed_eq_false_iff source).mp hf)
  unfold checkFrom
  simp only [hfailed, if_true]

/-- A source is refused exactly if something was reported. -/
theorem checkFrom_failed_eq_false_iff :
    (checkFrom s source).1.report.failed = false ↔
      (checkFrom s source).1.report.diagnostics = [] := by
  by_cases h : (parse source).2.diagnostics = []
  · rw [checkFrom_eq_of_parse_clean h]
    simp [Report.failed, Report.rejected,
      Diagnostic.hasErrors_eq_false_iff (Resolution.resolveFrom_errorsOnly s _)]
  · rw [checkFrom_eq_of_parse_failed h]
    exact parse_failed_eq_false_iff source

theorem checkFrom_reported (s : State) (source : Bytes) :
    ∀ d ∈ (checkFrom s source).1.report.diagnostics, d.severity = .error := by
  by_cases h : (parse source).2.diagnostics = []
  · rw [checkFrom_eq_of_parse_clean h]
    exact Resolution.resolveFrom_errorsOnly s _
  · rw [checkFrom_eq_of_parse_failed h]
    exact parse_reported source

theorem checkFrom_failure (s : State) (source : Bytes) :
    (checkFrom s source).1.report.failure = none := by
  unfold checkFrom
  dsimp only
  split <;> rfl

theorem checkFrom_atTop (h : s.AtTop) (source : Bytes) : (checkFrom s source).2.AtTop := by
  by_cases hparse : (parse source).2.diagnostics = []
  · rw [checkFrom_eq_of_parse_clean hparse]
    exact Resolution.resolveFrom_atTop h _
  · rw [checkFrom_eq_of_parse_failed hparse]
    exact h

/-- A program without problems is scoped, and it is the one that was read but for its distances. -/
theorem checkFrom_scoped (h : s.AtTop)
    (hclean : (checkFrom s source).1.report.diagnostics = []) :
    Stmt.ScopedList [] (checkFrom s source).1.program ∧
      Stmt.relabelList .unresolve (checkFrom s source).1.program = (parse source).1 := by
  by_cases hparse : (parse source).2.diagnostics = []
  · rw [checkFrom_eq_of_parse_clean hparse] at hclean ⊢
    exact Resolution.resolveFrom_scoped h (parse_wellFormed source) hclean
  · rw [checkFrom_eq_of_parse_failed hparse] at hclean
    exact absurd hclean hparse

theorem check_clean_iff (source : Bytes) :
    (check source).report.diagnostics = [] ↔
      (parse source).2.diagnostics = [] ∧
        (Resolution.resolve (parse source).1).diagnostics = [] := by
  by_cases hparse : (parse source).2.diagnostics = []
  · unfold check
    rw [checkFrom_eq_of_parse_clean hparse]
    simp [hparse, Resolution.resolve]
  · unfold check
    rw [checkFrom_eq_of_parse_failed hparse]
    simp [hparse]

theorem check_program {source : Bytes} (h : (check source).report.diagnostics = []) :
    (check source).program = (Resolution.resolve (parse source).1).program := by
  unfold check
  rw [checkFrom_eq_of_parse_clean ((check_clean_iff source).mp h).1]
  rfl

end Lox
