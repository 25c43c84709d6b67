import Lox.Proofs.Resolution.Soundness

/-!
Programs resolved one after the other.

A resolver that is called again goes on where the last program left it, with a list of problems
of its own.  So two calls have the outcome of one call with both programs.  As every walk
leaves all scopes, functions and classes that it enters, each call starts and ends outside
of them, and what it makes of a program depends on nothing that was resolved before.
-/

namespace Lox.Resolution

/-! ## One call for two -/

/-- The log of one call goes on with that of the next; the walk itself does not look at it. -/
theorem resolveFrom_append (s : State) (first second : List Stmt) :
    let one := resolveFrom s first
    let two := resolveFrom one.2 second
    resolveFrom s (first ++ second) =
      (⟨one.1.program ++ two.1.program, two.1.entries, one.1.diagnostics ++ two.1.diagnostics⟩,
        two.2.logAfter [] one.1.diagnostics) := by
  intro one two
  have hone : one.2 = State.logAfter { one.2 with reported := [] } [] one.1.diagnostics := by
    simp [State.logAfter, one, resolveFrom]
  have hstep := stmts_logAfter [] one.1.diagnostics { one.2 with reported := [] } second
  rw [← hone] at hstep
  change stmts (stmts { s with reported := [] } first).2 second = _ at hstep
  rw [resolveFrom, stmts_append, hstep]
  rfl

/-! ## Between calls -/

/-- Outside of everything, the log is all that is left of earlier programs. -/
theorem resolveFrom_eq_of_atTop {s : State} (h : s.AtTop) (program : List Stmt) :
    (resolveFrom s program).1 =
      ⟨(resolve program).program, s.entries ++ (resolve program).entries,
        (resolve program).diagnostics⟩ := by
  have hs : { s with reported := [] } = State.logAfter {} s.entries [] :=
    State.AtTop.eq_logAfter (s := { s with reported := [] }) h
  rw [resolveFrom, hs, stmts_logAfter]
  rfl

theorem resolve_append (first second : List Stmt) :
    (resolve (first ++ second)).program = (resolve first).program ++ (resolve second).program ∧
      (resolve (first ++ second)).diagnostics =
        (resolve first).diagnostics ++ (resolve second).diagnostics := by
  have htop : (resolveFrom {} first).2.AtTop := resolveFrom_atTop (s := {}) ⟨rfl, rfl, rfl⟩ first
  have hsecond := resolveFrom_eq_of_atTop htop second
  unfold resolve at hsecond ⊢
  rw [resolveFrom_append, hsecond]
  exact ⟨rfl, rfl⟩

def State.afterCalls (s : State) (programs : List (List Stmt)) : State :=
  programs.foldl (fun s program => (resolveFrom s program).2) s

theorem State.AtTop.afterCalls {s : State} (h : s.AtTop) (programs : List (List Stmt)) :
    (s.afterCalls programs).AtTop := by
  induction programs generalizing s with
  | nil => exact h
  | cons program rest ih => exact ih (resolveFrom_atTop h program)

/--
Two programs resolved one after the other have the table, the distances and the problems of
both resolved as one, whatever is wrong in them; after every call a new resolver has no scope
open and is in no function and no class.
-/
theorem resolve_incremental (first second : List Stmt) :
    let one := resolveFrom {} first
    let two := resolveFrom one.2 second
    let whole := resolveFrom {} (first ++ second)
    (two.1.entries = whole.1.entries ∧ two.2.entries = whole.2.entries) ∧
      one.1.program ++ two.1.program = whole.1.program ∧
      one.1.diagnostics ++ two.1.diagnostics = whole.1.diagnostics ∧
      ∀ calls : List (List Stmt),
        let s := ({} : State).afterCalls calls
        s.scopes = [] ∧ s.function = .none ∧ s.classRole = .none := by
  intro one two whole
  have hwhole : whole = _ := resolveFrom_append {} first second
  have hentries : (two.2.logAfter [] one.1.diagnostics).entries = two.2.entries := by
    simp [State.logAfter]
  rw [hwhole]
  refine ⟨⟨rfl, hentries.symm⟩, rfl, rfl, fun calls => ?_⟩
  have hfresh : ({} : State).AtTop := ⟨rfl, rfl, rfl⟩
  exact hfresh.afterCalls calls

end Lox.Resolution
