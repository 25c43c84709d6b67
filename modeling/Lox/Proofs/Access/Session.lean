import Lox.Proofs.Access.Real

/-!
The accesses of whole sessions.

Between two steps, whatever their outcome was, the machine is in the global scope and all
that it keeps corresponds to locations.  So every step starts like the first one.
-/

namespace Lox.Access

open Lexical (World State Related Ends)
open Recorded (Traced eval execProgram run evaluate)
open Session (Step)

def answer (s : Session) (step : Step) : (Session.Answer × Session) × List Visit :=
  Recorded.answer s step

/-- Between steps: outside all scopes, with a state that corresponds to locations. -/
structure Grounded (s : Session) : Prop where
  related : ∃ w t, Related w s.machine t
  current : s.machine.current = 0
  atTop : s.resolution.AtTop

theorem grounded_fresh (natives : List Native) (limit : Nat) (clock : List Int) :
    Grounded (.fresh natives limit clock) :=
  ⟨⟨_, _, Lexical.related_start natives limit clock⟩, rfl, rfl, rfl, rfl⟩

theorem related_of_ends {i : Nat} {w : World} {R : World → α → β → Prop} {out : Outcome α}
    {out' : Lexical.Outcome β} (h : Ends (fun _ => False) i w R out out') :
    (∃ w t, Related w out.machine t) ∧ out.machine.current = i := by
  cases h with
  | done hw h hi hv => exact ⟨⟨_, _, h⟩, hi⟩
  | fault hw h hi => exact ⟨⟨_, _, h⟩, hi⟩

theorem Grounded.takeOutput {s : Session} (h : Grounded s) : Grounded s.takeOutput.2 := by
  obtain ⟨⟨w, t, hrel⟩, hcurrent, htop⟩ := h
  refine ⟨⟨w, { t with machine := { t.machine with printed := [] } }, ?_⟩, hcurrent, htop⟩
  exact { hrel with printed := rfl }

/-! ## One step -/

theorem Grounded.run {s : Session} (h : Grounded s) (source : Bytes) :
    (run s source : _ × List Visit).1 = s.run source ∧
      (∀ v : Visit, v ∈ (run s source).2 → v.Real) ∧
      Grounded (s.run source).2 := by
  obtain ⟨⟨w, t, hrel⟩, hcurrent, htop⟩ := h
  have htop' := checkFrom_atTop htop source
  by_cases hfailed : (checkFrom s.resolution source).1.report.failed = true
  · simp only [Recorded.run, Session.run, hfailed, if_true]
    exact ⟨trivial, by simp, ⟨w, t, hrel⟩, hcurrent, htop'⟩
  · have hclean := checkFrom_failed_eq_false_iff.mp (Bool.eq_false_iff.mpr hfailed)
    have hscoped := (checkFrom_scoped htop hclean).1
    obtain ⟨hrun, hreal⟩ := execProgram_watched Machine.ample _ hscoped _ _ hrel hcurrent
    have hends := related_of_ends (Lexical.execProgram_sim Machine.ample _ hscoped _ _ hrel
      hcurrent (fun _ hF => hF.elim))
    rw [← hrun] at hends
    simp only [Recorded.run, Session.run, hfailed, Machine.interpret, ← hrun, Traced.run]
    simp only [Traced.run] at hends
    generalize (execProgram Machine.ample _ : Traced Visit Unit) s.machine = traced
      at hreal hends ⊢
    obtain ⟨out, visits⟩ := traced
    cases out <;> exact ⟨rfl, hreal, hends.1, hends.2, htop'⟩

theorem Grounded.evaluate {s : Session} (h : Grounded s) (source : Bytes) :
    (evaluate s source : _ × List Visit).1 = s.evaluate source ∧
      (∀ v : Visit, v ∈ (evaluate s source).2 → v.Real) ∧
      Grounded (s.evaluate source).2.2 := by
  obtain ⟨⟨w, t, hrel⟩, hcurrent, htop⟩ := h
  by_cases hfailed : (parseExpression source).2.failed = true
  · simp only [Recorded.evaluate, Session.evaluate, hfailed, if_true]
    exact ⟨trivial, by simp, ⟨w, t, hrel⟩, hcurrent, htop⟩
  · have hwf : ((parseExpression source).1.getD .absent).WellFormed := by
      cases he : (parseExpression source).1 with
      | none => simp [Expr.WellFormed]
      | some e => exact parseExpression_wellFormed source e he
    have hscoped := Expr.scoped_nil _ hwf
    have hwatched : Watched 0 w (eval Machine.ample { checked := false } _)
        (Machine.eval Machine.ample _) := eval_watched _ _ (.top w) hscoped (.refl _)
    obtain ⟨hrun, hreal⟩ := hwatched _ _ hrel hcurrent
    have hends := related_of_ends (Lexical.eval_sim Machine.ample _ (.top w) hscoped _ _ hrel
      hcurrent (fun _ hF => hF.elim))
    rw [← hrun] at hends
    simp only [Recorded.evaluate, Session.evaluate, hfailed, Machine.evaluate, ← hrun, Traced.run]
    simp only [Traced.run] at hends
    generalize (eval Machine.ample _ _ : Traced Visit Value) s.machine = traced
      at hreal hends ⊢
    obtain ⟨out, visits⟩ := traced
    cases out <;> exact ⟨rfl, hreal, hends.1, hends.2, htop⟩

theorem Grounded.answer {s : Session} (h : Grounded s) (step : Step) :
    (answer s step).1 = s.answer step ∧ (∀ v ∈ (answer s step).2, v.Real) ∧
      Grounded (s.answer step).2 := by
  cases step with
  | run source =>
      obtain ⟨hrun, hreal, hnext⟩ := h.run source
      simp only [Access.answer, Recorded.answer, Session.answer, hrun]
      exact ⟨trivial, hreal, hnext.takeOutput⟩
  | evaluate source =>
      obtain ⟨hrun, hreal, hnext⟩ := h.evaluate source
      simp only [Access.answer, Recorded.answer, Session.answer, hrun]
      exact ⟨trivial, hreal, hnext.takeOutput⟩
  | globals => exact ⟨rfl, by simp [Access.answer, Recorded.answer], h.takeOutput⟩

/-! ## All steps -/

theorem Grounded.after {s : Session} (h : Grounded s) (steps : List Step) :
    Grounded (s.after steps) := by
  induction steps generalizing s with
  | nil => exact h
  | cons step rest ih => exact ih (h.answer step).2.2

/--
Whatever was run and evaluated before, a step is answered as its traced run says, and
every use of a name by its distance on the way finds the name there.
-/
theorem every_access_real (natives : List Native) (limit : Nat) (clock : List Int)
    (earlier : List Step) (step : Step) :
    let s := (Session.fresh natives limit clock).after earlier
    (answer s step).1 = s.answer step ∧ ∀ v ∈ (answer s step).2, v.Real := by
  have h := ((grounded_fresh natives limit clock).after earlier).answer step
  exact ⟨h.1, h.2.1⟩

/-- An overridden method that calls the one it overrides, and an assignment in an initializer. -/
example :
    (answer (.fresh Machine.standardNatives 0 []) (.run (utf8
      "class A \x7b f() \x7b return this; \x7d \x7d
       class B < A \x7b f() \x7b var a = a = super.f(); return a; \x7d \x7d
       B().f();"))).2.length = 6 := by decide +kernel

end Lox.Access
