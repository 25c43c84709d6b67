import Lox.Proofs.Calls.Evaluation

/-!
The calls of whole sessions.

Every step of a session runs one program, or nothing, and its answer is made from how that
ends.  Between two steps no call is under way.
-/

namespace Lox

namespace Session

def withLimit (limit : Nat) (s : Session) : Session :=
  { s with machine := s.machine.withLimit limit }

def Answer.Overflows (a : Answer) : Prop := ∃ e ∈ a.report.failure, e.cause = .stackOverflow

theorem Answer.overflows_iff {a : Answer} :
    a.Overflows ↔ a.report.failure.map RuntimeError.cause = some .stackOverflow :=
  Option.map_eq_some_iff.symm

end Session

theorem Fault.isOverflow_iff (cause : Fault) :
    cause.IsOverflow ↔ cause.toRuntimeError.cause = .stackOverflow := by
  cases cause <;> simp [IsOverflow, toRuntimeError]

def Report.endedBy (report : Report) : Outcome α → Report
  | .done _ _ => report
  | .fault cause _ => { report with failure := some cause.toRuntimeError }

namespace Calls

open Recorded (Traced eval execProgram)
open Session (Step Answer)

/-! ## One step -/

def conclude (resolution : Resolution.State) (report : Report)
    (value : Option α → Option Value) (globals : Scopes → List Bytes) (out : Outcome α) :
    Answer × Session :=
  ({ printed := out.machine.output
     value := value out.value?
     report := report.endedBy out
     globals := globals out.machine.scopes },
   { machine := { out.machine with printed := [] }, resolution })

/-- The answer tells what was printed and whether the limit ended the run, but not the limit. -/
structure Concludes (finish : Outcome α → Answer × Session) : Prop where
  machine : ∀ out, (finish out).2.machine = { out.machine with printed := [] }
  printed : ∀ out, (finish out).1.printed = out.machine.output
  overflow : ∀ out, (finish out).1.Overflows ↔ out.Overflows
  withLimit : ∀ limit out,
    finish (out.withLimit limit) = ((finish out).1, (finish out).2.withLimit limit)

theorem concludes (resolution : Resolution.State) {report : Report}
    (value : Option α → Option Value) (globals : Scopes → List Bytes)
    (h : report.failure = none) : Concludes (conclude resolution report value globals) where
  machine _ := rfl
  printed _ := rfl
  overflow out := by
    cases out with
    | done v m => simp [conclude, Report.endedBy, Answer.Overflows, Outcome.Overflows, h]
    | fault cause m =>
        simp [conclude, Report.endedBy, Answer.Overflows, Outcome.Overflows,
          Fault.isOverflow_iff]
  withLimit limit out := by cases out <;> rfl

/-- The step is answered by what `p` does, of which `t` keeps the log. -/
structure Conduct (s : Session) (step : Step) (t : Traced Event α) (p : Run α)
    (finish : Outcome α → Answer × Session) : Prop where
  accounted : Accounted (fun _ _ => True) t p
  concludes : Concludes finish
  plain : ∀ m : Machine, ({ s with machine := m } : Session).answer step = finish (p m)
  logged : ∀ m : Machine, answer { s with machine := m } step = (finish (t m).1, (t m).2)

theorem Conduct.answer {s : Session} {step : Step} {t : Traced Event α} {p : Run α}
    {finish : Outcome α → Answer × Session} (h : Conduct s step t p finish) :
    s.answer step = finish (p s.machine) ∧
      Calls.answer s step = (finish (p s.machine), (t s.machine).2) := by
  have hlogged := h.logged s.machine
  rw [h.accounted.run] at hlogged
  exact ⟨h.plain s.machine, hlogged⟩

theorem conduct_idle {s : Session} {step : Step} {finish : Outcome Unit → Answer × Session}
    (hfinish : Concludes finish)
    (hplain : ∀ m : Machine, ({ s with machine := m } : Session).answer step =
      finish (.done () m))
    (hlogged : ∀ m : Machine, answer { s with machine := m } step = (finish (.done () m), [])) :
    Conduct s step (pure ()) (pure ()) finish where
  accounted := .pure trivial
  concludes := hfinish
  plain := hplain
  logged := hlogged

theorem conduct_run (s : Session) (source : Bytes) :
    ∃ (t : Traced Event Unit) (p : Run Unit) (finish : _), Conduct s (.run source) t p finish := by
  have hfailure : (checkFrom s.resolution source).1.report.failure = none :=
    checkFrom_failure s.resolution source
  have hfinish := concludes (α := Unit) (checkFrom s.resolution source).2 (fun _ => none)
    (fun _ => []) hfailure
  by_cases hfailed : (checkFrom s.resolution source).1.report.failed = true
  · refine ⟨_, _, _, conduct_idle hfinish ?_ ?_⟩
    · intro m
      simp only [Session.answer, Session.run, hfailed, if_true]
      rfl
    · intro m
      simp only [answer, Recorded.answer, Recorded.run, hfailed, if_true]
      rfl
  · refine ⟨_, _, _, execProgram_accounted Machine.ample
      (checkFrom s.resolution source).1.program, hfinish, ?_, ?_⟩
    · intro m
      simp only [Session.answer, Session.run, hfailed, Machine.interpret]
      cases Machine.execProgram Machine.ample _ m <;> rfl
    · intro m
      simp only [answer, Recorded.answer, Recorded.run, hfailed]
      generalize (execProgram Machine.ample _ : Traced Event Unit) m = logged
      obtain ⟨out, log⟩ := logged
      cases out <;> rfl

theorem conduct_evaluate (s : Session) (source : Bytes) :
    ∃ (α : Type) (t : Traced Event α) (p : Run α) (finish : _),
      Conduct s (.evaluate source) t p finish := by
  have hfailure : (parseExpression source).2.failure = none := rfl
  by_cases hfailed : (parseExpression source).2.failed = true
  · have hfinish := concludes (α := Unit) s.resolution (fun _ => none) (fun _ => []) hfailure
    refine ⟨_, _, _, _, conduct_idle hfinish ?_ ?_⟩
    · intro m
      simp only [Session.answer, Session.evaluate, hfailed, if_true]
      rfl
    · intro m
      simp only [answer, Recorded.answer, Recorded.evaluate, hfailed, if_true]
      rfl
  · have hfinish := concludes (α := Value) s.resolution id (fun _ => []) hfailure
    refine ⟨_, _, _, _, ((eval_accounted Machine.ample { checked := false }
      ((parseExpression source).1.getD .absent)).imp fun _ _ _ => trivial), hfinish, ?_, ?_⟩
    · intro m
      simp only [Session.answer, Session.evaluate, hfailed, Machine.evaluate]
      cases Machine.eval Machine.ample _ m <;> rfl
    · intro m
      simp only [answer, Recorded.answer, Recorded.evaluate, hfailed]
      generalize (eval Machine.ample _ _ : Traced Event Value) m = logged
      obtain ⟨out, log⟩ := logged
      cases out <;> rfl

theorem exists_conduct (s : Session) (step : Step) :
    ∃ (α : Type) (t : Traced Event α) (p : Run α) (finish : _), Conduct s step t p finish := by
  cases step with
  | run source => exact ⟨_, conduct_run s source⟩
  | evaluate source => exact conduct_evaluate s source
  | globals =>
      have hfailure : ({} : Report).failure = none := rfl
      have hfinish := concludes (α := Unit) s.resolution (fun _ => none)
        (fun scopes => scopes.names Machine.globalScope) hfailure
      exact ⟨_, _, _, _, conduct_idle hfinish (fun _ => rfl) fun _ => rfl⟩

theorem answer_eq (s : Session) (step : Step) : (answer s step).1 = s.answer step := by
  obtain ⟨α, t, p, finish, h⟩ := exists_conduct s step
  rw [h.answer.1, h.answer.2]

theorem overflows_iff_refuses (s : Session) (step : Step) :
    (s.answer step).1.Overflows ↔ Refuses (answer s step).2 := by
  obtain ⟨α, t, p, finish, h⟩ := exists_conduct s step
  rw [h.answer.1, h.answer.2, h.concludes.overflow]
  exact h.accounted.refusal s.machine

/-! ## Between steps -/

structure Resting (limit : Nat) (s : Session) : Prop where
  depth : s.machine.depth = 0
  limit : s.machine.limit = limit

theorem resting_fresh (natives : List Native) (limit : Nat) (clock : List Int) :
    Resting limit (.fresh natives limit clock) :=
  ⟨rfl, rfl⟩

namespace Resting

variable {limit : Nat} {s : Session}

theorem answer (h : Resting limit s) (step : Step) : Resting limit (s.answer step).2 := by
  obtain ⟨α, t, p, finish, hstep⟩ := exists_conduct s step
  have honward := hstep.accounted.lenient.onward s.machine
  rw [hstep.answer.1]
  constructor
  · rw [hstep.concludes.machine]
    exact honward.depth.trans h.depth
  · rw [hstep.concludes.machine]
    exact honward.limit.trans h.limit

theorem after (h : Resting limit s) (steps : List Step) : Resting limit (s.after steps) := by
  induction steps generalizing s with
  | nil => exact h
  | cons step rest ih => exact ih (h.answer step)

theorem regular (h : Resting limit s) (step : Step) :
    Regular limit 0 (Calls.answer s step).2 := by
  obtain ⟨α, t, p, finish, hstep⟩ := exists_conduct s step
  have hregular := hstep.accounted.regular s.machine
  rw [h.depth, h.limit] at hregular
  rw [hstep.answer.2]
  exact hregular (.inr (Nat.zero_le limit))

end Resting

end Calls

end Lox
