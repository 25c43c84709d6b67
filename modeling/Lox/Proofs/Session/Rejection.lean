import Lox.Proofs.Session.Transcript

/-!
A rejected entry leaves no trace.

A source with a problem is not run, however far the resolver walked through it before it
was refused.
-/

namespace Lox.Session

theorem exitCode_of_failed {r : Report} (h : r.failed = true) (hfailure : r.failure = none) :
    r.exitCode = 65 := by
  simp_all [Report.failed, Report.exitCode]

theorem Ready.answer_of_rejected {s : Session} (h : s.Ready) {step : Step}
    (hrejected : (s.answer step).1.report.diagnostics ≠ []) :
    (s.answer step).1.printed = [] ∧ (s.answer step).1.value = none ∧
      (s.answer step).1.report.failure = none ∧ (s.answer step).1.report.exitCode = 65 ∧
      (s.answer step).2.machine = s.machine := by
  have hquiet : s.machine.takeOutput = ([], s.machine) := by
    have hprinted := h.printed
    cases hm : s.machine
    simp_all [Machine.takeOutput, Machine.output, Bytes.lines]
  cases step with
  | run source =>
      by_cases hclean : (checkFrom s.resolution source).1.report.diagnostics = []
      · refine absurd ?_ hrejected
        have hfailed := checkFrom_failed_eq_false_iff.mpr hclean
        simp only [Session.answer, run, hfailed]
        simp only [Bool.false_eq_true, if_false]
        split <;> exact hclean
      · have hfailed : (checkFrom s.resolution source).1.report.failed = true := by
          rw [← Bool.not_eq_false, checkFrom_failed_eq_false_iff]
          exact hclean
        have hfailure : (checkFrom s.resolution source).1.report.failure = none :=
          checkFrom_failure s.resolution source
        simp [Session.answer, run, hfailed, takeOutput, hquiet, hfailure,
          exitCode_of_failed hfailed hfailure]
  | evaluate source =>
      by_cases hclean : (parseExpression source).2.diagnostics = []
      · refine absurd ?_ hrejected
        have hfailed := (parseExpression_failed_eq_false_iff source).mpr hclean
        simp only [Session.answer, evaluate, hfailed]
        simp only [Bool.false_eq_true, if_false]
        split <;> exact hclean
      · have hfailed : (parseExpression source).2.failed = true := by
          rw [← Bool.not_eq_false, parseExpression_failed_eq_false_iff]
          exact hclean
        have hfailure : (parseExpression source).2.failure = none := rfl
        simp [Session.answer, evaluate, hfailed, takeOutput, hquiet, hfailure,
          exitCode_of_failed hfailed hfailure]
  | globals => exact absurd rfl hrejected

/-- Without a step that leaves the machine as it was, all others are answered as with it. -/
theorem Ready.answers_eraseIdx {s : Session} (h : s.Ready) {steps : List Step} {k : Nat}
    {answer : Answer} (hanswer : (s.answers steps)[k]? = some answer)
    (hrejected : answer.report.diagnostics ≠ []) :
    answer.printed = [] ∧ answer.value = none ∧ answer.report.failure = none ∧
      answer.report.exitCode = 65 ∧
      (s.after (steps.take (k + 1))).machine = (s.after (steps.take k)).machine ∧
      s.answers (steps.eraseIdx k) = (s.answers steps).eraseIdx k := by
  induction steps generalizing s k with
  | nil => simp [answers] at hanswer
  | cons step rest ih =>
      cases k with
      | zero =>
          obtain rfl : (s.answer step).1 = answer := by simpa [answers] using hanswer
          obtain ⟨hprinted, hvalue, hfailure, hcode, hmachine⟩ := h.answer_of_rejected hrejected
          refine ⟨hprinted, hvalue, hfailure, hcode, hmachine, ?_⟩
          exact (Like.mk hmachine (h.answer step) h).answers rest |>.symm
      | succ k =>
          obtain ⟨hprinted, hvalue, hfailure, hcode, hmachine, hothers⟩ :=
            ih (h.answer step) (by simpa [answers] using hanswer)
          exact ⟨hprinted, hvalue, hfailure, hcode, hmachine, congrArg (List.cons _) hothers⟩

/--
A step whose answer has diagnostics prints nothing and executes nothing, and without it
every other step of the session is answered as with it.
-/
theorem rejected_leaves_no_trace (natives : List Native) (limit : Nat) (clock : List Int)
    (steps : List Step) (k : Nat) (answer : Answer)
    (hanswer : ((fresh natives limit clock).answers steps)[k]? = some answer)
    (hrejected : answer.report.diagnostics ≠ []) :
    answer.printed = [] ∧ answer.value = none ∧ answer.report.failure = none ∧
      answer.report.exitCode = 65 ∧
      ((fresh natives limit clock).after (steps.take (k + 1))).machine =
        ((fresh natives limit clock).after (steps.take k)).machine ∧
      (fresh natives limit clock).answers (steps.eraseIdx k) =
        ((fresh natives limit clock).answers steps).eraseIdx k :=
  (ready_fresh natives limit clock).answers_eraseIdx hanswer hrejected

/-- A function declared twice in one scope, between a declaration and its use. -/
def interruptedSteps : List Step :=
  [.run (utf8 "var a = \"kept\";"),
   .run (utf8 "print \"lost\"; \x7b fun f() \x7b return this; \x7d var f; \x7d"),
   .run (utf8 "print a;")]

def interruption : Answer :=
  (((fresh Machine.standardNatives 0 []).after (interruptedSteps.take 1)).answer
    (.run (utf8 "print \"lost\"; \x7b fun f() \x7b return this; \x7d var f; \x7d"))).1

theorem rejected_leaves_no_trace_redeclaration :
    interruption.report.diagnostics ≠ [] ∧ interruption.printed = [] ∧
      (fresh Machine.standardNatives 0 []).answers (interruptedSteps.eraseIdx 1) =
        ((fresh Machine.standardNatives 0 []).answers interruptedSteps).eraseIdx 1 := by
  have hrejected : interruption.report.diagnostics ≠ [] := by decide +kernel
  have h := rejected_leaves_no_trace Machine.standardNatives 0 [] interruptedSteps 1
    interruption rfl hrejected
  exact ⟨hrejected, h.1, h.2.2.2.2.2⟩

end Lox.Session
