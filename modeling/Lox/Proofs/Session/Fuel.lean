import Lox.Proofs.Calls.Steady
import Lox.Proofs.Session.Transcript

/-!
Sessions with any amount of fuel.

A step executes one program, one expression or nothing.  What it executes is given here for
every fuel, so that a statement about sessions need not be one about the fuel of every run;
with that fuel, steps are answered by it.
-/

namespace Lox

def Outcome.fault? : Outcome α → Option Fault
  | .done _ _ => none
  | .fault cause _ => some cause

namespace Session

open Run (bind_of_done bind_of_fault)

def task (fuel : Nat) (s : Session) : Step → Run (Option Value)
  | .run source =>
      if (checkFrom s.resolution source).1.report.failed then pure none
      else do
        Machine.execProgram fuel (checkFrom s.resolution source).1.program
        return none
  | .evaluate source =>
      if (parseExpression source).2.failed then pure none
      else do
        let v ← Machine.eval fuel ((parseExpression source).1.getD .absent)
        return some v
  | .globals => pure none

def perform (fuel : Nat) (s : Session) (step : Step) : Outcome (Option Value) :=
  s.task fuel step s.machine

def resolutionAfter (s : Session) : Step → Resolution.State
  | .run source => (checkFrom s.resolution source).2
  | .evaluate _ | .globals => s.resolution

def next (fuel : Nat) (s : Session) (step : Step) : Session where
  machine := { (s.perform fuel step).machine with printed := [] }
  resolution := s.resolutionAfter step

def afterWith (fuel : Nat) (s : Session) (steps : List Step) : Session :=
  steps.foldl (next fuel) s

@[simp] theorem afterWith_nil (fuel : Nat) (s : Session) : s.afterWith fuel [] = s := rfl

@[simp] theorem afterWith_cons (fuel : Nat) (s : Session) (step : Step) (rest : List Step) :
    s.afterWith fuel (step :: rest) = (s.next fuel step).afterWith fuel rest := rfl

/-- With the fuel of every run, a step is answered by what it performs. -/
theorem answer_eq_perform (s : Session) (step : Step) :
    (s.answer step).2 = s.next Machine.ample step ∧
      (s.answer step).1.report.failure =
        (s.perform Machine.ample step).fault?.map Fault.toRuntimeError := by
  cases step with
  | run source =>
      have hfailure := checkFrom_failure s.resolution source
      simp only [answer, Session.run, next, resolutionAfter, perform, task, Machine.interpret]
      split
      · exact ⟨rfl, hfailure⟩
      · cases hrun : Machine.execProgram Machine.ample
            (checkFrom s.resolution source).1.program s.machine with
        | done v m =>
            rw [bind_of_done hrun]
            exact ⟨rfl, hfailure⟩
        | fault cause m =>
            rw [bind_of_fault hrun]
            exact ⟨rfl, rfl⟩
  | evaluate source =>
      simp only [answer, Session.evaluate, next, resolutionAfter, perform, task,
        Machine.evaluate]
      split
      · exact ⟨rfl, rfl⟩
      · cases hrun : Machine.eval Machine.ample ((parseExpression source).1.getD .absent)
            s.machine with
        | done v m =>
            rw [bind_of_done hrun]
            exact ⟨rfl, rfl⟩
        | fault cause m =>
            rw [bind_of_fault hrun]
            exact ⟨rfl, rfl⟩
  | globals => exact ⟨rfl, rfl⟩

theorem after_eq_afterWith (s : Session) (steps : List Step) :
    s.after steps = s.afterWith Machine.ample steps := by
  induction steps generalizing s with
  | nil => rfl
  | cons step rest ih => rw [after_cons, afterWith_cons, ih, (answer_eq_perform s step).1]

end Session

end Lox
