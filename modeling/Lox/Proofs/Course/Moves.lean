import Lox.Proofs.Recorded.Session
import Lox.Proofs.Session.Fuel

/-!
The course that an evaluation takes.

Every change of the machine is put down as a move, with the machine before and after it and
what it is for.  So the course of a run holds all machines on the way, also of a run that
fails or that its fuel cuts short.
-/

namespace Lox.Course

open Recorded (Act Log Traced)

structure Move where
  act : Act
  before : Machine
  after : Machine

/-- The moves lead from one machine to the other, each from where the last one ended. -/
def Leads (m : Machine) : List Move → Machine → Prop
  | [], m' => m' = m
  | move :: rest, m' => move.before = m ∧ Leads move.after rest m'

instance : Log Move where
  note _ _ := []
  move act before after := [{ act, before, after }]

def perform (fuel : Nat) (s : Session) (step : Session.Step) :
    Outcome (Option Value) × List Move :=
  (Recorded.task fuel s step : Traced Move (Option Value)) s.machine

end Lox.Course
