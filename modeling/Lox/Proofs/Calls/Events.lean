import Lox.Proofs.Recorded.Session

/-!
The log of calls and statements.

Every statement, every `return` that has its value and every call is put down.  What
happens in the body of a function stands inside the event of its call, so the log is a
tree and the activations of functions are its inner nodes.
-/

namespace Lox.Calls

open Recorded (Log)

inductive Event where
  /-- A statement starts, also when it then fails. -/
  | statement (s : Stmt)
  /-- A `return` has its value. -/
  | returned (v : Value)
  /-- A call that runs no function body. -/
  | passed (callee : Value) (arguments : List Value)
  /-- A call that the limit does not let run its body. -/
  | refused (callee : Value) (arguments : List Value)
  /-- A call that runs a function body; `answer` is missing if that fails. -/
  | activation (callee : Value) (arguments : List Value) (inside : List Event)
      (answer : Option Value)

/-- The call of the value with these arguments runs the body of a function. -/
def Activates (callee : Value) (arguments : List Value) : Prop :=
  match callee with
  | .function _ code => arguments.length = code.arity
  | .classObject c => c.initializer?.isSome ∧ arguments.length = c.arity
  | _ => False

namespace Event

def call? : Event → Option (Value × List Value)
  | .statement _ | .returned _ => none
  | .passed callee arguments | .refused callee arguments => some (callee, arguments)
  | .activation callee arguments _ _ => some (callee, arguments)

def IsRefusal : Event → Prop
  | .refused _ _ => True
  | _ => False

def IsActivation : Event → Prop
  | .activation _ _ _ _ => True
  | _ => False

def IsReturn : Event → Prop
  | .statement (.ret _ _ _) | .returned _ => True
  | _ => False

end Event

/-- The event is in the log, inside that many activations. -/
inductive Occurs : Nat → Event → List Event → Prop where
  | here {e : Event} {log : List Event} (h : e ∈ log) : Occurs 0 e log
  | inside {active : Nat} {e : Event} {log inside : List Event} {callee : Value}
      {arguments : List Value} {answer : Option Value}
      (h : .activation callee arguments inside answer ∈ log)
      (deeper : Occurs active e inside) : Occurs (active + 1) e log

/-! ## The log of a run -/

instance : Log Event where
  note
    | .statement s, _ => [.statement s]
    | .returned v, _ => [.returned v]
    | .passed callee arguments, _ => [.passed callee arguments]
    | .refused callee arguments, _ => [.refused callee arguments]
    | _, _ => []
  activation callee arguments inside answer := [.activation callee arguments inside answer]

instance : Log.Discreet Event where
  move _ _ _ := rfl
  birth note _ h := by
    cases note with
    | declared | created | made => rfl
    | _ => exact h.elim

def answer (s : Session) (step : Session.Step) : (Session.Answer × Session) × List Event :=
  Recorded.answer s step

end Lox.Calls
