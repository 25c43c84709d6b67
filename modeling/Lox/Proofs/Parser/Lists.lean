import Lox.Parser.Statement

/-!
Lists with commas.

Arguments and parameters are read alike: an item, and after a comma the others, where a problem is
reported at the items that are too many.
-/

namespace Lox.Parser

def separated (item : Parse α) (more : Parse (List α)) : Parse (List α) := do
  let first ← item
  if ← accept .comma then
    let rest ← more
    return first :: rest
  else return [first]

/-- Reports a problem before the items if there are as many as there may be. -/
def counted (p : Problem) (count : Nat) (items : Parse (List α)) : Parse (List α) := do
  if argumentLimit ≤ count then report p (← peek)
  items

theorem counted_of_lt {count : Nat} (h : count < argumentLimit) (p : Problem)
    (items : Parse (List α)) : counted p count items = items :=
  if_neg (Nat.not_le.mpr h)

theorem arguments_succ (n count : Nat) :
    arguments (n + 1) count =
      counted .tooManyArguments count (separated (expression n) (arguments n (count + 1))) := rfl

theorem parameters_succ (n count : Nat) :
    parameters (n + 1) count =
      counted .tooManyParameters count
        (separated (expect .identifier "Expect parameter name.") (parameters n (count + 1))) := rfl

end Lox.Parser
