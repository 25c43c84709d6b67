import Lox.Text.Bytes

/-!
What commands write and how they end.
-/

namespace Lox.Command

structure Output where
  out : Bytes := []
  err : Bytes := []
  deriving DecidableEq, Repr

namespace Output

def append (a b : Output) : Output := ⟨a.out ++ b.out, a.err ++ b.err⟩

instance : Append Output := ⟨append⟩

end Output

structure Completion where
  exit : Nat
  output : Output := {}
  deriving DecidableEq, Repr

def misuse : Nat := 1

def refuse (err : Bytes) : Completion := { exit := misuse, output := { err } }

end Lox.Command
