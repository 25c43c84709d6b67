/-!
The exact value of a double.

A double is a signed infinity, not a number, or a signed `mantissa * 2 ^ power`
with a mantissa below `2 ^ 53`.
-/

namespace Lox.Number

inductive Parts where
  | infinite (negative : Bool)
  | undefined
  | finite (negative : Bool) (mantissa : Nat) (power : Int)
  deriving DecidableEq, Repr

def leastPower : Int := -1074

def partsOfBits (bits : Nat) : Parts :=
  let negative := bits / Nat.pow 2 63 % 2 == 1
  let exponent : Nat := bits / Nat.pow 2 52 % Nat.pow 2 11
  let fraction := bits % Nat.pow 2 52
  if exponent = 2047 then
    if fraction = 0 then .infinite negative else .undefined
  else if exponent = 0 then .finite negative fraction leastPower
  else .finite negative (Nat.pow 2 52 + fraction) ((exponent : Int) - 1075)

def parts (x : Float) : Parts := partsOfBits x.toBits.toNat

/-- The whole number `mantissa * 2 ^ power`, if it is one. -/
def whole? (mantissa : Nat) (power : Int) : Option Nat :=
  match power with
  | .ofNat n => some (mantissa * Nat.pow 2 n)
  | .negSucc n =>
      let divisor := Nat.pow 2 (n + 1)
      if mantissa % divisor = 0 then some (mantissa / divisor) else none

end Lox.Number
