import Lox.Number.Parts

/-!
The fewest decimal digits that still name a double.

Every real number in a certain interval around `mantissa * 2 ^ power` rounds to
it; the ends belong to the interval when the mantissa is even.  The shortest
decimal is taken on the coarsest decimal grid that has a point in the interval,
and of two such points the nearer is taken.
-/

namespace Lox.Number

/-- The decimal `coefficient * 10 ^ exponent`. -/
structure Decimal where
  coefficient : Nat
  exponent : Int
  deriving DecidableEq, Repr

def digitCount (n : Nat) : Nat := (Nat.toDigits 10 n).length

def powerOfTen : Int → Nat × Nat
  | .ofNat n => (Nat.pow 10 n, 1)
  | .negSucc n => (1, Nat.pow 10 (n + 1))

/--
A positive value with the interval that rounds to it, as whole multiples of a
common unit `1 / denominator`.
-/
structure Interval where
  low : Nat
  value : Nat
  high : Nat
  denominator : Nat
  closed : Bool
  deriving DecidableEq, Repr

namespace Interval

/--
In quarters of the last place the interval reaches from two below to two above.
Below a power of two the neighbour is only half as far away, so there it reaches
from one below.
-/
def around (mantissa : Nat) (power : Int) : Interval :=
  let below := if mantissa = Nat.pow 2 52 ∧ leastPower < power then 1 else 2
  let (scale, denominator) :=
    match power - 2 with
    | .ofNat n => (Nat.pow 2 n, 1)
    | .negSucc n => (1, Nat.pow 2 (n + 1))
  { low := (4 * mantissa - below) * scale
    value := 4 * mantissa * scale
    high := (4 * mantissa + 2) * scale
    denominator
    closed := mantissa % 2 == 0 }

/-- The `k` with `10 ^ (k - 1) ≤ value < 10 ^ k`. -/
def magnitude (i : Interval) : Int :=
  if i.denominator ≤ i.value then digitCount (i.value / i.denominator)
  else 1 - digitCount ((i.denominator - 1) / i.value)

def holds (i : Interval) (point unit : Nat) : Bool :=
  let low := i.low * unit
  let high := i.high * unit
  if i.closed then low ≤ point && point ≤ high else low < point && point < high

/-- The best point on the grid of multiples of `10 ^ exponent`, if one is inside. -/
def onGrid? (i : Interval) (exponent : Int) : Option Decimal :=
  let (top, bottom) := powerOfTen exponent
  let unit := top * i.denominator
  let down := i.value * bottom / unit
  let up := down + 1
  let downInside := i.holds (down * unit) bottom
  let upInside := i.holds (up * unit) bottom
  let below := i.value * bottom - down * unit
  let above := up * unit - i.value * bottom
  if downInside && upInside then
    if below < above || (below == above && down % 2 == 0) then some ⟨down, exponent⟩
    else some ⟨up, exponent⟩
  else if downInside then some ⟨down, exponent⟩
  else if upInside then some ⟨up, exponent⟩
  else none

/-- Tries `digits`, `digits + 1`, … significant digits, `tries` times. -/
def firstOnGrid (i : Interval) (magnitude : Int) : (tries digits : Nat) → Decimal
  | 0, _ => ⟨0, 0⟩
  | tries + 1, digits =>
      match i.onGrid? (magnitude - digits) with
      | some d => d
      | none => firstOnGrid i magnitude tries (digits + 1)

end Interval

def Decimal.trim (d : Decimal) : Decimal :=
  go (digitCount d.coefficient) d
where
  go : Nat → Decimal → Decimal
    | 0, d => d
    | fuel + 1, d =>
        if d.coefficient ≠ 0 ∧ d.coefficient % 10 = 0 then
          go fuel ⟨d.coefficient / 10, d.exponent + 1⟩
        else d

/-- The shortest decimal of `mantissa * 2 ^ power`; zero has the coefficient zero. -/
def shortest (mantissa : Nat) (power : Int) : Decimal :=
  if mantissa = 0 then ⟨0, 0⟩
  else
    let i := Interval.around mantissa power
    (i.firstOnGrid i.magnitude 17 1).trim

end Lox.Number
