import Lox.Toml.Value

/-!
Integers and floating-point numbers of configuration documents.

Underscores may separate digits.  A decimal number has no leading zero.  Integers
fit in 64 bits and floating-point numbers are in the range of a double.
-/

namespace Lox.Toml

/-- The digits of a numeral in which single underscores stand between digits. -/
def grouped? (isDigit : Char → Bool) : List Char → Option (List Char)
  | [] => none
  | [c] => if isDigit c then some [c] else none
  | c :: '_' :: rest => if isDigit c then (grouped? isDigit rest).map (c :: ·) else none
  | c :: rest => if isDigit c then (grouped? isDigit rest).map (c :: ·) else none

def digitValue (c : Char) : Nat := (Bytes.hexValue? c.val.toUInt8).getD 0

def isDigitOf (base : Nat) (c : Char) : Bool :=
  c.val < 128 && (Bytes.hexValue? c.val.toUInt8).any (· < base)

def ofDigits (base : Nat) (digits : List Char) : Nat :=
  digits.foldl (fun n c => base * n + digitValue c) 0

def decimal? (s : List Char) : Option (List Char) := do
  let digits ← grouped? (isDigitOf 10) s
  if digits.head? = some '0' ∧ digits.length ≠ 1 then none else some digits

def sign : List Char → Bool × List Char
  | '-' :: rest => (true, rest)
  | '+' :: rest => (false, rest)
  | s => (false, s)

def inRange? (n : Int) : Option Int :=
  if -0x8000000000000000 ≤ n ∧ n < 0x8000000000000000 then some n else none

def integer? : List Char → Option Int
  | '0' :: 'x' :: rest => do inRange? (ofDigits 16 (← grouped? (isDigitOf 16) rest))
  | '0' :: 'o' :: rest => do inRange? (ofDigits 8 (← grouped? (isDigitOf 8) rest))
  | '0' :: 'b' :: rest => do inRange? (ofDigits 2 (← grouped? (isDigitOf 2) rest))
  | s => do
      let (negative, s) := sign s
      let n : Int := ofDigits 10 (← decimal? s)
      inRange? (if negative then -n else n)

/--
The double nearest to `digits` times a power of ten, `none` beyond the largest.
Numbers that are far too large or too small are recognised by their size.
-/
def nearest? (digits : List Char) (exponent : Int) : Option Float :=
  let digits := digits.dropWhile (· = '0')
  let size := (digits.length : Int) + exponent
  if digits.isEmpty || size < -400 then some 0
  else if 400 < size then none
  else
    let x := Float.ofScientific (ofDigits 10 digits) (exponent < 0) exponent.natAbs
    if x.isInf then none else some x

def exponent? : List Char → Option Int
  | [] => some 0
  | mark :: rest => do
      let (negative, s) := sign rest
      let n : Int := ofDigits 10 (← grouped? (isDigitOf 10) s)
      if mark = 'e' ∨ mark = 'E' then some (if negative then -n else n) else none

def isGroupChar (c : Char) : Bool := c = '_' || isDigitOf 10 c

def float? (s : List Char) : Option Float := do
  let (negative, s) := sign s
  let whole ← decimal? (s.takeWhile isGroupChar)
  let (fraction, scale) ←
    match s.dropWhile isGroupChar with
    | '.' :: rest => do
        let fraction ← grouped? (isDigitOf 10) (rest.takeWhile isGroupChar)
        some (fraction, rest.dropWhile isGroupChar)
    | [] => none
    | rest => some ([], rest)
  let x ← nearest? (whole ++ fraction) ((← exponent? scale) - fraction.length)
  return if negative then -x else x

end Lox.Toml
