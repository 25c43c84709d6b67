import Lox.Number.Shortest
import Lox.Text.Bytes

/-!
Number texts.

Numbers are shown in three ways: the display form of the `print` statement, the
literal form in which source numbers are echoed, and the form inside JSON.
-/

namespace Lox.Number

def zeros (n : Nat) : Bytes := List.replicate n 0x30

def signed (negative : Bool) (digits : Bytes) : Bytes :=
  if negative then 0x2d :: digits else digits

/-- Positional notation: a point only before a fraction, never an exponent. -/
def Decimal.plain (d : Decimal) : Bytes :=
  let digits := Bytes.ofNat d.coefficient
  match d.exponent with
  | .ofNat n => digits ++ zeros n
  | .negSucc n =>
      let places := n + 1
      if digits.length ≤ places then
        utf8 "0." ++ zeros (places - digits.length) ++ digits
      else
        digits.take (digits.length - places) ++ utf8 "." ++
          digits.drop (digits.length - places)

/-- The position of the decimal point, counted from the front of the digits. -/
def Decimal.magnitude (d : Decimal) : Int :=
  (Bytes.ofNat d.coefficient).length + d.exponent

/-- One digit before the point and an exponent that always carries its sign. -/
def Decimal.scientific (d : Decimal) : Bytes :=
  let digits := Bytes.ofNat d.coefficient
  let power := d.magnitude - 1
  let fraction := digits.drop 1
  digits.take 1 ++ (if fraction.isEmpty then [] else utf8 "." ++ fraction) ++ utf8 "e" ++
    (if power < 0 then Bytes.ofInt power else utf8 "+" ++ Bytes.ofInt power)

def display (x : Float) : Bytes :=
  match parts x with
  | .undefined => utf8 "NaN"
  | .infinite negative => signed negative (utf8 "Infinity")
  | .finite negative m q => signed negative (shortest m q).plain

/--
The form in which literals are echoed: a whole number in all its digits with one
zero after the point, any other number in its shortest digits.
-/
def literal (x : Float) : Bytes :=
  match parts x with
  | .undefined => utf8 "NaN"
  | .infinite negative => utf8 (if negative then "-Inf" else "+Inf")
  | .finite negative m q =>
      match whole? m q with
      | some n => signed negative (Bytes.ofNat n ++ utf8 ".0")
      | none => signed negative (shortest m q).plain

/--
The form inside JSON, which has no infinities: positional from `1e-6` up to
`1e21`, with an exponent outside.
-/
def json? (x : Float) : Option Bytes :=
  match parts x with
  | .finite negative m q =>
      let d := shortest m q
      if m = 0 || (-5 ≤ d.magnitude && d.magnitude ≤ 21) then
        some (signed negative d.plain)
      else some (signed negative d.scientific)
  | _ => none

def read (whole fraction : Bytes) : Float :=
  Float.ofScientific (Bytes.toNat (whole ++ fraction)) true fraction.length

end Lox.Number
