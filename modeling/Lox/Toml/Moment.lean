import Lox.Toml.Number

/-!
Dates and times of configuration documents.

A moment is a date, a time of day or both, then possibly with an offset from
universal time.  Seconds may be left out.
-/

namespace Lox.Toml

def twoDigits? : List Char → Option (Nat × List Char)
  | a :: b :: rest =>
      if isDigitOf 10 a && isDigitOf 10 b then some (ofDigits 10 [a, b], rest) else none
  | _ => none

def expect? (c : Char) : List Char → Option (List Char)
  | d :: rest => if c = d then some rest else none
  | [] => none

def isLeapYear (year : Nat) : Bool :=
  year % 4 == 0 && (year % 100 != 0 || year % 400 == 0)

def daysIn (year month : Nat) : Nat :=
  match month with
  | 2 => if isLeapYear year then 29 else 28
  | 4 | 6 | 9 | 11 => 30
  | _ => 31

def date? (s : List Char) : Option (List Char) := do
  let (century, s) ← twoDigits? s
  let (year, s) ← twoDigits? s
  let (month, s) ← twoDigits? (← expect? '-' s)
  let (day, s) ← twoDigits? (← expect? '-' s)
  if 1 ≤ month ∧ month ≤ 12 ∧ 1 ≤ day ∧ day ≤ daysIn (100 * century + year) month then some s
  else none

def afterFraction : List Char → List Char
  | '.' :: c :: rest => if isDigitOf 10 c then rest.dropWhile (isDigitOf 10) else '.' :: c :: rest
  | s => s

def timeOfDay? (s : List Char) : Option (List Char) := do
  let (hour, s) ← twoDigits? s
  let (minute, s) ← twoDigits? (← expect? ':' s)
  if hour < 24 ∧ minute < 60 then
    match s with
    | ':' :: s => do
        let (second, s) ← twoDigits? s
        if second < 60 then some (afterFraction s) else none
    | s => some s
  else none

def isOffset : List Char → Bool
  | [] => true
  | [c] => c = 'Z' || c = 'z'
  | c :: s =>
      let offset : Option (Nat × Nat × List Char) := do
        let (hours, s) ← twoDigits? s
        let (minutes, s) ← twoDigits? (← expect? ':' s)
        return (hours, minutes, s)
      (c = '+' || c = '-') && offset.any fun (hours, minutes, rest) =>
        hours ≤ 24 && minutes ≤ 60 && rest.isEmpty

def isMoment (s : List Char) : Bool :=
  match date? s with
  | some [] => true
  | some (c :: rest) =>
      (c = 'T' || c = 't' || c = ' ') && (timeOfDay? rest).any isOffset
  | none => timeOfDay? s == some []

end Lox.Toml
