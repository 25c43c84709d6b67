import Lox.Toml.Number

/-!
Strings of configuration documents.

Between double quotes a backslash starts an escape; between apostrophes every
character stands for itself.  Three quotes enclose a text of several lines, of which
a line break at the start is dropped.
-/

namespace Lox.Toml

def isSpace (c : Char) : Bool := c = ' ' || c = '\t'

def isNewline (c : Char) : Bool := c = '\n' || c = '\r'

def codePoint? (width : Nat) (s : List Char) : Option (Char × List Char) :=
  let digits := s.take width
  let code := ofDigits 16 digits
  if digits.length = width ∧ digits.all (isDigitOf 16) ∧ code.isValidChar then
    some (Char.ofNat code, s.drop width)
  else none

def escape? : List Char → Option (Char × List Char)
  | 'b' :: rest => some ('\x08', rest)
  | 't' :: rest => some ('\t', rest)
  | 'n' :: rest => some ('\n', rest)
  | 'f' :: rest => some ('\x0c', rest)
  | 'r' :: rest => some ('\r', rest)
  | 'e' :: rest => some ('\x1b', rest)
  | '\x22' :: rest => some ('\x22', rest)
  | '\\' :: rest => some ('\\', rest)
  | 'x' :: rest => codePoint? 2 rest
  | 'u' :: rest => codePoint? 4 rest
  | 'U' :: rest => codePoint? 8 rest
  | _ => none

def basic? : Nat → List Char → Option (List Char × List Char)
  | 0, _ => none
  | _ + 1, [] => none
  | _ + 1, '\x22' :: rest => some ([], rest)
  | fuel + 1, '\\' :: rest => do
      let (c, rest) ← escape? rest
      let (text, rest) ← basic? fuel rest
      return (c :: text, rest)
  | fuel + 1, c :: rest => do
      if isNewline c then none
      else
        let (text, rest) ← basic? fuel rest
        return (c :: text, rest)

def plain? (s : List Char) : Option (List Char × List Char) :=
  let inside (c : Char) : Bool := c ≠ '\x27' && !isNewline c
  match s.dropWhile inside with
  | '\x27' :: rest => some (s.takeWhile inside, rest)
  | _ => none

/--
What a run of quotes means inside a text that three of them end: fewer belong to the
text, as do a few in front of the last three.
-/
inductive Run where
  | inside
  | ending (extra : Nat)
  | tooLong

/-- Two quotes may stand in front of the last three, and three after a backslash. -/
def Run.ofLength (afterBackslash : Bool) (n : Nat) : Run :=
  if n < 3 then .inside
  else if n ≤ (if afterBackslash then 6 else 5) then .ending (n - 3)
  else .tooLong

/--
The text up to three quotes of the given kind, and the rest after them.  With
`escapes`, a backslash starts an escape, and one at the end of a line joins the line
with the next text.  `afterBackslash` tells that a backslash, itself escaped, stands
in front.
-/
def block? (mark : Char) (escapes : Bool) :
    Nat → (afterBackslash : Bool) → List Char → Option (List Char × List Char)
  | 0, _, _ => none
  | _ + 1, _, [] => none
  | fuel + 1, afterBackslash, c :: rest =>
      if c = mark then
        let more := rest.takeWhile (· = mark)
        let after := rest.dropWhile (· = mark)
        match Run.ofLength afterBackslash (1 + more.length) with
        | .inside => do
            let (text, rest) ← block? mark escapes fuel false after
            return (c :: more ++ text, rest)
        | .ending extra => some (List.replicate extra mark, after)
        | .tooLong => none
      else if escapes && c = '\\' then
        let gap := rest.takeWhile fun c => isSpace c || isNewline c
        if '\n' ∈ gap then block? mark escapes fuel false (rest.drop gap.length)
        else do
          let escaped := rest.head? == some '\\'
          let (c, rest) ← escape? rest
          let (text, rest) ← block? mark escapes fuel escaped rest
          return (c :: text, rest)
      else do
        let (text, rest) ← block? mark escapes fuel false rest
        return (c :: text, rest)

def dropNewline : List Char → List Char
  | '\n' :: rest => rest
  | '\r' :: '\n' :: rest => rest
  | s => s

end Lox.Toml
