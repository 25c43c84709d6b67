import Lox.Text.Utf8
import Lox.Toml.Draft
import Lox.Toml.Moment
import Lox.Toml.Quoted

/-!
Reading configuration documents.

A document is well-formed UTF-8 without control characters; a carriage return
stands only before a newline.  Every line holds one table header or one field.
-/

namespace Lox.Toml

/-! ## Gaps -/

def skipSpace (s : List Char) : List Char := s.dropWhile isSpace

def skipToLineEnd (s : List Char) : List Char := s.dropWhile fun c => !isNewline c

def skipGap : Nat → List Char → List Char
  | 0, s => s
  | fuel + 1, s =>
      match s.dropWhile fun c => isSpace c || isNewline c with
      | '#' :: rest => skipGap fuel (skipToLineEnd rest)
      | s => s

def skipGaps (s : List Char) : List Char := skipGap (s.length + 1) s

def lineEnd? (s : List Char) : Option (List Char) :=
  match skipSpace s with
  | [] => some []
  | c :: rest =>
      if c = '#' then some (skipToLineEnd rest) else if isNewline c then some rest else none

/-! ## Keys -/

def isBareKeyChar (c : Char) : Bool := c.isAlphanum || c = '_' || c = '-'

def part? : List Char → Option (Bytes × List Char)
  | '\x22' :: rest => do
      let (name, rest) ← basic? (rest.length + 1) rest
      return (Utf8.encode name, rest)
  | '\x27' :: rest => do
      let (name, rest) ← plain? rest
      return (Utf8.encode name, rest)
  | s =>
      let name := s.takeWhile isBareKeyChar
      if name.isEmpty then none else some (Utf8.encode name, s.dropWhile isBareKeyChar)

def key? : Nat → List Char → Option (Key × List Char)
  | 0, _ => none
  | fuel + 1, s => do
      let (part, rest) ← part? (skipSpace s)
      match skipSpace rest with
      | '.' :: rest => do
          let (parts, rest) ← key? fuel rest
          return (part :: parts, rest)
      | rest => some ([part], rest)

/-! ## Values -/

def isWordChar (c : Char) : Bool :=
  c.isAlphanum || c = '_' || c = '+' || c = '-' || c = '.' || c = ':'

def word? (w : List Char) : Option Scalar :=
  match String.ofList w with
  | "true" => some (.bool true)
  | "false" => some (.bool false)
  | "inf" | "+inf" => some (.float (1 / 0))
  | "-inf" => some (.float (-1 / 0))
  | "nan" | "+nan" | "-nan" => some (.float (0 / 0))
  | _ =>
      match integer? w with
      | some n => some (.integer n)
      | none =>
          match float? w with
          | some x => some (.float x)
          | none => if isMoment w then some (.moment (Utf8.encode w)) else none

/-- The word at the front; a space may divide a date from a time of day. -/
def splitWord (s : List Char) : List Char × List Char :=
  let word := s.takeWhile isWordChar
  match s.dropWhile isWordChar with
  | ' ' :: c :: rest =>
      if isDigitOf 10 c && (date? word == some []) then
        (word ++ ' ' :: (c :: rest).takeWhile isWordChar, (c :: rest).dropWhile isWordChar)
      else (word, ' ' :: c :: rest)
  | rest => (word, rest)

def ofText (read : Option (List Char × List Char)) : Option (Scalar × List Char) := do
  let (text, rest) ← read
  return (.text (Utf8.encode text), rest)

def scalar? : List Char → Option (Scalar × List Char)
  | '\x22' :: '\x22' :: '\x22' :: rest =>
      ofText (block? '\x22' true (rest.length + 1) false (dropNewline rest))
  | '\x27' :: '\x27' :: '\x27' :: rest =>
      ofText (block? '\x27' false (rest.length + 1) false (dropNewline rest))
  | '\x22' :: rest => ofText (basic? (rest.length + 1) rest)
  | '\x27' :: rest => ofText (plain? rest)
  | s => do
      let (word, rest) := splitWord s
      return (← word? word, rest)

mutual

def literal? : Nat → List Char → Option (Literal × List Char)
  | 0, _ => none
  | fuel + 1, s =>
      match skipSpace s with
      | '[' :: rest => do
          let (items, rest) ← items? fuel rest
          return (.array items, rest)
      | '\x7b' :: rest => do
          let (fields, rest) ← fields? fuel rest
          return (.record fields, rest)
      | s => do
          let (v, rest) ← scalar? s
          return (.scalar v, rest)

def items? : Nat → List Char → Option (List Literal × List Char)
  | 0, _ => none
  | fuel + 1, s =>
      match skipGaps s with
      | ']' :: rest => some ([], rest)
      | s => do
          let (item, rest) ← literal? fuel s
          match skipGaps rest with
          | ',' :: rest => do
              let (items, rest) ← items? fuel rest
              return (item :: items, rest)
          | ']' :: rest => some ([item], rest)
          | _ => none

def fields? : Nat → List Char → Option (List (Key × Literal) × List Char)
  | 0, _ => none
  | fuel + 1, s =>
      match skipGaps s with
      | '\x7d' :: rest => some ([], rest)
      | s => do
          let (key, rest) ← key? fuel s
          let (value, rest) ← literal? fuel (← expect? '=' rest)
          match skipGaps rest with
          | ',' :: rest => do
              let (fields, rest) ← fields? fuel rest
              return ((key, value) :: fields, rest)
          | '\x7d' :: rest => some ([(key, value)], rest)
          | _ => none

end

/-! ## Documents -/

def line? (fuel : Nat) : List Char → Option (Line × List Char)
  | '[' :: '[' :: rest => do
      let (key, rest) ← key? fuel rest
      return (.element key, ← expect? ']' (← expect? ']' rest))
  | '[' :: rest => do
      let (key, rest) ← key? fuel rest
      return (.table key, ← expect? ']' rest)
  | s => do
      let (key, rest) ← key? fuel s
      let (value, rest) ← literal? fuel (← expect? '=' rest)
      return (.field key value, rest)

def lines? : Nat → List Char → Option (List Line)
  | 0, _ => none
  | fuel + 1, s =>
      match skipGaps s with
      | [] => some []
      | s => do
          let (line, rest) ← line? (fuel + 1) s
          return line :: (← lines? fuel (← lineEnd? rest))

/-- Control characters are refused, other than those that end or indent lines. -/
def isClean : List Char → Bool
  | [] => true
  | '\r' :: '\n' :: rest => isClean rest
  | c :: rest => (c = '\t' || c = '\n' || (0x20 ≤ c.toNat && c.toNat ≠ 0x7f)) && isClean rest

def withoutMark : Bytes → Bytes
  | 0xff :: 0xfe :: rest => rest
  | 0xfe :: 0xff :: rest => rest
  | 0xef :: 0xbb :: 0xbf :: rest => rest
  | s => s

def read? (document : Bytes) : Option Fields := do
  let text ← Utf8.decode? (withoutMark document)
  if isClean text then assemble? (← lines? (text.length + 2) text) else none

end Lox.Toml
