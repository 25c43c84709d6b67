import Lox.Number.Layout
import Lox.Text.Utf8

/-!
JSON values and their text.

Texts are byte sequences: a stray byte is written as the replacement character.
The characters `<`, `>`, `&`, U+2028 and U+2029 are always escaped.  Fields keep
the order in which they are given.
-/

namespace Lox

inductive Json where
  | null
  | bool (b : Bool)
  | integer (n : Int)
  | number (x : Float)
  | text (s : Bytes)
  | array (items : List Json)
  | object (fields : List (String × Json))
  deriving Inhabited

namespace Json

/-! ## Strings -/

def unicodeEscape (code : Nat) : Bytes :=
  utf8 "\\u" ++ [Bytes.hexDigit (code / 4096 % 16), Bytes.hexDigit (code / 256 % 16),
    Bytes.hexDigit (code / 16 % 16), Bytes.hexDigit (code % 16)]

def escapeChar (c : Char) : Bytes :=
  if c = '"' then utf8 "\\\""
  else if c = '\\' then utf8 "\\\\"
  else if c = '\n' then utf8 "\\n"
  else if c = '\r' then utf8 "\\r"
  else if c = '\t' then utf8 "\\t"
  else if c.toNat = 0x08 then utf8 "\\b"
  else if c.toNat = 0x0c then utf8 "\\f"
  else if c.toNat < 0x20 || c = '<' || c = '>' || c = '&' || c.toNat = 0x2028
      || c.toNat = 0x2029 then unicodeEscape c.toNat
  else String.utf8EncodeChar c

def quote (s : Bytes) : Bytes :=
  utf8 "\"" ++ (Utf8.decodeLossy s).flatMap escapeChar ++ utf8 "\""

/-! ## Text -/

def scalar : Json → Bytes
  | .bool b => utf8 (if b then "true" else "false")
  | .integer n => Bytes.ofInt n
  | .number x => (Number.json? x).getD (utf8 "null")
  | .text s => quote s
  | _ => utf8 "null"

mutual

/-- The text on one line, with `tail` after it. -/
def compactOnto (tail : Bytes) : Json → Bytes
  | .array items => 0x5b :: compactItems (0x5d :: tail) true items
  | .object fields => 0x7b :: compactFields (0x7d :: tail) true fields
  | .null => utf8 "null" ++ tail
  | .bool b => scalar (.bool b) ++ tail
  | .integer n => scalar (.integer n) ++ tail
  | .number x => scalar (.number x) ++ tail
  | .text s => scalar (.text s) ++ tail

def compactItems (tail : Bytes) (first : Bool) : List Json → Bytes
  | [] => tail
  | item :: rest =>
      (if first then [] else [0x2c]) ++ compactOnto (compactItems tail false rest) item

def compactFields (tail : Bytes) (first : Bool) : List (String × Json) → Bytes
  | [] => tail
  | (key, value) :: rest =>
      (if first then [] else [0x2c]) ++ quote (utf8 key) ++ 0x3a ::
        compactOnto (compactFields tail false rest) value

end

def compact (j : Json) : Bytes := compactOnto [] j

def newline (depth : Nat) : Bytes := 0x0a :: List.replicate (2 * depth) 0x20

mutual

def indentOnto (tail : Bytes) (depth : Nat) : Json → Bytes
  | .array [] => utf8 "[]" ++ tail
  | .array (item :: rest) =>
      0x5b :: newline (depth + 1) ++
        indentOnto (indentItems (newline depth ++ 0x5d :: tail) (depth + 1) rest) (depth + 1) item
  | .object [] => utf8 "\x7b\x7d" ++ tail
  | .object ((key, value) :: rest) =>
      0x7b :: newline (depth + 1) ++ quote (utf8 key) ++ utf8 ": " ++
        indentOnto (indentFields (newline depth ++ 0x7d :: tail) (depth + 1) rest) (depth + 1) value
  | .null => utf8 "null" ++ tail
  | .bool b => scalar (.bool b) ++ tail
  | .integer n => scalar (.integer n) ++ tail
  | .number x => scalar (.number x) ++ tail
  | .text s => scalar (.text s) ++ tail

def indentItems (tail : Bytes) (depth : Nat) : List Json → Bytes
  | [] => tail
  | item :: rest => 0x2c :: newline depth ++ indentOnto (indentItems tail depth rest) depth item

def indentFields (tail : Bytes) (depth : Nat) : List (String × Json) → Bytes
  | [] => tail
  | (key, value) :: rest =>
      0x2c :: newline depth ++ quote (utf8 key) ++ utf8 ": " ++
        indentOnto (indentFields tail depth rest) depth value

end

def indented (j : Json) : Bytes := indentOnto [] 0 j

/-! ## Numbers without a text -/

mutual

/-- The first number inside that JSON cannot write. -/
def unwritable? : Json → Option Float
  | .number x => if (Number.json? x).isSome then none else some x
  | .array items => unwritableItem? items
  | .object fields => unwritableField? fields
  | _ => none

def unwritableItem? : List Json → Option Float
  | [] => none
  | item :: rest => (unwritable? item).or (unwritableItem? rest)

def unwritableField? : List (String × Json) → Option Float
  | [] => none
  | (_, value) :: rest => (unwritable? value).or (unwritableField? rest)

end

def unwritableMessage (x : Float) : Bytes :=
  utf8 "json: unsupported value: " ++ Number.literal x

/-- One of the two texts of a value, unless it holds a number without a text. -/
def encode (layout : Json → Bytes) (j : Json) : Except Bytes Bytes :=
  match j.unwritable? with
  | some x => .error (unwritableMessage x)
  | none => .ok (layout j)

end Json

end Lox
