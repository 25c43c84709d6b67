import Lox.Text.Printable
import Lox.Text.Utf8

/-!
Texts in double quotes, with everything escaped that cannot be printed.
-/

namespace Lox.Quoted

def hexDigits : (width : Nat) → Nat → Bytes
  | 0, _ => []
  | width + 1, n => Bytes.hexDigit (n / Nat.pow 16 width % 16) :: hexDigits width n

def shortEscape? (c : Char) : Option Bytes :=
  match c.toNat with
  | 0x07 => some (utf8 "\\a")
  | 0x08 => some (utf8 "\\b")
  | 0x09 => some (utf8 "\\t")
  | 0x0a => some (utf8 "\\n")
  | 0x0b => some (utf8 "\\v")
  | 0x0c => some (utf8 "\\f")
  | 0x0d => some (utf8 "\\r")
  | _ => none

def escapeByte (n : Nat) : Bytes := utf8 "\\x" ++ hexDigits 2 n

def escapeChar (c : Char) : Bytes :=
  if c = '"' || c = '\\' then 0x5c :: String.utf8EncodeChar c
  else if isPrintable c then String.utf8EncodeChar c
  else
    match shortEscape? c with
    | some s => s
    | none =>
        if c.toNat < 0x20 || c.toNat = 0x7f then escapeByte c.toNat
        else if c.toNat < 0x10000 then utf8 "\\u" ++ hexDigits 4 c.toNat
        else utf8 "\\U" ++ hexDigits 8 c.toNat

def escapePiece : Utf8.Piece → Bytes
  | .char c => escapeChar c
  | .stray b => escapeByte b.toNat

def encode (s : Bytes) : Bytes :=
  utf8 "\"" ++ (Utf8.pieces s).flatMap escapePiece ++ utf8 "\""

end Lox.Quoted
