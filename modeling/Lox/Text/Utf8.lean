import Lox.Text.Bytes

/-!
Characters inside byte sequences.

A sequence of bytes is read as well-formed UTF-8 characters and, wherever no
character starts, single stray bytes.  Overlong forms, surrogates and values
above `0x10FFFF` are not characters.
-/

namespace Lox.Utf8

/--
The scalar value `code`, written in `width` bytes, unless it is no scalar value
or is below `least`, so that fewer bytes would do.
-/
def scalar? (code width least : Nat) : Option (Char × Nat) :=
  if least ≤ code ∧ code.isValidChar then some (Char.ofNat code, width) else none

def payload? (b : UInt8) : Option Nat :=
  if 0x80 ≤ b && b < 0xC0 then some (b.toNat - 0x80) else none

/-- The character at the front of the bytes and the number of bytes it takes. -/
def front? : Bytes → Option (Char × Nat)
  | [] => none
  | a :: rest =>
      if a < 0x80 then scalar? a.toNat 1 0
      else if a < 0xC0 then none
      else if a < 0xE0 then
        match rest with
        | b :: _ => do
            let x ← payload? b
            scalar? ((a.toNat - 0xC0) * 64 + x) 2 0x80
        | _ => none
      else if a < 0xF0 then
        match rest with
        | b :: c :: _ => do
            let x ← payload? b
            let y ← payload? c
            scalar? (((a.toNat - 0xE0) * 64 + x) * 64 + y) 3 0x800
        | _ => none
      else if a < 0xF8 then
        match rest with
        | b :: c :: d :: _ => do
            let x ← payload? b
            let y ← payload? c
            let z ← payload? d
            scalar? ((((a.toNat - 0xF0) * 64 + x) * 64 + y) * 64 + z) 4 0x10000
        | _ => none
      else none

inductive Piece where
  | char (c : Char)
  | stray (b : UInt8)
  deriving DecidableEq, Repr

/-- The pieces after the first `skip` bytes. -/
def piecesFrom : Nat → Bytes → List Piece
  | _, [] => []
  | skip + 1, _ :: rest => piecesFrom skip rest
  | 0, a :: rest =>
      match front? (a :: rest) with
      | some (c, width) => .char c :: piecesFrom (width - 1) rest
      | none => .stray a :: piecesFrom 0 rest

def pieces (s : Bytes) : List Piece := piecesFrom 0 s

def replacement : Char := Char.ofNat 0xFFFD

def Piece.shown : Piece → Char
  | .char c => c
  | .stray _ => replacement

def Piece.char? : Piece → Option Char
  | .char c => some c
  | .stray _ => none

def encode (chars : List Char) : Bytes := chars.flatMap String.utf8EncodeChar

def decode? (s : Bytes) : Option (List Char) := (pieces s).mapM Piece.char?

/-- The characters of the bytes, each stray byte shown as the replacement. -/
def decodeLossy (s : Bytes) : List Char := (pieces s).map Piece.shown

def isValid (s : Bytes) : Bool := (decode? s).isSome

end Lox.Utf8
