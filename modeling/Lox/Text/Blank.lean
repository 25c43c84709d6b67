import Lox.Text.Utf8

/-!
White space around a text.
-/

namespace Lox

/-- The characters with the Unicode property `White_Space`. -/
def isBlank (c : Char) : Bool :=
  let n := c.toNat
  (0x09 ≤ n && n ≤ 0x0d) || n == 0x20 || n == 0x85 || n == 0xa0 || n == 0x1680
    || (0x2000 ≤ n && n ≤ 0x200a) || n == 0x2028 || n == 0x2029 || n == 0x202f
    || n == 0x205f || n == 0x3000

namespace Utf8.Piece

def isBlank : Piece → Bool
  | .char c => Lox.isBlank c
  | .stray _ => false

def bytes : Piece → Bytes
  | .char c => String.utf8EncodeChar c
  | .stray b => [b]

end Utf8.Piece

namespace Bytes

def trim (s : Bytes) : Bytes :=
  let front := (Utf8.pieces s).dropWhile Utf8.Piece.isBlank
  let kept := (front.reverse.dropWhile Utf8.Piece.isBlank).reverse
  kept.flatMap Utf8.Piece.bytes

end Bytes

end Lox
