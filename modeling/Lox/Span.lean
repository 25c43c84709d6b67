import Lox.Text.Bytes

/-!
Positions and ranges in source text.

Offsets count bytes from zero, lines and columns count from one.  Positions are
64-bit words: a length wraps around like the difference of two words.
-/

namespace Lox

structure Position where
  offset : Int := 0
  line : Int := 0
  column : Int := 0
  deriving DecidableEq, Repr, Inhabited

namespace Position

def first : Position := ⟨0, 1, 1⟩

def advance (p : Position) (b : UInt8) : Position :=
  if b = 0x0a then ⟨p.offset + 1, p.line + 1, 1⟩
  else ⟨p.offset + 1, p.line, p.column + 1⟩

def advanceBy (p : Position) (s : Bytes) : Position := s.foldl advance p

def text (p : Position) : Bytes :=
  Bytes.ofInt p.line ++ utf8 ":" ++ Bytes.ofInt p.column

end Position

/-- The half-open range from `start` to `stop`. -/
structure Span where
  start : Position := {}
  stop : Position := {}
  deriving DecidableEq, Repr, Inhabited

namespace Span

/-- The number of bytes covered, as a 64-bit word. -/
def length (s : Span) : Int := (s.stop.offset - s.start.offset).bmod (Nat.pow 2 64)

/-- The smallest range covering both; `a` gives the ends that agree in offset. -/
def join (a b : Span) : Span where
  start := if b.start.offset < a.start.offset then b.start else a.start
  stop := if a.stop.offset < b.stop.offset then b.stop else a.stop

def text (s : Span) : Bytes := s.start.text ++ utf8 ".." ++ s.stop.text

end Span

end Lox
