import Lox.Diagnostic
import Lox.Text.Utf8

/-!
Scanning.

A source is cut into segments: blanks, comments, tokens and faults.  The segment
that starts with a given byte is the longest one of its shape, and the texts of
all segments concatenate to the source.  Tokens and diagnostics are what the
segments say, in order; one `eof` token closes the tokens.
-/

namespace Lox

namespace Scan

/-! ## Shapes -/

inductive Shape where
  | blank
  | comment
  | token (kind : Kind)
  | fault (problem : Problem)
  deriving DecidableEq, Repr

def isWordStart (b : UInt8) : Bool :=
  b == 0x5f || (0x61 ≤ b && b ≤ 0x7a) || (0x41 ≤ b && b ≤ 0x5a)

def isWordPart (b : UInt8) : Bool := isWordStart b || Bytes.isDigit b

def isBlank (b : UInt8) : Bool := b == 0x20 || b == 0x0d || b == 0x09 || b == 0x0a

def numberParts (s : Bytes) : Bytes × Bytes :=
  let whole := s.takeWhile Bytes.isDigit
  match s.dropWhile Bytes.isDigit with
  | 0x2e :: rest => (whole, rest.takeWhile Bytes.isDigit)
  | _ => (whole, [])

/-- A point without a digit after it is left for the next token. -/
def numberLength (s : Bytes) : Nat :=
  match numberParts s with
  | (whole, []) => whole.length
  | (whole, fraction) => whole.length + 1 + fraction.length

def single? (b : UInt8) : Option Kind :=
  if b = 0x28 then some .leftParen
  else if b = 0x29 then some .rightParen
  else if b = 0x7b then some .leftBrace
  else if b = 0x7d then some .rightBrace
  else if b = 0x2c then some .comma
  else if b = 0x2e then some .dot
  else if b = 0x2d then some .minus
  else if b = 0x2b then some .plus
  else if b = 0x3b then some .semicolon
  else if b = 0x2a then some .star
  else if b = 0x2f then some .slash
  else none

/-- The tokens that an equals sign may extend: the kinds without and with it. -/
def extensible? (b : UInt8) : Option (Kind × Kind) :=
  if b = 0x21 then some (.bang, .bangEqual)
  else if b = 0x3d then some (.equal, .equalEqual)
  else if b = 0x3c then some (.less, .lessEqual)
  else if b = 0x3e then some (.greater, .greaterEqual)
  else none

/-- The shape and length of the segment that starts with `b`. -/
def munch (b : UInt8) (rest : Bytes) : Shape × Nat :=
  if Bytes.isDigit b then (.token .number, numberLength (b :: rest))
  else if isWordStart b then
    let word := b :: rest.takeWhile isWordPart
    (.token (Kind.ofWord word), word.length)
  else if isBlank b then (.blank, 1)
  else if b = 0x2f && rest.head? == some 0x2f then
    (.comment, 1 + (rest.takeWhile (· != 0x0a)).length)
  else if b = 0x22 then
    let body := rest.takeWhile (· != 0x22)
    if (rest.dropWhile (· != 0x22)).isEmpty then
      (.fault .unterminatedString, body.length + 1)
    else (.token .string, body.length + 2)
  else
    match extensible? b with
    | some (short, long) =>
        if rest.head? == some 0x3d then (.token long, 2) else (.token short, 1)
    | none =>
        match single? b with
        | some kind => (.token kind, 1)
        | none =>
            match Utf8.front? (b :: rest) with
            | some (c, width) => (.fault (.unexpectedCharacter c), width)
            | none => (.fault (.unexpectedCharacter Utf8.replacement), 1)

/-! ## Segments -/

structure Segment where
  shape : Shape
  text : Bytes
  span : Span
  deriving DecidableEq, Repr

/-- The segments after the first `skip` bytes, which belong to an earlier one. -/
def segmentsFrom : Nat → Position → Bytes → List Segment
  | _, _, [] => []
  | skip + 1, p, b :: rest => segmentsFrom skip (p.advance b) rest
  | 0, p, b :: rest =>
      let (shape, length) := munch b rest
      let text := (b :: rest).take length
      ⟨shape, text, ⟨p, p.advanceBy text⟩⟩ :: segmentsFrom (length - 1) (p.advance b) rest

def segments (source : Bytes) : List Segment := segmentsFrom 0 .first source

def literalOf (kind : Kind) (lexeme : Bytes) : Literal :=
  match kind with
  | .number =>
      let (whole, fraction) := numberParts lexeme
      .number (Number.read whole fraction)
  | .string => .text (lexeme.drop 1).dropLast
  | _ => .nil

def Segment.token? (s : Segment) : Option Token :=
  match s.shape with
  | .token kind =>
      some
        { kind, lexeme := s.text, literal := literalOf kind s.text,
          line := s.span.stop.line, span := s.span }
  | _ => none

def Segment.diagnostic? (s : Segment) : Option Diagnostic :=
  match s.shape with
  | .fault problem => some (.atSpan problem s.span)
  | _ => none

def endToken (source : Bytes) : Token :=
  let p := Position.first.advanceBy source
  { kind := .eof, line := p.line, span := ⟨p, p⟩ }

end Scan

def scan (source : Bytes) : List Token × List Diagnostic :=
  let segments := Scan.segments source
  (segments.filterMap Scan.Segment.token? ++ [Scan.endToken source],
    segments.filterMap Scan.Segment.diagnostic?)

end Lox
