import Lox.Diagnostic
import Lox.Json

/-!
Ranges and diagnostics as editors see them: lines and characters count from zero
in 32-bit words, and characters are bytes.
-/

namespace Lox.Editor

def serverName : Bytes := utf8 "lox-lsp"

structure Location where
  line : Nat
  character : Nat
  deriving DecidableEq, Repr

structure Range where
  start : Location
  stop : Location
  deriving DecidableEq, Repr

/-- A number counted from one, as a 64-bit word, counted from zero instead. -/
def fromZero (n : Int) : Nat := ((n - 1).bmod (Nat.pow 2 64)).toNat % Nat.pow 2 32

def Location.ofPosition (p : Position) : Location := ⟨fromZero p.line, fromZero p.column⟩

def Range.ofSpan (s : Span) : Range := ⟨.ofPosition s.start, .ofPosition s.stop⟩

def Location.json (l : Location) : Json :=
  .object [("line", .integer l.line), ("character", .integer l.character)]

def Range.json (r : Range) : Json :=
  .object [("start", r.start.json), ("end", r.stop.json)]

/-- A diagnostic in an editor; `severity` is one for an error and two for a warning. -/
structure Notice where
  range : Range
  severity : Nat
  code : Bytes
  message : Bytes
  deriving DecidableEq, Repr

def Notice.ofDiagnostic (d : Diagnostic) : Notice where
  range := .ofSpan d.span
  severity := if d.severity = .warning then 2 else 1
  code := d.code
  message := d.message

def Notice.json (n : Notice) : Json :=
  .object [("range", n.range.json), ("severity", .integer n.severity), ("code", .text n.code),
    ("source", .text serverName), ("message", .text n.message)]

end Lox.Editor
