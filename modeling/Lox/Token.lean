import Lox.Number.Layout
import Lox.Span
import Lox.Token.Kind

/-!
Tokens and the literal values they carry.
-/

namespace Lox

/-- The value of a literal; `nil` also stands for the absence of one. -/
inductive Literal where
  | nil
  | bool (b : Bool)
  | number (x : Float)
  | text (s : Bytes)
  deriving DecidableEq, Repr, Inhabited

namespace Literal

def boolText (b : Bool) : Bytes := utf8 (if b then "true" else "false")

def textWith (absent : String) : Literal → Bytes
  | .nil => utf8 absent
  | .bool b => boolText b
  | .number x => Number.literal x
  | .text s => s

def echoed (l : Literal) : Bytes := l.textWith "null"

def printed (l : Literal) : Bytes := l.textWith "nil"

end Literal

/-- `line` is the line on which the token ends. -/
structure Token where
  kind : Kind := .eof
  lexeme : Bytes := []
  literal : Literal := .nil
  line : Int := 0
  span : Span := {}
  deriving DecidableEq, Repr, Inhabited

def Token.text (t : Token) : Bytes :=
  utf8 t.kind.name ++ utf8 " " ++ t.lexeme ++ utf8 " " ++ t.literal.echoed

end Lox
