import Lox.Token

/-!
Diagnostics of the front end.

A `Problem` is what can be wrong with a program before it runs; it fixes the code
and the message of the diagnostic that reports it.  Codes `E1…` are lexical, `E2…`
concern the grammar and `E3…` the resolution of names.
-/

namespace Lox

inductive Problem where
  | unexpectedCharacter (c : Char)
  | unterminatedString
  | expectExpression
  | expect (message : String)
  | invalidTarget
  | tooManyArguments
  | tooManyParameters
  | selfInitializer
  | redeclared
  | topLevelReturn
  | initializerReturnsValue
  | thisOutside
  | superOutside
  | superWithoutParent
  | selfInherit
  deriving DecidableEq, Repr

namespace Problem

def code : Problem → Bytes
  | .unexpectedCharacter _ => utf8 "E1001"
  | .unterminatedString => utf8 "E1002"
  | .expectExpression => utf8 "E2001"
  | .expect _ => utf8 "E2002"
  | .invalidTarget => utf8 "E2003"
  | .tooManyArguments => utf8 "E2004"
  | .tooManyParameters => utf8 "E2005"
  | .selfInitializer => utf8 "E3001"
  | .redeclared => utf8 "E3002"
  | .topLevelReturn => utf8 "E3003"
  | .initializerReturnsValue => utf8 "E3004"
  | .thisOutside => utf8 "E3005"
  | .superOutside => utf8 "E3006"
  | .superWithoutParent => utf8 "E3007"
  | .selfInherit => utf8 "E3008"

def message : Problem → Bytes
  | .unexpectedCharacter c => utf8 "Unexpected character: " ++ String.utf8EncodeChar c
  | .unterminatedString => utf8 "Unterminated string."
  | .expectExpression => utf8 "Expect expression."
  | .expect message => utf8 message
  | .invalidTarget => utf8 "Invalid assignment target."
  | .tooManyArguments => utf8 "Can't have more than 255 arguments."
  | .tooManyParameters => utf8 "Can't have more than 255 parameters."
  | .selfInitializer => utf8 "Can't read local variable in its own initializer."
  | .redeclared => utf8 "Already a variable with this name in this scope."
  | .topLevelReturn => utf8 "Can't return from top-level code."
  | .initializerReturnsValue => utf8 "Can't return a value from an initializer."
  | .thisOutside => utf8 "Can't use 'this' outside of a class."
  | .superOutside => utf8 "Can't use 'super' outside of a class."
  | .superWithoutParent => utf8 "Can't use 'super' in a class with no superclass."
  | .selfInherit => utf8 "A class can't inherit from itself."

end Problem

inductive Severity where
  | error
  | warning
  | unknown
  deriving DecidableEq, Repr, Inhabited

def Severity.name : Severity → Bytes
  | .error => utf8 "error"
  | .warning => utf8 "warning"
  | .unknown => utf8 "unknown"

/-- `place` is empty, ` at end` or ` at '…'` with the lexeme at fault. -/
structure Diagnostic where
  code : Bytes
  severity : Severity := .error
  message : Bytes
  line : Int
  place : Bytes := []
  span : Span
  deriving DecidableEq, Repr, Inhabited

namespace Diagnostic

/-- `[line N] Error<place>: <message>`. -/
def text (d : Diagnostic) : Bytes :=
  utf8 "[line " ++ Bytes.ofInt d.line ++ utf8 "] Error" ++ d.place ++ utf8 ": " ++ d.message

/-- A problem with a range of the source, on the line where the range ends. -/
def atSpan (p : Problem) (s : Span) : Diagnostic :=
  { code := p.code, message := p.message, line := s.stop.line, span := s }

def atToken (p : Problem) (t : Token) : Diagnostic where
  code := p.code
  message := p.message
  line := t.line
  place := if t.kind = .eof then utf8 " at end" else utf8 " at '" ++ t.lexeme ++ utf8 "'"
  span := t.span

def hasErrors (ds : List Diagnostic) : Bool := ds.any fun d => d.severity == .error

end Diagnostic

end Lox
