import Lox.Token

/-!
What can stop a running program.
-/

namespace Lox

inductive Cause where
  | undefinedVariable (name : Bytes)
  | operandNotNumber
  | operandsNotNumbers
  | operandsNotAddable
  | unknownUnary (operator : Bytes)
  | unknownBinary (operator : Bytes)
  | notCallable
  | wrongArity (expected given : Nat)
  | stackOverflow
  | superclassNotClass
  | noProperties
  | noFields
  | undefinedProperty (name : Bytes)
  | superOutside
  | raised (text : Bytes)
  deriving DecidableEq, Repr

namespace Cause

def message : Cause → Bytes
  | .undefinedVariable name => utf8 "Undefined variable '" ++ name ++ utf8 "'."
  | .operandNotNumber => utf8 "Operand must be a number."
  | .operandsNotNumbers => utf8 "Operands must be numbers."
  | .operandsNotAddable => utf8 "Operands must be two numbers or two strings."
  | .unknownUnary operator => utf8 "unknown unary operator '" ++ operator ++ utf8 "'"
  | .unknownBinary operator => utf8 "unknown binary operator '" ++ operator ++ utf8 "'"
  | .notCallable => utf8 "Can only call functions and classes."
  | .wrongArity expected given =>
      utf8 "Expected " ++ Bytes.ofNat expected ++ utf8 " arguments but got " ++
        Bytes.ofNat given ++ utf8 "."
  | .stackOverflow => utf8 "Stack overflow."
  | .superclassNotClass => utf8 "Superclass must be a class."
  | .noProperties => utf8 "Only instances have properties."
  | .noFields => utf8 "Only instances have fields."
  | .undefinedProperty name => utf8 "Undefined property '" ++ name ++ utf8 "'."
  | .superOutside => utf8 "Can't use 'super' outside of a class."
  | .raised text => text

end Cause

structure RuntimeError where
  cause : Cause
  token : Token
  deriving DecidableEq, Repr

namespace RuntimeError

def message (e : RuntimeError) : Bytes := e.cause.message

def line (e : RuntimeError) : Int := e.token.line

def report (e : RuntimeError) : Bytes :=
  e.message ++ utf8 "\n[line " ++ Bytes.ofInt e.line ++ utf8 "]"

end RuntimeError

/--
Why evaluation stops short: a runtime error of the program, an expression that is
absent, a scope or an argument that does not exist, or no fuel left.
-/
inductive Fault where
  | runtime (error : RuntimeError)
  | absentExpression
  | missingScope
  | missingArgument
  | outOfFuel
  deriving DecidableEq, Repr

namespace Fault

def absentMessage : Bytes := utf8 "unsupported expression type <nil>"

/-- Every fault as a runtime error; one without a token of its own blames none. -/
def toRuntimeError : Fault → RuntimeError
  | .runtime error => error
  | .absentExpression => ⟨.raised absentMessage, default⟩
  | .missingScope => ⟨.raised (utf8 "missing scope"), default⟩
  | .missingArgument => ⟨.raised (utf8 "missing argument"), default⟩
  | .outOfFuel => ⟨.raised (utf8 "out of fuel"), default⟩

end Fault

end Lox
