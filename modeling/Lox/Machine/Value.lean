import Lox.Bindings
import Lox.Tree

/-!
Values of a running program.

Functions, classes and instances have an identity, by which they are compared.
Functions and classes never change, so they are kept in the value itself; of an
instance the value holds the identity under which its fields are stored.
-/

namespace Lox

/--
What is seen of a value from outside: of a function, class or instance its identity and a
name, of a native function its name.
-/
inductive Face where
  | nil
  | bool (b : Bool)
  | number (x : Float)
  | text (s : Bytes)
  | native (name : Bytes)
  | function (id : Nat) (name : Bytes)
  | classObject (id : Nat) (name : Bytes)
  | object (id : Nat) (className : Bytes)

namespace Face

def typeName : Face → Bytes
  | .nil => utf8 "nil"
  | .bool _ => utf8 "boolean"
  | .number _ => utf8 "number"
  | .text _ => utf8 "string"
  | .native _ | .function _ _ => utf8 "function"
  | .classObject _ _ => utf8 "class"
  | .object _ _ => utf8 "instance"

def display : Face → Bytes
  | .nil => utf8 "nil"
  | .bool b => Literal.boolText b
  | .number x => Number.display x
  | .text s => s
  | .native name | .function _ name => utf8 "<fn " ++ name ++ utf8 ">"
  | .classObject _ name => name
  | .object _ className => className ++ utf8 " instance"

/--
Equality without conversion.  Numbers compare as doubles, so that a NaN differs
from itself; functions, classes and instances compare by identity.
-/
def same : Face → Face → Bool
  | .nil, .nil => true
  | .bool a, .bool b => a == b
  | .number a, .number b => a == b
  | .text a, .text b => a == b
  | .native a, .native b => a == b
  | .function a _, .function b _ => a == b
  | .classObject a _, .classObject b _ => a == b
  | .object a _, .object b _ => a == b
  | _, _ => false

end Face

/--
A native function.  From its arguments and the readings of the clock still to come it gives
a literal, or the text of a failure, and the readings that it leaves.
-/
structure Native where
  name : Bytes
  arity : Nat
  code : List Face → List Int → Except Bytes Literal × List Int

structure Closure where
  declaration : FunctionDecl
  scope : Nat
  isInitializer : Bool := false

namespace Closure

def name (c : Closure) : Bytes := c.declaration.name.lexeme

def arity (c : Closure) : Nat := c.declaration.parameters.length

end Closure

inductive ClassObject where
  | mk (id : Nat) (name : Bytes) (parent : Option ClassObject) (methods : Bindings Closure)

namespace ClassObject

def id : ClassObject → Nat
  | .mk id _ _ _ => id

def name : ClassObject → Bytes
  | .mk _ name _ _ => name

def parent? : ClassObject → Option ClassObject
  | .mk _ _ parent _ => parent

def ownMethods : ClassObject → Bindings Closure
  | .mk _ _ _ methods => methods

def method? (name : Bytes) : ClassObject → Option Closure
  | .mk _ _ none methods => methods.get? name
  | .mk _ _ (some parent) methods =>
      match methods.get? name with
      | some m => some m
      | none => method? name parent

def initializer? (c : ClassObject) : Option Closure := c.method? (utf8 "init")

/-- The arity of the initializer, or zero without one. -/
def arity (c : ClassObject) : Nat := (c.initializer?.map Closure.arity).getD 0

end ClassObject

inductive Value where
  | nil
  | bool (b : Bool)
  | number (x : Float)
  | text (s : Bytes)
  | native (f : Native)
  | function (id : Nat) (code : Closure)
  | classObject (c : ClassObject)
  | object (id : Nat) (c : ClassObject)

instance : Inhabited Value := ⟨.nil⟩

namespace Value

def ofLiteral : Literal → Value
  | .nil => .nil
  | .bool b => .bool b
  | .number x => .number x
  | .text s => .text s

def face : Value → Face
  | .nil => .nil
  | .bool b => .bool b
  | .number x => .number x
  | .text s => .text s
  | .native f => .native f.name
  | .function id code => .function id code.name
  | .classObject c => .classObject c.id c.name
  | .object id c => .object id c.name

def typeName (v : Value) : Bytes := v.face.typeName

def display (v : Value) : Bytes := v.face.display

def same (v w : Value) : Bool := v.face.same w.face

/-- Only `nil` and `false` count as false. -/
def isTruthy : Value → Bool
  | .nil => false
  | .bool b => b
  | _ => true

end Value

end Lox
