import Lox.Parser.Cursor
import Lox.Tree

/-!
Expressions.

Operators are read by binding power.  Assignment stands above all of them and
associates to the right; only a variable or a property may be assigned, and any
other target is reported without giving up.
-/

namespace Lox.Parser

def argumentLimit : Nat := 255

/-- How tightly an operator holds the operand on its left. -/
def bindingPower : Kind → Nat
  | .orKw => 10
  | .andKw => 20
  | .equalEqual | .bangEqual => 30
  | .less | .lessEqual | .greater | .greaterEqual => 40
  | .plus | .minus => 50
  | .star | .slash => 60
  | .leftParen | .dot => 80
  | _ => 0

def unaryPower : Nat := 70

mutual

def expression : Nat → Parse Expr
  | 0 => outOfFuel
  | n + 1 => do
      let left ← operation n 0
      if ← accept .equal then
        let equals ← before
        let value ← expression n
        let span : Span := ⟨left.span.start, value.span.stop⟩
        match left with
        | .var reference => return .assign { span, name := reference.name } value
        | .get _ object name => return .set span object name value
        | _ =>
            report .invalidTarget equals
            return left
      else return left

/-- An operand and the operators after it that bind tighter than `power`. -/
def operation : Nat → (power : Nat) → Parse Expr
  | 0, _ => outOfFuel
  | n + 1, power => do
      let left ← operand n
      operations n power left

def operations : Nat → (power : Nat) → (left : Expr) → Parse Expr
  | 0, _, _ => outOfFuel
  | n + 1, power, left => do
      if power < bindingPower (← peek).kind then
        let left ← operator n left
        operations n power left
      else return left

def operand : Nat → Parse Expr
  | 0 => outOfFuel
  | n + 1 => do
      let t ← peek
      match t.kind with
      | .falseKw =>
          let _ ← next
          return .literal t.span (.bool false)
      | .trueKw =>
          let _ ← next
          return .literal t.span (.bool true)
      | .nilKw =>
          let _ ← next
          return .literal t.span .nil
      | .number | .string =>
          let _ ← next
          return .literal t.span t.literal
      | .thisKw =>
          let _ ← next
          return .thisRef { span := t.span, name := t }
      | .superKw =>
          let _ ← next
          let _ ← expect .dot "Expect '.' after 'super'."
          let method ← expect .identifier "Expect superclass method name."
          return .superRef { span := ⟨t.span.start, method.span.stop⟩, name := t } method
      | .identifier =>
          let _ ← next
          return .var { span := t.span, name := t }
      | .leftParen =>
          let _ ← next
          let inner ← expression n
          let close ← expect .rightParen "Expect ')' after expression."
          return .grouping ⟨t.span.start, close.span.stop⟩ inner
      | .bang | .minus =>
          let _ ← next
          let operand ← operation n unaryPower
          return .unary ⟨t.span.start, operand.span.stop⟩ t operand
      | _ => fail .expectExpression t

def operator : Nat → (left : Expr) → Parse Expr
  | 0, _ => outOfFuel
  | n + 1, left => do
      let t ← next
      match t.kind with
      | .leftParen =>
          let arguments ← if ← at? .rightParen then pure [] else arguments n 0
          let paren ← expect .rightParen "Expect ')' after arguments."
          return .call ⟨left.span.start, paren.span.stop⟩ left paren arguments
      | .dot =>
          let name ← expect .identifier "Expect property name after '.'."
          return .get ⟨left.span.start, name.span.stop⟩ left name
      | .andKw | .orKw =>
          let right ← operation n (bindingPower t.kind)
          return .logical ⟨left.span.start, right.span.stop⟩ t left right
      | _ =>
          let right ← operation n (bindingPower t.kind)
          return .binary ⟨left.span.start, right.span.stop⟩ t left right

def arguments : Nat → (count : Nat) → Parse (List Expr)
  | 0, _ => outOfFuel
  | n + 1, count => do
      if argumentLimit ≤ count then report .tooManyArguments (← peek)
      let argument ← expression n
      if ← accept .comma then
        let rest ← arguments n (count + 1)
        return argument :: rest
      else return [argument]

end

end Lox.Parser
