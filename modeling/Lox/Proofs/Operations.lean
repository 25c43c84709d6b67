import Lox.Machine.Eval

/-!
Operators and native functions.

An operator gives an atom or blames its token, and leaves the machine as it was.  A native
function does likewise, but for the readings of the clock that it takes.
-/

namespace Lox

def Kind.signs : Kind → Bool
  | .minus | .bang => true
  | _ => false

def Kind.joins : Kind → Bool
  | .equalEqual | .bangEqual | .plus | .minus | .star | .slash | .greater | .greaterEqual
  | .less | .lessEqual => true
  | _ => false

def Cause.IsUnknown : Cause → Prop
  | .unknownUnary _ | .unknownBinary _ => True
  | _ => False

inductive Value.IsAtom : Value → Prop where
  | nil : IsAtom .nil
  | bool (b : Bool) : IsAtom (.bool b)
  | number (x : Float) : IsAtom (.number x)
  | text (s : Bytes) : IsAtom (.text s)

theorem Run.pure_bind (v : α) (f : α → Run β) : (Pure.pure v >>= f) = f v := rfl

namespace Machine

/-- Gives an atom or blames the token, for being unknown only if it is. -/
inductive Settles (t : Token) (unknown : Prop) : Run Value → Prop where
  | atom {v : Value} : v.IsAtom → Settles t unknown (pure v)
  | blame {cause : Cause} : cause ≠ .stackOverflow → (cause.IsUnknown → unknown) →
      Settles t unknown (raise cause t)

/-! ## Operators -/

theorem applyUnary_settles (operator : Token) (v : Value) :
    Settles operator (operator.kind.signs = false) (applyUnary operator v) := by
  unfold applyUnary
  generalize operator.kind = kind
  cases kind with
  | minus =>
      cases v with
      | number x => exact .atom (.number _)
      | _ => exact .blame nofun nofun
  | bang => exact .atom (.bool _)
  | _ => exact .blame nofun fun _ => rfl

theorem applyArithmetic_settles {operator : Token} (x y : Float)
    (hplus : operator.kind ≠ .plus) (hequal : operator.kind ≠ .equalEqual)
    (hdiffer : operator.kind ≠ .bangEqual) :
    Settles operator (operator.kind.joins = false) (applyArithmetic operator x y) := by
  unfold applyArithmetic
  generalize operator.kind = kind at *
  cases kind with
  | minus | star | slash => exact .atom (.number _)
  | greater | greaterEqual | less | lessEqual => exact .atom (.bool _)
  | plus => exact absurd rfl hplus
  | equalEqual => exact absurd rfl hequal
  | bangEqual => exact absurd rfl hdiffer
  | _ => exact .blame nofun fun _ => rfl

theorem applyBinary_settles (operator : Token) (v w : Value) :
    Settles operator (operator.kind.joins = false) (applyBinary operator v w) := by
  unfold applyBinary
  split
  · exact .atom (.bool _)
  · exact .atom (.bool _)
  · split
    · exact .atom (.number _)
    · exact .atom (.text _)
    · exact .blame nofun nofun
  · next hequal hdiffer hplus =>
      split
      · exact applyArithmetic_settles _ _ hplus hequal hdiffer
      · exact .blame nofun nofun

/-! ## Native functions and parameters -/

/-- A native function changes nothing but the clock. -/
theorem applyNative_cases (f : Native) (vs : List Value) (paren : Token) (m : Machine) :
    ∃ clock,
      (∃ l, applyNative f vs paren m = .done (.ofLiteral l) { m with clock }) ∨
        ∃ text, applyNative f vs paren m =
          .fault (.runtime ⟨.raised text, paren⟩) { m with clock } := by
  unfold applyNative
  obtain ⟨text | l, clock⟩ := f.code (vs.map Value.face) m.clock
  · exact ⟨clock, .inr ⟨text, rfl⟩⟩
  · exact ⟨clock, .inl ⟨l, rfl⟩⟩

theorem bindParameters_of_le {parameters : List Token} {arguments : List Value}
    (bound : Bindings Value) (h : parameters.length ≤ arguments.length) :
    bindParameters bound parameters arguments =
      pure ((parameters.zip arguments).foldl
        (fun bound entry => bound.set entry.1.lexeme entry.2) bound) := by
  induction parameters generalizing bound arguments with
  | nil => rfl
  | cons p parameters ih =>
      cases arguments with
      | nil => cases h
      | cons v arguments => exact ih _ (Nat.le_of_succ_le_succ h)

theorem bindParameters_of_lt {parameters : List Token} {arguments : List Value}
    (bound : Bindings Value) (h : arguments.length < parameters.length) :
    bindParameters bound parameters arguments = stop .missingArgument := by
  induction parameters generalizing bound arguments with
  | nil => cases h
  | cons p parameters ih =>
      cases arguments with
      | nil => rfl
      | cons v arguments => exact ih _ (Nat.lt_of_succ_lt_succ h)

theorem bindParameters_cases (bound : Bindings Value) (parameters : List Token)
    (arguments : List Value) :
    (∃ bindings, bindParameters bound parameters arguments = pure bindings) ∨
      bindParameters bound parameters arguments = stop .missingArgument := by
  by_cases h : parameters.length ≤ arguments.length
  · exact .inl ⟨_, bindParameters_of_le bound h⟩
  · exact .inr (bindParameters_of_lt bound (Nat.lt_of_not_le h))

end Machine

end Lox
