import Lox.Pipeline
import Lox.Proofs.Safety.Parsing
import Lox.Proofs.Safety.Running
import Lox.Proofs.Token.Lines

/-!
Whatever the source, its run fails only with an error of the program.

Malformed statements are left out and misplaced names stay global, but what is left of a
source is always a tree that fits the scopes around it.  It runs safely whether its names
were resolved or not.
-/

namespace Lox

theorem Fault.Blames.imp {T T' : Token → Prop} {cause : Fault} (h : cause.Blames T)
    (hT : ∀ t, T t → T' t) : cause.Blames T' := by
  cases cause with
  | runtime error => exact ⟨hT _ h.1, h.2⟩
  | absentExpression | missingScope | missingArgument | outOfFuel => exact h

def Token.StandsIn (source : Bytes) (t : Token) : Prop :=
  t ∈ (scan source).1 ∧ 1 ≤ t.line ∧ t.line ≤ source.lineCount

/--
The run goes through, is cut short for want of fuel, or fails with a runtime error that
blames a token of the source.
-/
def Outcome.Explained (source : Bytes) : Outcome α → Prop
  | .done _ _ => True
  | .fault cause _ => cause.Blames (Token.StandsIn source)

theorem scan_ne_nil (source : Bytes) : (scan source).1 ≠ [] := by
  obtain ⟨tokens, hscan, -⟩ := scan_tokens source
  simp [hscan]

theorem Parser.Among.standsIn {source : Bytes} {t : Token} (h : Among (scan source).1 t) :
    t.StandsIn source :=
  ⟨h.1, line_of_mem_scan h.1 h.2⟩

theorem parse_fit (source : Bytes) :
    Stmt.FitList (Parser.Among (scan source).1) 0 (parse source).1 :=
  Parser.program_fit (scan_ne_nil source)

theorem parseExpression_fit (source : Bytes) :
    ∀ e ∈ (parseExpression source).1, e.Fit (Parser.Among (scan source).1) 0 :=
  Parser.soleExpression_fit (scan_ne_nil source)

theorem Run.Safe.explained {source : Bytes} {m : Machine} {p : Run α} {Q : Scopes → α → Prop}
    (h : Run.Safe (Parser.Among (scan source).1) m p Q)
    (hm : m.Sound (Parser.Among (scan source).1)) : (p m).Explained source := by
  have hrun := h hm
  cases hp : p m with
  | done v m' => trivial
  | fault cause m' =>
      rw [hp] at hrun
      exact hrun.imp fun _ => Parser.Among.standsIn

/--
Also of a source that was rejected, with its names resolved or none of them, and of a
source that is an expression.
-/
theorem runs_explained (source : Bytes) (natives : List Native) (limit : Nat)
    (clock : List Int) (n : Nat) :
    (Machine.execProgram n (parse source).1
        (Machine.start natives limit clock)).Explained source ∧
      (Machine.execProgram n (Resolution.resolve (parse source).1).program
        (Machine.start natives limit clock)).Explained source ∧
      ∀ e ∈ (parseExpression source).1,
        (Machine.eval n e (Machine.start natives limit clock)).Explained source := by
  have hsound := Machine.start_sound (T := Parser.Among (scan source).1) natives limit clock
  have hreaches := Machine.start_reaches natives limit clock
  have hparsed := parse_fit source
  have hresolved := Resolution.resolve_program_fit hparsed
  refine ⟨?_, ?_, ?_⟩
  · exact (Machine.execProgram_safe n _ hparsed hreaches).explained hsound
  · exact (Machine.execProgram_safe n _ hresolved hreaches).explained hsound
  · intro e he
    exact (Machine.eval_safe n e (parseExpression_fit source e he) hreaches).explained hsound

end Lox
