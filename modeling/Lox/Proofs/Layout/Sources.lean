import Lox.Proofs.Session.Rejection
import Lox.Proofs.Session.Splitting

/-!
What a source does is in its tokens, not in its layout.

Two sources with the same tokens, however they are spread over lines and whatever blanks
and comments stand between them, are read as the same trees, resolved with the same
distances, refused with the same problems and run with the same effects.
-/

namespace Lox

def Token.content (t : Token) : Kind × Bytes × Literal := (t.kind, t.lexeme, t.literal)

theorem Token.unplace_eq_of_content_eq {tokens others : List Token}
    (h : tokens.map content = others.map content) :
    tokens.map unplace = others.map unplace := by
  have hcontent : unplace = (fun c => { kind := c.1, lexeme := c.2.1, literal := c.2.2 }) ∘
      content := rfl
  rw [hcontent, ← List.map_map, ← List.map_map, h]

structure SameTokens (a b : Bytes) : Prop where
  left : (scan a).2 = []
  right : (scan b).2 = []
  tokens : (scan a).1.map Token.content = (scan b).1.map Token.content

namespace SameTokens

variable {a b : Bytes}

/-! ## Reading and checking -/

theorem parse_eq (h : SameTokens a b) :
    Stmt.relabelList .unplace (parse a).1 = Stmt.relabelList .unplace (parse b).1 ∧
      (parse a).2.diagnostics.map Diagnostic.unplace =
        (parse b).2.diagnostics.map Diagnostic.unplace := by
  have hne : (scan a).1 ≠ [] := by simp [scan]
  have hprogram := Parser.program_of_unplace_eq hne (Token.unplace_eq_of_content_eq h.tokens)
  simp only [parse, h.left, h.right, List.nil_append]
  exact hprogram

theorem parse_clean_iff (h : SameTokens a b) :
    (parse a).2.diagnostics = [] ↔ (parse b).2.diagnostics = [] := by
  rw [← List.map_eq_nil_iff (f := Diagnostic.unplace), h.parse_eq.2, List.map_eq_nil_iff]

theorem check_eq (h : SameTokens a b) :
    Stmt.relabelList .unplace (check a).program = Stmt.relabelList .unplace (check b).program ∧
      (check a).entries.map (List.map Resolution.Entry.unplace) =
        (check b).entries.map (List.map Resolution.Entry.unplace) ∧
      (check a).report.diagnostics.map Diagnostic.unplace =
        (check b).report.diagnostics.map Diagnostic.unplace := by
  obtain ⟨htrees, hproblems⟩ := h.parse_eq
  unfold check
  by_cases hparse : (parse a).2.diagnostics = []
  · obtain ⟨hprogram, hreported, hentries⟩ := Resolution.resolve_of_unplace_eq htrees
    rw [checkFrom_eq_of_parse_clean hparse,
      checkFrom_eq_of_parse_clean (h.parse_clean_iff.mp hparse)]
    exact ⟨hprogram, congrArg some hentries, hreported⟩
  · rw [checkFrom_eq_of_parse_failed hparse,
      checkFrom_eq_of_parse_failed (mt h.parse_clean_iff.mpr hparse)]
    exact ⟨htrees, rfl, hproblems⟩

theorem check_clean_iff (h : SameTokens a b) :
    (check a).report.diagnostics = [] ↔ (check b).report.diagnostics = [] := by
  rw [← List.map_eq_nil_iff (f := Diagnostic.unplace), h.check_eq.2.2, List.map_eq_nil_iff]

end SameTokens

/-! ## Running -/

theorem Machine.execProgram_of_unplace_eq {first second : List Stmt}
    (h : Stmt.relabelList .unplace first = Stmt.relabelList .unplace second) (n : Nat)
    (m : Machine) :
    (execProgram n first m).machine.output = (execProgram n second m).machine.output ∧
      (execProgram n first m).machine.globals = (execProgram n second m).machine.globals ∧
      (execProgram n first m).failure?.map RuntimeError.message =
        (execProgram n second m).failure?.map RuntimeError.message ∧
      (execProgram n first m).machine.unplace [] = (execProgram n second m).machine.unplace [] := by
  have hfirst := execProgram_unplaced n first [] m
  have hsecond := execProgram_unplaced n second [] m
  rw [h, hsecond] at hfirst
  obtain ⟨houtput, hglobals, hmessage⟩ := Outcome.of_unplace_eq hfirst.symm
  have hmachine := congrArg Outcome.machine hfirst.symm
  rw [Outcome.unplace_machine, Outcome.unplace_machine] at hmachine
  exact ⟨houtput, hglobals, hmessage, hmachine⟩

namespace Session

theorem answer_diagnostics {s : Session} (h : s.resolution.AtTop) (source : Bytes) :
    (s.answer (.run source)).1.report.diagnostics = (check source).report.diagnostics := by
  obtain ⟨-, hreport⟩ := checkFrom_eq_check h source
  unfold answer run
  simp only [hreport]
  split
  · rfl
  · split <;> rfl

/-- What a step shows of itself: its output, exit code and message, and the names after it. -/
def shown (s : Session) (step : Step) : Bytes × Nat × Option Bytes × List Bytes :=
  ((s.answer step).1.printed, (s.answer step).1.report.exitCode,
    (s.answer step).1.report.failure.map RuntimeError.message, (s.answer step).2.globals)

theorem Ready.shown_of_rejected {s : Session} (h : s.Ready) {source : Bytes}
    (hrejected : (check source).report.diagnostics ≠ []) :
    s.shown (.run source) = ([], 65, none, s.globals) := by
  rw [← answer_diagnostics h.atTop] at hrejected
  obtain ⟨hprinted, -, hfailure, hcode, hmachine⟩ := h.answer_of_rejected hrejected
  unfold shown globals
  rw [hprinted, hfailure, hcode, hmachine]
  rfl

theorem shown_of_clean {s : Session} (h : s.resolution.AtTop) {source : Bytes}
    (hclean : (check source).report.diagnostics = []) :
    let out := Machine.interpret (check source).program s.machine
    s.shown (.run source) =
      (out.machine.output, if (out.failure?.map RuntimeError.message).isSome then 70 else 0,
        out.failure?.map RuntimeError.message, out.machine.globals) := by
  obtain ⟨hanswer, -, hglobals⟩ := answer_of_clean h hclean
  intro out
  unfold shown
  rw [hanswer, hglobals, Option.isSome_map]
  rfl

theorem Ready.shown_eq {s : Session} (h : s.Ready) {a b : Bytes} (hsame : SameTokens a b) :
    s.shown (.run a) = s.shown (.run b) := by
  by_cases hclean : (check a).report.diagnostics = []
  · obtain ⟨houtput, hglobals, hmessage, -⟩ :=
      Machine.execProgram_of_unplace_eq hsame.check_eq.1 Machine.ample s.machine
    rw [shown_of_clean h.atTop hclean, shown_of_clean h.atTop (hsame.check_clean_iff.mp hclean)]
    unfold Machine.interpret
    rw [houtput, hglobals, hmessage]
  · rw [h.shown_of_rejected hclean, h.shown_of_rejected (mt hsame.check_clean_iff.mpr hclean)]

theorem Ready.machine_of_rejected {s : Session} (h : s.Ready) {source : Bytes}
    (hrejected : (check source).report.diagnostics ≠ []) :
    (s.answer (.run source)).2.machine = s.machine := by
  rw [← answer_diagnostics h.atTop] at hrejected
  exact (h.answer_of_rejected hrejected).2.2.2.2

theorem Ready.machine_eq {s : Session} (h : s.Ready) {a b : Bytes} (hsame : SameTokens a b) :
    (s.answer (.run a)).2.machine.unplace [] = (s.answer (.run b)).2.machine.unplace [] := by
  by_cases hclean : (check a).report.diagnostics = []
  · have hrun :=
      Machine.execProgram_of_unplace_eq hsame.check_eq.1 Machine.ample s.machine
    have hfirst := (answer_of_clean h.atTop hclean).2.1
    have hsecond := (answer_of_clean h.atTop (hsame.check_clean_iff.mp hclean)).2.1
    rw [hfirst, hsecond]
    exact congrArg (fun m : Machine => { m with printed := [] }) hrun.2.2.2
  · rw [h.machine_of_rejected hclean,
      h.machine_of_rejected (mt hsame.check_clean_iff.mpr hclean)]

end Session

/--
Sources with the same tokens have the same trees, problems and distances but for places,
and, after whatever was run before, the same output, exit code, message and global names;
the values they leave are the same but for places.
-/
theorem layout_has_no_influence (a b : Bytes) (hsame : SameTokens a b) :
    (Stmt.relabelList .unplace (parse a).1 = Stmt.relabelList .unplace (parse b).1 ∧
      (parse a).2.diagnostics.map Diagnostic.unplace =
        (parse b).2.diagnostics.map Diagnostic.unplace) ∧
    (Stmt.relabelList .unplace (check a).program = Stmt.relabelList .unplace (check b).program ∧
      (check a).entries.map (List.map Resolution.Entry.unplace) =
        (check b).entries.map (List.map Resolution.Entry.unplace) ∧
      (check a).report.diagnostics.map Diagnostic.unplace =
        (check b).report.diagnostics.map Diagnostic.unplace) ∧
    ∀ (natives : List Native) (limit : Nat) (clock : List Int) (earlier : List Session.Step),
      let s := (Session.fresh natives limit clock).after earlier
      (s.answer (.run a)).1.printed = (s.answer (.run b)).1.printed ∧
        (s.answer (.run a)).1.report.exitCode = (s.answer (.run b)).1.report.exitCode ∧
        (s.answer (.run a)).1.report.failure.map RuntimeError.message =
          (s.answer (.run b)).1.report.failure.map RuntimeError.message ∧
        (s.answer (.run a)).2.globals = (s.answer (.run b)).2.globals ∧
        (s.answer (.run a)).2.machine.unplace [] =
          (s.answer (.run b)).2.machine.unplace [] := by
  refine ⟨hsame.parse_eq, hsame.check_eq, ?_⟩
  intro natives limit clock earlier s
  have hready : s.Ready := (Session.ready_fresh natives limit clock).after earlier
  have hshown := hready.shown_eq hsame
  simp only [Session.shown, Prod.mk.injEq] at hshown
  obtain ⟨hprinted, hcode, hmessage, hglobals⟩ := hshown
  exact ⟨hprinted, hcode, hmessage, hglobals, hready.machine_eq hsame⟩

def compactLayout : Bytes :=
  utf8 "\x7bvar a=1;fun f()\x7bprint a;return a+nil;\x7df();\x7d"

def airyLayout : Bytes :=
  utf8 "// a block\n\x7b\n  var a = 1; // one\n  fun f ( ) \x7b print a;\n\n return a\n+ nil; \x7d\tf();\n\x7d\n"

theorem layout_has_no_influence_airy :
    SameTokens compactLayout airyLayout ∧
      (check compactLayout).entries.map (List.map Resolution.Entry.unplace) =
        (check airyLayout).entries.map (List.map Resolution.Entry.unplace) ∧
      let s := (Session.fresh Machine.standardNatives 0 []).after [.run (utf8 "var b;")]
      (s.answer (.run compactLayout)).1.report.failure.map RuntimeError.message =
        (s.answer (.run airyLayout)).1.report.failure.map RuntimeError.message := by
  have hsame : SameTokens compactLayout airyLayout :=
    ⟨by decide +kernel, by decide +kernel, by decide +kernel⟩
  have h := layout_has_no_influence compactLayout airyLayout hsame
  have hrun := h.2.2 Machine.standardNatives 0 [] [.run (utf8 "var b;")]
  exact ⟨hsame, h.2.1.2.1, hrun.2.2.1⟩

/-- The error is on the first line of one and on the seventh of the other. -/
example :
    let s := Session.fresh Machine.standardNatives 0 []
    [compactLayout, airyLayout].map (fun source =>
        (s.answer (.run source)).1.report.failure.map RuntimeError.line) =
      [some 1, some 7] := by decide +kernel

end Lox
