import Lox.Command.Repl
import Lox.Proofs.Prompt.Opening
import Lox.Proofs.Session.Splitting
import Lox.Proofs.Termination.MoreFuel

/-!
What the prompt executes of an entry.

An entry without problems is executed as the program it is, with one exception: one that does
not look finished and begins with an expression is taken for that expression, and the
statements after it are passed over.
-/

namespace Lox.Command.Repl

/-! ## Prompts reached -/

def after (r : Repl) : List Input → Option Repl
  | [] => some r
  | input :: rest =>
      match (r.step input).2 with
      | some r => r.after rest
      | none => none

theorem submit_atTop (colors : Palette) {s : Session} (h : s.resolution.AtTop) (entry : Bytes) :
    (submit colors s entry).2.resolution.AtTop := by
  have hrun {s : Session} (h : s.resolution.AtTop) :
      (runEntry colors s entry).2.resolution.AtTop := Session.run_atTop h entry
  have heval : (s.evaluate entry).2.2.resolution.AtTop := by
    rw [Session.evaluate_resolution]
    exact h
  unfold submit
  dsimp only
  split
  · exact hrun h
  · split
    · exact heval
    · exact hrun heval

theorem step_atTop {r r' : Repl} (h : r.session.resolution.AtTop) {input : Input}
    (hstep : (r.step input).2 = some r') : r'.session.resolution.AtTop := by
  cases input with
  | interrupt =>
      simp only [step] at hstep
      split at hstep <;> cases hstep <;> exact h
  | line text =>
      simp only [step] at hstep
      split at hstep
      · cases hstep
      split at hstep
      · cases hstep
        exact h
      · cases hstep
        simp only [collect]
        split
        · exact h
        split
        · exact h
        · exact submit_atTop _ h _

theorem after_atTop {r r' : Repl} (h : r.session.resolution.AtTop) {inputs : List Input}
    (hafter : r.after inputs = some r') : r'.session.resolution.AtTop := by
  induction inputs generalizing r with
  | nil =>
      cases hafter
      exact h
  | cons input rest ih =>
      unfold after at hafter
      split at hafter
      · next hstep => exact ih (step_atTop h hstep) hafter
      · cases hafter

/-! ## One entry -/

/-- The statements of an entry that the prompt executes. -/
def executed (entry : Bytes) : List Stmt :=
  let program := (check entry).program
  if looksFinished entry || (Stmt.opening? program).isNone then program else program.take 1

theorem executed_eq_program {entry : Bytes}
    (h : looksFinished entry = true ∨ Stmt.opening? (check entry).program = none) :
    executed entry = (check entry).program := by
  simp [executed, h]

theorem executed_eq_first {entry : Bytes} {span : Span} {e : Expr} {rest : List Stmt}
    (hfinished : looksFinished entry = false)
    (hprogram : (check entry).program = .expression span e :: rest) :
    executed entry = [.expression span e] := by
  simp [executed, hfinished, hprogram, Stmt.opening?]

theorem executed_eq_program_iff (entry : Bytes) :
    executed entry = (check entry).program ↔
      looksFinished entry = true ∨ Stmt.opening? (check entry).program = none ∨
        (check entry).program.length ≤ 1 := by
  rw [← or_assoc]
  by_cases h : looksFinished entry = true ∨ Stmt.opening? (check entry).program = none
  · exact iff_of_true (executed_eq_program h) (.inl h)
  · have htake : executed entry = (check entry).program.take 1 := by simp [executed, h]
    rw [htake, or_iff_right h]
    constructor
    · intro heq
      rw [← heq, List.length_take]
      exact Nat.min_le_left _ _
    · exact List.take_of_length_le

/-- What an entry writes and leaves if it executes a program, with a value shown or none. -/
structure Executes (colors : Palette) (s : Session) (program : List Stmt) (shown : Option Value)
    (answer : Output × Session) : Prop where
  out : answer.1.out =
    (Machine.interpret program s.machine).machine.output ++ echo colors shown
  err : answer.1.err =
    complaints colors { failure := (Machine.interpret program s.machine).failure? }
  machine : answer.2.machine =
    { (Machine.interpret program s.machine).machine with printed := [] }

theorem Executes.out_of_none {colors : Palette} {s : Session} {program : List Stmt}
    {answer : Output × Session} (h : Executes colors s program none answer) :
    answer.1.out = (Machine.interpret program s.machine).machine.output :=
  h.out.trans (List.append_nil _)

theorem runEntry_executes (colors : Palette) {s : Session} (h : s.resolution.AtTop) {entry : Bytes}
    (hclean : (check entry).report.diagnostics = []) :
    Executes colors s (check entry).program none (runEntry colors s entry) := by
  obtain ⟨hanswer, hmachine, -⟩ := Session.answer_of_clean h hclean
  have hentry : runEntry colors s entry =
      ({ out := (s.answer (.run entry)).1.printed,
         err := complaints colors (s.answer (.run entry)).1.report },
        (s.answer (.run entry)).2) := rfl
  rw [hentry, hanswer]
  exact ⟨(List.append_nil _).symm, rfl, hmachine⟩

/-- The statement does what its expression does, unless fuel is short. -/
theorem evaluate_of_interpret {span : Span} {e : Expr} {m : Machine}
    (hfuel : (Machine.interpret [.expression span e] m).fault? ≠ some .outOfFuel) :
    (Machine.evaluate e m).machine = (Machine.interpret [.expression span e] m).machine ∧
      (Machine.evaluate e m).failure? = (Machine.interpret [.expression span e] m).failure? := by
  obtain ⟨n, hn, hevaluate⟩ := Machine.exists_evaluate_eq
  unfold Machine.interpret at hfuel ⊢
  rw [hn] at hfuel ⊢
  have hexec : Machine.execProgram (n + 1) [.expression span e] m =
      (Machine.eval n e >>= fun _ => pure ()) m := by
    change Run.bind (Run.bind (Machine.eval n e) _) _ m = Run.bind (Machine.eval n e) _ m
    unfold Run.bind
    cases Machine.eval n e m <;> rfl
  rw [hexec] at hfuel ⊢
  cases hrun : Machine.eval n e m with
  | done v m' =>
      rw [Run.bind_of_done hrun] at hfuel ⊢
      rw [hevaluate e m (by simp [hrun, Outcome.fault?]), hrun]
      exact ⟨rfl, rfl⟩
  | fault cause m' =>
      rw [Run.bind_of_fault hrun] at hfuel ⊢
      rw [hevaluate e m (by rw [hrun]; exact hfuel), hrun]
      exact ⟨rfl, rfl⟩

theorem submit_opening (colors : Palette) {s : Session} {entry : Bytes} {span : Span} {e : Expr}
    (hfinished : looksFinished entry = false) (hparse : parseExpression entry = (some e, {}))
    (hfuel : (Machine.interpret [.expression span e] s.machine).fault? ≠ some .outOfFuel) :
    ∃ shown, Executes colors s [.expression span e] shown (submit colors s entry) := by
  obtain ⟨hmachine, hfailure⟩ := evaluate_of_interpret hfuel
  have hunfinished : ¬looksFinished entry = true := by simp [hfinished]
  unfold submit
  rw [if_neg hunfinished]
  cases hrun : Machine.evaluate e s.machine with
  | done v m =>
      have hevaluate : s.evaluate entry = (some v, {}, { s with machine := m }) := by
        simp only [Session.evaluate, hparse, Option.getD_some, hrun]
        rfl
      rw [hrun] at hmachine hfailure
      rw [hevaluate]
      exact ⟨some v, by rw [← hmachine]; rfl, by rw [← hfailure]; rfl, by rw [← hmachine]; rfl⟩
  | fault cause m =>
      have hevaluate : s.evaluate entry =
          (none, { failure := some cause.toRuntimeError }, { s with machine := m }) := by
        simp only [Session.evaluate, hparse, Option.getD_some, hrun]
        rfl
      rw [hrun] at hmachine hfailure
      rw [hevaluate]
      refine ⟨none, ?_, by rw [← hfailure]; rfl, by rw [← hmachine]; rfl⟩
      rw [← hmachine]
      rfl

theorem submit_of_no_opening (colors : Palette) (s : Session) {entry : Bytes}
    (h : looksFinished entry = true ∨ (parseExpression entry).2.diagnostics ≠ []) :
    submit colors s entry = runEntry colors s entry := by
  unfold submit
  rcases h with hfinished | hproblem
  · rw [if_pos hfinished]
  · have hfailed : (parseExpression entry).2.failed = true := by
      rw [← Bool.not_eq_false, parseExpression_failed_eq_false_iff]
      exact hproblem
    have hevaluate : s.evaluate entry = (none, (parseExpression entry).2, s) := by
      simp only [Session.evaluate, hfailed, if_true]
    have hfailure : (parseExpression entry).2.failure = none := rfl
    simp [hevaluate, hfailed, hfailure]

theorem submit_executes (colors : Palette) {s : Session} (h : s.resolution.AtTop) {entry : Bytes}
    (hclean : (check entry).report.diagnostics = [])
    (hfuel : (Machine.interpret (executed entry) s.machine).fault? ≠ some .outOfFuel) :
    ∃ shown, Executes colors s (executed entry) shown (submit colors s entry) := by
  have hparse := parseExpression_of_clean ((check_clean_iff entry).mp hclean).1
  rw [← opening?_check hclean] at hparse
  have hrun := runEntry_executes colors h hclean
  by_cases hprogram : looksFinished entry = true ∨ Stmt.opening? (check entry).program = none
  · rw [executed_eq_program hprogram]
    refine ⟨none, ?_⟩
    rwa [submit_of_no_opening]
    apply hprogram.imp_right
    intro hopening
    simpa only [hopening] using hparse
  · rw [not_or, Bool.not_eq_true] at hprogram
    obtain ⟨hfinished, hopening⟩ := hprogram
    obtain ⟨e, he⟩ := Option.ne_none_iff_exists'.mp hopening
    simp only [he] at hparse
    obtain ⟨span, rest, hbody⟩ := Stmt.opening?_eq_some_iff.mp he
    rw [executed_eq_first hfinished hbody] at hfuel ⊢
    exact submit_opening colors hfinished hparse hfuel

/--
At every prompt, an entry without problems is executed as `executed` says.  So it is executed
whole, and does what running it does but for a value shown, if it looks finished, begins with
another statement than an expression, or has no second statement.
-/
theorem entry_executes (natives : List Native) (limit : Nat) (clock : List Int) (color : Bool)
    (prompt : Bytes) (inputs : List Input) (r : Repl)
    (hr : (start color prompt (.fresh natives limit clock)).after inputs = some r)
    (entry : Bytes) (hclean : (check entry).report.diagnostics = [])
    (hfuel : (Machine.interpret (executed entry) r.session.machine).fault? ≠ some .outOfFuel) :
    ∃ shown, Executes r.colors r.session (executed entry) shown
        (submit r.colors r.session entry) ∧
      (executed entry = (check entry).program ↔
        looksFinished entry = true ∨ Stmt.opening? (check entry).program = none ∨
          (check entry).program.length ≤ 1) ∧
      (executed entry = (check entry).program →
        let whole := runEntry r.colors r.session entry
        let answer := submit r.colors r.session entry
        answer.1.out = whole.1.out ++ echo r.colors shown ∧ answer.1.err = whole.1.err ∧
          answer.2.machine = whole.2.machine) := by
  have htop : r.session.resolution.AtTop := after_atTop ⟨rfl, rfl, rfl⟩ hr
  obtain ⟨shown, hsubmit⟩ := submit_executes r.colors htop hclean hfuel
  have hrun := runEntry_executes r.colors htop hclean
  refine ⟨shown, hsubmit, executed_eq_program_iff entry, ?_⟩
  intro hwhole
  rw [hwhole] at hsubmit
  refine ⟨?_, hsubmit.err.trans hrun.err.symm, hsubmit.machine.trans hrun.machine.symm⟩
  rw [hrun.out_of_none]
  exact hsubmit.out

/-- An entry of one statement with a comment after it. -/
theorem entry_executes_commented :
    let entry := utf8 "\"first\"; // only"
    (check entry).report.diagnostics = [] ∧ looksFinished entry = false ∧
      ∃ shown, (submit {} (.fresh [] 0 []) entry).1.out =
        (runEntry {} (.fresh [] 0 []) entry).1.out ++ echo {} shown := by
  intro entry
  have hclean : (check entry).report.diagnostics = [] := by decide +kernel
  have hlength : (check entry).program.length ≤ 1 := by decide +kernel
  have hwhole := (executed_eq_program_iff entry).mpr (.inr (.inr hlength))
  obtain ⟨shown, -, -, hsame⟩ := entry_executes [] 0 [] false [] [] _ rfl entry hclean
    (by rw [hwhole]; decide +kernel)
  exact ⟨hclean, by decide, shown, (hsame hwhole).1⟩

/-- The second statement of such an entry is passed over. -/
theorem entry_skips_second_statement :
    let entry := utf8 "\"first\"; print \"second\"; // both\n"
    (check entry).report.diagnostics = [] ∧
      (runEntry {} (.fresh [] 0 []) entry).1 = { out := utf8 "second\n" } ∧
      (submit {} (.fresh [] 0 []) entry).1 = { out := utf8 "first\n" } := by
  decide +kernel

end Lox.Command.Repl
