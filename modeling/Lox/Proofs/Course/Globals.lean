import Lox.Proofs.Calls.Balance
import Lox.Proofs.Course.Running
import Lox.Proofs.Parser.Locality
import Lox.Proofs.Parser.Termination
import Lox.Proofs.Safety.Sources

/-!
Global names come from declarations at top level.

A source that is run has only the names that its top-level statements declare to add to the
global scope.  So at every point of a session the global scope binds nothing but natives and
what the sources executed so far declare, and every scope leads back to it.
-/

namespace Lox

namespace Resolution

theorem stmts_declared? (s : State) (body : List Stmt) :
    (stmts s body).1.map Stmt.declared? = body.map Stmt.declared? := by
  induction body generalizing s with
  | nil => rfl
  | cons first rest ih => simp [ih]

end Resolution

theorem Stmt.scoped_of_mem {program : List Stmt} (h : Stmt.ScopedList [] program) :
    ∀ s ∈ program, s.Scoped [] := by
  induction program with
  | nil => simp
  | cons first rest ih =>
      simp only [Stmt.ScopedList, Stmt.contextAfter_nil] at h
      exact List.forall_mem_cons.mpr ⟨h.1, ih h.2⟩

theorem check_fit {source : Bytes} (h : (check source).report.diagnostics = []) :
    Stmt.FitList Token.Any 0 (check source).program := by
  rw [check_program h]
  exact Resolution.resolve_program_fit (Stmt.FitList.imp (fun _ _ => trivial) _ (parse_fit source))

theorem Parser.exists_soleExpression_eq {tokens : List Token} (heof : ∃ e ∈ tokens, e.kind = .eof)
    (hclean : (soleExpression tokens).2 = []) : ∃ e, (soleExpression tokens).1 = some e := by
  have henough := expression_enough (.inr heof)
  have hhonest : Honest (expression (fuelFor tokens)) :=
    (expression_local (E := default) (Nat.le_refl _)).toHonest
  have hfails := hhonest.fails (.start tokens)
  unfold soleExpression at hclean ⊢
  generalize expression (fuelFor tokens) (.start tokens) = out at *
  obtain ⟨reply, c⟩ := out
  cases reply with
  | ok e => exact ⟨e, rfl⟩
  | failed => exact absurd hclean (hfails rfl)
  | outOfFuel => exact absurd rfl henough

theorem exists_parseExpression_eq {source : Bytes}
    (h : (parseExpression source).2.failed = false) : ∃ e, (parseExpression source).1 = some e := by
  have hclean := (parseExpression_failed_eq_false_iff source).mp h
  obtain ⟨tokens, hscan, -⟩ := scan_tokens source
  have heof : ∃ e ∈ (scan source).1, e.kind = .eof :=
    ⟨Scan.endToken source, by simp [hscan], rfl⟩
  exact Parser.exists_soleExpression_eq heof (List.append_eq_nil_iff.mp hclean).2

namespace Session

/-- The names that the top-level statements of an executed source declare. -/
def Step.declared : Step → List Bytes
  | .run source =>
      if (check source).report.diagnostics = [] then
        (parse source).1.filterMap fun s => s.declared?.map Token.lexeme
      else []
  | .evaluate _ | .globals => []

theorem Step.permitted {N : Bytes → Prop} {source : Bytes}
    (hclean : (check source).report.diagnostics = [])
    (hN : ∀ x ∈ (Step.run source).declared, N x) :
    ∀ s ∈ (check source).program, s.Permitted N := by
  have hscoped := (checkFrom_scoped (s := {}) ⟨rfl, rfl, rfl⟩ hclean).1
  intro s hs
  refine ⟨Stmt.scoped_of_mem hscoped s hs, fun t ht => hN t.lexeme ?_⟩
  have hdeclared : s.declared? ∈ (parse source).1.map Stmt.declared? := by
    rw [check_program hclean] at hs
    rw [← Resolution.stmts_declared? { reported := [] }]
    exact List.mem_map_of_mem hs
  obtain ⟨original, horiginal, hsame⟩ := List.mem_map.mp hdeclared
  simp only [declared, if_pos hclean, List.mem_filterMap]
  refine ⟨original, horiginal, ?_⟩
  rw [hsame, Option.mem_def.mp ht]
  rfl

structure Orderly (N : Bytes → Prop) (s : Session) : Prop where
  machine : s.machine.Orderly N
  current : s.machine.current = Machine.globalScope
  atTop : s.resolution.AtTop

namespace Orderly

variable {N : Bytes → Prop} {s : Session}

theorem fresh (natives : List Native) (limit : Nat) (clock : List Int) :
    (Session.fresh natives limit clock).Orderly (· ∈ natives.map Native.name) := by
  refine ⟨⟨Machine.start_sound natives limit clock, ⟨⟨_, rfl⟩, ?_⟩, ?_⟩, rfl, rfl, rfl, rfl⟩
  · intro id scope hscope hid
    have hlt : id < 1 := (Array.getElem?_eq_some_iff.mp hscope).1
    omega
  · intro x hx
    obtain ⟨scope, hscope, hhas⟩ := Scopes.mem_names.mp hx
    obtain rfl : scope = { bindings := natives.map fun f => (f.name, .native f) } :=
      (Option.some.inj hscope).symm
    simpa [Bindings.has_iff_mem, Function.comp_def] using hhas

theorem mono {N' : Bytes → Prop} (h : s.Orderly N) (hN : ∀ x, N x → N' x) : s.Orderly N' :=
  ⟨h.machine.mono hN, h.current, h.atTop⟩

theorem reaches (h : s.Orderly N) : s.machine.scopes.Reaches s.machine.current 0 := by
  obtain ⟨bindings, hroot⟩ := h.machine.rooted.root
  rw [h.current]
  exact Scopes.reaches_zero.mpr (Array.getElem?_eq_some_iff.mp hroot).1

/-! ## One step -/

theorem task_tracked (h : s.Orderly N) (fuel : Nat) {step : Step}
    (hN : ∀ x ∈ step.declared, N x) :
    Course.Tracked N s.machine (Recorded.task fuel s step) (s.task fuel step) := by
  cases step with
  | run source =>
      obtain ⟨hprogram, hreport⟩ := checkFrom_eq_check h.atTop source
      simp only [Recorded.task, Session.task, hprogram, hreport]
      refine .ite (fun _ => .pure _) fun hfailed => ?_
      have hclean : (check source).report.diagnostics = [] :=
        checkFrom_failed_eq_false_iff.mp (Bool.eq_false_iff.mpr hfailed)
      have hfit := check_fit hclean
      exact (Course.execProgram_tracked fuel _ hfit h.reaches (Step.permitted hclean hN)).bind
        (Machine.execProgram_safe fuel _ hfit h.reaches) fun _ _ _ _ => .pure _
  | evaluate source =>
      refine .ite (fun _ => .pure _) fun hfailed => ?_
      obtain ⟨e, he⟩ := exists_parseExpression_eq (Bool.eq_false_iff.mpr hfailed)
      rw [he, Option.getD_some]
      have hfit := Expr.Fit.imp (fun _ _ => trivial) e (parseExpression_fit source e he)
      exact (Course.eval_tracked fuel _ e hfit h.reaches).bind
        (Machine.eval_safe fuel e hfit h.reaches) fun _ _ _ _ => .pure _
  | globals => exact .pure _

/-- Also after a fault. -/
theorem task_orderly (h : s.Orderly N) (fuel : Nat) {step : Step}
    (hN : ∀ x ∈ step.declared, N x) : (s.perform fuel step).machine.Orderly N := by
  obtain ⟨-, hleads, hfair⟩ := h.task_tracked fuel hN h.machine
  exact hleads.last h.machine fun move hmove => (hfair move hmove).orderly

end Orderly

theorem task_lenient (fuel : Nat) (s : Session) (step : Step) : Run.Lenient (s.task fuel step) := by
  have hnone : Run.Lenient (pure none : Run (Option Value)) := (Run.Steady.pure _).lenient
  cases step with
  | run source =>
      simp only [task]
      split
      · exact hnone
      · exact (Calls.execProgram_accounted fuel _).lenient.bind fun _ => hnone
  | evaluate source =>
      simp only [task]
      split
      · exact hnone
      · exact (Calls.eval_accounted fuel {} _).lenient.bind fun _ => (Run.Steady.pure _).lenient
  | globals => exact hnone

namespace Orderly

variable {N : Bytes → Prop} {s : Session}

theorem next (h : s.Orderly N) (fuel : Nat) {step : Step} (hN : ∀ x ∈ step.declared, N x) :
    (s.next fuel step).Orderly N := by
  refine ⟨(h.task_orderly fuel hN).alike ⟨rfl, rfl⟩, ?_, ?_⟩
  · exact ((task_lenient fuel s step).balanced s.machine).1.trans h.current
  · cases step with
    | run source => exact checkFrom_atTop h.atTop source
    | evaluate source | globals => exact h.atTop

theorem afterWith (h : s.Orderly N) (fuel : Nat) {steps : List Step}
    (hN : ∀ step ∈ steps, ∀ x ∈ step.declared, N x) : (s.afterWith fuel steps).Orderly N := by
  induction steps generalizing s with
  | nil => exact h
  | cons step rest ih =>
      obtain ⟨hstep, hrest⟩ := List.forall_mem_cons.mp hN
      exact ih (h.next fuel hstep) hrest

end Orderly

end Session

namespace Course

open Session (Step)

/--
Whatever was executed before and however much fuel there is (every session has the fuel
`ample`), the course of a step leads from the machine before it to the machine after it by
single changes.  At every point of the course, the global scope binds only natives and what
the sources executed so far declare at top level, and every scope leads back to the global
one.  A change that binds a new global name is the one for the declaration of that name; an
assignment binds none.
-/
theorem globals_only_from_declarations (natives : List Native) (limit : Nat) (clock : List Int)
    (fuel : Nat) (earlier : List Step) (step : Step) :
    let s := (Session.fresh natives limit clock).afterWith fuel earlier
    let (outcome, moves) := perform fuel s step
    (fuel = Machine.ample → s = (Session.fresh natives limit clock).after earlier ∧
        (s.answer step).2 = s.next fuel step) ∧
      outcome = s.perform fuel step ∧ Leads s.machine moves outcome.machine ∧
      (∀ m : Machine, (m = s.machine ∨ ∃ move ∈ moves, m = move.after) →
        (∀ x ∈ m.globals, x ∈ natives.map Native.name ∨
          ∃ executed ∈ earlier ++ [step], x ∈ executed.declared) ∧
        ∀ id < m.scopes.size, ∃ hops, m.scopes.ancestor? id hops = some Machine.globalScope) ∧
      ∀ move ∈ moves, Scopes.Change move.before.scopes move.after.scopes ∧
        (∀ x ∈ move.after.globals, x ∈ move.before.globals ∨ move.act = .declares x) ∧
        ∀ target, move.act = .assigns target → move.after.globals = move.before.globals := by
  let N (x : Bytes) : Prop :=
    x ∈ natives.map Native.name ∨ ∃ executed ∈ earlier ++ [step], x ∈ executed.declared
  have hN : ∀ executed ∈ earlier ++ [step], ∀ x ∈ executed.declared, N x :=
    fun executed hexecuted x hx => .inr ⟨executed, hexecuted, hx⟩
  have hfresh : (Session.fresh natives limit clock).Orderly N :=
    (Session.Orderly.fresh natives limit clock).mono fun _ => .inl
  have hs := hfresh.afterWith fuel fun executed hexecuted =>
    hN executed (List.mem_append_left _ hexecuted)
  have hstep := hN step (List.mem_append_right _ List.mem_cons_self)
  obtain ⟨hrun, hleads, hfair⟩ := hs.task_tracked fuel hstep hs.machine
  have hend : (perform fuel _ step).1.machine = _ := congrArg Outcome.machine hrun
  refine ⟨?_, hrun, hend ▸ hleads, ?_, fun move hmove => ?_⟩
  · rintro rfl
    exact ⟨(Session.after_eq_afterWith _ earlier).symm, (Session.answer_eq_perform _ step).1⟩
  · intro m hm
    have horderly : m.Orderly N := by
      rcases hm with rfl | ⟨move, hmove, rfl⟩
      · exact hs.machine
      · exact (hfair move hmove).orderly
    exact ⟨horderly.globals, fun id hid => horderly.rooted.exists_ancestor_zero hid⟩
  · have h := hfair move hmove
    exact ⟨h.single, h.declared, h.assigned⟩

/-- A parameter, a local variable and the variable of a loop are not declared at top level. -/
example :
    let s := Session.fresh Machine.standardNatives 0 []
    let step := Step.run (utf8
      "fun f(a) \x7b var b = a; b = nil; \x7d for (var i = true; i; i = false) f(i); class A \x7b\x7d")
    step.declared = [utf8 "f", utf8 "A"] ∧ (perform 100 s step).2.length = 20 := by
  decide +kernel

end Course

end Lox
