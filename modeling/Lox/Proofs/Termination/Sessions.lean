import Lox.Proofs.Course.Globals
import Lox.Proofs.Termination.MoreFuel
import Lox.Proofs.Termination.Running

/-!
Sessions without loops come to an end under every limit on calls.

What a session declared is loop-free and of bounded height if every step is, so each step ends
by itself, whatever its calls lead to.  As the trees of a session fit their scopes, the only
other end than running through is a runtime error.
-/

namespace Lox

/-- By running through, or with a runtime error of the program. -/
inductive Outcome.Settled : Outcome α → Prop where
  | done (value : α) (m : Machine) : Settled (.done value m)
  | error (e : RuntimeError) (m : Machine) : Settled (.fault (.runtime e) m)

theorem Outcome.Settled.fault?_ne {out : Outcome α} (h : out.Settled) :
    out.fault? ≠ some .outOfFuel := by
  cases h <;> simp [Outcome.fault?]

namespace Session

open Run (Finishes Safe)

def Step.hasLoop : Step → Bool
  | .run source => Stmt.hasLoopList (parse source).1
  | .evaluate _ | .globals => false

def Step.height : Step → Nat
  | .run source => Stmt.heightList (parse source).1
  | .evaluate source => ((parseExpression source).1.getD .absent).height
  | .globals => 0

def height : List Step → Nat
  | [] => 0
  | step :: rest => max step.height (height rest)

def fuelFor (limit : Nat) (steps : List Step) : Nat := limit * height steps + height steps

theorem height_le_of_mem {steps : List Step} {step : Step} (h : step ∈ steps) :
    step.height ≤ height steps := by
  induction steps with
  | nil => cases h
  | cons first rest ih =>
      rw [height]
      rcases List.mem_cons.mp h with rfl | h
      · omega
      · have hrest := ih h
        omega

/-! ## One step -/

theorem check_shallow {H : Nat} {source : Bytes} (hclean : (check source).report.diagnostics = [])
    (hloop : (Step.run source).hasLoop = false) (hheight : (Step.run source).height ≤ H) :
    Stmt.ShallowList H (check source).program := by
  have hsame := (checkFrom_scoped (s := {}) ⟨rfl, rfl, rfl⟩ hclean).2
  have hprogram : Stmt.relabelList .unresolve (check source).program = (parse source).1 := hsame
  constructor
  · rw [← Stmt.hasLoopList_relabelList .unresolve, hprogram]
    exact hloop
  · rw [← Stmt.heightList_relabelList .unresolve, hprogram]
    exact hheight

/-- Between steps: no call is under way, and nothing carries a loop or too tall a body. -/
structure Bounded (H limit : Nat) (s : Session) : Prop where
  carries : s.machine.Carries (FunctionDecl.Shallow H)
  depth : s.machine.depth = 0
  limit : s.machine.limit = limit
  orderly : s.Orderly fun _ => True

namespace Bounded

variable {H limit fuel : Nat} {s : Session} {step : Step}

theorem fresh (H : Nat) (natives : List Native) (limit : Nat) (clock : List Int) :
    (Session.fresh natives limit clock).Bounded H limit := by
  refine ⟨⟨?_, ?_⟩, rfl, rfl, (Orderly.fresh natives limit clock).mono fun _ _ => trivial⟩
  · intro id scope hscope
    obtain rfl : scope = { bindings := natives.map fun f => (f.name, .native f) } := by
      simpa [Session.fresh, Machine.start] using Array.mem_of_getElem? hscope
    apply Bindings.All.of_forall_mem
    intro entry hentry
    obtain ⟨f, -, rfl⟩ := List.mem_map.mp hentry
    trivial
  · intro id bindings hbindings
    cases hbindings

theorem affords (h : s.Bounded H limit) (hlimit : 0 < limit) (hfuel : limit * H + H ≤ fuel) :
    s.machine.Affords H H fuel := by
  refine ⟨h.limit ▸ hlimit, ?_⟩
  rw [Machine.allowance, h.limit, h.depth, Nat.sub_zero]
  exact hfuel

theorem task_finishes (h : s.Bounded H limit) (hlimit : 0 < limit)
    (hfuel : limit * H + H ≤ fuel) (hloop : step.hasLoop = false) (hheight : step.height ≤ H) :
    Finishes (FunctionDecl.Shallow H) s.machine (s.task fuel step) fun _ => True := by
  have haffords := h.affords hlimit hfuel
  cases step with
  | run source =>
      obtain ⟨hprogram, hreport⟩ := checkFrom_eq_check h.orderly.atTop source
      simp only [task, hprogram, hreport]
      refine .ite (fun _ => .pure trivial) fun hfailed => ?_
      have hclean : (check source).report.diagnostics = [] :=
        checkFrom_failed_eq_false_iff.mp (Bool.eq_false_iff.mpr hfailed)
      have hshallow := check_shallow hclean hloop hheight
      exact (Machine.execProgram_finishes _ hshallow haffords).bind fun _ _ _ _ => .pure trivial
  | evaluate source =>
      refine .ite (fun _ => .pure trivial) fun _ => ?_
      have hfuel' := Nat.le_trans (Nat.add_le_add_left hheight _) haffords.fuel
      exact (Machine.eval_finishes fuel _ ⟨haffords.limited, hfuel'⟩).bind
        fun _ _ _ _ => .pure trivial
  | globals => exact .pure trivial

/-- A step stops short only for an error of the program or for want of fuel. -/
theorem task_safe (h : s.Bounded H limit) (fuel : Nat) (step : Step) :
    Safe Token.Any s.machine (s.task fuel step) fun _ _ => True := by
  cases step with
  | run source =>
      obtain ⟨hprogram, hreport⟩ := checkFrom_eq_check h.orderly.atTop source
      simp only [task, hprogram, hreport]
      refine .ite (fun _ => .pure trivial) fun hfailed => ?_
      have hclean : (check source).report.diagnostics = [] :=
        checkFrom_failed_eq_false_iff.mp (Bool.eq_false_iff.mpr hfailed)
      exact (Machine.execProgram_safe fuel _ (check_fit hclean) h.orderly.reaches).bind
        fun _ _ _ _ => .pure trivial
  | evaluate source =>
      refine .ite (fun _ => .pure trivial) fun hfailed => ?_
      obtain ⟨e, he⟩ := exists_parseExpression_eq (Bool.eq_false_iff.mpr hfailed)
      rw [he, Option.getD_some]
      have hfit := Expr.Fit.imp (fun _ _ => trivial) e (parseExpression_fit source e he)
      exact (Machine.eval_safe fuel e hfit h.orderly.reaches).bind fun _ _ _ _ => .pure trivial
  | globals => exact .pure trivial

theorem perform_settled (h : s.Bounded H limit) (hlimit : 0 < limit)
    (hfuel : limit * H + H ≤ fuel) (hloop : step.hasLoop = false) (hheight : step.height ≤ H) :
    (s.perform fuel step).Settled ∧
      (s.perform fuel step).machine.Carries (FunctionDecl.Shallow H) := by
  have hfinishes := h.task_finishes hlimit hfuel hloop hheight h.carries
  have hsafe := h.task_safe fuel step h.orderly.machine.sound
  unfold perform
  cases hrun : s.task fuel step s.machine with
  | done v m =>
      rw [hrun] at hfinishes
      exact ⟨.done v m, hfinishes.1⟩
  | fault cause m =>
      rw [hrun] at hfinishes hsafe
      refine ⟨?_, hfinishes.1⟩
      cases cause with
      | runtime e => exact .error e m
      | outOfFuel => exact absurd rfl hfinishes.2
      | absentExpression | missingScope | missingArgument => exact hsafe.elim

theorem next (h : s.Bounded H limit) (hlimit : 0 < limit) (hfuel : limit * H + H ≤ fuel)
    (hloop : step.hasLoop = false) (hheight : step.height ≤ H) :
    (s.next fuel step).Bounded H limit := by
  have hcarries := (h.perform_settled hlimit hfuel hloop hheight).2
  have honward := (task_lenient fuel s step).onward s.machine
  refine ⟨⟨hcarries.scopes, hcarries.fields⟩, ?_, ?_, ?_⟩
  · exact honward.depth.trans h.depth
  · exact honward.limit.trans h.limit
  · exact h.orderly.next fuel fun _ _ => trivial

end Bounded

/-! ## All steps -/

namespace Bounded

variable {H limit fuel : Nat} {s : Session}

theorem perform_eq (h : s.Bounded H limit) (hlimit : 0 < limit) (hfuel : limit * H + H ≤ fuel)
    {step : Step} (hloop : step.hasLoop = false) (hheight : step.height ≤ H) :
    s.perform fuel step = s.perform (limit * H + H) step := by
  have hsettled := (h.perform_settled hlimit (Nat.le_refl _) hloop hheight).1
  exact perform_eq_of_le s step hfuel hsettled.fault?_ne

theorem afterWith (h : s.Bounded H limit) (hlimit : 0 < limit) (hfuel : limit * H + H ≤ fuel)
    {steps : List Step} (hsteps : ∀ step ∈ steps, step.hasLoop = false ∧ step.height ≤ H) :
    (s.afterWith fuel steps).Bounded H limit ∧
      s.afterWith fuel steps = s.afterWith (limit * H + H) steps := by
  induction steps generalizing s with
  | nil => exact ⟨h, rfl⟩
  | cons step rest ih =>
      obtain ⟨⟨hloop, hheight⟩, hrest⟩ := List.forall_mem_cons.mp hsteps
      have hnext : s.next fuel step = s.next (limit * H + H) step := by
        unfold Session.next
        rw [h.perform_eq hlimit hfuel hloop hheight]
      obtain ⟨hbounded, hsame⟩ := ih (h.next hlimit hfuel hloop hheight) hrest
      refine ⟨hbounded, ?_⟩
      rw [afterWith_cons, afterWith_cons, hsame, hnext]

end Bounded

/--
Under any limit on calls, every step of a session without loops ends by running through or
with a runtime error, with the fuel `fuelFor` and in the same way with any more.  Every
session has the fuel `ample`; its answer has that error.
-/
theorem loop_free_steps_end (natives : List Native) (limit : Nat) (clock : List Int)
    (steps : List Step) (hlimit : 0 < limit) (hloops : ∀ step ∈ steps, step.hasLoop = false)
    (k : Nat) (step : Step) (hstep : steps[k]? = some step) (fuel : Nat)
    (hfuel : fuelFor limit steps ≤ fuel) :
    let s := (Session.fresh natives limit clock).afterWith (fuelFor limit steps) (steps.take k)
    (s.perform (fuelFor limit steps) step).Settled ∧
      (Session.fresh natives limit clock).afterWith fuel (steps.take k) = s ∧
      s.perform fuel step = s.perform (fuelFor limit steps) step ∧
      (fuel = Machine.ample → (Session.fresh natives limit clock).after (steps.take k) = s ∧
        (s.answer step).1.report.failure =
          (s.perform (fuelFor limit steps) step).fault?.map Fault.toRuntimeError) := by
  have hbounded : ∀ step ∈ steps, step.hasLoop = false ∧ step.height ≤ height steps :=
    fun step hstep => ⟨hloops step hstep, height_le_of_mem hstep⟩
  have hfresh := Bounded.fresh (height steps) natives limit clock
  have hbefore := fun step hstep => hbounded step (List.mem_of_mem_take (i := k) hstep)
  obtain ⟨hs, -⟩ := hfresh.afterWith hlimit (Nat.le_refl _) hbefore
  obtain ⟨-, hsame⟩ := hfresh.afterWith hlimit hfuel hbefore
  obtain ⟨hloop, hheight⟩ := hbounded step (List.mem_of_getElem? hstep)
  have hperform := hs.perform_eq hlimit hfuel hloop hheight
  refine ⟨(hs.perform_settled hlimit (Nat.le_refl _) hloop hheight).1, hsame, hperform, ?_⟩
  rintro rfl
  exact ⟨(after_eq_afterWith _ _).trans hsame,
    (answer_eq_perform _ step).2.trans (congrArg (·.fault?.map Fault.toRuntimeError) hperform)⟩

/-- A class whose initializer makes another object through a stored closure, without end. -/
def endlessSteps : List Step :=
  [.run (utf8 "class A \x7b init(f) \x7b this.f = f; this.go(); \x7d go() \x7b this.f(); \x7d \x7d"),
   .run (utf8 "fun again() \x7b A(again); \x7d print \"on\"; again();"),
   .evaluate (utf8 "again()")]

theorem loop_free_steps_end_endless :
    let fuel := fuelFor 4 endlessSteps
    let s := (Session.fresh [] 4 []).afterWith fuel (endlessSteps.take 2)
    (∀ step ∈ endlessSteps, step.hasLoop = false) ∧ fuel ≤ 100 ∧
      (s.perform fuel (.evaluate (utf8 "again()"))).Settled ∧
      (s.perform fuel (.evaluate (utf8 "again()"))).fault?.map (·.toRuntimeError.cause) =
        some .stackOverflow := by
  have hloops : ∀ step ∈ endlessSteps, step.hasLoop = false := by decide +kernel
  have hfuel : fuelFor 4 endlessSteps ≤ 100 := by decide +kernel
  have hstep : endlessSteps[2]? = some (.evaluate (utf8 "again()")) := rfl
  have h := loop_free_steps_end [] 4 [] endlessSteps (by decide) hloops 2 _ hstep 100 hfuel
  exact ⟨hloops, hfuel, h.1, by decide +kernel⟩

end Session

end Lox
