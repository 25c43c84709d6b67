import Lox.Proofs.Lexical.Refinement
import Lox.Proofs.Loops.Direct

/-!
The loop of a `for` statement with locations.

With locations there is one environment for the whole loop: the one that the initial
statement leaves.  The condition, the body and the increment all start from it in every
round, so none of them sees what the body declares, and a loop variable has one location,
which is shared by all functions that the body makes.
-/

namespace Lox.Lexical

open Resolution (Context)

/-! ## The loop -/

def forTest (n : Nat) (ρ : Env) : Option Expr → Run Value
  | none => pure (.bool true)
  | some e => eval n ρ e

def ending (p : Run (Signal × Env)) : Run Signal := do
  let ended ← p
  return ended.1

def forIncrement (n : Nat) (ρ : Env) : Option Expr → Run Signal
  | none => return .normal
  | some e => do
      let _ ← eval n ρ e
      return .normal

def forRound (n : Nat) (ρ : Env) (p : ForClauses) : Run Signal := do
  match ← ending (exec n ρ p.body) with
  | .returned v => return .returned v
  | .normal => forIncrement n ρ p.increment

def forRounds (ρ : Env) (p : ForClauses) : Nat → Run Signal
  | 0 => lift (Machine.stop .outOfFuel)
  | n + 1 => do
      let v ← forTest n ρ p.condition
      if v.isTruthy then
        match ← forRound n ρ p with
        | .returned v => return .returned v
        | .normal => forRounds ρ p n
      else return .normal

/-- The rounds are run in the environment that the initial statement leaves. -/
def forLoop (n : Nat) (ρ : Env) (p : ForClauses) : Run Signal :=
  match p.initial with
  | none => forRounds ρ p n
  | some s => do
      match ← exec n ρ.inner s with
      | (.returned v, _) => return .returned v
      | (.normal, ρ) => forRounds ρ p n

/-! ## A scope without names -/

section

variable (ρ : Env)

mutual

theorem eval_inner (n : Nat) (e : Expr) : eval n ρ.inner e = eval n ρ e := by
  match n with
  | 0 => rfl
  | n + 1 =>
      cases e with
      | absent | literal | var | thisRef | superRef => rfl
      | grouping span inner => exact eval_inner n inner
      | unary span operator operand => simp only [eval, eval_inner n operand]
      | binary span operator left right => simp only [eval, eval_inner n left, eval_inner n right]
      | logical span operator left right => simp only [eval, eval_inner n left, eval_inner n right]
      | assign target value =>
          simp only [eval, eval_inner n value]
          rfl
      | call span callee paren arguments =>
          simp only [eval, eval_inner n callee, evalList_inner n arguments]
      | get span object name => simp only [eval, eval_inner n object]
      | set span object name value => simp only [eval, eval_inner n object, eval_inner n value]
termination_by structural n

theorem evalList_inner (n : Nat) (es : List Expr) : evalList n ρ.inner es = evalList n ρ es := by
  match n with
  | 0 => rfl
  | n + 1 =>
      cases es with
      | nil => rfl
      | cons e rest => simp only [evalList, eval_inner n e, evalList_inner n rest]
termination_by structural n

end

theorem ending_bind {α : Type} (p : Run α) (f : α → Run (Signal × Env)) :
    ending (p >>= f) = p >>= fun v => ending (f v) := by
  funext s
  change Run.bind (Run.bind p f) _ s = Run.bind p (fun v => Run.bind (f v) _) s
  unfold Run.bind
  cases p s <;> rfl

theorem bind_of_ending {α : Type} (p : Run (Signal × Env)) (f : Signal × Env → Run α)
    (g : Signal → Run α) (h : ∀ signal ρ, f (signal, ρ) = g signal) :
    p >>= f = ending p >>= g := by
  funext s
  change Run.bind p f s = Run.bind (Run.bind p _) g s
  unfold Run.bind
  cases p s with
  | done ended s' => exact congrFun (h ended.1 ended.2) s'
  | fault cause s' => rfl

mutual

/-- A statement that declares nothing does in a new scope what it does outside it. -/
theorem ending_exec_inner {Γ : Context} (n : Nat) (s : Stmt) (hs : s.Scoped Γ)
    (hsilent : s.declared? = none) :
    ending (exec n ρ.inner (s.relabel .unresolve)) =
      ending (exec n ρ (s.relabel .unresolve)) := by
  match n with
  | 0 => rfl
  | n + 1 =>
      cases s with
      | expression span e =>
          simp only [Stmt.relabel, exec, eval_inner, ending_bind]
          rfl
      | print span e =>
          simp only [Stmt.relabel, exec, eval_inner, ending_bind]
          rfl
      | block span body =>
          simp only [Stmt.relabel, exec, ending_bind]
          rfl
      | branch span condition onTrue onFalse =>
          cases onFalse with
          | none =>
              simp only [Stmt.Scoped] at hs
              simp only [Stmt.relabel, exec, eval_inner, ending_bind, apply_ite ending,
                ending_exec_inner n onTrue hs.2.1 hs.2.2]
              rfl
          | some onFalse =>
              simp only [Stmt.Scoped] at hs
              simp only [Stmt.relabel, exec, eval_inner, ending_bind, apply_ite ending,
                ending_exec_inner n onTrue hs.2.1 hs.2.2.1,
                ending_exec_inner n onFalse hs.2.2.2.1 hs.2.2.2.2]
      | loop span condition body =>
          simp only [Stmt.Scoped] at hs
          simp only [Stmt.relabel, exec, ending_bind]
          rw [execLoop_inner n condition body hs.2.1 hs.2.2]
          rfl
      | ret span keyword value =>
          cases value with
          | none => rfl
          | some e =>
              simp only [Stmt.relabel, Option.map_some, exec, eval_inner, ending_bind]
              rfl
      | var | function | classDecl => simp [Stmt.declared?] at hsilent
termination_by structural n

theorem execLoop_inner {Γ : Context} (n : Nat) (condition : Expr) (body : Stmt)
    (hbody : body.Scoped Γ) (hsilent : body.declared? = none) :
    execLoop n ρ.inner (condition.relabel .unresolve) (body.relabel .unresolve) =
      execLoop n ρ (condition.relabel .unresolve) (body.relabel .unresolve) := by
  match n with
  | 0 => rfl
  | n + 1 =>
      have hround (ρ : Env) : execLoop (n + 1) ρ (condition.relabel .unresolve)
          (body.relabel .unresolve) = (do
            let v ← eval n ρ (condition.relabel .unresolve)
            if v.isTruthy then
              match ← ending (exec n ρ (body.relabel .unresolve)) with
              | .returned v => return .returned v
              | .normal => execLoop n ρ (condition.relabel .unresolve) (body.relabel .unresolve)
            else return .normal) := by
        simp only [execLoop]
        refine congrArg _ (funext fun v => ?_)
        refine congrArg (fun p => if v.isTruthy then p else _) ?_
        exact bind_of_ending _ _ _ fun signal ρ => by cases signal <;> rfl
      rw [hround, hround, eval_inner, ending_exec_inner n body hbody hsilent,
        execLoop_inner n condition body hbody hsilent]
termination_by structural n

end

end

/-! ## The two loops -/

section

variable {F : Nat → Prop} {i : Nat} {w : World} {Γ : Context} {ρ : Env} {r : ForClauses}

theorem inNewScope_sim {n : Nat} {s : Stmt} (henv : EnvRel w none Γ i ρ) (hs : s.Scoped ([] :: Γ))
    (hsilent : s.declared? = none) :
    Sim F i w (Machine.inNewScope (Machine.exec n s)) (ending (exec n ρ (s.relabel .unresolve)))
      SignalRel := by
  rw [← ending_exec_inner ρ n s hs hsilent]
  refine currentScope_sim.bindLeft fun w₁ outer hw₁ houter => ?_
  subst houter
  refine (openScope_sim (henv.mono hw₁)).bindLeft fun w₂ k hw₂ h₂ => .inScope ?_
  exact (exec_sim n s h₂.2.1 h₂.2.2 h₂.1 hs).mapRight fun _ _ _ _ h => h.1

theorem forTest_sim (n : Nat) {condition : Option Expr} (henv : EnvRel w none Γ i ρ)
    (h : ∀ e ∈ condition, e.Scoped Γ {}) :
    Sim F i w (Machine.forTest n condition)
      (forTest n ρ (condition.map fun e => e.relabel .unresolve)) ValueRel := by
  cases condition with
  | none => exact .pure (.bool true)
  | some e => exact eval_sim n e henv (h e rfl)

theorem forIncrement_sim (n : Nat) {increment : Option Expr} (henv : EnvRel w none Γ i ρ)
    (h : ∀ e ∈ increment, e.Scoped Γ {}) :
    Sim F i w (Machine.forIncrement n increment)
      (forIncrement n ρ (increment.map fun e => e.relabel .unresolve)) SignalRel := by
  cases increment with
  | none => exact .pure .normal
  | some e => exact (eval_sim n e henv (h e rfl)).bind fun _ _ _ _ _ => .pure .normal

theorem forBody_sim (n : Nat) (henv : EnvRel w none Γ i ρ) (hexact : Exact w Γ i) (hfree : ¬F i)
    (hr : r.RoundScoped Γ) :
    Sim F i w (Machine.forBody n r) (ending (exec n ρ (r.body.relabel .unresolve)))
      fun w' σ σ' => SignalRel w' σ σ' ∧ Exact w' Γ i := by
  have hbody := hr.body
  have hsilent := hr.silent
  unfold Machine.forBody
  cases hincrement : r.increment with
  | none =>
      rw [hincrement] at hbody
      refine (exec_sim n r.body henv hexact hfree hbody).mapRight fun w' σ σ' hw' h => ⟨h.1, ?_⟩
      have hafter := h.2.2
      rwa [Stmt.contextAfter_of_declared?_eq_none hsilent] at hafter
  | some e =>
      rw [hincrement] at hbody
      exact (Sim.keep henv (inNewScope_sim henv hbody hsilent)).imp fun w' σ σ' hw' h =>
        ⟨h.1, hexact.of_layout_eq h.2⟩

theorem forRound_sim (n : Nat) (henv : EnvRel w none Γ i ρ) (hexact : Exact w Γ i) (hfree : ¬F i)
    (hr : r.RoundScoped Γ) :
    Sim F i w (Machine.forRound n r) (forRound n ρ r.unresolve)
      fun w' σ σ' => SignalRel w' σ σ' ∧ Exact w' Γ i := by
  refine (forBody_sim n henv hexact hfree hr).bind fun w₁ σ σ' hw₁ h₁ => ?_
  cases h₁.1 with
  | returned hv => exact .pure ⟨.returned hv, h₁.2⟩
  | normal =>
      have henv₁ := henv.mono hw₁
      exact (Sim.keep henv₁ (forIncrement_sim n henv₁ hr.increment)).imp fun w' σ σ' hw' h =>
        ⟨h.1, h₁.2.of_layout_eq h.2⟩

theorem forRounds_sim (n : Nat) (henv : EnvRel w none Γ i ρ) (hexact : Exact w Γ i) (hfree : ¬F i)
    (hr : r.RoundScoped Γ) :
    Sim F i w (Machine.forRounds r n) (forRounds ρ r.unresolve n) SignalRel := by
  induction n generalizing w with
  | zero => exact .stop _
  | succ n ih =>
      refine (Sim.keep henv (forTest_sim n henv hr.condition)).bind fun w₁ v v' hw₁ h₁ => ?_
      have henv₁ := henv.mono hw₁
      rw [h₁.1.isTruthy_eq]
      refine .ite (fun _ => ?_) fun _ => .pure .normal
      refine (forRound_sim n henv₁ (hexact.of_layout_eq h₁.2) hfree hr).bind
        fun w₂ σ σ' hw₂ h₂ => ?_
      cases h₂.1 with
      | returned hv => exact .pure (.returned hv)
      | normal => exact ih (henv₁.mono hw₂) h₂.2

/-- The loop of the machine does what the loop with locations does. -/
theorem forLoop_sim (n : Nat) (henv : EnvRel w none Γ i ρ) (hexact : Exact w Γ i) (hfree : ¬F i)
    (hr : r.Scoped Γ) :
    Sim F i w (Machine.forLoop n r) (forLoop n ρ r.unresolve) SignalRel := by
  have hround := hr.round
  have hread : r.unresolve.initial = r.initial.map fun s => s.relabel .unresolve := rfl
  unfold ForClauses.header at hround
  unfold Machine.forLoop forLoop
  rw [hread]
  cases hinitial : r.initial with
  | none =>
      rw [hinitial] at hround
      exact forRounds_sim n henv hexact hfree hround
  | some s =>
      rw [hinitial] at hround
      refine currentScope_sim.bindLeft fun w₁ outer hw₁ houter => ?_
      subst houter
      refine (openScope_sim (henv.mono hw₁)).bindLeft fun w₂ k hw₂ h₂ => .inScope ?_
      refine (exec_sim n s h₂.2.1 h₂.2.2 h₂.1 (hr.initial s hinitial)).bind
        fun w₃ σ σ' hw₃ h₃ => ?_
      obtain ⟨signal', ρ'⟩ := σ'
      obtain ⟨hsignal, henv₃, hexact₃⟩ := h₃
      cases hsignal with
      | returned hv => exact .pure (.returned hv)
      | normal => exact forRounds_sim n henv₃ hexact₃ h₂.1 hround

end

end Lox.Lexical
