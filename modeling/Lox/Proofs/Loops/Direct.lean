import Lox.Proofs.Loops.Nested
import Lox.Proofs.Termination.MoreFuel

/-!
The loop that a `for` statement describes.

The initial statement is run once in a scope of its own, the header; then the condition,
the body and the increment are run in turn, the condition and the increment in the header.
The tree of blocks and `while` that stands for the statement does the same from every state
of the machine, whatever its parts are.
-/

namespace Lox

open Resolution (Context)

namespace Machine

/-! ## The loop -/

def inNewScope (body : Run α) : Run α := do
  let outer ← currentScope
  let scope ← newScope outer []
  inScope scope body

def forTest (n : Nat) : Option Expr → Run Value
  | none => pure (.bool true)
  | some e => eval n e

/-- Where there is an increment, names in the body are counted with a scope around it. -/
def forBody (n : Nat) (r : ForClauses) : Run Signal :=
  if r.increment.isSome then inNewScope (exec n r.body) else exec n r.body

def forIncrement (n : Nat) : Option Expr → Run Signal
  | none => return .normal
  | some e => do
      let _ ← eval n e
      return .normal

/-- The body, and the increment unless the body returned. -/
def forRound (n : Nat) (r : ForClauses) : Run Signal := do
  match ← forBody n r with
  | .returned v => return .returned v
  | .normal => forIncrement n r.increment

def forRounds (r : ForClauses) : Nat → Run Signal
  | 0 => stop .outOfFuel
  | n + 1 => do
      let v ← forTest n r.condition
      if v.isTruthy then
        match ← forRound n r with
        | .returned v => return .returned v
        | .normal => forRounds r n
      else return .normal

/-- Without an initial statement there is no scope for it. -/
def forLoop (n : Nat) (r : ForClauses) : Run Signal :=
  match r.initial with
  | none => forRounds r n
  | some s => inNewScope do
      match ← exec n s with
      | .returned v => return .returned v
      | .normal => forRounds r n

end Machine

/-! ## Fuel -/

namespace Run.Refines

variable {α : Type}

theorem ofLe {p : Nat → Run α} (h : ∀ n, Refines (p n) (p (n + 1))) {n k : Nat} (hnk : n ≤ k) :
    Refines (p n) (p k) := by
  induction hnk with
  | refl => exact .refl _
  | step _ ih => exact ih.trans (h _)

theorem inNewScope {p q : Run α} (h : Refines p q) :
    Refines (Machine.inNewScope p) (Machine.inNewScope q) :=
  (Refines.refl _).bind fun _ => (Refines.refl _).bind fun _ => h.inScope

end Run.Refines

namespace Machine

open Run (Refines)

theorem eval_refines_of_le {n k : Nat} (h : n ≤ k) (e : Expr) : Refines (eval n e) (eval k e) :=
  .ofLe (fun n => eval_refines n e) h

theorem exec_refines_of_le {n k : Nat} (h : n ≤ k) (s : Stmt) : Refines (exec n s) (exec k s) :=
  .ofLe (fun n => exec_refines n s) h

/-! ## A round of the tree -/

theorem exec_current (n : Nat) (s : Stmt) (m : Machine) :
    (exec n s m).machine.current = m.current :=
  ((Calls.exec_accounted n none s).lenient.onward m).current

theorem inScope_bind {α β : Type} (id : Nat) {p : Run α} (f : α → Run β)
    (hp : ∀ m, (p m).machine.current = m.current) :
    inScope id (p >>= f) = inScope id p >>= fun v => inScope id (f v) := by
  funext m
  have hcurrent := hp (m.within id)
  rw [inScope_eq]
  cases hpm : p (m.within id) with
  | done v m₁ =>
      rw [hpm] at hcurrent
      have hstay : m₁.within id = m₁ := within_self hcurrent
      have hfirst : inScope id p m = .done v (m₁.within m.current) := by
        rw [inScope_eq, hpm]
        rfl
      rw [Run.bind_of_done hpm, Run.bind_of_done hfirst, inScope_eq, within_within, hstay]
      rfl
  | fault cause m₁ =>
      have hfirst : inScope id p m = .fault cause (m₁.within m.current) := by
        rw [inScope_eq, hpm]
        rfl
      rw [Run.bind_of_fault hpm, Run.bind_of_fault hfirst]
      rfl

theorem settle_eq (p : Run Signal) :
    (do
      match ← p with
      | .returned v => return .returned v
      | .normal => return .normal) = p := by
  funext m
  change Run.bind p _ m = p m
  unfold Run.bind
  cases p m with
  | done signal m₁ => cases signal <;> rfl
  | fault cause m₁ => rfl

theorem execList_last (n : Nat) (s : Stmt) : execList (n + 2) [s] = exec (n + 1) s := by
  conv_rhs => rw [← settle_eq (exec (n + 1) s)]
  rfl

theorem execList_refines_exec (n : Nat) (s : Stmt) : Refines (execList n [s]) (exec n s) := by
  match n with
  | 0 => exact .outOfFuel
  | 1 =>
      rw [← settle_eq (exec 1 s)]
      exact (exec_refines 0 s).bind fun signal => by
        cases signal with
        | returned v => exact .refl _
        | normal => exact .outOfFuel
  | n + 2 =>
      rw [execList_last]
      exact exec_refines (n + 1) s

/-- The block of body and increment is the body in a new scope, then the increment outside it. -/
theorem exec_round {Γ : Context} {e : Expr} (he : e.Scoped Γ {}) (n : Nat) (body : Stmt)
    (span span' : Span) :
    exec (n + 4) (.block span [body, .expression span' (e.relabel .deeper)]) = (do
      match ← inNewScope (exec (n + 2) body) with
      | .returned v => return .returned v
      | .normal => do
          let _ ← eval n e
          return .normal) := by
  funext m
  let m₁ : Machine := { m with scopes := m.scopes.push { parent := some m.current } }
  let inner := m.scopes.size
  have hbody := exec_current (n + 2) body
  change inScope inner (exec (n + 2) body >>= _) m₁ = (inScope inner (exec (n + 2) body) >>= _) m₁
  rw [inScope_bind inner _ hbody]
  have haround : m₁.Around m.current inner := ⟨rfl, [], Array.getElem?_push_size⟩
  have hafter := ((exec_extending (n + 2) body).inScope inner) m₁
  have hback := Run.Placeless.current (.inScope inner (exec (n + 2) body)) m₁
  cases hfirst : inScope inner (exec (n + 2) body) m₁ with
  | fault cause m₂ => rw [Run.bind_of_fault hfirst, Run.bind_of_fault hfirst]
  | done signal m₂ =>
      rw [hfirst] at hafter hback
      rw [Run.bind_of_done hfirst, Run.bind_of_done hfirst]
      cases signal with
      | returned v => rfl
      | normal =>
          dsimp only
          rw [execList_last]
          change inScope inner (eval n (e.relabel .deeper) >>= fun _ => pure Signal.normal) m₂ = _
          have hlast : Run.Mirrors m.current inner
              (eval n (e.relabel .deeper) >>= fun _ => pure Signal.normal)
              (eval n e >>= fun _ => pure Signal.normal) :=
            (eval_mirrors n e he).bind fun _ => .pure _
          exact hlast.inScope_eq (haround.extends hback hafter)

/-! ## The tree and the loop -/

section

variable {Γ : Context} {r : ForClauses}

theorem test_refines_forTest (n : Nat) :
    Refines (eval n r.test) (forTest n r.condition) := by
  unfold ForClauses.test
  cases r.condition with
  | some e => exact .refl _
  | none =>
      cases n with
      | zero => exact .outOfFuel
      | succ n => exact .refl _

theorem forTest_refines_test {n k : Nat} (h : n < k) :
    Refines (forTest n r.condition) (eval k r.test) := by
  unfold ForClauses.test
  cases r.condition with
  | some e => exact eval_refines_of_le (by omega) e
  | none =>
      obtain ⟨k, rfl⟩ : ∃ j, k = j + 1 := ⟨k - 1, by omega⟩
      exact .refl _

theorem forRound_eq_exec (n : Nat) (h : r.increment = none) : forRound n r = exec n r.body := by
  unfold forRound forBody forIncrement
  rw [h]
  exact settle_eq _

theorem round_refines_forRound (hr : r.RoundScoped Γ) (n : Nat) :
    Refines (exec n r.deepen.round) (forRound (n + 2) r) := by
  unfold ForClauses.round ForClauses.deepen
  cases hincrement : r.increment with
  | none =>
      rw [forRound_eq_exec _ hincrement]
      exact exec_refines_of_le (by omega) r.body
  | some e =>
      refine (exec_refines_of_le (Nat.le_add_right n 4) _).trans ?_
      dsimp only [Option.map_some]
      rw [exec_round (hr.increment e hincrement)]
      unfold forRound forBody forIncrement
      simp only [hincrement, Option.isSome_some, if_true]
      refine (Refines.refl _).bind fun signal => ?_
      cases signal with
      | returned v => exact .refl _
      | normal => exact (eval_refines_of_le (Nat.le_add_right n 2) e).bind fun _ => .refl _

theorem forRound_refines_round (hr : r.RoundScoped Γ) (n : Nat) :
    Refines (forRound n r) (exec (n + 4) r.deepen.round) := by
  unfold ForClauses.round ForClauses.deepen
  cases hincrement : r.increment with
  | none =>
      rw [forRound_eq_exec _ hincrement]
      exact exec_refines_of_le (by omega) r.body
  | some e =>
      dsimp only [Option.map_some]
      rw [exec_round (hr.increment e hincrement)]
      unfold forRound forBody forIncrement
      simp only [hincrement, Option.isSome_some, if_true]
      refine (exec_refines_of_le (Nat.le_add_right n 2) r.body).inNewScope.bind fun signal => ?_
      cases signal with
      | returned v => exact .refl _
      | normal => exact .refl _

theorem execLoop_refines_forRounds (hr : r.RoundScoped Γ) (n : Nat) :
    Refines (execLoop n r.test r.deepen.round) (forRounds r (n + 2)) := by
  induction n with
  | zero => exact .outOfFuel
  | succ n ih =>
      refine ((eval_refines_of_le (Nat.le_add_right n 2) _).trans
        (test_refines_forTest (n + 2))).bind fun v => .ite ?_ (.refl _)
      refine (round_refines_forRound hr n).bind fun signal => ?_
      cases signal with
      | returned v => exact .refl _
      | normal => exact ih

theorem forRounds_refines_execLoop (hr : r.RoundScoped Γ) (n : Nat) :
    Refines (forRounds r n) (execLoop (n + 4) r.test r.deepen.round) := by
  induction n with
  | zero => exact .outOfFuel
  | succ n ih =>
      refine (forTest_refines_test (by omega)).bind fun v => .ite ?_ (.refl _)
      refine (forRound_refines_round hr n).bind fun signal => ?_
      cases signal with
      | returned v => exact .refl _
      | normal => exact ih

theorem loop_refines_forRounds (hr : r.RoundScoped Γ) (n : Nat) (span : Span) :
    Refines (exec n (.loop span r.test r.deepen.round)) (forRounds r (n + 2)) := by
  cases n with
  | zero => exact .outOfFuel
  | succ n => exact (execLoop_refines n _ _).trans (execLoop_refines_forRounds hr (n + 1))

theorem exec_refines_forLoop (hr : r.Scoped Γ) (n : Nat) :
    Refines (exec n r.deepen.tree) (forLoop (n + 2) r) := by
  rw [ForClauses.tree_eq]
  unfold forLoop
  have hinitial : r.deepen.initial = r.initial := rfl
  rw [hinitial]
  cases r.initial with
  | none => exact loop_refines_forRounds hr.round n _
  | some s =>
      match n with
      | 0 => exact .outOfFuel
      | 1 => exact Refines.inNewScope .outOfFuel
      | n + 2 =>
          refine Refines.inNewScope (p := execList (n + 1) _) ?_
          refine (exec_refines_of_le (by omega) s).bind fun signal => ?_
          cases signal with
          | returned v => exact .refl _
          | normal =>
              refine (execList_refines_exec n _).trans ?_
              refine (exec_refines_of_le (k := n + 2) (by omega) _).trans ?_
              exact loop_refines_forRounds hr.round (n + 2) _

theorem forRounds_refines_loop (hr : r.RoundScoped Γ) (n : Nat) (span : Span) :
    Refines (forRounds r n) (exec (n + 5) (.loop span r.test r.deepen.round)) :=
  forRounds_refines_execLoop hr n

theorem forLoop_refines_exec (hr : r.Scoped Γ) (n : Nat) :
    Refines (forLoop n r) (exec (n + 8) r.deepen.tree) := by
  rw [ForClauses.tree_eq]
  unfold forLoop
  have hinitial : r.deepen.initial = r.initial := rfl
  rw [hinitial]
  cases r.initial with
  | none => exact (forRounds_refines_loop hr.round n _).trans (exec_refines_of_le (by omega) _)
  | some s =>
      refine Refines.inNewScope (q := execList (n + 7) _) ?_
      refine (exec_refines_of_le (Nat.le_add_right n 6) s).bind fun signal => ?_
      cases signal with
      | returned v => exact .refl _
      | normal =>
          dsimp only
          rw [execList_last]
          exact forRounds_refines_loop hr.round n _

/-- From every state, the tree and the loop end in the same way or do not end. -/
theorem exec_iff_forLoop (hr : r.Scoped Γ) (m : Machine) (out : Outcome Signal)
    (hout : out.fault? ≠ some .outOfFuel) :
    (∃ n, exec n r.deepen.tree m = out) ↔ ∃ n, forLoop n r m = out :=
  Refines.exists_iff (fun n => ⟨n + 2, exec_refines_forLoop hr n⟩)
    (fun n => ⟨n + 8, forLoop_refines_exec hr n⟩) m out hout

end

end Machine

end Lox
