import Lox.Proofs.Session.Fuel

/-!
More fuel changes nothing about a run that ends.

Where a run ends for another reason than want of fuel, the same run with more fuel takes the
same course to the same end.  So the end of a run that ends is a matter of the program alone.
-/

namespace Lox

namespace Run

/-- Wherever `p` has enough fuel, `q` does the same. -/
def Refines (p q : Run α) : Prop := ∀ m, (p m).fault? ≠ some .outOfFuel → q m = p m

namespace Refines

variable {α β : Type} {p q r : Run α}

theorem refl (p : Run α) : Refines p p := fun _ _ => rfl

theorem outOfFuel : Refines (Machine.stop .outOfFuel) p := fun _ h => absurd rfl h

theorem trans (h : Refines p q) (h' : Refines q r) : Refines p r := by
  intro m hm
  have hq := h m hm
  exact (h' m (hq ▸ hm)).trans hq

theorem bind {f g : α → Run β} (hp : Refines p q) (hf : ∀ v, Refines (f v) (g v)) :
    Refines (p >>= f) (q >>= g) := by
  intro m hm
  cases hpm : p m with
  | done v m₁ =>
      have hq := (hp m (by simp [hpm, Outcome.fault?])).trans hpm
      rw [bind_of_done hpm] at hm ⊢
      rw [bind_of_done hq]
      exact hf v m₁ hm
  | fault cause m₁ =>
      rw [bind_of_fault hpm] at hm
      have hq := (hp m (by rw [hpm]; exact hm)).trans hpm
      rw [bind_of_fault hpm, bind_of_fault hq]

theorem ite {c : Prop} [Decidable c] {p' q' : Run α} (hthen : Refines p q)
    (helse : Refines p' q') : Refines (if c then p else p') (if c then q else q') := by
  split
  · exact hthen
  · exact helse

theorem inScope {id : Nat} (h : Refines p q) :
    Refines (Machine.inScope id p) (Machine.inScope id q) := by
  intro m hm
  unfold Machine.inScope at hm ⊢
  have hinner := h { m with current := id }
  cases hp : p { m with current := id } <;> rw [hp] at hm hinner <;> rw [hinner hm]

theorem deeper (h : Refines p q) : Refines (Machine.deeper p) (Machine.deeper q) := by
  intro m hm
  unfold Machine.deeper at hm ⊢
  have hinner := h { m with depth := m.depth + 1 }
  cases hp : p { m with depth := m.depth + 1 } <;> rw [hp] at hm hinner <;> rw [hinner hm]

theorem exists_iff {p q : Nat → Run α} (h : ∀ n, ∃ k, Refines (p n) (q k))
    (h' : ∀ n, ∃ k, Refines (q n) (p k)) (m : Machine) (out : Outcome α)
    (hout : out.fault? ≠ some .outOfFuel) : (∃ n, p n m = out) ↔ ∃ n, q n m = out := by
  constructor
  · rintro ⟨n, rfl⟩
    obtain ⟨k, hk⟩ := h n
    exact ⟨k, hk m hout⟩
  · rintro ⟨n, rfl⟩
    obtain ⟨k, hk⟩ := h' n
    exact ⟨k, hk m hout⟩

end Refines

end Run

namespace Machine

open Run (Refines)

mutual

theorem eval_refines (n : Nat) (e : Expr) : Refines (eval n e) (eval (n + 1) e) := by
  match n with
  | 0 => exact .outOfFuel
  | n + 1 =>
      cases e with
      | absent | literal | var | thisRef | superRef => exact .refl _
      | grouping span inner => exact eval_refines n inner
      | unary span operator operand =>
          exact (eval_refines n operand).bind fun _ => .refl _
      | binary span operator left right =>
          exact (eval_refines n left).bind fun _ => (eval_refines n right).bind fun _ => .refl _
      | logical span operator left right =>
          exact (eval_refines n left).bind fun _ => .ite (.refl _) (eval_refines n right)
      | assign target value =>
          exact (eval_refines n value).bind fun _ => .refl _
      | call span callee paren arguments =>
          refine (eval_refines n callee).bind fun f => ?_
          exact (evalList_refines n arguments).bind fun vs => callValue_refines n f vs paren
      | get span object name => exact (eval_refines n object).bind fun _ => .refl _
      | set span object name value =>
          refine (eval_refines n object).bind fun v => ?_
          cases v with
          | object id c => exact (eval_refines n value).bind fun _ => .refl _
          | _ => exact .refl _
termination_by structural n

theorem evalList_refines (n : Nat) (es : List Expr) :
    Refines (evalList n es) (evalList (n + 1) es) := by
  match n with
  | 0 => exact .outOfFuel
  | n + 1 =>
      cases es with
      | nil => exact .refl _
      | cons e rest =>
          exact (eval_refines n e).bind fun _ => (evalList_refines n rest).bind fun _ => .refl _
termination_by structural n

theorem callValue_refines (n : Nat) (f : Value) (vs : List Value) (paren : Token) :
    Refines (callValue n f vs paren) (callValue (n + 1) f vs paren) := by
  match n with
  | 0 => exact .outOfFuel
  | n + 1 =>
      cases f with
      | function id code => exact .ite (.refl _) (callClosure_refines n code vs paren)
      | classObject c =>
          refine .ite (.refl _) ((Refines.refl _).bind fun object => ?_)
          cases c.initializer? with
          | none => exact .refl _
          | some method =>
              refine (Refines.refl _).bind fun code => ?_
              exact (callClosure_refines n code vs paren).bind fun _ => .refl _
      | _ => exact .refl _
termination_by structural n

theorem callClosure_refines (n : Nat) (code : Closure) (vs : List Value) (paren : Token) :
    Refines (callClosure n code vs paren) (callClosure (n + 1) code vs paren) := by
  match n with
  | 0 => exact .outOfFuel
  | n + 1 =>
      refine (Refines.refl _).bind fun full => .ite (.refl _) (.deeper ?_)
      refine (Refines.refl _).bind fun bindings => (Refines.refl _).bind fun scope => ?_
      exact (execList_refines n code.declaration.body).inScope.bind fun _ => .refl _
termination_by structural n

theorem exec_refines (n : Nat) (s : Stmt) : Refines (exec n s) (exec (n + 1) s) := by
  match n with
  | 0 => exact .outOfFuel
  | n + 1 =>
      cases s with
      | expression span e | print span e => exact (eval_refines n e).bind fun _ => .refl _
      | var span name initial | ret span keyword initial =>
          cases initial with
          | none => exact .refl _
          | some e => exact (eval_refines n e).bind fun _ => .refl _
      | block span body =>
          refine (Refines.refl _).bind fun outer => (Refines.refl _).bind fun scope => ?_
          exact (execList_refines n body).inScope
      | branch span condition onTrue onFalse =>
          refine (eval_refines n condition).bind fun v => .ite (exec_refines n onTrue) ?_
          cases onFalse with
          | none => exact .refl _
          | some onFalse => exact exec_refines n onFalse
      | loop span condition body => exact execLoop_refines n condition body
      | function f => exact .refl _
      | classDecl span name parent methods => cases parent <;> exact .refl _
termination_by structural n

theorem execList_refines (n : Nat) (body : List Stmt) :
    Refines (execList n body) (execList (n + 1) body) := by
  match n with
  | 0 => exact .outOfFuel
  | n + 1 =>
      cases body with
      | nil => exact .refl _
      | cons s rest =>
          refine (exec_refines n s).bind fun signal => ?_
          cases signal with
          | returned v => exact .refl _
          | normal => exact execList_refines n rest
termination_by structural n

theorem execLoop_refines (n : Nat) (condition : Expr) (body : Stmt) :
    Refines (execLoop n condition body) (execLoop (n + 1) condition body) := by
  match n with
  | 0 => exact .outOfFuel
  | n + 1 =>
      refine (eval_refines n condition).bind fun v => .ite ?_ (.refl _)
      refine (exec_refines n body).bind fun signal => ?_
      cases signal with
      | returned v => exact .refl _
      | normal => exact execLoop_refines n condition body
termination_by structural n

end

theorem execProgram_refines (n : Nat) (program : List Stmt) :
    Refines (execProgram n program) (execProgram (n + 1) program) := by
  induction program with
  | nil => exact .refl _
  | cons s rest ih => exact (exec_refines n s).bind fun _ => ih

/-- The fuel of every run is more than some other that is enough for a run that ends. -/
theorem exists_evaluate_eq : ∃ n, ample = n + 1 ∧ ∀ (e : Expr) (m : Machine),
    (eval n e m).fault? ≠ some .outOfFuel → evaluate e m = eval n e m :=
  ⟨999999999999999999, rfl, fun e m h => eval_refines _ e m h⟩

end Machine

namespace Session

open Run (Refines)

theorem task_refines (s : Session) (step : Step) (fuel : Nat) :
    Refines (s.task fuel step) (s.task (fuel + 1) step) := by
  cases step with
  | run source =>
      exact .ite (.refl _) ((Machine.execProgram_refines fuel _).bind fun _ => .refl _)
  | evaluate source => exact .ite (.refl _) ((Machine.eval_refines fuel _).bind fun _ => .refl _)
  | globals => exact .refl _

/-- Fuel beyond what a step needs makes no difference. -/
theorem perform_eq_of_le (s : Session) (step : Step) {enough fuel : Nat} (h : enough ≤ fuel)
    (hends : (s.perform enough step).fault? ≠ some .outOfFuel) :
    s.perform fuel step = s.perform enough step := by
  have hrefines : Refines (s.task enough step) (s.task fuel step) := by
    induction h with
    | refl => exact .refl _
    | step _ ih => exact ih.trans (task_refines s step _)
  exact hrefines s.machine hends

end Session

end Lox
