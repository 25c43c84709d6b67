import Lox.Proofs.Calls.Sessions

/-!
Scope and depth are balanced on every way out.

Blocks and calls are left by running through, by `return` and by faults from any depth
below.  On each of these ways the machine comes back to the scope and to the depth that it
started from, so the next entry of a session starts outside of all blocks and calls.
-/

namespace Lox

def Machine.Balanced (m m' : Machine) : Prop := m'.current = m.current ∧ m'.depth = m.depth

theorem Machine.Balanced.trans {m m₁ m₂ : Machine} (h : m.Balanced m₁) (h' : m₁.Balanced m₂) :
    m.Balanced m₂ :=
  ⟨h'.1.trans h.1, h'.2.trans h.2⟩

theorem Run.Lenient.balanced {p : Run α} (h : Lenient p) (m : Machine) :
    m.Balanced (p m).machine :=
  ⟨(h.onward m).current, (h.onward m).depth⟩

namespace Calls

open Run (Steady Lenient)
open Session (Step)

theorem callClosure_lenient (n : Nat) (code : Closure) (vs : List Value) (paren : Token) :
    Lenient (Machine.callClosure n code vs paren) := by
  cases n with
  | zero => exact Steady.outOfFuel.lenient
  | succ n =>
      rw [Machine.callClosure]
      apply Lenient.enter
      apply (Machine.bindParameters_steady _ _ _).lenient.bind
      intro _ bindings _ _
      apply (Steady.newScope _ _).lenient.bind
      intro _ scope _ _
      have hbody := (execList_accounted n none code.declaration.body).lenient
      apply (hbody.inScope scope).bind
      intro _ signal _ _
      split
      · exact (Steady.bindingAt _ _ _).lenient
      · cases signal <;> exact (Steady.pure _).lenient

theorem answer_balanced (s : Session) (step : Step) :
    s.machine.Balanced (s.answer step).2.machine := by
  obtain ⟨α, t, p, finish, h⟩ := exists_conduct s step
  rw [h.answer.1, h.concludes.machine]
  exact h.accounted.lenient.balanced s.machine

theorem after_balanced (s : Session) (steps : List Step) :
    s.machine.Balanced (s.after steps).machine := by
  induction steps generalizing s with
  | nil => exact ⟨rfl, rfl⟩
  | cons step rest ih => exact (answer_balanced s step).trans (ih (s.answer step).2)

/--
From whatever state an expression, a statement, a block in any scope, the call of a value
or of a function starts, it ends in the same scope and at the same depth, however it ends.
So after every step of a session the machine is in the global scope and no call is under
way.
-/
theorem scope_and_depth_balanced :
    (∀ n e m, Machine.Balanced m (Machine.eval n e m).machine) ∧
    (∀ n s m, Machine.Balanced m (Machine.exec n s m).machine) ∧
    (∀ n id body m, Machine.Balanced m (Machine.inScope id (Machine.execList n body) m).machine) ∧
    (∀ n f vs paren m, Machine.Balanced m (Machine.callValue n f vs paren m).machine) ∧
    (∀ n code vs paren m, Machine.Balanced m (Machine.callClosure n code vs paren m).machine) ∧
    ∀ natives limit clock steps,
      ((Session.fresh natives limit clock).after steps).machine.current = Machine.globalScope ∧
        ((Session.fresh natives limit clock).after steps).machine.depth = 0 := by
  refine ⟨?_, ?_, ?_, ?_, ?_, ?_⟩
  · intro n e
    exact (eval_accounted n {} e).lenient.balanced
  · intro n s
    exact (exec_accounted n none s).lenient.balanced
  · intro n id body
    exact ((execList_accounted n none body).lenient.inScope id).balanced
  · intro n f vs paren
    exact (callValue_accounted n f vs paren).lenient.balanced
  · intro n code vs paren
    exact (callClosure_lenient n code vs paren).balanced
  · intro natives limit clock steps
    exact after_balanced (.fresh natives limit clock) steps

/-- A fault inside a block of a method that a function calls, then a later entry. -/
example :
    let s := (Session.fresh Machine.standardNatives 0 []).after
      [.run (utf8 "class A \x7b m() \x7b \x7b var x = 1; x(); \x7d \x7d \x7d fun f() \x7b A().m(); \x7d"),
        .run (utf8 "\x7b f(); \x7d")]
    (s.machine.current, s.machine.depth, s.machine.scopes.size) = (0, 0, 6) := by
  decide +kernel

end Calls

end Lox
