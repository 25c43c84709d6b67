import Lox.Proofs.Operations
import Lox.Proofs.Scopes

/-!
Runs only add to the scopes.

Whatever is run, in whatever state, every scope is still there afterwards and has the
parent that it had.  So a scope keeps its place inside another one however long a run in
it takes.
-/

namespace Lox

open Machine (newScope inScope deeper stop raise)

namespace Run

def Extending (p : Run α) : Prop := ∀ m : Machine, m.scopes.Extends (p m).machine.scopes

namespace Extending

variable {α β : Type} {p q : Run α}

theorem ofSame (h : ∀ m, (p m).machine.scopes = m.scopes) : Extending p := by
  intro m
  rw [h m]
  exact .refl _

theorem pure (v : α) : Extending (Pure.pure v : Run α) := ofSame fun _ => rfl

theorem stop (cause : Fault) : Extending (stop cause : Run α) := ofSame fun _ => rfl

theorem bind {f : α → Run β} (hp : Extending p) (hf : ∀ v, Extending (f v)) :
    Extending (p >>= f) := by
  intro m
  have hfirst := hp m
  change m.scopes.Extends (Run.bind p f m).machine.scopes
  unfold Run.bind
  cases hpm : p m with
  | done v m₁ =>
      rw [hpm] at hfirst
      exact hfirst.trans (hf v m₁)
  | fault cause m₁ =>
      rw [hpm] at hfirst
      exact hfirst

theorem ite {c : Prop} [Decidable c] (hp : Extending p) (hq : Extending q) :
    Extending (if c then p else q) := by
  split
  · exact hp
  · exact hq

theorem inScope (id : Nat) (hp : Extending p) : Extending (inScope id p) := by
  intro m
  have hinner := hp { m with current := id }
  unfold Machine.inScope
  cases hpm : p { m with current := id } <;> rw [hpm] at hinner <;> exact hinner

theorem deeper (hp : Extending p) : Extending (deeper p) := by
  intro m
  have hinner := hp { m with depth := m.depth + 1 }
  unfold Machine.deeper
  cases hpm : p { m with depth := m.depth + 1 } <;> rw [hpm] at hinner <;> exact hinner

/-! ### Scopes and names -/

theorem newScope (parent : Nat) (bindings : Bindings Value) :
    Extending (newScope parent bindings) :=
  fun m => .push m.scopes _

theorem defineIn (id : Nat) (name : Bytes) (v : Value) :
    Extending (Machine.defineIn id name v) :=
  fun m => .define m.scopes id name v

theorem define (name : Bytes) (v : Value) : Extending (Machine.define name v) :=
  fun m => defineIn m.current name v m

theorem assign (name : Bytes) (v : Value) : Extending (Machine.assign name v) := by
  intro m
  unfold Machine.assign
  split
  · exact defineIn _ name v m
  · exact .refl _

theorem write (r : Reference) (v : Value) : Extending (Machine.write r v) := by
  intro m
  unfold Machine.write
  split <;> split
  · exact defineIn _ _ v m
  · exact .refl _
  · exact defineIn _ _ v m
  · exact .refl _

theorem bindingAt (id hops : Nat) (name : Bytes) : Extending (Machine.bindingAt id hops name) := by
  refine ofSame fun m => ?_
  unfold Machine.bindingAt
  split <;> rfl

theorem read (r : Reference) : Extending (Machine.read r) := by
  intro m
  unfold Machine.read
  split
  · exact bindingAt _ _ _ m
  · split <;> exact .refl _

end Extending

end Run

namespace Machine

open Run (Extending)

theorem Settles.extending {t : Token} {unknown : Prop} {p : Run Value}
    (h : Settles t unknown p) : Extending p := by
  cases h with
  | atom => exact .pure _
  | blame => exact .stop _

theorem applyNative_extending (f : Native) (arguments : List Value) (paren : Token) :
    Extending (applyNative f arguments paren) := by
  refine .ofSame fun m => ?_
  obtain ⟨clock, ⟨l, hrun⟩ | ⟨text, hrun⟩⟩ := applyNative_cases f arguments paren m
  · rw [hrun]
    rfl
  · rw [hrun]
    rfl

theorem bindParameters_extending (bound : Bindings Value) (parameters : List Token)
    (arguments : List Value) : Extending (bindParameters bound parameters arguments) := by
  obtain ⟨bindings, hbind⟩ | hbind := bindParameters_cases bound parameters arguments
  · rw [hbind]
    exact .pure _
  · rw [hbind]
    exact .stop _

theorem bindThis_extending (method : Closure) (receiver : Value) :
    Extending (bindThis method receiver) :=
  (Extending.newScope _ _).bind fun _ => .pure _

theorem functionOf_extending (code : Closure) : Extending (functionOf code) :=
  Extending.bind (.ofSame fun _ => rfl) fun _ => .pure _

theorem getProperty_extending (id : Nat) (c : ClassObject) (name : Token) :
    Extending (getProperty id c name) := by
  refine Extending.bind (.ofSame fun _ => rfl) fun found => ?_
  split
  · exact .pure _
  · split
    · exact (bindThis_extending _ _).bind functionOf_extending
    · exact .stop _

theorem getSuper_extending (r : Reference) (method : Token) :
    Extending (getSuper r method) := by
  unfold getSuper
  split
  · exact .stop _
  · refine Extending.bind (.ofSame fun _ => rfl) fun scope => ?_
    refine (Extending.bindingAt _ _ _).bind fun parent => ?_
    refine (Extending.bindingAt _ _ _).bind fun receiver => ?_
    split
    · split
      · exact (bindThis_extending _ _).bind functionOf_extending
      · exact .stop _
    · exact .stop _

theorem declareClass_extending (name : Token) (parent : Option ClassObject)
    (methods : List FunctionDecl) : Extending (declareClass name parent methods) := by
  have rest (scope : Nat) : Extending (do
      let id ← newIdentity
      assign name.lexeme
        (.classObject (.mk id name.lexeme parent (methodsIn scope methods)))) :=
    Extending.bind (.ofSame fun _ => rfl) fun id => .assign _ _
  refine (Extending.define _ _).bind fun _ => Extending.bind (.ofSame fun _ => rfl) fun outer => ?_
  cases parent with
  | some c => exact (Extending.newScope _ _).bind rest
  | none => exact rest outer

/-! ## Evaluation -/

mutual

theorem eval_extending (n : Nat) (e : Expr) : Extending (eval n e) := by
  match n with
  | 0 => exact .stop _
  | n + 1 =>
      cases e with
      | absent => exact .stop _
      | literal span value => exact .pure _
      | grouping span inner => exact eval_extending n inner
      | unary span operator operand =>
          exact (eval_extending n operand).bind fun v => (applyUnary_settles operator v).extending
      | binary span operator left right =>
          exact (eval_extending n left).bind fun v =>
            (eval_extending n right).bind fun w => (applyBinary_settles operator v w).extending
      | logical span operator left right =>
          exact (eval_extending n left).bind fun _ => .ite (.pure _) (eval_extending n right)
      | var r | thisRef r => exact .read r
      | assign target value =>
          exact (eval_extending n value).bind fun v => (Extending.write target v).bind fun _ =>
            .pure _
      | call span callee paren arguments =>
          refine (eval_extending n callee).bind fun f => ?_
          exact (evalList_extending n arguments).bind fun vs => callValue_extending n f vs paren
      | get span object name =>
          refine (eval_extending n object).bind fun v => ?_
          cases v with
          | object id c => exact getProperty_extending id c name
          | _ => exact .stop _
      | set span object name value =>
          refine (eval_extending n object).bind fun v => ?_
          cases v with
          | object id c =>
              refine (eval_extending n value).bind fun w => ?_
              exact Extending.bind (.ofSame fun _ => rfl) fun _ => .pure _
          | _ => exact .stop _
      | superRef r method => exact getSuper_extending r method
termination_by structural n

theorem evalList_extending (n : Nat) (es : List Expr) : Extending (evalList n es) := by
  match n with
  | 0 => exact .stop _
  | n + 1 =>
      cases es with
      | nil => exact .pure _
      | cons e rest =>
          exact (eval_extending n e).bind fun _ => (evalList_extending n rest).bind fun _ =>
            .pure _
termination_by structural n

theorem callValue_extending (n : Nat) (f : Value) (vs : List Value) (paren : Token) :
    Extending (callValue n f vs paren) := by
  match n with
  | 0 => exact .stop _
  | n + 1 =>
      cases f with
      | native f => exact .ite (.stop _) (applyNative_extending f vs paren)
      | function id code => exact .ite (.stop _) (callClosure_extending n code vs paren)
      | classObject c =>
          refine .ite (.stop _) (Extending.bind (.ofSame fun _ => rfl) fun object => ?_)
          cases c.initializer? with
          | none => exact .pure _
          | some method =>
              refine (bindThis_extending method object).bind fun code => ?_
              exact (callClosure_extending n code vs paren).bind fun _ => .pure _
      | _ => exact .stop _
termination_by structural n

theorem callClosure_extending (n : Nat) (code : Closure) (vs : List Value) (paren : Token) :
    Extending (callClosure n code vs paren) := by
  match n with
  | 0 => exact .stop _
  | n + 1 =>
      refine Extending.bind (.ofSame fun _ => rfl) fun full => .ite (.stop _) (.deeper ?_)
      refine (bindParameters_extending _ _ _).bind fun bindings => ?_
      refine (Extending.newScope _ _).bind fun scope => ?_
      refine ((execList_extending n code.declaration.body).inScope scope).bind fun signal => ?_
      refine .ite (.bindingAt _ _ _) ?_
      cases signal <;> exact .pure _
termination_by structural n

theorem exec_extending (n : Nat) (s : Stmt) : Extending (exec n s) := by
  match n with
  | 0 => exact .stop _
  | n + 1 =>
      cases s with
      | expression span e => exact (eval_extending n e).bind fun _ => .pure _
      | print span e =>
          exact (eval_extending n e).bind fun _ => Extending.bind (.ofSame fun _ => rfl) fun _ =>
            .pure _
      | var span name initial =>
          cases initial with
          | none => exact (Extending.define _ _).bind fun _ => .pure _
          | some e =>
              exact (eval_extending n e).bind fun v => (Extending.define _ v).bind fun _ => .pure _
      | block span body =>
          refine Extending.bind (.ofSame fun _ => rfl) fun outer => ?_
          exact (Extending.newScope _ _).bind fun scope => (execList_extending n body).inScope scope
      | branch span condition onTrue onFalse =>
          refine (eval_extending n condition).bind fun v => .ite (exec_extending n onTrue) ?_
          cases onFalse with
          | none => exact .pure _
          | some onFalse => exact exec_extending n onFalse
      | loop span condition body => exact execLoop_extending n condition body
      | function f =>
          refine Extending.bind (.ofSame fun _ => rfl) fun scope => ?_
          exact (functionOf_extending _).bind fun v => (Extending.define _ v).bind fun _ => .pure _
      | ret span keyword value =>
          cases value with
          | none => exact .pure _
          | some e => exact (eval_extending n e).bind fun _ => .pure _
      | classDecl span name parent methods =>
          cases parent with
          | none => exact (declareClass_extending _ _ _).bind fun _ => .pure _
          | some parent =>
              refine (Extending.read parent).bind fun v => ?_
              cases v with
              | classObject c => exact (declareClass_extending _ _ _).bind fun _ => .pure _
              | _ => exact .stop _
termination_by structural n

theorem execList_extending (n : Nat) (body : List Stmt) : Extending (execList n body) := by
  match n with
  | 0 => exact .stop _
  | n + 1 =>
      cases body with
      | nil => exact .pure _
      | cons s rest =>
          refine (exec_extending n s).bind fun signal => ?_
          cases signal with
          | returned v => exact .pure _
          | normal => exact execList_extending n rest
termination_by structural n

theorem execLoop_extending (n : Nat) (condition : Expr) (body : Stmt) :
    Extending (execLoop n condition body) := by
  match n with
  | 0 => exact .stop _
  | n + 1 =>
      refine (eval_extending n condition).bind fun v => .ite ?_ (.pure _)
      refine (exec_extending n body).bind fun signal => ?_
      cases signal with
      | returned v => exact .pure _
      | normal => exact execLoop_extending n condition body
termination_by structural n

end

end Machine

end Lox
