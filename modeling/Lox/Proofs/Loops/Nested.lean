import Lox.Proofs.Calls.Evaluation
import Lox.Proofs.Loops.Clauses
import Lox.Proofs.Loops.Extending

/-!
One scope further in.

Evaluating an expression in a scope that was opened inside another one, with every
distance one greater, is evaluating it in the scope around: the scope inside is passed over
by every look-up, and calls do not depend on where they are made.
-/

namespace Lox

open Resolution (Context Site)
open Run (Extending Steady)

def Machine.within (id : Nat) (m : Machine) : Machine := { m with current := id }

@[simp] theorem Machine.within_within (id id' : Nat) (m : Machine) :
    (m.within id).within id' = m.within id' := rfl

theorem Machine.within_self {id : Nat} {m : Machine} (h : m.current = id) : m.within id = m := by
  subst h
  rfl

theorem Machine.inScope_eq (id : Nat) (p : Run α) (m : Machine) :
    Machine.inScope id p m = (p (m.within id)).onMachine (.within m.current) := by
  unfold Machine.inScope Machine.within
  cases p { m with current := id } <;> rfl

namespace Run

/-! ## Runs that do not look at the current scope -/

def Placeless (p : Run α) : Prop :=
  ∀ (id : Nat) (m : Machine), p (m.within id) = (p m).onMachine (.within id)

namespace Placeless

variable {α β : Type} {p : Run α}

theorem current (h : Placeless p) (m : Machine) : (p m).machine.current = m.current := by
  have hself := congrArg (fun out => out.machine.current) (h m.current m)
  rwa [Outcome.onMachine_machine] at hself

theorem pure (v : α) : Placeless (Pure.pure v : Run α) := fun _ _ => rfl

theorem stop (cause : Fault) : Placeless (Machine.stop cause : Run α) := fun _ _ => rfl

theorem bind {f : α → Run β} (hp : Placeless p) (hf : ∀ v, Placeless (f v)) :
    Placeless (p >>= f) := by
  intro id m
  have hfirst := hp id m
  cases hpm : p m with
  | done v m₁ =>
      rw [hpm] at hfirst
      rw [bind_of_done hpm, bind_of_done hfirst]
      exact hf v id m₁
  | fault cause m₁ =>
      rw [hpm] at hfirst
      rw [bind_of_fault hpm, bind_of_fault hfirst]
      rfl

theorem ite {c : Prop} [Decidable c] {q : Run α} (hp : Placeless p) (hq : Placeless q) :
    Placeless (if c then p else q) := by
  split
  · exact hp
  · exact hq

/-- A body with a scope of its own does not depend on where it is run from. -/
theorem inScope (id : Nat) (p : Run α) : Placeless (Machine.inScope id p) := by
  intro id' m
  rw [Machine.inScope_eq, Machine.inScope_eq, Machine.within_within]
  cases p (m.within id) <;> rfl

theorem deeper (hp : Placeless p) : Placeless (Machine.deeper p) := by
  intro id m
  have hinner : p { m.within id with depth := (m.within id).depth + 1 } =
      (p { m with depth := m.depth + 1 }).onMachine (.within id) :=
    hp id { m with depth := m.depth + 1 }
  unfold Machine.deeper
  rw [hinner]
  cases p { m with depth := m.depth + 1 } <;> rfl

theorem newScope (parent : Nat) (bindings : Bindings Value) :
    Placeless (Machine.newScope parent bindings) := fun _ _ => rfl

theorem bindingAt (id hops : Nat) (name : Bytes) :
    Placeless (Machine.bindingAt id hops name) := by
  intro id' m
  unfold Machine.bindingAt
  rw [show (m.within id').scopes = m.scopes from rfl]
  cases m.scopes.getAt? id hops name <;> rfl

end Placeless

end Run

namespace Machine

open Run (Placeless)

theorem Settles.placeless {t : Token} {unknown : Prop} {p : Run Value}
    (h : Settles t unknown p) : Placeless p := by
  cases h with
  | atom => exact .pure _
  | blame => exact .stop _

theorem applyNative_placeless (f : Native) (arguments : List Value) (paren : Token) :
    Placeless (applyNative f arguments paren) := by
  intro id m
  simp only [applyNative, within]
  obtain ⟨_ | _, clock⟩ := f.code (arguments.map Value.face) m.clock <;> rfl

theorem bindParameters_placeless (bound : Bindings Value) (parameters : List Token)
    (arguments : List Value) : Placeless (bindParameters bound parameters arguments) := by
  obtain ⟨bindings, hbind⟩ | hbind := bindParameters_cases bound parameters arguments
  · rw [hbind]
    exact .pure _
  · rw [hbind]
    exact .stop _

theorem bindThis_placeless (method : Closure) (receiver : Value) :
    Placeless (bindThis method receiver) :=
  (Placeless.newScope _ _).bind fun _ => .pure _

theorem functionOf_placeless (code : Closure) : Placeless (functionOf code) :=
  Placeless.bind (fun _ _ => rfl) fun _ => .pure _

theorem getProperty_placeless (id : Nat) (c : ClassObject) (name : Token) :
    Placeless (getProperty id c name) := by
  refine Placeless.bind (fun _ _ => rfl) fun found => ?_
  split
  · exact .pure _
  · split
    · exact (bindThis_placeless _ _).bind functionOf_placeless
    · exact .stop _

theorem callClosure_placeless (n : Nat) (code : Closure) (vs : List Value) (paren : Token) :
    Placeless (callClosure n code vs paren) := by
  cases n with
  | zero => exact .stop _
  | succ n =>
      refine Placeless.bind (fun _ _ => rfl) fun full => .ite (.stop _) (.deeper ?_)
      refine (bindParameters_placeless _ _ _).bind fun bindings => ?_
      refine (Placeless.newScope _ _).bind fun scope => ?_
      refine (Placeless.inScope scope _).bind fun signal => ?_
      refine .ite (.bindingAt _ _ _) ?_
      cases signal <;> exact .pure _

theorem callValue_placeless (n : Nat) (f : Value) (vs : List Value) (paren : Token) :
    Placeless (callValue n f vs paren) := by
  cases n with
  | zero => exact .stop _
  | succ n =>
      cases f with
      | native f => exact .ite (.stop _) (applyNative_placeless f vs paren)
      | function id code => exact .ite (.stop _) (callClosure_placeless n code vs paren)
      | classObject c =>
          refine .ite (.stop _) (Placeless.bind (fun _ _ => rfl) fun object => ?_)
          cases c.initializer? with
          | none => exact .pure _
          | some method =>
              refine (bindThis_placeless method object).bind fun code => ?_
              exact (callClosure_placeless n code vs paren).bind fun _ => .pure _
      | _ => exact .stop _

end Machine

/-! ## The scope inside and the scope around -/

structure Machine.Around (outer inner : Nat) (m : Machine) : Prop where
  current : m.current = outer
  parent : ∃ bindings, m.scopes[inner]? = some ⟨some outer, bindings⟩

theorem Machine.Around.extends {outer inner : Nat} {m m' : Machine} (h : m.Around outer inner)
    (hcurrent : m'.current = m.current) (hscopes : m.scopes.Extends m'.scopes) :
    m'.Around outer inner := by
  obtain ⟨bindings, hinner⟩ := h.parent
  obtain ⟨⟨parent, bindings'⟩, hscope, hparent⟩ := hscopes inner _ hinner
  cases hparent
  exact ⟨hcurrent.trans h.current, bindings', hscope⟩

namespace Run

/-- What `p` does in the scope inside, `q` does in the scope around it. -/
def Mirrors (outer inner : Nat) (p q : Run α) : Prop :=
  ∀ m : Machine, m.Around outer inner →
    p (m.within inner) = (q m).onMachine (.within inner) ∧ (q m).machine.Around outer inner

namespace Mirrors

variable {α β : Type} {outer inner : Nat} {p q : Run α}

theorem ofPlaceless (hp : Placeless p) (he : Extending p) : Mirrors outer inner p p :=
  fun m hm => ⟨hp inner m, hm.extends (hp.current m) (he m)⟩

theorem pure (v : α) : Mirrors outer inner (Pure.pure v : Run α) (Pure.pure v) :=
  ofPlaceless (.pure v) (.pure v)

theorem stop (cause : Fault) :
    Mirrors outer inner (Machine.stop cause : Run α) (Machine.stop cause) :=
  ofPlaceless (.stop cause) (.stop cause)

theorem bind {f g : α → Run β} (hp : Mirrors outer inner p q)
    (hf : ∀ v, Mirrors outer inner (f v) (g v)) :
    Mirrors outer inner (p >>= f) (q >>= g) := by
  intro m hm
  obtain ⟨hfirst, haround⟩ := hp m hm
  cases hqm : q m with
  | done v m₁ =>
      rw [hqm] at hfirst haround
      rw [bind_of_done hqm, bind_of_done hfirst]
      exact hf v m₁ haround
  | fault cause m₁ =>
      rw [hqm] at hfirst haround
      rw [bind_of_fault hqm, bind_of_fault hfirst]
      exact ⟨rfl, haround⟩

theorem ite {c : Prop} [Decidable c] {p' q' : Run α} (hp : Mirrors outer inner p q)
    (hq : Mirrors outer inner p' q') :
    Mirrors outer inner (if c then p else p') (if c then q else q') := by
  split
  · exact hp
  · exact hq

theorem ofCurrent {f g : Nat → Run α} (h : Mirrors outer inner (f inner) (g outer)) :
    Mirrors outer inner (Machine.currentScope >>= f) (Machine.currentScope >>= g) := by
  intro m hm
  rw [bind_of_done (p := Machine.currentScope) rfl, bind_of_done (p := Machine.currentScope) rfl,
    hm.current]
  exact h m hm

theorem inScope_eq (h : Mirrors outer inner p q) {m : Machine} (hm : m.Around outer inner) :
    Machine.inScope inner p m = q m := by
  obtain ⟨heq, haround⟩ := h m hm
  rw [Machine.inScope_eq, heq, hm.current]
  have hback := Machine.within_self haround.current
  cases hqm : q m with
  | done v m₁ =>
      rw [hqm] at hback
      exact congrArg (Outcome.done v) hback
  | fault cause m₁ =>
      rw [hqm] at hback
      exact congrArg (Outcome.fault cause) hback

end Mirrors

end Run

/-! ### Distances -/

namespace Scopes

variable {s : Scopes} {outer inner : Nat}

theorem ancestor?_inner {bindings : Bindings Value} (h : s[inner]? = some ⟨some outer, bindings⟩)
    (hops : Nat) : s.ancestor? inner (hops + 1) = s.ancestor? outer hops := by
  rw [ancestor?, h]

theorem getAt?_inner {bindings : Bindings Value} (h : s[inner]? = some ⟨some outer, bindings⟩)
    (hops : Nat) (name : Bytes) : s.getAt? inner (hops + 1) name = s.getAt? outer hops name := by
  rw [getAt?, getAt?, ancestor?_inner h]

end Scopes

namespace Machine

open Run (Mirrors)

variable {outer inner : Nat}

theorem bindingAt_mirrors (hops : Nat) (name : Bytes) :
    Mirrors outer inner (bindingAt inner (hops + 1) name) (bindingAt outer hops name) := by
  intro m hm
  obtain ⟨bindings, hinner⟩ := hm.parent
  unfold bindingAt
  rw [show (m.within inner).scopes = m.scopes from rfl, Scopes.getAt?_inner hinner]
  cases m.scopes.getAt? outer hops name <;> exact ⟨rfl, hm⟩

theorem read_mirrors (r : Reference) :
    Mirrors outer inner (read (r.relabel .deeper)) (read r) := by
  intro m hm
  obtain ⟨span, name, hops⟩ := r
  cases hops with
  | some hops =>
      have h := bindingAt_mirrors hops name.lexeme m hm
      rw [← hm.current] at h ⊢
      exact h
  | none =>
      simp only [read, Reference.relabel, Relabelling.deeper, Option.map_none, id_eq]
      rw [show (m.within inner).scopes = m.scopes from rfl]
      cases m.scopes.get? globalScope name.lexeme <;> exact ⟨rfl, hm⟩

theorem write_mirrors (r : Reference) (v : Value) :
    Mirrors outer inner (write (r.relabel .deeper) v) (write r v) := by
  intro m hm
  have haround : (write r v m).machine.Around outer inner :=
    hm.extends ((Steady.write r v).onward m).current (Extending.write r v m)
  refine ⟨?_, haround⟩
  obtain ⟨span, name, hops⟩ := r
  cases hops with
  | some hops =>
      obtain ⟨bindings, hinner⟩ := hm.parent
      have hancestor := Scopes.ancestor?_inner hinner hops
      simp only [write, Reference.relabel, Relabelling.deeper, Option.map_some]
      rw [show (m.within inner).scopes.ancestor? (m.within inner).current (hops + 1) =
        m.scopes.ancestor? m.current hops by rw [hm.current]; exact hancestor]
      cases m.scopes.ancestor? m.current hops <;> rfl
  | none =>
      simp only [write, Reference.relabel, Relabelling.deeper, Option.map_none, id_eq]
      rw [show (m.within inner).scopes = m.scopes from rfl]
      cases m.scopes.owner? globalScope name.lexeme <;> rfl

theorem getSuper_mirrors {r : Reference} (method : Token)
    (hr : ∀ d ∈ r.hops, ∃ k, d = k + 1) :
    Mirrors outer inner (getSuper (r.relabel .deeper) method) (getSuper r method) := by
  obtain ⟨span, name, hops⟩ := r
  cases hops with
  | none => exact .stop _
  | some hops =>
      obtain ⟨k, rfl⟩ := hr hops rfl
      refine .ofCurrent ((bindingAt_mirrors _ _).bind fun parent => ?_)
      refine (bindingAt_mirrors k _).bind fun receiver => ?_
      cases parent with
      | classObject c =>
          cases receiver with
          | object id own =>
              cases hmethod : c.method? method.lexeme with
              | some code =>
                  simp only [hmethod]
                  exact .ofPlaceless ((bindThis_placeless _ _).bind functionOf_placeless)
                    ((bindThis_extending _ _).bind functionOf_extending)
              | none =>
                  simp only [hmethod]
                  exact .stop _
          | _ => exact .stop _
      | _ => exact .stop _

/-! ## Expressions -/

mutual

theorem eval_mirrors {Γ : Context} {site : Site} (n : Nat) (e : Expr) (he : e.Scoped Γ site) :
    Mirrors outer inner (eval n (e.relabel .deeper)) (eval n e) := by
  match n with
  | 0 => exact .stop _
  | n + 1 =>
      cases e with
      | absent => exact .stop _
      | literal span value => exact .pure _
      | grouping span operand =>
          simp only [Expr.Scoped] at he
          exact eval_mirrors n operand he
      | unary span operator operand =>
          simp only [Expr.Scoped] at he
          exact (eval_mirrors n operand he).bind fun v =>
            .ofPlaceless (applyUnary_settles operator v).placeless
              (applyUnary_settles operator v).extending
      | binary span operator left right =>
          simp only [Expr.Scoped] at he
          exact (eval_mirrors n left he.1).bind fun v => (eval_mirrors n right he.2).bind fun w =>
            .ofPlaceless (applyBinary_settles operator v w).placeless
              (applyBinary_settles operator v w).extending
      | logical span operator left right =>
          simp only [Expr.Scoped] at he
          exact (eval_mirrors n left he.1).bind fun v => .ite (.pure _) (eval_mirrors n right he.2)
      | var r => exact read_mirrors r
      | thisRef r => exact read_mirrors r
      | assign target value =>
          simp only [Expr.Scoped] at he
          exact (eval_mirrors n value he.2.2).bind fun v => (write_mirrors target v).bind fun _ =>
            .pure _
      | call span callee paren arguments =>
          simp only [Expr.Scoped] at he
          refine (eval_mirrors n callee he.1).bind fun f => ?_
          refine (evalList_mirrors n arguments he.2).bind fun vs => ?_
          exact .ofPlaceless (callValue_placeless n f vs paren) (callValue_extending n f vs paren)
      | get span object name =>
          simp only [Expr.Scoped] at he
          refine (eval_mirrors n object he).bind fun v => ?_
          cases v with
          | object id c =>
              exact .ofPlaceless (getProperty_placeless id c name) (getProperty_extending id c name)
          | _ => exact .stop _
      | set span object name value =>
          simp only [Expr.Scoped] at he
          refine (eval_mirrors n object he.1).bind fun v => ?_
          cases v with
          | object id c =>
              refine (eval_mirrors n value he.2).bind fun w => ?_
              exact .ofPlaceless (Run.Placeless.bind (fun _ _ => rfl) fun _ => .pure _)
                (Extending.bind (.ofSame fun _ => rfl) fun _ => .pure _)
          | _ => exact .stop _
      | superRef r method =>
          simp only [Expr.Scoped] at he
          refine getSuper_mirrors method fun d hd => ?_
          obtain ⟨k, hk, -⟩ := he.2.2 d hd
          exact ⟨k, hk⟩
termination_by structural n

theorem evalList_mirrors {Γ : Context} {site : Site} (n : Nat) (es : List Expr)
    (hes : Expr.ScopedList Γ site es) :
    Mirrors outer inner (evalList n (Expr.relabelList .deeper es)) (evalList n es) := by
  match n with
  | 0 => exact .stop _
  | n + 1 =>
      cases es with
      | nil => exact .pure _
      | cons e rest =>
          simp only [Expr.ScopedList] at hes
          refine (eval_mirrors n e hes.1).bind fun v => ?_
          exact (evalList_mirrors n rest hes.2).bind fun vs => .pure _
termination_by structural n

end

end Machine

end Lox
