import Lox.Proofs.Calls.Lenient
import Lox.Proofs.Safety.Invariant
import Lox.Proofs.Termination.Heights

/-!
Runs that end by themselves.

A call leads to a body that some value carries, so what is known of all functions declared so
far has to be known of all values in scopes and fields.  The judgement `Finishes` says of a
run that it keeps this, also when it fails, and that it does not end for want of fuel.
-/

namespace Lox

/-! ## What values carry -/

section

variable (P : FunctionDecl → Prop)

def ClassObject.Carries (c : ClassObject) : Prop :=
  ∀ name code, c.method? name = some code → P code.declaration

def Value.Carries : Value → Prop
  | .function _ code => P code.declaration
  | .classObject c | .object _ c => c.Carries P
  | _ => True

def Signal.Carries : Signal → Prop
  | .normal => True
  | .returned v => v.Carries P

structure Machine.Carries (m : Machine) : Prop where
  scopes : ∀ (id : Nat) (scope : Scope), m.scopes[id]? = some scope →
    scope.bindings.All (Value.Carries P)
  fields : ∀ (id : Nat) (bindings : Bindings Value), m.fields[id]? = some bindings →
    bindings.All (Value.Carries P)

end

structure Machine.Level (m m' : Machine) : Prop where
  depth : m'.depth = m.depth
  limit : m'.limit = m.limit

namespace Machine

variable {P : FunctionDecl → Prop} {m m₁ m₂ : Machine}

theorem Level.refl (m : Machine) : m.Level m := ⟨rfl, rfl⟩

theorem Level.trans (h : m.Level m₁) (h' : m₁.Level m₂) : m.Level m₂ :=
  ⟨h'.depth.trans h.depth, h'.limit.trans h.limit⟩

theorem Carries.define (h : m.Carries P) (id : Nat) (name : Bytes) {v : Value}
    (hv : v.Carries P) :
    ({ m with scopes := m.scopes.define id name v } : Machine).Carries P := by
  refine ⟨?_, h.fields⟩
  intro i scope hscope
  rw [Scopes.getElem?_define] at hscope
  split at hscope
  · obtain ⟨old, hold, rfl⟩ := Option.map_eq_some_iff.mp hscope
    exact Bindings.All.set (h.scopes i old hold) name hv
  · exact h.scopes i scope hscope

theorem Carries.value_of_get? (h : m.Carries P) {id : Nat} {name : Bytes} {v : Value}
    (hget : m.scopes.get? id name = some v) : v.Carries P := by
  obtain ⟨owner, scope, hscope, hfound⟩ := Scopes.exists_of_get? hget
  exact h.scopes owner scope hscope name v hfound

theorem Carries.value_of_getAt? (h : m.Carries P) {id hops : Nat} {name : Bytes} {v : Value}
    (hget : m.scopes.getAt? id hops name = some v) : v.Carries P := by
  rcases Scopes.exists_of_getAt? hget with rfl | ⟨owner, scope, hscope, hfound⟩
  · trivial
  · exact h.scopes owner scope hscope name v hfound

end Machine

/-! ## Runs -/

/-- The machine carries only what `P` allows ever after, and fuel is not what ends the run. -/
def Run.Finishes (P : FunctionDecl → Prop) (m : Machine) (p : Run α) (Q : α → Prop) : Prop :=
  m.Carries P →
    match p m with
    | .done v m' => m'.Carries P ∧ m.Level m' ∧ Q v
    | .fault cause m' => m'.Carries P ∧ cause ≠ .outOfFuel

namespace Run.Finishes

variable {P : FunctionDecl → Prop} {m : Machine} {α β : Type} {p : Run α} {f : α → Run β}
variable {Q : α → Prop} {R : β → Prop}

theorem pure {v : α} (h : Q v) : Finishes P m (Pure.pure v) Q :=
  fun hm => ⟨hm, .refl m, h⟩

theorem bind (hp : Finishes P m p Q)
    (hf : ∀ v m₁, m.Level m₁ → Q v → Finishes P m₁ (f v) R) : Finishes P m (p >>= f) R := by
  intro hm
  have hfirst := hp hm
  cases hpm : p m with
  | fault cause m₁ =>
      rw [hpm] at hfirst
      rw [bind_of_fault hpm]
      exact hfirst
  | done v m₁ =>
      rw [hpm] at hfirst
      rw [bind_of_done hpm]
      obtain ⟨hm₁, hlevel, hv⟩ := hfirst
      have hsecond := hf v m₁ hlevel hv hm₁
      cases hfm : f v m₁ with
      | fault cause m₂ =>
          rw [hfm] at hsecond
          exact hsecond
      | done w m₂ =>
          rw [hfm] at hsecond
          exact ⟨hsecond.1, hlevel.trans hsecond.2.1, hsecond.2.2⟩

theorem ite {b : Prop} [Decidable b] {q : Run α} (hp : b → Finishes P m p Q)
    (hq : ¬b → Finishes P m q Q) : Finishes P m (if b then p else q) Q := by
  split
  · exact hp ‹_›
  · exact hq ‹_›

theorem raise {cause : Cause} {t : Token} : Finishes P m (Machine.raise cause t) Q :=
  fun hm => ⟨hm, nofun⟩

/-! ### Names -/

theorem newScope {parent : Nat} {bindings : Bindings Value}
    (hb : bindings.All (Value.Carries P)) :
    Finishes P m (Machine.newScope parent bindings) fun _ => True := by
  refine fun hm => ⟨⟨?_, hm.fields⟩, ⟨rfl, rfl⟩, trivial⟩
  intro id scope hscope
  rw [Array.getElem?_push] at hscope
  split at hscope
  · cases hscope
    exact hb
  · exact hm.scopes id scope hscope

theorem currentScope : Finishes P m Machine.currentScope fun _ => True :=
  fun hm => ⟨hm, .refl m, trivial⟩

theorem inScope {id : Nat} (h : Finishes P { m with current := id } p Q) :
    Finishes P m (Machine.inScope id p) Q := by
  intro hm
  have hrun := h ⟨hm.scopes, hm.fields⟩
  unfold Machine.inScope
  cases hp : p { m with current := id } with
  | done v m' =>
      rw [hp] at hrun
      obtain ⟨hm', hlevel, hv⟩ := hrun
      exact ⟨⟨hm'.scopes, hm'.fields⟩, ⟨hlevel.depth, hlevel.limit⟩, hv⟩
  | fault cause m' =>
      rw [hp] at hrun
      exact ⟨⟨hrun.1.scopes, hrun.1.fields⟩, hrun.2⟩

theorem defineIn (id : Nat) (name : Bytes) {v : Value} (hv : v.Carries P) :
    Finishes P m (Machine.defineIn id name v) fun _ => True :=
  fun hm => ⟨hm.define id name hv, ⟨rfl, rfl⟩, trivial⟩

theorem define (name : Bytes) {v : Value} (hv : v.Carries P) :
    Finishes P m (Machine.define name v) fun _ => True :=
  defineIn m.current name hv

theorem assign (name : Bytes) {v : Value} (hv : v.Carries P) :
    Finishes P m (Machine.assign name v) fun _ => True := by
  intro hm
  unfold Machine.assign
  cases m.scopes.owner? m.current name with
  | some owner => exact defineIn owner name hv hm
  | none => exact ⟨hm, .refl m, trivial⟩

theorem bindingAt (id hops : Nat) (name : Bytes) :
    Finishes P m (Machine.bindingAt id hops name) (Value.Carries P) := by
  intro hm
  unfold Machine.bindingAt
  cases hget : m.scopes.getAt? id hops name with
  | some v => exact ⟨hm, .refl m, hm.value_of_getAt? hget⟩
  | none => exact ⟨hm, nofun⟩

theorem read (r : Reference) : Finishes P m (Machine.read r) (Value.Carries P) := by
  intro hm
  unfold Machine.read
  cases r.hops with
  | some hops => exact bindingAt m.current hops r.name.lexeme hm
  | none =>
      simp only
      cases hget : m.scopes.get? Machine.globalScope r.name.lexeme with
      | some v => exact ⟨hm, .refl m, hm.value_of_get? hget⟩
      | none => exact ⟨hm, nofun⟩

theorem write (r : Reference) {v : Value} (hv : v.Carries P) :
    Finishes P m (Machine.write r v) fun _ => True := by
  intro hm
  unfold Machine.write
  cases r.hops with
  | some hops =>
      simp only
      cases m.scopes.ancestor? m.current hops with
      | some owner => exact defineIn owner r.name.lexeme hv hm
      | none => exact ⟨hm, nofun⟩
  | none =>
      simp only
      cases m.scopes.owner? Machine.globalScope r.name.lexeme with
      | some owner => exact defineIn owner r.name.lexeme hv hm
      | none => exact ⟨hm, nofun⟩

/-! ### Identities and fields -/

theorem newIdentity : Finishes P m Machine.newIdentity fun _ => True :=
  fun hm => ⟨⟨hm.scopes, hm.fields⟩, ⟨rfl, rfl⟩, trivial⟩

theorem newObject {c : ClassObject} (hc : c.Carries P) :
    Finishes P m (Machine.newObject c) (Value.Carries P) := by
  refine fun hm => ⟨⟨hm.scopes, ?_⟩, ⟨rfl, rfl⟩, hc⟩
  intro id bindings hbindings
  rw [Array.getElem?_push] at hbindings
  split at hbindings
  · cases hbindings
    exact .nil
  · exact hm.fields id bindings hbindings

theorem field? (id : Nat) (name : Bytes) :
    Finishes P m (Machine.field? id name) fun found => ∀ v ∈ found, v.Carries P := by
  refine fun hm => ⟨hm, .refl m, ?_⟩
  intro v hv
  obtain ⟨bindings, hbindings, hget⟩ := Option.bind_eq_some_iff.mp hv
  exact hm.fields id bindings hbindings name v hget

theorem setField (id : Nat) (name : Bytes) {v : Value} (hv : v.Carries P) :
    Finishes P m (Machine.setField id name v) fun _ => True := by
  refine fun hm => ⟨⟨hm.scopes, ?_⟩, ⟨rfl, rfl⟩, trivial⟩
  intro i bindings hbindings
  simp only [Array.getElem?_modify] at hbindings
  split at hbindings
  · obtain ⟨old, hold, rfl⟩ := Option.map_eq_some_iff.mp hbindings
    exact Bindings.All.set (hm.fields i old hold) name hv
  · exact hm.fields i bindings hbindings

/-! ### Calls, the clock and output -/

theorem deeper (h : Finishes P { m with depth := m.depth + 1 } p Q) :
    Finishes P m (Machine.deeper p) Q := by
  intro hm
  have hrun := h ⟨hm.scopes, hm.fields⟩
  unfold Machine.deeper
  cases hp : p { m with depth := m.depth + 1 } with
  | done v m' =>
      rw [hp] at hrun
      obtain ⟨hm', hlevel, hv⟩ := hrun
      have hdepth : m'.depth - 1 = m.depth := by
        rw [hlevel.depth]
        rfl
      exact ⟨⟨hm'.scopes, hm'.fields⟩, ⟨hdepth, hlevel.limit⟩, hv⟩
  | fault cause m' =>
      rw [hp] at hrun
      exact ⟨⟨hrun.1.scopes, hrun.1.fields⟩, hrun.2⟩

theorem enter {paren : Token} (h : ¬m.Full → Finishes P m p Q) :
    Finishes P m (do if ← Machine.isFull then Machine.raise .stackOverflow paren else p) Q := by
  by_cases hfull : m.Full
  · intro hm
    rw [bind_of_done (Machine.isFull_of_full hfull)]
    exact ⟨hm, nofun⟩
  · intro hm
    rw [bind_of_done (Machine.isFull_of_not_full hfull)]
    exact h hfull hm

theorem printLine (line : Bytes) : Finishes P m (Machine.printLine line) fun _ => True :=
  fun hm => ⟨⟨hm.scopes, hm.fields⟩, ⟨rfl, rfl⟩, trivial⟩

end Run.Finishes

/-! ## Operators, native functions and methods -/

namespace Machine

open Run (Finishes)

variable {P : FunctionDecl → Prop} {m : Machine}

theorem Settles.finishes {t : Token} {unknown : Prop} {p : Run Value} (h : Settles t unknown p) :
    Finishes P m p (Value.Carries P) := by
  cases h with
  | atom hv => exact .pure (by cases hv <;> trivial)
  | blame => exact .raise

theorem applyNative_finishes (f : Native) (vs : List Value) (paren : Token) :
    Finishes P m (applyNative f vs paren) (Value.Carries P) := by
  intro hm
  obtain ⟨clock, ⟨l, hdone⟩ | ⟨text, hfault⟩⟩ := applyNative_cases f vs paren m
  · rw [hdone]
    exact ⟨⟨hm.scopes, hm.fields⟩, ⟨rfl, rfl⟩, by cases l <;> trivial⟩
  · rw [hfault]
    exact ⟨⟨hm.scopes, hm.fields⟩, nofun⟩

theorem bindParameters_finishes (parameters : List Token) {vs : List Value}
    (hvs : ∀ v ∈ vs, v.Carries P) :
    Finishes P m (bindParameters [] parameters vs) fun bindings =>
      bindings.All (Value.Carries P) := by
  by_cases hlength : parameters.length ≤ vs.length
  · obtain ⟨bindings, hbind, hbound⟩ := bindParameters_all hlength hvs
    rw [hbind]
    exact .pure hbound
  · rw [bindParameters_of_lt [] (Nat.lt_of_not_le hlength)]
    exact fun hm => ⟨hm, nofun⟩

theorem bindThis_finishes {method : Closure} {receiver : Value} (hmethod : P method.declaration)
    (hreceiver : receiver.Carries P) :
    Finishes P m (bindThis method receiver) fun code => P code.declaration := by
  unfold bindThis
  exact (Finishes.newScope (.single _ hreceiver)).bind fun _ _ _ _ => .pure hmethod

theorem functionOf_finishes {code : Closure} (h : P code.declaration) :
    Finishes P m (functionOf code) (Value.Carries P) := by
  unfold functionOf
  exact Finishes.newIdentity.bind fun _ _ _ _ => .pure h

theorem bindThis_functionOf_finishes {method : Closure} {receiver : Value}
    (hmethod : P method.declaration) (hreceiver : receiver.Carries P) :
    Finishes P m (bindThis method receiver >>= functionOf) (Value.Carries P) :=
  (bindThis_finishes hmethod hreceiver).bind fun _ _ _ hcode => functionOf_finishes hcode

theorem getProperty_finishes (id : Nat) {c : ClassObject} (name : Token) (hc : c.Carries P) :
    Finishes P m (getProperty id c name) (Value.Carries P) := by
  unfold getProperty
  refine (Finishes.field? id name.lexeme).bind fun found m₁ _ hfound => ?_
  cases found with
  | some v => exact .pure (hfound v rfl)
  | none =>
      cases hmethod : c.method? name.lexeme with
      | some method => exact bindThis_functionOf_finishes (hc _ _ hmethod) hc
      | none => exact .raise

theorem getSuper_finishes (r : Reference) (method : Token) :
    Finishes P m (getSuper r method) (Value.Carries P) := by
  unfold getSuper
  cases r.hops with
  | none => exact .raise
  | some hops =>
      refine Finishes.currentScope.bind fun scope m₁ _ _ => ?_
      refine (Finishes.bindingAt _ _ _).bind fun parent m₂ _ hparent => ?_
      refine (Finishes.bindingAt _ _ _).bind fun receiver m₃ _ hreceiver => ?_
      split
      · next c id own =>
          have hc : c.Carries P := hparent
          cases hmethod : c.method? method.lexeme with
          | some code => exact bindThis_functionOf_finishes (hc _ _ hmethod) hreceiver
          | none => exact .raise
      · exact .raise

/-! ## Declarations -/

theorem methodsIn_carries (scope : Nat) {methods : List FunctionDecl} (h : ∀ f ∈ methods, P f) :
    (methodsIn scope methods).All fun code => P code.declaration := by
  let closureOf (f : FunctionDecl) : Closure :=
    { declaration := f, scope, isInitializer := f.name.lexeme == utf8 "init" }
  exact Bindings.All.nil.foldl_set (fun f : FunctionDecl => f.name.lexeme) closureOf h

theorem classObject_carries {id : Nat} {name : Bytes} {parent : Option ClassObject}
    {methods : Bindings Closure} (hmethods : methods.All fun code => P code.declaration)
    (hparent : ∀ c ∈ parent, c.Carries P) : (ClassObject.mk id name parent methods).Carries P :=
  ClassObject.forall_method hmethods hparent

theorem declareClass_finishes (name : Token) {parent : Option ClassObject}
    {methods : List FunctionDecl} (hparent : ∀ c ∈ parent, c.Carries P)
    (hmethods : ∀ f ∈ methods, P f) :
    Finishes P m (declareClass name parent methods) fun _ => True := by
  have finish {m : Machine} (scope : Nat) :
      Finishes P m (do
        let id ← newIdentity
        assign name.lexeme (.classObject (.mk id name.lexeme parent (methodsIn scope methods))))
        fun _ => True := by
    refine Finishes.newIdentity.bind fun id m₁ _ _ => .assign _ ?_
    exact classObject_carries (methodsIn_carries scope hmethods) hparent
  unfold declareClass
  refine (Finishes.define _ (v := .nil) trivial).bind fun _ m₁ _ _ => ?_
  refine Finishes.currentScope.bind fun outer m₂ _ _ => ?_
  cases parent with
  | none =>
      exact (Finishes.pure (Q := fun _ => True) trivial).bind fun scope _ _ _ => finish scope
  | some c =>
      have hsuper : Value.Carries P (.classObject c) := hparent c rfl
      exact (Finishes.newScope (.single _ hsuper)).bind fun scope _ _ _ => finish scope

end Machine

end Lox
