import Lox.Proofs.Access.Real
import Lox.Proofs.Course.Running
import Lox.Proofs.Objects.Held

/-!
What the scopes around a home bind.

Code at a home has the object of the home in the scope where its distance to `this` leads, and
the superclass of the home's class one scope further out, if its own class has one.  Nothing
ever binds these two names again, so what was so when a function was made is so whenever it is
called.
-/

namespace Lox

namespace Objects

open Access (Binds)
open Resolution (Context)

/-! ## Bindings seen from a scope -/

section

variable {m m' : Machine} {i d : Nat} {x : Bytes} {v : Value}

theorem binds_mono (h : m.scopes.Keeps m'.scopes) (hx : x = utf8 "this" ∨ x = utf8 "super")
    (hb : Binds m i d x v) : Binds m' i d x v := by
  obtain ⟨j, scope, hj, hscope, hget⟩ := hb
  obtain ⟨scope', hscope', -, hthis, hsuper⟩ := h j scope hscope
  refine ⟨j, scope', ?_, hscope', ?_⟩
  · exact h.extends.ancestor? hj
  · rcases hx with rfl | rfl
    · exact hthis.trans hget
    · exact hsuper.trans hget

theorem binds_succ {k : Nat} {bindings : Bindings Value}
    (hk : m.scopes[k]? = some { parent := some i, bindings }) (hb : Binds m i d x v) :
    Binds m k (d + 1) x v := by
  obtain ⟨j, scope, hj, hscope, hget⟩ := hb
  exact ⟨j, scope, by rw [Scopes.ancestor?, hk]; exact hj, hscope, hget⟩

theorem binds_zero {scope : Scope} (hi : m.scopes[i]? = some scope)
    (hget : scope.bindings.get? x = some v) : Binds m i 0 x v := by
  have hlt := (Array.getElem?_eq_some_iff.mp hi).1
  exact ⟨i, scope, if_pos hlt, hi, hget⟩

theorem bindingAt_of_binds (hb : Binds m i d x v) : Machine.bindingAt i d x m = .done v m := by
  obtain ⟨j, scope, hj, hscope, hget⟩ := hb
  simp [Machine.bindingAt, Scopes.getAt?, Scopes.bindingsOf?, hj, hscope, hget]

end

/-! ## Where code stands -/

structure World.Grows (w w' : World) : Prop where
  tape : w.tape ⊆ w'.tape
  scopes : w.machine.scopes.Keeps w'.machine.scopes

theorem World.Grows.refl (w : World) : w.Grows w := ⟨List.Subset.refl _, .refl _⟩

theorem World.Grows.trans {w₁ w₂ w₃ : World} (h : w₁.Grows w₂) (h' : w₂.Grows w₃) : w₁.Grows w₃ :=
  ⟨fun _ hentry => h'.tape (h.tape hentry), h.scopes.trans h'.scopes⟩

/--
The scope `i`, with the context that its code was checked in, is inside the scope of the home's
object.
-/
def Situated (w : World) (Γ : Context) (i : Nat) : Option Home → Prop
  | none => Γ.hops? (utf8 "this") = none
  | some h => w.tape.Backs h ∧ ∃ k, Γ.hops? (utf8 "this") = some k ∧
      Binds w.machine i k (utf8 "this") h.receiver ∧
      (Γ.hops? (utf8 "super") = some (k + 1) → ∃ parent, h.owner.parent? = some parent ∧
        Binds w.machine i (k + 1) (utf8 "super") (.classObject parent))

namespace Situated

variable {w w' : World} {Γ Γ' : Context} {i k : Nat} {home : Option Home}

theorem mono (hw : w.Grows w') (h : Situated w Γ i home) : Situated w' Γ i home := by
  cases home with
  | none => exact h
  | some home =>
      obtain ⟨hbacks, k, hk, hthis, hsuper⟩ := h
      refine ⟨hbacks.mono hw.tape, k, hk, binds_mono hw.scopes (.inl rfl) hthis, fun hk' => ?_⟩
      obtain ⟨parent, hparent, hbinds⟩ := hsuper hk'
      exact ⟨parent, hparent, binds_mono hw.scopes (.inr rfl) hbinds⟩

theorem declare {name : Token} (hname : name.Nameable) (h : Situated w Γ i home) :
    Situated w (Γ.declare name.lexeme) i home := by
  unfold Situated
  rw [Context.hops?_declare_of_ne Γ hname.1.symm, Context.hops?_declare_of_ne Γ hname.2.symm]
  exact h

theorem enter {names : List Bytes} {bindings : Bindings Value} (hthis : utf8 "this" ∉ names)
    (hsuper : utf8 "super" ∉ names) (h : Situated w Γ i home)
    (hk : w.machine.scopes[k]? = some { parent := some i, bindings }) :
    Situated w (names :: Γ) k home := by
  unfold Situated
  rw [Context.hops?_cons, Context.hops?_cons, if_neg hthis, if_neg hsuper]
  cases home with
  | none =>
      rw [show Γ.hops? (utf8 "this") = none from h]
      rfl
  | some home =>
      obtain ⟨hbacks, d, hd, hbinds, hparent⟩ := h
      refine ⟨hbacks, d + 1, by rw [hd]; rfl, binds_succ hk hbinds, fun hd' => ?_⟩
      obtain ⟨d', hsome, heq⟩ := Option.map_eq_some_iff.mp hd'
      obtain rfl := Nat.succ.inj heq
      obtain ⟨parent, howner, hbinds'⟩ := hparent hsome
      exact ⟨parent, howner, binds_succ hk hbinds'⟩

theorem bound {h : Home} (hbacks : w.tape.Backs h)
    (hk : w.machine.scopes[k]? = some
      { parent := some i, bindings := [(utf8 "this", h.receiver)] })
    (hsuper : Γ.hops? (utf8 "super") = some 0 → ∃ parent, h.owner.parent? = some parent ∧
      Binds w.machine i 0 (utf8 "super") (.classObject parent)) :
    Situated w ([utf8 "this"] :: Γ) k (some h) := by
  refine ⟨hbacks, 0, ?_, binds_zero hk ?_, fun hone => ?_⟩
  · simp [Context.hops?_cons]
  · simp [Bindings.get?_cons]
  · have hne : utf8 "super" ∉ [utf8 "this"] := by decide
    rw [Context.hops?_cons, if_neg hne] at hone
    obtain ⟨d, hd, heq⟩ := Option.map_eq_some_iff.mp hone
    obtain rfl : d = 0 := Nat.succ.inj heq
    obtain ⟨parent, hparent, hbinds⟩ := hsuper hd
    exact ⟨parent, hparent, binds_succ hk hbinds⟩

end Situated

/-! ## Values -/

def Admits (stray : Reference → Prop) : Option Home → Reference → Prop
  | some h, r => r ∈ h.method.selves
  | none, r => stray r

section

variable (stray : Reference → Prop) (w : World)

def Lives (code : Closure) (home : Option Home) : Prop :=
  ∃ Γ, code.declaration.Scoped Γ ∧ Situated w Γ code.scope home ∧
    ∀ r ∈ code.declaration.selves, Admits stray home r

def Settled (a : ClassObject) : Prop :=
  ∃ before name superclass methods scope,
    Entry.declared before name superclass methods scope a ∈ w.tape ∧
      a.ownMethods = Machine.methodsIn scope methods ∧
      ∃ Γ : Context, FunctionDecl.ScopedList ([utf8 "this"] :: Γ) methods ∧
        (Γ.hops? (utf8 "super") = some 0 → ∃ parent, a.parent? = some parent ∧
          Binds w.machine scope 0 (utf8 "super") (.classObject parent))

/-- The value was told of, and what it needs to be used is there. -/
def Known : Value → Prop
  | .function id code => ∃ home, Entry.made id code home ∈ w.tape ∧ Lives stray w code home
  | .classObject c => ∀ a ∈ c.lineage, Settled w a
  | .object id c => Entry.created id c ∈ w.tape ∧ ∀ a ∈ c.lineage, Settled w a
  | _ => True

end

section

variable {stray : Reference → Prop} {w w' : World}

theorem Lives.mono (hw : w.Grows w') {code : Closure} {home : Option Home}
    (h : Lives stray w code home) : Lives stray w' code home := by
  obtain ⟨Γ, hscoped, hat, huses⟩ := h
  exact ⟨Γ, hscoped, hat.mono hw, huses⟩

theorem Settled.mono (hw : w.Grows w') {a : ClassObject} (h : Settled w a) : Settled w' a := by
  obtain ⟨before, name, superclass, methods, scope, hmem, hown, Γ, hscoped, hsuper⟩ := h
  refine ⟨before, name, superclass, methods, scope, hw.tape hmem, hown, Γ, hscoped, fun h => ?_⟩
  obtain ⟨parent, hparent, hbinds⟩ := hsuper h
  exact ⟨parent, hparent, binds_mono hw.scopes (.inr rfl) hbinds⟩

theorem Known.mono (hw : w.Grows w') {v : Value} (h : Known stray w v) : Known stray w' v := by
  cases v with
  | function id code =>
      obtain ⟨home, hmem, hlives⟩ := h
      exact ⟨home, hw.tape hmem, hlives.mono hw⟩
  | classObject c => exact fun a ha => (h a ha).mono hw
  | object id c => exact ⟨hw.tape h.1, fun a ha => (h.2 a ha).mono hw⟩
  | _ => trivial

theorem Settled.declares {a : ClassObject} (h : Settled w a) :
    ∃ methods, w.tape.Declares a methods := by
  obtain ⟨before, name, superclass, methods, scope, hmem, -⟩ := h
  exact ⟨methods, before, name, superclass, scope, hmem⟩

theorem Known.lists {v : Value} (h : Known stray w v) : w.tape.Lists v := by
  cases v with
  | function id code =>
      obtain ⟨home, hmem, -⟩ := h
      exact ⟨home, hmem⟩
  | classObject c => exact fun a ha => (h a ha).declares
  | object id c => exact ⟨h.1, fun a ha => (h.2 a ha).declares⟩
  | _ => trivial

end

/-! ## Sound worlds -/

def Kind.next (m : Machine) : Kind → Nat
  | .object => m.fields.size
  | .other => m.fresh

/-- A faithful chronicle of a machine that holds only what is known. -/
structure World.Sound (stray : Reference → Prop) (w : World) : Prop where
  faithful : w.tape.Faithful stray
  held : ∀ v, w.machine.Holds v → Known stray w v
  below : ∀ kind : Kind, w.tape.Below kind (kind.next w.machine)
  kept : ∀ m, Entry.state m ∈ w.tape → m.scopes.Keeps w.machine.scopes

structure World.Leads (w w' : World) : Prop extends w.Grows w' where
  current : w'.machine.current = w.machine.current

theorem World.Leads.refl (w : World) : w.Leads w := ⟨.refl w, rfl⟩

theorem World.Leads.trans {w₁ w₂ w₃ : World} (h : w₁.Leads w₂) (h' : w₂.Leads w₃) :
    w₁.Leads w₃ :=
  ⟨h.toGrows.trans h'.toGrows, h'.current.trans h.current⟩

namespace World.Sound

variable {stray : Reference → Prop} {w : World}

theorem value_of_bindingAt (h : w.Sound stray) {i hops : Nat} {x : Bytes} {v : Value}
    {m : Machine} (hrun : Machine.bindingAt i hops x w.machine = .done v m) :
    Known stray w v := by
  rcases Machine.holds_of_bindingAt hrun with rfl | hheld
  · trivial
  · exact h.held v hheld

theorem value_of_read (h : w.Sound stray) {r : Reference} {v : Value} {m : Machine}
    (hrun : Machine.read r w.machine = .done v m) : Known stray w v := by
  rcases Machine.holds_of_read hrun with rfl | hheld
  · trivial
  · exact h.held v hheld

end World.Sound

end Objects

end Lox
