import Lox.Proofs.Lexical.Semantics
import Lox.Proofs.Resolution.Scoped

/-!
Scopes and locations that mean the same.

A world assigns locations to the names of the machine's scopes.  It says which scope and
which environment belong together at a point of the text, and from that which values,
and which states, correspond.  Worlds only grow, and what corresponds in a world does so
in every later one.
-/

namespace Lox.Lexical

open Resolution (Context)

/-- `layout i x` is the location of the name `x` of the scope `i`. -/
structure World where
  scopes : Scopes
  captured : Array Env
  layout : Nat → Bytes → Option Nat

/-! ## Scopes and environments -/

/--
One scope and its part of an environment.  All its names are bound, except one whose
initializer is running; `this` is an object and `super` a class.
-/
structure Holds (w : World) (pending : Option Bytes) (names : List Bytes) (i : Nat)
    (scope : Scope) (located : Bindings Nat) : Prop where
  exact : ∀ x, located.has x = true ↔ x ∈ names
  layout : ∀ x location, located.get? x = some location → w.layout i x = some location
  bound : ∀ x ∈ names, pending ≠ some x → scope.bindings.has x = true
  this : utf8 "this" ∈ names →
    ∃ id c, scope.bindings.get? (utf8 "this") = some (.object id c)
  super : utf8 "super" ∈ names →
    ∃ c, scope.bindings.get? (utf8 "super") = some (.classObject c)

/-- The chain of scopes from `i` on has the names of the context, located as listed. -/
def Placed (w : World) : Option Bytes → Context → Nat → Bindings Nat → Prop
  | _, [], i, located => i = 0 ∧ located = []
  | pending, names :: Γ, i, located =>
      ∃ scope parent inner outer, i ≠ 0 ∧ w.scopes[i]? = some scope ∧
        scope.parent = some parent ∧ located = inner ++ outer ∧
        Holds w pending names i scope inner ∧ Placed w none Γ parent outer

structure EnvRel (w : World) (pending : Option Bytes) (Γ : Context) (i : Nat) (ρ : Env) :
    Prop where
  placed : Placed w pending Γ i ρ.names
  level : ρ = none ↔ Γ = []

/-! ### Looking a name up -/

theorem get?_append (inner outer : Bindings α) (x : Bytes) :
    Bindings.get? (inner ++ outer) x = (inner.get? x).or (outer.get? x) := by
  simp [Bindings.get?, List.lookup_append]

theorem Placed.scope {w : World} {pending : Option Bytes} {Γ : Context} {i d : Nat}
    {located : Bindings Nat} {x : Bytes} (h : Placed w pending Γ i located)
    (hd : Γ.hops? x = some d) :
    ∃ j scope names inner pending', w.scopes.ancestor? i d = some j ∧ j ≠ 0 ∧
      w.scopes[j]? = some scope ∧ Holds w pending' names j scope inner ∧ x ∈ names ∧
      located.get? x = inner.get? x ∧ (pending' = none ∨ pending' = pending ∧ d = 0) := by
  induction Γ generalizing pending i d located with
  | nil => simp at hd
  | cons names Γ ih =>
      obtain ⟨scope, parent, inner, outer, hi, hscope, hparent, rfl, hholds, houter⟩ := h
      rw [Context.hops?_cons] at hd
      by_cases hx : x ∈ names
      · rw [if_pos hx] at hd
        cases hd
        have hsize : i < w.scopes.size := (Array.getElem?_eq_some_iff.mp hscope).1
        have hfound := (hholds.exact x).mpr hx
        refine ⟨i, scope, names, inner, pending, by simp [Scopes.ancestor?, hsize], hi, hscope,
          hholds, hx, ?_, .inr ⟨rfl, rfl⟩⟩
        rw [get?_append]
        obtain ⟨location, hlocation⟩ := Option.isSome_iff_exists.mp hfound
        simp [hlocation]
      · rw [if_neg hx] at hd
        cases hops : Context.hops? Γ x with
        | none => simp [hops] at hd
        | some k =>
            obtain rfl : k + 1 = d := by simpa [hops] using hd
            obtain ⟨j, scope', names', inner', pending', hj, hj0, hscope', hholds', hx', hget,
              hpending⟩ := ih houter hops
            refine ⟨j, scope', names', inner', pending', ?_, hj0, hscope', hholds', hx', ?_, ?_⟩
            · obtain ⟨_, bindings⟩ := scope
              cases hparent
              simpa [Scopes.ancestor?, hscope] using hj
            · have hnone : inner.get? x = none := by
                rw [← Option.not_isSome_iff_eq_none]
                exact fun hsome => hx ((hholds.exact x).mp hsome)
              rw [get?_append, hnone, Option.none_or, hget]
            · rcases hpending with rfl | ⟨rfl, -⟩ <;> exact .inl rfl

theorem Placed.get?_eq_none {w : World} {pending : Option Bytes} {Γ : Context} {i : Nat}
    {located : Bindings Nat} {x : Bytes} (h : Placed w pending Γ i located)
    (hd : Γ.hops? x = none) : located.get? x = none := by
  induction Γ generalizing pending i located with
  | nil => simp [h.2]
  | cons names Γ ih =>
      obtain ⟨scope, parent, inner, outer, -, -, -, rfl, hholds, houter⟩ := h
      rw [Context.hops?_cons] at hd
      by_cases hx : x ∈ names
      · simp [hx] at hd
      · have hnone : inner.get? x = none := by
          rw [← Option.not_isSome_iff_eq_none]
          exact fun hsome => hx ((hholds.exact x).mp hsome)
        rw [get?_append, hnone, Option.none_or]
        exact ih houter (by simpa [hx] using hd)

/-! ## Values -/

/--
A function and its counterpart.  `own` are the scopes that a call still puts between the
scope of the declaration and the body: the one with `this` for a method, none otherwise.
-/
structure ClosureRel (w : World) (own : Context) (c c' : Closure) : Prop where
  declaration : c'.declaration = c.declaration.relabel .unresolve
  isInitializer : c'.isInitializer = c.isInitializer
  scope : ∃ Γ ρ, c.declaration.Scoped (own ++ Γ) ∧ w.captured[c'.scope]? = some ρ ∧
    EnvRel w none Γ c.scope ρ ∧
    (c.isInitializer = true → ∃ Γ', own ++ Γ = [utf8 "this"] :: Γ')

abbrev MethodRel (w : World) := ClosureRel w [[utf8 "this"]]

inductive ClassRel (w : World) : ClassObject → ClassObject → Prop where
  | root (id : Nat) (name : Bytes) {methods methods' : Bindings Closure}
      (h : methods.Rel (MethodRel w) methods') :
      ClassRel w (.mk id name none methods) (.mk id name none methods')
  | sub (id : Nat) (name : Bytes) {parent parent' : ClassObject}
      {methods methods' : Bindings Closure} (hparent : ClassRel w parent parent')
      (h : methods.Rel (MethodRel w) methods') :
      ClassRel w (.mk id name (some parent) methods) (.mk id name (some parent') methods')

inductive ValueRel (w : World) : Value → Value → Prop where
  | nil : ValueRel w .nil .nil
  | bool (b : Bool) : ValueRel w (.bool b) (.bool b)
  | number (x : Float) : ValueRel w (.number x) (.number x)
  | text (s : Bytes) : ValueRel w (.text s) (.text s)
  | native (f : Native) : ValueRel w (.native f) (.native f)
  | function (id : Nat) {c c' : Closure} (h : ClosureRel w [] c c') :
      ValueRel w (.function id c) (.function id c')
  | classObject {c c' : ClassObject} (h : ClassRel w c c') :
      ValueRel w (.classObject c) (.classObject c')
  | object (id : Nat) {c c' : ClassObject} (h : ClassRel w c c') :
      ValueRel w (.object id c) (.object id c')

inductive SignalRel (w : World) : Signal → Signal → Prop where
  | normal : SignalRel w .normal .normal
  | returned {v v' : Value} (h : ValueRel w v v') : SignalRel w (.returned v) (.returned v')

/-! ## Growing worlds -/

structure Extends (s s' : Scope) : Prop where
  parent : s'.parent = s.parent
  bound : ∀ x, s.bindings.has x = true → s'.bindings.has x = true
  words : ∀ x, x = utf8 "this" ∨ x = utf8 "super" → s'.bindings.get? x = s.bindings.get? x

namespace Extends

theorem refl (s : Scope) : Extends s s := ⟨rfl, fun _ h => h, fun _ _ => rfl⟩

theorem trans {s t u : Scope} (h : Extends s t) (k : Extends t u) : Extends s u where
  parent := k.parent.trans h.parent
  bound := fun x hx => k.bound x (h.bound x hx)
  words := fun x hx => (k.words x hx).trans (h.words x hx)

end Extends

/-- Nothing is lost, and the scopes in `F` get no further names. -/
structure Grows (F : Nat → Prop) (w w' : World) : Prop where
  scopes : ∀ (i : Nat) s, w.scopes[i]? = some s → ∃ s', w'.scopes[i]? = some s' ∧ Extends s s'
  captured : ∀ (k : Nat) ρ, w.captured[k]? = some ρ → w'.captured[k]? = some ρ
  layout : ∀ i x location, w.layout i x = some location → w'.layout i x = some location
  frozen : ∀ i, F i → w'.layout i = w.layout i

namespace Grows

variable {F : Nat → Prop} {w w' w'' : World}

theorem refl (w : World) : Grows F w w where
  scopes := fun _ s hs => ⟨s, hs, .refl s⟩
  captured := fun _ _ h => h
  layout := fun _ _ _ h => h
  frozen := fun _ _ => rfl

theorem trans (h : Grows F w w') (k : Grows F w' w'') : Grows F w w'' where
  scopes := by
    intro i s hs
    obtain ⟨t, ht, hst⟩ := h.scopes i s hs
    obtain ⟨u, hu, htu⟩ := k.scopes i t ht
    exact ⟨u, hu, hst.trans htu⟩
  captured := fun id ρ hid => k.captured id ρ (h.captured id ρ hid)
  layout := fun i x location hl => k.layout i x location (h.layout i x location hl)
  frozen := fun i hi => (k.frozen i hi).trans (h.frozen i hi)

theorem size_le (h : Grows F w w') : w.scopes.size ≤ w'.scopes.size := by
  by_contra hlt
  have hsize : w'.scopes.size < w.scopes.size := by omega
  obtain ⟨s', hs', -⟩ := h.scopes w'.scopes.size _ (Array.getElem?_eq_getElem hsize)
  simp at hs'

end Grows

section Monotone

variable {F : Nat → Prop} {w w' : World}

theorem Holds.mono {pending : Option Bytes} {names : List Bytes} {i : Nat} {scope scope' : Scope}
    {located : Bindings Nat} (h : Holds w pending names i scope located) (hw : Grows F w w')
    (hscope : Extends scope scope') : Holds w' pending names i scope' located where
  exact := h.exact
  layout := fun x location hx => hw.layout i x location (h.layout x location hx)
  bound := fun x hx hp => hscope.bound x (h.bound x hx hp)
  this := by
    intro hthis
    rw [hscope.words _ (.inl rfl)]
    exact h.this hthis
  super := by
    intro hsuper
    rw [hscope.words _ (.inr rfl)]
    exact h.super hsuper

theorem Placed.mono {pending : Option Bytes} {Γ : Context} {i : Nat} {located : Bindings Nat}
    (h : Placed w pending Γ i located) (hw : Grows F w w') : Placed w' pending Γ i located := by
  induction Γ generalizing pending i located with
  | nil => exact h
  | cons names Γ ih =>
      obtain ⟨scope, parent, inner, outer, hi, hscope, hparent, hlocated, hholds, houter⟩ := h
      obtain ⟨scope', hscope', hext⟩ := hw.scopes i scope hscope
      exact ⟨scope', parent, inner, outer, hi, hscope', hext.parent.trans hparent, hlocated,
        hholds.mono hw hext, ih houter⟩

theorem EnvRel.mono {pending : Option Bytes} {Γ : Context} {i : Nat} {ρ : Env}
    (h : EnvRel w pending Γ i ρ) (hw : Grows F w w') : EnvRel w' pending Γ i ρ :=
  ⟨h.placed.mono hw, h.level⟩

theorem ClosureRel.mono {own : Context} {c c' : Closure} (h : ClosureRel w own c c')
    (hw : Grows F w w') : ClosureRel w' own c c' where
  declaration := h.declaration
  isInitializer := h.isInitializer
  scope := by
    obtain ⟨Γ, ρ, hscoped, hcaptured, henv, hinit⟩ := h.scope
    exact ⟨Γ, ρ, hscoped, hw.captured _ _ hcaptured, henv.mono hw, hinit⟩

theorem ClassRel.mono {c c' : ClassObject} (h : ClassRel w c c') (hw : Grows F w w') :
    ClassRel w' c c' := by
  induction h with
  | root id name h => exact .root id name (h.imp fun _ _ hm => hm.mono hw)
  | sub id name _ h ih => exact .sub id name ih (h.imp fun _ _ hm => hm.mono hw)

theorem ValueRel.mono {v v' : Value} (h : ValueRel w v v') (hw : Grows F w w') :
    ValueRel w' v v' := by
  cases h with
  | nil => exact .nil
  | bool b => exact .bool b
  | number x => exact .number x
  | text s => exact .text s
  | native f => exact .native f
  | function id h => exact .function id (h.mono hw)
  | classObject h => exact .classObject (h.mono hw)
  | object id h => exact .object id (h.mono hw)

end Monotone

/-! ## States -/

/--
The machine and the state correspond: globals and fields do, every located name of a
scope has the value of its location, a scope binds located names only, and everything
else is the same.
-/
structure Related (w : World) (m : Machine) (s : State) : Prop where
  scopes : w.scopes = m.scopes
  captured : w.captured = s.captured
  globals : ∃ bindings bindings', m.scopes[0]? = some ⟨none, bindings⟩ ∧
    s.machine.scopes = #[⟨none, bindings'⟩] ∧ bindings.Rel (ValueRel w) bindings'
  located : ∀ i x location, w.layout i x = some location →
    i ≠ 0 ∧ ∃ scope v', m.scopes[i]? = some scope ∧ s.locations[location]? = some v' ∧
      ValueRel w ((scope.bindings.get? x).getD .nil) v'
  separate : ∀ i j x y location, w.layout i x = some location →
    w.layout j y = some location → i = j ∧ x = y
  placed : ∀ (i : Nat) scope x, i ≠ 0 → m.scopes[i]? = some scope → scope.bindings.has x = true →
    (w.layout i x).isSome = true
  fields : List.Forall₂ (Bindings.Rel (ValueRel w)) m.fields.toList s.machine.fields.toList
  current : s.machine.current = 0
  fresh : s.machine.fresh = m.fresh
  depth : s.machine.depth = m.depth
  limit : s.machine.limit = m.limit
  clock : s.machine.clock = m.clock
  printed : s.machine.printed = m.printed

namespace Related

variable {w : World} {m : Machine} {s : State}

theorem lt_of_layout (h : Related w m s) {i location : Nat} {x : Bytes}
    (hlayout : w.layout i x = some location) :
    i < m.scopes.size ∧ location < s.locations.size := by
  obtain ⟨-, scope, v', hscope, hv', -⟩ := h.located i x location hlayout
  exact ⟨(Array.getElem?_eq_some_iff.mp hscope).1, (Array.getElem?_eq_some_iff.mp hv').1⟩

theorem size_pos (h : Related w m s) : 0 < m.scopes.size := by
  obtain ⟨bs, -, hbs, -⟩ := h.globals
  exact (Array.getElem?_eq_some_iff.mp hbs).1

end Related

end Lox.Lexical
