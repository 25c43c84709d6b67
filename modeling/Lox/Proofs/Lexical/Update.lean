import Lox.Proofs.Lexical.Relation
import Lox.Proofs.Scopes

/-!
Corresponding states stay so.

One lemma for every elementary change: a new scope, a new name in a scope, a new value
of a name, a captured environment, a new value of a global.
-/

namespace Lox

namespace Lexical

theorem nameable_ne {x : Bytes} (h : x ≠ utf8 "this" ∧ x ≠ utf8 "super") {y : Bytes}
    (hy : y = utf8 "this" ∨ y = utf8 "super") : x ≠ y := by
  rcases hy with rfl | rfl
  · exact h.1
  · exact h.2

theorem Extends.set (scope : Scope) {x : Bytes} (v : Value)
    (hx : x ≠ utf8 "this" ∧ x ≠ utf8 "super") :
    Extends scope { scope with bindings := scope.bindings.set x v } where
  parent := rfl
  bound := fun y hy => by simp [hy]
  words := fun y hy => Bindings.get?_set_of_ne _ _ (nameable_ne hx hy)

namespace World

def define (w : World) (i : Nat) (x : Bytes) (v : Value) : World :=
  { w with scopes := w.scopes.define i x v }

def place (w : World) (i : Nat) (x : Bytes) (location : Nat) : World :=
  { w with layout := fun j y => if j = i ∧ y = x then some location else w.layout j y }

def capture (w : World) (ρ : Env) : World := { w with captured := w.captured.push ρ }

def push (w : World) (scope : Scope) (located : Bindings Nat) : World :=
  { w with
    scopes := w.scopes.push scope
    layout := fun j y => if j = w.scopes.size then located.get? y else w.layout j y }

end World

namespace Grows

variable {F : Nat → Prop} {w : World}

theorem define (w : World) (i : Nat) {x : Bytes} (v : Value)
    (hx : x ≠ utf8 "this" ∧ x ≠ utf8 "super") : Grows F w (w.define i x v) where
  scopes := by
    intro j s hs
    by_cases h : i = j
    · subst h
      exact ⟨_, Scopes.getElem?_define_self x v hs, Extends.set s v hx⟩
    · exact ⟨s, (Scopes.getElem?_define_of_ne _ x v h).trans hs, .refl s⟩
  captured := fun _ _ h => h
  layout := fun _ _ _ h => h
  frozen := fun _ _ => rfl

theorem place {i : Nat} {x : Bytes} (location : Nat) (hi : ¬F i) (hx : w.layout i x = none) :
    Grows F w (w.place i x location) where
  scopes := fun _ s hs => ⟨s, hs, .refl s⟩
  captured := fun _ _ h => h
  layout := by
    intro j y l h
    have hne : ¬(j = i ∧ y = x) := by
      rintro ⟨rfl, rfl⟩
      simp [hx] at h
    simpa [World.place, hne] using h
  frozen := by
    intro j hj
    have hne : j ≠ i := fun e => hi (e ▸ hj)
    funext y
    simp [World.place, hne]

theorem capture (w : World) (ρ : Env) : Grows F w (w.capture ρ) where
  scopes := fun _ s hs => ⟨s, hs, .refl s⟩
  captured := by
    intro k ρ' hk
    have hsize : k < w.captured.size := (Array.getElem?_eq_some_iff.mp hk).1
    simpa [World.capture, Array.getElem?_push, Nat.ne_of_lt hsize] using hk
  layout := fun _ _ _ h => h
  frozen := fun _ _ => rfl

theorem push {m : Machine} {s : State} (h : Related w m s) (scope : Scope)
    (located : Bindings Nat) (hF : ∀ j, F j → j < w.scopes.size) :
    Grows F w (w.push scope located) where
  scopes := by
    intro i s' hs
    have hsize : i < w.scopes.size := (Array.getElem?_eq_some_iff.mp hs).1
    refine ⟨s', ?_, .refl s'⟩
    simpa [World.push, Array.getElem?_push, Nat.ne_of_lt hsize] using hs
  captured := fun _ _ h => h
  layout := by
    intro i x l hl
    have hsize : i < w.scopes.size := h.scopes ▸ (h.lt_of_layout hl).1
    simpa [World.push, Nat.ne_of_lt hsize] using hl
  frozen := by
    intro j hj
    funext y
    simp [World.push, Nat.ne_of_lt (hF j hj)]

end Grows

/-! ## New values -/

namespace Related

variable {w : World} {m : Machine} {s : State}

theorem rel_fields {F : Nat → Prop} {w' : World} (h : Related w m s) (hw : Grows F w w') :
    List.Forall₂ (Bindings.Rel (ValueRel w')) m.fields.toList s.machine.fields.toList :=
  h.fields.imp fun _ _ hrel => hrel.imp fun _ _ hv => hv.mono hw

theorem define (h : Related w m s) {i location : Nat} {x : Bytes} {v v' : Value}
    (hx : x ≠ utf8 "this" ∧ x ≠ utf8 "super") (hlayout : w.layout i x = some location)
    (hv : ValueRel (w.define i x v) v v') :
    Related (w.define i x v) { m with scopes := m.scopes.define i x v }
      { s with locations := s.locations.setIfInBounds location v' } := by
  have hw : Grows (fun _ => False) w (w.define i x v) := .define w i v hx
  obtain ⟨hi, scope, u', hscope, hu', -⟩ := h.located i x location hlayout
  refine
    { scopes := congrArg (fun t => Scopes.define t i x v) h.scopes
      captured := h.captured
      separate := h.separate
      fields := h.rel_fields hw
      current := h.current, fresh := h.fresh, depth := h.depth, limit := h.limit
      clock := h.clock, printed := h.printed, globals := ?_, located := ?_, placed := ?_ }
  · obtain ⟨bs, bs', hbs, hbs', hrel⟩ := h.globals
    exact ⟨bs, bs', (Scopes.getElem?_define_of_ne _ x v hi).trans hbs, hbs',
      hrel.imp fun _ _ hval => hval.mono hw⟩
  · intro j y l hl
    obtain ⟨hj, scope', y', hscope', hy', hrel⟩ := h.located j y l hl
    refine ⟨hj, ?_⟩
    by_cases hji : i = j
    · subst hji
      obtain rfl : scope = scope' := by simpa [hscope] using hscope'
      refine ⟨{ scope with bindings := scope.bindings.set x v }, ?_⟩
      by_cases hxy : x = y
      · subst hxy
        obtain rfl : location = l := Option.some.inj (hlayout.symm.trans hl)
        have hsize : location < s.locations.size := (Array.getElem?_eq_some_iff.mp hu').1
        exact ⟨v', Scopes.getElem?_define_self x v hscope, by simp [hsize],
          by simpa using hv⟩
      · have hne : location ≠ l := fun e => hxy (h.separate i i x y l (e ▸ hlayout) hl).2
        refine ⟨y', Scopes.getElem?_define_self x v hscope, ?_, ?_⟩
        · simpa [Array.getElem?_setIfInBounds, hne] using hy'
        · simpa [Bindings.get?_set_of_ne _ _ hxy] using hrel.mono hw
    · have hne : location ≠ l := fun e => hji (h.separate i j x y l (e ▸ hlayout) hl).1
      refine ⟨scope', y', (Scopes.getElem?_define_of_ne _ x v hji).trans hscope', ?_,
        hrel.mono hw⟩
      simpa [Array.getElem?_setIfInBounds, hne] using hy'
  · intro j scope' y hj hscope' hy
    by_cases hji : i = j
    · subst hji
      by_cases hxy : x = y
      · subst hxy
        simpa [World.define] using congrArg Option.isSome hlayout
      · refine h.placed i scope y hj hscope ?_
        rw [Scopes.getElem?_define_self x v hscope] at hscope'
        cases hscope'
        simpa [hxy] using hy
    · exact h.placed j scope' y hj ((Scopes.getElem?_define_of_ne _ x v hji).symm.trans hscope') hy

theorem defineGlobal (h : Related w m s) {x : Bytes} {v v' : Value}
    (hx : x ≠ utf8 "this" ∧ x ≠ utf8 "super") (hv : ValueRel (w.define 0 x v) v v') :
    Related (w.define 0 x v) { m with scopes := m.scopes.define 0 x v }
      { s with machine := { s.machine with scopes := s.machine.scopes.define 0 x v' } } := by
  have hw : Grows (fun _ => False) w (w.define 0 x v) := .define w 0 v hx
  refine
    { scopes := congrArg (fun t => Scopes.define t 0 x v) h.scopes
      captured := h.captured
      separate := h.separate
      fields := h.rel_fields hw
      current := h.current, fresh := h.fresh, depth := h.depth, limit := h.limit
      clock := h.clock, printed := h.printed, globals := ?_, located := ?_, placed := ?_ }
  · obtain ⟨bs, bs', hbs, hbs', hrel⟩ := h.globals
    refine ⟨bs.set x v, bs'.set x v', Scopes.getElem?_define_self x v hbs, ?_,
      (hrel.imp fun _ _ hval => hval.mono hw).set x hv⟩
    simp [hbs', Scopes.define]
  · intro j y l hl
    obtain ⟨hj, scope', y', hscope', hy', hrel⟩ := h.located j y l hl
    exact ⟨hj, scope', y', (Scopes.getElem?_define_of_ne _ x v hj.symm).trans hscope', hy',
      hrel.mono hw⟩
  · intro j scope' y hj hscope' hy
    exact h.placed j scope' y hj
      ((Scopes.getElem?_define_of_ne _ x v hj.symm).symm.trans hscope') hy

/-! ## New names, scopes and captured environments -/

theorem place (h : Related w m s) {i : Nat} {x : Bytes} {scope : Scope} (hi : i ≠ 0)
    (hscope : m.scopes[i]? = some scope) (hx : w.layout i x = none) :
    Related (w.place i x s.locations.size) m
      { s with locations := s.locations.push .nil } := by
  have hw : Grows (fun _ => False) w (w.place i x s.locations.size) :=
    .place _ (fun hf => hf) hx
  have hunbound : scope.bindings.get? x = none := by
    cases hget : scope.bindings.get? x with
    | none => rfl
    | some v => simpa [hx] using h.placed i scope x hi hscope (Bindings.has_of_get? hget)
  have hold {j : Nat} {y : Bytes} {l : Nat} (hl : w.layout j y = some l) :
      l < s.locations.size := (h.lt_of_layout hl).2
  refine
    { scopes := h.scopes
      captured := h.captured
      fields := h.rel_fields hw
      current := h.current, fresh := h.fresh, depth := h.depth, limit := h.limit
      clock := h.clock, printed := h.printed
      globals := ?_, located := ?_, separate := ?_, placed := ?_ }
  · obtain ⟨bs, bs', hbs, hbs', hrel⟩ := h.globals
    exact ⟨bs, bs', hbs, hbs', hrel.imp fun _ _ hval => hval.mono hw⟩
  · intro j y l hl
    by_cases hji : j = i ∧ y = x
    · obtain ⟨rfl, rfl⟩ := hji
      obtain rfl : s.locations.size = l := by simpa [World.place] using hl
      exact ⟨hi, scope, .nil, hscope, by simp, by simpa [hunbound] using ValueRel.nil⟩
    · replace hl : w.layout j y = some l := by simpa [World.place, hji] using hl
      obtain ⟨hj, scope', y', hscope', hy', hrel⟩ := h.located j y l hl
      refine ⟨hj, scope', y', hscope', ?_, hrel.mono hw⟩
      simpa [Array.getElem?_push, Nat.ne_of_lt (hold hl)] using hy'
  · intro j k y z l hy hz
    by_cases hji : j = i ∧ y = x <;> by_cases hki : k = i ∧ z = x
    · exact ⟨hji.1.trans hki.1.symm, hji.2.trans hki.2.symm⟩
    · obtain rfl : s.locations.size = l := by simpa [World.place, hji] using hy
      exact absurd (hold (by simpa [World.place, hki] using hz)) (Nat.lt_irrefl _)
    · obtain rfl : s.locations.size = l := by simpa [World.place, hki] using hz
      exact absurd (hold (by simpa [World.place, hji] using hy)) (Nat.lt_irrefl _)
    · exact h.separate j k y z l (by simpa [World.place, hji] using hy)
        (by simpa [World.place, hki] using hz)
  · intro j scope' y hj hscope' hy
    by_cases hji : j = i ∧ y = x
    · simp [World.place, hji]
    · simpa [World.place, hji] using h.placed j scope' y hj hscope' hy

theorem capture (h : Related w m s) (ρ : Env) :
    Related (w.capture ρ) m { s with captured := s.captured.push ρ } := by
  have hw : Grows (fun _ => False) w (w.capture ρ) := .capture w ρ
  refine
    { scopes := h.scopes
      captured := congrArg (·.push ρ) h.captured
      separate := h.separate
      placed := h.placed
      fields := h.rel_fields hw
      current := h.current, fresh := h.fresh, depth := h.depth, limit := h.limit
      clock := h.clock, printed := h.printed, globals := ?_, located := ?_ }
  · obtain ⟨bs, bs', hbs, hbs', hrel⟩ := h.globals
    exact ⟨bs, bs', hbs, hbs', hrel.imp fun _ _ hval => hval.mono hw⟩
  · intro j y l hl
    obtain ⟨hj, scope', y', hscope', hy', hrel⟩ := h.located j y l hl
    exact ⟨hj, scope', y', hscope', hy', hrel.mono hw⟩

end Related

structure Bound (w : World) (base : Nat) (locations : Array Value) (bindings : Bindings Value)
    (located : Bindings Nat) : Prop where
  fresh : ∀ x location, located.get? x = some location → base ≤ location
  value : ∀ x location, located.get? x = some location →
    ∃ v v', bindings.get? x = some v ∧ locations[location]? = some v' ∧ ValueRel w v v'
  separate : ∀ x y location, located.get? x = some location →
    located.get? y = some location → x = y
  bound : ∀ x, bindings.has x = located.has x

theorem Related.push {w : World} {m : Machine} {s : State} (h : Related w m s) (parent : Nat)
    {locations : Array Value} {bindings : Bindings Value} {located : Bindings Nat}
    (hold : ∀ (l : Nat) v, s.locations[l]? = some v → locations[l]? = some v)
    (hb : Bound w s.locations.size locations bindings located) :
    Related (w.push ⟨some parent, bindings⟩ located)
      { m with scopes := m.scopes.push ⟨some parent, bindings⟩ } { s with locations } := by
  have hw : Grows (fun _ => False) w (w.push ⟨some parent, bindings⟩ located) :=
    .push h _ _ (fun _ hf => hf.elim)
  have hne : w.scopes.size = m.scopes.size := congrArg Array.size h.scopes
  have hglobal := h.size_pos
  have hlayout : ∀ {j y}, (w.push ⟨some parent, bindings⟩ located).layout j y =
      if j = m.scopes.size then located.get? y else w.layout j y := by
    intro j y
    simp [World.push, hne]
  refine
    { scopes := by simp [World.push, h.scopes]
      captured := h.captured
      fields := h.rel_fields hw
      current := h.current, fresh := h.fresh, depth := h.depth, limit := h.limit
      clock := h.clock, printed := h.printed
      globals := ?_, located := ?_, separate := ?_, placed := ?_ }
  · obtain ⟨bs, bs', hbs, hbs', hrel⟩ := h.globals
    refine ⟨bs, bs', ?_, hbs', hrel.imp fun _ _ hval => hval.mono hw⟩
    rw [Array.getElem?_push, if_neg (Nat.ne_of_lt hglobal)]
    exact hbs
  · intro j y l hl
    rw [hlayout] at hl
    by_cases hj : j = m.scopes.size
    · rw [if_pos hj] at hl
      subst hj
      obtain ⟨v, v', hv, hv', hrel⟩ := hb.value y l hl
      refine ⟨Nat.ne_of_gt hglobal, ⟨some parent, bindings⟩, v', by simp, hv', ?_⟩
      simpa [hv] using hrel.mono hw
    · rw [if_neg hj] at hl
      obtain ⟨hj0, scope', y', hscope', hy', hrel⟩ := h.located j y l hl
      refine ⟨hj0, scope', y', ?_, hold l y' hy', hrel.mono hw⟩
      simpa [Array.getElem?_push, hj] using hscope'
  · intro j k y z l hy hz
    rw [hlayout] at hy hz
    by_cases hj : j = m.scopes.size <;> by_cases hk : k = m.scopes.size
    · rw [if_pos hj] at hy
      rw [if_pos hk] at hz
      exact ⟨hj.trans hk.symm, hb.separate y z l hy hz⟩
    · rw [if_pos hj] at hy
      rw [if_neg hk] at hz
      exact absurd (h.lt_of_layout hz).2 (Nat.not_lt.mpr (hb.fresh y l hy))
    · rw [if_neg hj] at hy
      rw [if_pos hk] at hz
      exact absurd (h.lt_of_layout hy).2 (Nat.not_lt.mpr (hb.fresh z l hz))
    · rw [if_neg hj] at hy
      rw [if_neg hk] at hz
      exact h.separate j k y z l hy hz
  · intro j scope' y hj hscope' hy
    rw [hlayout]
    by_cases hjs : j = m.scopes.size
    · subst hjs
      obtain rfl : ⟨some parent, bindings⟩ = scope' := by simpa using hscope'
      rw [if_pos rfl]
      exact (hb.bound y).symm.trans hy
    · rw [if_neg hjs]
      refine h.placed j scope' y hj ?_ hy
      simpa [Array.getElem?_push, hjs] using hscope'

end Lexical

end Lox
