import Lox.Machine.Scope

/-!
The store of scopes as it changes.

A binding changes one scope and no parent.  Scopes are added but never taken away, so the
scopes around a scope are the same ever after.
-/

namespace Lox

namespace Scopes

/-! ## Bindings -/

theorem getElem?_define (s : Scopes) (i j : Nat) (x : Bytes) (v : Value) :
    (s.define i x v)[j]? =
      if i = j then s[j]?.map fun scope => { scope with bindings := scope.bindings.set x v }
      else s[j]? := by
  simp [define, Array.getElem?_modify]

theorem getElem?_define_of_ne (s : Scopes) {i j : Nat} (x : Bytes) (v : Value) (h : i ≠ j) :
    (s.define i x v)[j]? = s[j]? := by
  simp [getElem?_define, h]

theorem getElem?_define_self {s : Scopes} {i : Nat} {scope : Scope} (x : Bytes) (v : Value)
    (h : s[i]? = some scope) :
    (s.define i x v)[i]? = some { scope with bindings := scope.bindings.set x v } := by
  simp [getElem?_define, h]

/-! ## What is found -/

theorem exists_of_get? {s : Scopes} {i : Nat} {x : Bytes} {v : Value} (h : s.get? i x = some v) :
    ∃ (j : Nat) (scope : Scope), s[j]? = some scope ∧ scope.bindings.get? x = some v := by
  unfold get? at h
  obtain ⟨j, -, h⟩ := Option.bind_eq_some_iff.mp h
  obtain ⟨bindings, hbindings, hget⟩ := Option.bind_eq_some_iff.mp h
  obtain ⟨scope, hscope, rfl⟩ := Option.map_eq_some_iff.mp hbindings
  exact ⟨j, scope, hscope, hget⟩

/-- At a distance, a name without a binding stands for `nil`. -/
theorem exists_of_getAt? {s : Scopes} {i hops : Nat} {x : Bytes} {v : Value}
    (h : s.getAt? i hops x = some v) :
    v = .nil ∨ ∃ (j : Nat) (scope : Scope), s[j]? = some scope ∧
      scope.bindings.get? x = some v := by
  unfold getAt? at h
  obtain ⟨j, -, h⟩ := Option.bind_eq_some_iff.mp h
  obtain ⟨bindings, hbindings, h⟩ := Option.bind_eq_some_iff.mp h
  obtain ⟨scope, hscope, rfl⟩ := Option.map_eq_some_iff.mp hbindings
  cases h
  cases hget : scope.bindings.get? x with
  | none => exact .inl rfl
  | some v => exact .inr ⟨j, scope, hscope, hget⟩

/-! ## Scopes around a scope -/

def Reaches (s : Scopes) (id k : Nat) : Prop := (s.ancestor? id k).isSome = true

def Extends (s t : Scopes) : Prop :=
  ∀ (id : Nat) (scope : Scope), s[id]? = some scope →
    ∃ scope' : Scope, t[id]? = some scope' ∧ scope'.parent = scope.parent

section

variable {s t u : Scopes} {id k : Nat}

theorem ancestor?_zero {owner : Nat} :
    s.ancestor? id 0 = some owner ↔ id = owner ∧ id < s.size := by
  unfold ancestor?
  by_cases h : id < s.size <;> simp [h]

theorem ancestor?_succ {owner : Nat} : s.ancestor? id (k + 1) = some owner ↔
    ∃ scope parent, s[id]? = some scope ∧ scope.parent = some parent ∧
      s.ancestor? parent k = some owner := by
  rw [ancestor?]
  constructor
  · intro h
    split at h
    · next parent bindings hscope => exact ⟨_, parent, hscope, rfl, h⟩
    · cases h
  · rintro ⟨⟨_, bindings⟩, parent, hscope, rfl, h⟩
    rw [hscope]
    exact h

theorem reaches_zero : s.Reaches id 0 ↔ id < s.size := by
  simp [Reaches, Option.isSome_iff_exists, ancestor?_zero]

theorem reaches_succ : s.Reaches id (k + 1) ↔
    ∃ scope parent, s[id]? = some scope ∧ scope.parent = some parent ∧ s.Reaches parent k := by
  simp only [Reaches, Option.isSome_iff_exists, ancestor?_succ]
  constructor
  · rintro ⟨owner, scope, parent, hscope, hparent, h⟩
    exact ⟨scope, parent, hscope, hparent, owner, h⟩
  · rintro ⟨scope, parent, hscope, hparent, owner, h⟩
    exact ⟨owner, scope, parent, hscope, hparent, h⟩

theorem ancestor?_lt {hops owner : Nat} (h : s.ancestor? id hops = some owner) :
    owner < s.size := by
  induction hops generalizing id with
  | zero =>
      obtain ⟨rfl, hid⟩ := ancestor?_zero.mp h
      exact hid
  | succ hops ih =>
      obtain ⟨-, parent, -, -, hparent⟩ := ancestor?_succ.mp h
      exact ih hparent

theorem Reaches.lt (h : s.Reaches id k) : id < s.size := by
  cases k with
  | zero => exact reaches_zero.mp h
  | succ k =>
      obtain ⟨scope, parent, hscope, -, -⟩ := reaches_succ.mp h
      exact (Array.getElem?_eq_some_iff.mp hscope).1

theorem Reaches.of_le {j : Nat} (h : s.Reaches id k) (hj : j ≤ k) : s.Reaches id j := by
  induction k generalizing id j with
  | zero =>
      obtain rfl : j = 0 := by omega
      exact h
  | succ k ih =>
      cases j with
      | zero => exact reaches_zero.mpr h.lt
      | succ j =>
          obtain ⟨scope, parent, hscope, hparent, hrest⟩ := reaches_succ.mp h
          exact reaches_succ.mpr ⟨scope, parent, hscope, hparent, ih hrest (by omega)⟩

theorem Extends.refl (s : Scopes) : s.Extends s :=
  fun _ scope h => ⟨scope, h, rfl⟩

theorem Extends.trans (h : s.Extends t) (h' : t.Extends u) : s.Extends u := by
  intro id scope hscope
  obtain ⟨scope', hscope', hparent⟩ := h id scope hscope
  obtain ⟨scope'', hscope'', hparent'⟩ := h' id scope' hscope'
  exact ⟨scope'', hscope'', hparent'.trans hparent⟩

theorem Extends.push (s : Scopes) (scope : Scope) : s.Extends (s.push scope) := by
  intro id scope' h
  obtain ⟨hlt, -⟩ := Array.getElem?_eq_some_iff.mp h
  refine ⟨scope', ?_, rfl⟩
  rw [Array.getElem?_push_lt hlt]
  exact (Array.getElem?_eq_getElem hlt).symm.trans h

theorem Extends.define (s : Scopes) (id : Nat) (name : Bytes) (v : Value) :
    s.Extends (s.define id name v) := by
  intro i scope h
  by_cases hi : id = i
  · subst hi
    exact ⟨_, getElem?_define_self name v h, rfl⟩
  · exact ⟨scope, (getElem?_define_of_ne s name v hi).trans h, rfl⟩

theorem Extends.reaches (h : s.Extends t) (hreaches : s.Reaches id k) : t.Reaches id k := by
  induction k generalizing id with
  | zero =>
      have hlt := reaches_zero.mp hreaches
      obtain ⟨scope', hscope', -⟩ := h id s[id] (Array.getElem?_eq_getElem hlt)
      exact reaches_zero.mpr (Array.getElem?_eq_some_iff.mp hscope').1
  | succ k ih =>
      obtain ⟨scope, parent, hscope, hparent, hrest⟩ := reaches_succ.mp hreaches
      obtain ⟨scope', hscope', hparent'⟩ := h id scope hscope
      exact reaches_succ.mpr ⟨scope', parent, hscope', hparent'.trans hparent, ih hrest⟩

theorem Reaches.push {parent : Nat} (h : s.Reaches parent k) (bindings : Bindings Value) :
    Reaches (s.push { parent := some parent, bindings }) s.size (k + 1) := by
  refine reaches_succ.mpr ⟨_, parent, Array.getElem?_push_size, rfl, ?_⟩
  exact (Extends.push s _).reaches h

end

end Scopes

end Lox
