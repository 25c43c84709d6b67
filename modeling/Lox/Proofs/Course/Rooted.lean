import Lox.Machine.State
import Lox.Proofs.Bindings
import Lox.Proofs.Scopes

/-!
Scopes as a tree under the global one.

The global scope is the first and has no parent; every other scope has a parent that is
older.  So every chain of parents ends in the global scope.  Names come into a scope by
binding them in it, and binding a name that is there already adds none.
-/

namespace Lox.Scopes

variable {s : Scopes}

/-! ## The names of a scope -/

theorem mem_names {id : Nat} {x : Bytes} :
    x ∈ s.names id ↔ ∃ scope, s[id]? = some scope ∧ scope.bindings.has x = true := by
  unfold names bindingsOf?
  cases s[id]? with
  | none => simp
  | some scope => simp [Bindings.names, Bytes.sort, Bindings.has_iff_mem]

theorem names_eq_of_getElem? {t : Scopes} {id : Nat}
    (h : (t[id]?).map (fun scope => scope.bindings.map Prod.fst) =
      (s[id]?).map fun scope => scope.bindings.map Prod.fst) : t.names id = s.names id := by
  unfold names bindingsOf?
  cases hs : s[id]? <;> cases ht : t[id]? <;> simp_all [Bindings.names]

theorem names_push {id : Nat} (h : id < s.size) (scope : Scope) :
    names (s.push scope) id = s.names id := by
  apply names_eq_of_getElem?
  rw [Array.getElem?_push_lt h, Array.getElem?_eq_getElem h]

theorem names_define_of_ne {i j : Nat} (h : i ≠ j) (x : Bytes) (v : Value) :
    (s.define i x v).names j = s.names j := by
  apply names_eq_of_getElem?
  rw [getElem?_define_of_ne s x v h]

theorem names_define_of_has {i : Nat} {scope : Scope} (hscope : s[i]? = some scope) {x : Bytes}
    (hx : scope.bindings.has x = true) (v : Value) (j : Nat) :
    (s.define i x v).names j = s.names j := by
  by_cases hij : i = j
  · subst hij
    apply names_eq_of_getElem?
    simp [getElem?_define_self x v hscope, hscope, Bindings.keys_set, hx]
  · exact names_define_of_ne hij x v

theorem mem_names_define {i j : Nat} {x y : Bytes} {v : Value}
    (h : y ∈ (s.define i x v).names j) : y ∈ s.names j ∨ i = j ∧ y = x := by
  obtain ⟨scope, hscope, hy⟩ := mem_names.mp h
  rw [getElem?_define] at hscope
  split at hscope
  · obtain ⟨old, hold, rfl⟩ := Option.map_eq_some_iff.mp hscope
    rw [Bindings.has_set, Bool.or_eq_true, decide_eq_true_eq] at hy
    rcases hy with rfl | hy
    · exact .inr ⟨‹_›, rfl⟩
    · exact .inl (mem_names.mpr ⟨old, hold, hy⟩)
  · exact .inl (mem_names.mpr ⟨scope, hscope, hy⟩)

theorem has_of_owner? {id owner : Nat} {x : Bytes} (h : s.owner? id x = some owner) :
    ∃ scope, s[owner]? = some scope ∧ scope.bindings.has x = true := by
  unfold owner? at h
  generalize s.size = links at h
  induction links generalizing id with
  | zero => cases h
  | succ links ih =>
      rw [ownerWithin] at h
      cases hscope : s[id]? with
      | none => simp [hscope] at h
      | some scope =>
          simp only [hscope] at h
          by_cases hx : scope.bindings.has x = true
          · simp only [hx, if_true, Option.some.injEq] at h
            exact ⟨scope, h ▸ hscope, hx⟩
          · simp only [hx, Bool.false_eq_true, if_false] at h
            cases hparent : scope.parent with
            | none => simp [hparent] at h
            | some parent =>
                rw [hparent] at h
                exact ih h

/-! ## Single changes -/

/-- Nothing happens, one scope is added, or one name is bound in one scope. -/
inductive Change (s : Scopes) : Scopes → Prop where
  | none : Change s s
  | push (scope : Scope) : Change s (s.push scope)
  | define (id : Nat) (name : Bytes) (v : Value) : Change s (s.define id name v)

/-! ## The tree -/

structure Rooted (s : Scopes) : Prop where
  root : ∃ bindings, s[0]? = some ⟨none, bindings⟩
  older : ∀ (id : Nat) (scope : Scope), s[id]? = some scope → 0 < id →
    ∃ parent, scope.parent = some parent ∧ parent < id

namespace Rooted

theorem define (h : s.Rooted) (id : Nat) (x : Bytes) (v : Value) : (s.define id x v).Rooted := by
  constructor
  · obtain ⟨bindings, hroot⟩ := h.root
    rw [getElem?_define, hroot]
    split <;> exact ⟨_, rfl⟩
  · intro i scope hscope hi
    rw [getElem?_define] at hscope
    split at hscope
    · obtain ⟨old, hold, rfl⟩ := Option.map_eq_some_iff.mp hscope
      exact h.older i old hold hi
    · exact h.older i scope hscope hi

theorem push (h : s.Rooted) {parent : Nat} (hparent : parent < s.size)
    (bindings : Bindings Value) : Rooted (s.push { parent := some parent, bindings }) := by
  have hsize : 0 < s.size := Nat.zero_lt_of_lt hparent
  constructor
  · obtain ⟨old, hroot⟩ := h.root
    refine ⟨old, ?_⟩
    rw [Array.getElem?_push_lt hsize]
    exact (Array.getElem?_eq_getElem hsize).symm.trans hroot
  · intro i scope hscope hi
    rw [Array.getElem?_push] at hscope
    split at hscope
    · cases hscope
      exact ⟨parent, rfl, by omega⟩
    · exact h.older i scope hscope hi

/-- The global scope has no parent, so a scope with others around it is another one. -/
theorem ne_zero_of_reaches (h : s.Rooted) {id k : Nat} (hk : s.Reaches id (k + 1)) : id ≠ 0 := by
  rintro rfl
  obtain ⟨scope, parent, hscope, hparent, -⟩ := reaches_succ.mp hk
  obtain ⟨bindings, hroot⟩ := h.root
  rw [hroot] at hscope
  cases hscope
  cases hparent

/-- Whoever has `k` scopes around it meets the global one not before the last of them. -/
theorem ancestor_ne_zero (h : s.Rooted) {id k hops owner : Nat} (hk : s.Reaches id k)
    (hlt : hops < k) (howner : s.ancestor? id hops = some owner) : owner ≠ 0 := by
  induction hops generalizing id k with
  | zero =>
      obtain ⟨k, rfl⟩ : ∃ j, k = j + 1 := ⟨k - 1, by omega⟩
      unfold ancestor? at howner
      split at howner
      · cases howner
        exact h.ne_zero_of_reaches hk
      · cases howner
  | succ hops ih =>
      obtain ⟨k, rfl⟩ : ∃ j, k = j + 1 := ⟨k - 1, by omega⟩
      obtain ⟨⟨_, bindings⟩, parent, hscope, rfl, hrest⟩ := reaches_succ.mp hk
      rw [ancestor?, hscope] at howner
      exact ih hrest (by omega) howner

theorem exists_ancestor_zero (h : s.Rooted) {id : Nat} (hid : id < s.size) :
    ∃ hops, s.ancestor? id hops = some 0 := by
  induction id using Nat.strongRecOn with
  | ind id ih =>
      by_cases hzero : id = 0
      · subst hzero
        exact ⟨0, by simp [ancestor?, hid]⟩
      · have hscope := Array.getElem?_eq_getElem hid
        obtain ⟨parent, hparent, hlt⟩ := h.older id s[id] hscope (Nat.pos_of_ne_zero hzero)
        obtain ⟨hops, hhops⟩ := ih parent hlt (by omega)
        refine ⟨hops + 1, ?_⟩
        rw [ancestor?, hscope]
        generalize s[id] = scope at hparent
        obtain ⟨_, bindings⟩ := scope
        cases hparent
        exact hhops

end Rooted

end Lox.Scopes
