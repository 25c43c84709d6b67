import Lox.Bindings
import Mathlib.Data.List.Forall2

/-!
Looking up what was bound.

A binding is seen under its own name and hides nothing else.  Two lists of bindings
correspond when they bind the same names in the same order to corresponding values.
-/

namespace Lox.Bindings

@[simp] theorem get?_nil (name : Bytes) : get? ([] : Bindings α) name = none := rfl

theorem get?_cons (key name : Bytes) (value : α) (rest : Bindings α) :
    get? ((key, value) :: rest) name = if key = name then some value else rest.get? name := by
  unfold get?
  by_cases h : key = name
  · simp [h]
  · have hne : (name == key) = false := by simpa using fun e => h e.symm
    simp [List.lookup_cons, hne, h]

theorem get?_set (bindings : Bindings α) (name other : Bytes) (value : α) :
    (bindings.set name value).get? other =
      if name = other then some value else bindings.get? other := by
  induction bindings with
  | nil => simp [set, get?_cons]
  | cons entry rest ih =>
      obtain ⟨key, old⟩ := entry
      by_cases hkey : key = name
      · subst hkey
        simp only [set, if_true, get?_cons]
        split <;> rfl
      · simp only [set, hkey, if_false, get?_cons, ih]
        by_cases hother : name = other
        · simp [hother] at hkey ⊢
          simp [hkey]
        · simp [hother]

@[simp] theorem get?_set_self (bindings : Bindings α) (name : Bytes) (value : α) :
    (bindings.set name value).get? name = some value := by
  simp [get?_set]

theorem get?_set_of_ne (bindings : Bindings α) {name other : Bytes} (value : α)
    (h : name ≠ other) : (bindings.set name value).get? other = bindings.get? other := by
  simp [get?_set, h]

theorem get?_erase (bindings : Bindings α) (name other : Bytes) :
    (bindings.erase name).get? other = if name = other then none else bindings.get? other := by
  induction bindings with
  | nil => simp [erase]
  | cons entry rest ih =>
      obtain ⟨key, value⟩ := entry
      unfold erase at ih ⊢
      by_cases hkey : key = name
      · subst hkey
        simp only [List.filter_cons, bne_self_eq_false, Bool.false_eq_true, if_false, ih, get?_cons]
        split <;> rfl
      · simp only [List.filter_cons, bne_iff_ne, ne_eq, hkey, not_false_eq_true, if_true, get?_cons,
          ih]
        by_cases hother : name = other
        · subst hother
          simp [hkey]
        · simp [hother]

@[simp] theorem has_nil (name : Bytes) : has ([] : Bindings α) name = false := rfl

@[simp] theorem has_cons (key name : Bytes) (value : α) (rest : Bindings α) :
    has ((key, value) :: rest) name = (decide (key = name) || rest.has name) := by
  by_cases h : key = name <;> simp [has, get?_cons, h]

@[simp] theorem has_set (bindings : Bindings α) (name other : Bytes) (value : α) :
    (bindings.set name value).has other = (decide (name = other) || bindings.has other) := by
  by_cases h : name = other <;> simp [has, get?_set, h]

theorem has_iff_mem (bindings : Bindings α) (name : Bytes) :
    bindings.has name = true ↔ name ∈ bindings.map Prod.fst := by
  induction bindings with
  | nil => simp
  | cons entry rest ih =>
      obtain ⟨key, value⟩ := entry
      simp only [has_cons, Bool.or_eq_true, decide_eq_true_eq, List.map_cons, List.mem_cons, ih,
        eq_comm (a := key)]

theorem has_of_get? {bindings : Bindings α} {name : Bytes} {value : α}
    (h : bindings.get? name = some value) : bindings.has name = true := by
  simp [has, h]

/-- Binding a new name puts it last, binding an old one keeps its place. -/
theorem keys_set (bindings : Bindings α) (name : Bytes) (value : α) :
    (bindings.set name value).map Prod.fst =
      if bindings.has name then bindings.map Prod.fst else bindings.map Prod.fst ++ [name] := by
  induction bindings with
  | nil => simp [set]
  | cons entry rest ih =>
      obtain ⟨key, old⟩ := entry
      by_cases hkey : key = name
      · simp [set, hkey]
      · simp only [set, hkey, if_false, List.map_cons, ih, has_cons, decide_false,
          Bool.false_or, List.cons_append]
        split <;> rfl

/-! ## Other values under the same names -/

def mapValues (f : α → β) (bindings : Bindings α) : Bindings β :=
  bindings.map fun entry => (entry.1, f entry.2)

theorem mapValues_cons (f : α → β) (key : Bytes) (value : α) (rest : Bindings α) :
    mapValues f ((key, value) :: rest) = (key, f value) :: mapValues f rest := rfl

@[simp] theorem get?_mapValues (f : α → β) (bindings : Bindings α) (name : Bytes) :
    (bindings.mapValues f).get? name = (bindings.get? name).map f := by
  induction bindings with
  | nil => rfl
  | cons entry rest ih =>
      obtain ⟨key, value⟩ := entry
      rw [mapValues_cons, get?_cons, get?_cons, ih]
      split <;> rfl

@[simp] theorem has_mapValues (f : α → β) (bindings : Bindings α) (name : Bytes) :
    (bindings.mapValues f).has name = bindings.has name := by
  simp [has]

theorem mapValues_set (f : α → β) (bindings : Bindings α) (name : Bytes) (value : α) :
    (bindings.set name value).mapValues f = (bindings.mapValues f).set name (f value) := by
  induction bindings with
  | nil => rfl
  | cons entry rest ih =>
      obtain ⟨key, old⟩ := entry
      rw [mapValues_cons]
      by_cases hkey : key = name
      · simp [set, hkey, mapValues_cons]
      · simp [set, hkey, mapValues_cons, ih]

@[simp] theorem names_mapValues (f : α → β) (bindings : Bindings α) :
    (bindings.mapValues f).names = bindings.names := by
  simp [names, mapValues, Function.comp_def]

/-! ## Corresponding bindings -/

/-- The same names in the same order, bound to values related by `R`. -/
def Rel (R : α → β → Prop) (bs : Bindings α) (cs : Bindings β) : Prop :=
  List.Forall₂ (fun b c => b.1 = c.1 ∧ R b.2 c.2) bs cs

namespace Rel

variable {R S : α → β → Prop} {bs : Bindings α} {cs : Bindings β}

theorem nil : Rel R [] [] := List.Forall₂.nil

theorem imp (h : Rel R bs cs) (hRS : ∀ a b, R a b → S a b) : Rel S bs cs :=
  List.Forall₂.imp (fun _ _ hbc => ⟨hbc.1, hRS _ _ hbc.2⟩) h

theorem get? (h : Rel R bs cs) (name : Bytes) :
    bs.get? name = none ∧ cs.get? name = none ∨
      ∃ b c, bs.get? name = some b ∧ cs.get? name = some c ∧ R b c := by
  induction h with
  | nil => exact .inl ⟨rfl, rfl⟩
  | @cons b c _ _ hbc _ ih =>
      obtain ⟨key, value⟩ := b
      obtain ⟨key', value'⟩ := c
      obtain ⟨rfl, hvalue⟩ : key = key' ∧ R value value' := hbc
      simp only [get?_cons]
      split
      · exact .inr ⟨value, value', rfl, rfl, hvalue⟩
      · exact ih

theorem has_eq (h : Rel R bs cs) (name : Bytes) : bs.has name = cs.has name := by
  unfold has
  obtain ⟨hb, hc⟩ | ⟨_, _, hb, hc, -⟩ := h.get? name <;> simp [hb, hc]

theorem mapValues_eq {γ : Type} {f : α → γ} {g : β → γ} (h : Rel R bs cs)
    (hfg : ∀ a b, R a b → f a = g b) : bs.mapValues f = cs.mapValues g := by
  induction h with
  | nil => rfl
  | @cons b c _ _ hbc _ ih =>
      obtain ⟨key, value⟩ := b
      obtain ⟨key', value'⟩ := c
      obtain ⟨rfl, hvalue⟩ : key = key' ∧ R value value' := hbc
      rw [mapValues_cons, mapValues_cons, hfg _ _ hvalue, ih]

theorem set (h : Rel R bs cs) (name : Bytes) {value : α} {value' : β} (hv : R value value') :
    Rel R (bs.set name value) (cs.set name value') := by
  induction h with
  | nil => exact List.Forall₂.cons ⟨rfl, hv⟩ List.Forall₂.nil
  | @cons b c _ _ hbc hrest ih =>
      obtain ⟨key, old⟩ := b
      obtain ⟨key', old'⟩ := c
      obtain ⟨rfl, hold⟩ : key = key' ∧ R old old' := hbc
      by_cases hkey : key = name
      · simp only [Bindings.set, hkey, if_true]
        exact List.Forall₂.cons ⟨rfl, hv⟩ hrest
      · simp only [Bindings.set, hkey, if_false]
        exact List.Forall₂.cons ⟨rfl, hold⟩ ih

end Rel

end Lox.Bindings
