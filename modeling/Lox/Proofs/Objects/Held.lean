import Lox.Proofs.Objects.Faithful
import Lox.Proofs.Safety.Invariant

/-!
What a machine holds after a change.

A binding or a field gets one value, a new scope brings those it is made with, a new object
none.  Everything else the machine held before.  And what is read was held, but for the `nil`
of a name that its scope lacks.
-/

namespace Lox.Machine

variable {m : Machine} {u v : Value}

/-! ## After a change -/

theorem holds_define {i : Nat} {x : Bytes}
    (h : ({ m with scopes := m.scopes.define i x v } : Machine).Holds u) : u = v ∨ m.Holds u := by
  rcases h with ⟨j, scope, y, hscope, hget⟩ | hfields
  · rw [Scopes.getElem?_define] at hscope
    split at hscope
    · obtain ⟨old, hold, rfl⟩ := Option.map_eq_some_iff.mp hscope
      rw [Bindings.get?_set] at hget
      split at hget
      · exact .inl (Option.some.inj hget).symm
      · exact .inr (.inl ⟨j, old, y, hold, hget⟩)
    · exact .inr (.inl ⟨j, scope, y, hscope, hget⟩)
  · exact .inr (.inr hfields)

theorem holds_newScope {parent : Nat} {bindings : Bindings Value}
    (h : ({ m with scopes := m.scopes.push { parent := some parent, bindings } } :
      Machine).Holds u) : (∃ x, bindings.get? x = some u) ∨ m.Holds u := by
  rcases h with ⟨j, scope, x, hscope, hget⟩ | hfields
  · rw [Array.getElem?_push] at hscope
    split at hscope
    · cases hscope
      exact .inl ⟨x, hget⟩
    · exact .inr (.inl ⟨j, scope, x, hscope, hget⟩)
  · exact .inr (.inr hfields)

theorem holds_newObject (h : ({ m with fields := m.fields.push [] } : Machine).Holds u) :
    m.Holds u := by
  rcases h with hscopes | ⟨j, bindings, x, hbindings, hget⟩
  · exact .inl hscopes
  · rw [Array.getElem?_push] at hbindings
    split at hbindings
    · cases hbindings
      cases hget
    · exact .inr ⟨j, bindings, x, hbindings, hget⟩

theorem holds_setField {i : Nat} {x : Bytes}
    (h : ({ m with fields := m.fields.modify i fun bindings => bindings.set x v } :
      Machine).Holds u) : u = v ∨ m.Holds u := by
  rcases h with hscopes | ⟨j, bindings, y, hbindings, hget⟩
  · exact .inr (.inl hscopes)
  · rw [Array.getElem?_modify] at hbindings
    split at hbindings
    · obtain ⟨old, hold, rfl⟩ := Option.map_eq_some_iff.mp hbindings
      rw [Bindings.get?_set] at hget
      split at hget
      · exact .inl (Option.some.inj hget).symm
      · exact .inr (.inr ⟨j, old, y, hold, hget⟩)
    · exact .inr (.inr ⟨j, bindings, y, hbindings, hget⟩)

theorem holds_start {natives : List Native} {limit : Nat} {clock : List Int} {v : Value}
    (h : (start natives limit clock).Holds v) : ∃ f, v = .native f := by
  rcases h with ⟨i, scope, x, hscope, hget⟩ | ⟨i, bindings, x, hbindings, -⟩
  · obtain rfl : scope = { bindings := natives.map fun f => (f.name, .native f) } := by
      simpa [start] using Array.mem_of_getElem? hscope
    have hnatives : Bindings.All (fun v => ∃ f, v = Value.native f)
        (natives.map fun f => (f.name, .native f)) := by
      refine .of_forall_mem fun entry hentry => ?_
      obtain ⟨f, -, rfl⟩ := List.mem_map.mp hentry
      exact ⟨f, rfl⟩
    exact hnatives x v hget
  · cases hbindings

/-! ## What is read -/

theorem holds_of_get? {i : Nat} {x : Bytes} (h : m.scopes.get? i x = some v) : m.Holds v := by
  obtain ⟨j, scope, hscope, hget⟩ := Scopes.exists_of_get? h
  exact .inl ⟨j, scope, x, hscope, hget⟩

theorem holds_of_bindingAt {i hops : Nat} {x : Bytes} {m' : Machine}
    (h : bindingAt i hops x m = .done v m') : v = .nil ∨ m.Holds v := by
  unfold bindingAt at h
  split at h
  next u hget =>
    cases h
    rcases Scopes.exists_of_getAt? hget with rfl | ⟨j, scope, hscope, hfound⟩
    · exact .inl rfl
    · exact .inr (.inl ⟨j, scope, x, hscope, hfound⟩)
  next => cases h

theorem holds_of_read {r : Reference} {m' : Machine} (h : read r m = .done v m') :
    v = .nil ∨ m.Holds v := by
  unfold read at h
  split at h
  · exact holds_of_bindingAt h
  · split at h
    next hget =>
      cases h
      exact .inr (holds_of_get? hget)
    next => cases h

theorem holds_of_field {id : Nat} {x : Bytes}
    (h : ((m.fields[id]?).bind fun bindings => bindings.get? x) = some v) : m.Holds v := by
  obtain ⟨bindings, hbindings, hget⟩ := Option.bind_eq_some_iff.mp h
  exact .inr ⟨id, bindings, x, hbindings, hget⟩

end Lox.Machine
