import Lox.Proofs.Course.Rooted
import Mathlib.Data.Fintype.Card
import Mathlib.Tactic.IntervalCases

/-!
Scopes that are shared.

Many chains of parents lead through one scope.  A name belongs, as seen from a scope, to the
innermost scope around it that binds the name; an assignment changes that one, and is seen
exactly from where the name belongs to the same scope.  The number of links to that scope is
as good as the name.
-/

namespace Lox.Scopes

variable {s : Scopes} {id d owner : Nat} {x : Bytes}

/-! ## Chains of parents -/

def Acyclic (s : Scopes) : Prop := ∀ id hops : Nat, s.ancestor? id (hops + 1) ≠ some id

theorem ancestor?_add (j k : Nat) : s.ancestor? id (j + k) = some owner ↔
    ∃ i, s.ancestor? id j = some i ∧ s.ancestor? i k = some owner := by
  induction j generalizing id with
  | zero =>
      rw [Nat.zero_add]
      constructor
      · intro h
        have hid : id < s.size := Reaches.lt (k := k) (by rw [Reaches, h]; rfl)
        exact ⟨id, ancestor?_zero.mpr ⟨rfl, hid⟩, h⟩
      · rintro ⟨i, hi, h⟩
        obtain ⟨rfl, -⟩ := ancestor?_zero.mp hi
        exact h
  | succ j ih =>
      rw [Nat.add_right_comm, ancestor?_succ]
      simp only [ih, ancestor?_succ]
      constructor
      · rintro ⟨scope, parent, hscope, hparent, i, hi, h⟩
        exact ⟨i, ⟨scope, parent, hscope, hparent, hi⟩, h⟩
      · rintro ⟨i, ⟨scope, parent, hscope, hparent, hi⟩, h⟩
        exact ⟨scope, parent, hscope, hparent, i, hi, h⟩

theorem Acyclic.ne (hs : s.Acyclic) {j k i : Nat} (hj : s.ancestor? id j = some i)
    (hk : s.ancestor? id k = some i) : ¬ j < k := by
  intro hlt
  obtain ⟨more, rfl⟩ := Nat.exists_eq_add_of_lt hlt
  rw [Nat.add_assoc, ancestor?_add] at hk
  obtain ⟨i', hi', hcycle⟩ := hk
  obtain rfl : i = i' := Option.some.inj (hj.symm.trans hi')
  exact hs i more hcycle

/-- Without cycles a way has fewer links than there are scopes, so every chain ends. -/
theorem Acyclic.lt_size (hs : s.Acyclic) (h : s.ancestor? id d = some owner) : d < s.size := by
  have hway : ∀ j : Fin (d + 1), ∃ i, s.ancestor? id j = some i := by
    intro j
    obtain ⟨more, hmore⟩ := Nat.exists_eq_add_of_le (Nat.le_of_lt_succ j.isLt)
    rw [hmore, ancestor?_add] at h
    obtain ⟨i, hi, -⟩ := h
    exact ⟨i, hi⟩
  choose scopeAt hscopeAt using hway
  let place : Fin (d + 1) → Fin s.size := fun j => ⟨scopeAt j, ancestor?_lt (hscopeAt j)⟩
  have hinjective : Function.Injective place := by
    intro j k hjk
    have heq : scopeAt j = scopeAt k := congrArg Fin.val hjk
    have hj := hscopeAt j
    rw [heq] at hj
    have hjk := hs.ne hj (hscopeAt k)
    have hkj := hs.ne (hscopeAt k) hj
    exact Fin.ext (by omega)
  have hcard : d + 1 ≤ s.size := by simpa using Fintype.card_le_of_injective place hinjective
  omega

/-- Scopes whose parents are older have no cycles. -/
theorem acyclic_of_older (h : ∀ (id : Nat) (scope : Scope) (parent : Nat), s[id]? = some scope →
    scope.parent = some parent → parent < id) : s.Acyclic := by
  have hle : ∀ (hops id owner : Nat), s.ancestor? id hops = some owner → owner ≤ id := by
    intro hops
    induction hops with
    | zero =>
        intro id owner howner
        exact (ancestor?_zero.mp howner).1.ge
    | succ hops ih =>
        intro id owner howner
        obtain ⟨scope, parent, hscope, hparent, hrest⟩ := ancestor?_succ.mp howner
        exact (ih parent owner hrest).trans (h id scope parent hscope hparent).le
  intro id hops hcycle
  obtain ⟨scope, parent, hscope, hparent, hrest⟩ := ancestor?_succ.mp hcycle
  have := hle hops parent id hrest
  have := h id scope parent hscope hparent
  omega

theorem Rooted.acyclic (h : s.Rooted) : s.Acyclic := by
  refine acyclic_of_older fun id scope parent hscope hparent => ?_
  rcases Nat.eq_zero_or_pos id with rfl | hid
  · obtain ⟨bindings, hroot⟩ := h.root
    rw [hroot] at hscope
    cases hscope
    cases hparent
  · obtain ⟨older, holder, hlt⟩ := h.older id scope hscope hid
    obtain rfl : older = parent := Option.some.inj (holder.symm.trans hparent)
    exact hlt

/-! ## Where a name belongs -/

/-- Of the scopes from `id` on outward, the one `hops` links away is the first to bind the name. -/
structure Innermost (s : Scopes) (id : Nat) (x : Bytes) (hops owner : Nat) : Prop where
  ancestor : s.ancestor? id hops = some owner
  bound : x ∈ s.names owner
  first : ∀ j < hops, ∀ i, s.ancestor? id j = some i → x ∉ s.names i

theorem lt_of_mem_names (h : x ∈ s.names id) : id < s.size := by
  obtain ⟨scope, hscope, -⟩ := mem_names.mp h
  exact (Array.getElem?_eq_some_iff.mp hscope).1

theorem innermost_of_mem (h : x ∈ s.names id) :
    s.Innermost id x d owner ↔ d = 0 ∧ owner = id := by
  have hid := ancestor?_zero.mpr ⟨rfl, lt_of_mem_names h⟩
  constructor
  · intro hin
    obtain rfl : d = 0 := by
      by_contra hd
      exact hin.first 0 (Nat.pos_of_ne_zero hd) id hid h
    exact ⟨rfl, (ancestor?_zero.mp hin.ancestor).1.symm⟩
  · rintro ⟨rfl, rfl⟩
    exact ⟨hid, h, fun j hj => absurd hj (Nat.not_lt_zero j)⟩

theorem innermost_of_not_mem {scope : Scope} (hscope : s[id]? = some scope) (h : x ∉ s.names id) :
    s.Innermost id x d owner ↔
      ∃ parent hops, scope.parent = some parent ∧ d = hops + 1 ∧
        s.Innermost parent x hops owner := by
  constructor
  · intro hin
    cases d with
    | zero =>
        obtain ⟨rfl, -⟩ := ancestor?_zero.mp hin.ancestor
        exact absurd hin.bound h
    | succ hops =>
        obtain ⟨scope', parent, hscope', hparent, hrest⟩ := ancestor?_succ.mp hin.ancestor
        obtain rfl : scope' = scope := Option.some.inj (hscope'.symm.trans hscope)
        refine ⟨parent, hops, hparent, rfl, hrest, hin.bound, fun j hj i hi => ?_⟩
        exact hin.first (j + 1) (by omega) i
          (ancestor?_succ.mpr ⟨scope', parent, hscope, hparent, hi⟩)
  · rintro ⟨parent, hops, hparent, rfl, hin⟩
    refine ⟨ancestor?_succ.mpr ⟨scope, parent, hscope, hparent, hin.ancestor⟩, hin.bound, ?_⟩
    intro j hj i hi
    cases j with
    | zero =>
        obtain ⟨rfl, -⟩ := ancestor?_zero.mp hi
        exact h
    | succ j =>
        obtain ⟨scope', parent', hscope', hparent', hrest⟩ := ancestor?_succ.mp hi
        obtain rfl : scope' = scope := Option.some.inj (hscope'.symm.trans hscope)
        obtain rfl : parent' = parent := Option.some.inj (hparent'.symm.trans hparent)
        exact hin.first j (by omega) i hrest

/-- A search over some links finds the innermost scope within them. -/
theorem ownerWithin_eq_some_iff (links : Nat) :
    s.ownerWithin x links id = some owner ↔ ∃ d < links, s.Innermost id x d owner := by
  induction links generalizing id with
  | zero => simp [ownerWithin]
  | succ links ih =>
      rw [ownerWithin]
      cases hscope : s[id]? with
      | none =>
          have hnone : ∀ d, ¬ s.Innermost id x d owner := by
            intro d hin
            have hlt : id < s.size := Reaches.lt (k := d) (by rw [Reaches, hin.ancestor]; rfl)
            simp [hlt] at hscope
          simp [hnone]
      | some scope =>
          by_cases hx : scope.bindings.has x = true
          · have hmem := mem_names.mpr ⟨scope, hscope, hx⟩
            simp [hx, innermost_of_mem hmem, eq_comm]
          · have hmem : x ∉ s.names id := by
              intro hmem
              obtain ⟨scope', hscope', hx'⟩ := mem_names.mp hmem
              exact hx ((Option.some.inj (hscope'.symm.trans hscope)) ▸ hx')
            simp only [hx, Bool.false_eq_true, if_false, innermost_of_not_mem hscope hmem]
            cases hparent : scope.parent with
            | none => simp
            | some parent =>
                simp only [ih, Option.some.injEq]
                constructor
                · rintro ⟨d, hd, hin⟩
                  exact ⟨d + 1, by omega, parent, d, rfl, rfl, hin⟩
                · rintro ⟨_, hd, _, hops, rfl, rfl, hin⟩
                  exact ⟨hops, by omega, hin⟩

theorem Acyclic.owner?_eq_some_iff (hs : s.Acyclic) :
    s.owner? id x = some owner ↔ ∃ d, s.Innermost id x d owner := by
  rw [owner?, ownerWithin_eq_some_iff]
  constructor
  · rintro ⟨d, -, hin⟩
    exact ⟨d, hin⟩
  · rintro ⟨d, hin⟩
    exact ⟨d, hs.lt_size hin.ancestor, hin⟩

theorem get?_of_owner? {scope : Scope} (h : s.owner? id x = some owner)
    (hscope : s[owner]? = some scope) : s.get? id x = scope.bindings.get? x := by
  simp [get?, h, bindingsOf?, hscope]

theorem Acyclic.isSome_get?_iff (hs : s.Acyclic) :
    (s.get? id x).isSome = true ↔ ∃ d owner, s.Innermost id x d owner := by
  constructor
  · intro h
    obtain ⟨v, hv⟩ := Option.isSome_iff_exists.mp h
    obtain ⟨owner, howner, -⟩ := Option.bind_eq_some_iff.mp hv
    obtain ⟨d, hin⟩ := hs.owner?_eq_some_iff.mp howner
    exact ⟨d, owner, hin⟩
  · rintro ⟨d, owner, hin⟩
    obtain ⟨scope, hscope, hx⟩ := mem_names.mp hin.bound
    rw [get?_of_owner? (hs.owner?_eq_some_iff.mpr ⟨d, hin⟩) hscope]
    exact hx

/-! ## Assignments -/

/-- One name has another value in one scope, and everything else is as it was. -/
structure Rebound (s t : Scopes) (owner : Nat) (x : Bytes) (v : Value) : Prop where
  elsewhere : ∀ i ≠ owner, t[i]? = s[i]?
  there : ∃ old new, s[owner]? = some old ∧ t[owner]? = some new ∧ new.parent = old.parent ∧
    new.bindings.map Prod.fst = old.bindings.map Prod.fst ∧
    ∀ y, new.bindings.get? y = if y = x then some v else old.bindings.get? y

theorem rebound_define (h : x ∈ s.names owner) (v : Value) :
    s.Rebound (s.define owner x v) owner x v := by
  obtain ⟨scope, hscope, hx⟩ := mem_names.mp h
  refine ⟨fun i hi => getElem?_define_of_ne s x v hi.symm, scope, _, hscope,
    getElem?_define_self x v hscope, rfl, ?_, fun y => ?_⟩
  · rw [Bindings.keys_set, hx, if_pos rfl]
  · simp only [Bindings.get?_set, eq_comm]

namespace Rebound

variable {t : Scopes} {v : Value}

theorem names_eq (h : s.Rebound t owner x v) (i : Nat) : t.names i = s.names i := by
  apply names_eq_of_getElem?
  by_cases hi : i = owner
  · subst hi
    obtain ⟨old, new, hold, hnew, -, hkeys, -⟩ := h.there
    simp [hold, hnew, hkeys]
  · rw [h.elsewhere i hi]

theorem parent_eq (h : s.Rebound t owner x v) (i : Nat) :
    (t[i]?).map Scope.parent = (s[i]?).map Scope.parent := by
  by_cases hi : i = owner
  · subst hi
    obtain ⟨old, new, hold, hnew, hparent, -, -⟩ := h.there
    simp [hold, hnew, hparent]
  · rw [h.elsewhere i hi]

theorem ancestor?_eq (h : s.Rebound t owner x v) (i hops : Nat) :
    t.ancestor? i hops = s.ancestor? i hops := by
  induction hops generalizing i with
  | zero =>
      have hnone : t[i]? = none ↔ s[i]? = none := by
        rw [← Option.map_eq_none_iff, h.parent_eq, Option.map_eq_none_iff]
      rw [Array.getElem?_eq_none_iff, Array.getElem?_eq_none_iff] at hnone
      have hsize : i < t.size ↔ i < s.size := by omega
      simp only [ancestor?, hsize]
  | succ hops ih =>
      have hparent := h.parent_eq i
      rw [ancestor?, ancestor?]
      generalize t[i]? = new at hparent
      generalize s[i]? = old at hparent
      rcases new with _ | ⟨_ | parent, new⟩ <;> rcases old with _ | ⟨_ | parent', old⟩ <;>
        simp_all

theorem innermost_iff (h : s.Rebound t owner x v) {y : Bytes} {i : Nat} :
    t.Innermost id y d i ↔ s.Innermost id y d i := by
  constructor
  · rintro ⟨hancestor, hbound, hfirst⟩
    exact ⟨by rwa [← h.ancestor?_eq], by rwa [← h.names_eq], by
      simpa only [h.ancestor?_eq, h.names_eq] using hfirst⟩
  · rintro ⟨hancestor, hbound, hfirst⟩
    exact ⟨by rwa [h.ancestor?_eq], by rwa [h.names_eq], by
      simpa only [h.ancestor?_eq, h.names_eq] using hfirst⟩

theorem acyclic (h : s.Rebound t owner x v) (hs : s.Acyclic) : t.Acyclic := by
  intro i hops
  rw [h.ancestor?_eq]
  exact hs i hops

theorem owner?_eq (h : s.Rebound t owner x v) (hs : s.Acyclic) (i : Nat) (y : Bytes) :
    t.owner? i y = s.owner? i y := by
  apply Option.ext
  intro j
  rw [(h.acyclic hs).owner?_eq_some_iff, hs.owner?_eq_some_iff]
  simp only [h.innermost_iff]

theorem get?_of_innermost (h : s.Rebound t owner x v) (hs : s.Acyclic) {i k : Nat}
    (hin : s.Innermost i x k owner) : t.get? i x = some v := by
  obtain ⟨old, new, hold, hnew, -, -, hget⟩ := h.there
  have howner : t.owner? i x = some owner := by
    rw [h.owner?_eq hs]
    exact hs.owner?_eq_some_iff.mpr ⟨k, hin⟩
  rw [get?_of_owner? howner hnew, hget x, if_pos rfl]

theorem get?_eq (h : s.Rebound t owner x v) (hs : s.Acyclic) {i : Nat} {y : Bytes}
    (hother : y = x → ∀ k, ¬ s.Innermost i x k owner) : t.get? i y = s.get? i y := by
  unfold get?
  rw [h.owner?_eq hs]
  cases hj : s.owner? i y with
  | none => rfl
  | some j =>
      obtain ⟨k, hin⟩ := hs.owner?_eq_some_iff.mp hj
      by_cases hjowner : j = owner
      · subst hjowner
        obtain ⟨old, new, hold, hnew, -, -, hget⟩ := h.there
        have hy : y ≠ x := fun hy => hother hy k (hy ▸ hin)
        simp [bindingsOf?, hold, hnew, hget y, hy]
      · simp [bindingsOf?, h.elsewhere j hjowner]

end Rebound

/-! ## By name and by distance -/

/-- An assignment is the binding of the name where it belongs. -/
theorem Acyclic.assign?_eq_some_iff (hs : s.Acyclic) {t : Scopes} {v : Value} :
    s.assign? id x v = some t ↔ ∃ d owner, s.Innermost id x d owner ∧ t = s.define owner x v := by
  have howner : ∀ owner, s.owner? id x = some owner ↔ ∃ d, s.Innermost id x d owner :=
    fun _ => hs.owner?_eq_some_iff
  rw [assign?]
  cases hfound : s.owner? id x with
  | none => simp_all
  | some i =>
      simp only [hfound, Option.some.injEq] at howner
      constructor
      · intro h
        obtain ⟨d, hin⟩ := (howner i).mp rfl
        exact ⟨d, i, hin, by simpa using h.symm⟩
      · rintro ⟨d, owner, hin, rfl⟩
        rw [(howner owner).mpr ⟨d, hin⟩]

theorem Acyclic.isSome_assign? (hs : s.Acyclic) (v : Value) :
    (s.assign? id x v).isSome = (s.get? id x).isSome := by
  rw [Bool.eq_iff_iff, hs.isSome_get?_iff, Option.isSome_iff_exists]
  simp only [hs.assign?_eq_some_iff]
  constructor
  · rintro ⟨t, d, owner, hin, -⟩
    exact ⟨d, owner, hin⟩
  · rintro ⟨d, owner, hin⟩
    exact ⟨_, d, owner, hin, rfl⟩

theorem Acyclic.getAt?_eq_get? (hs : s.Acyclic) {hops : Nat} (hin : s.Innermost id x d owner)
    (hway : s.ancestor? id hops = some owner) : s.getAt? id hops x = s.get? id x := by
  obtain ⟨scope, hscope, hx⟩ := mem_names.mp hin.bound
  obtain ⟨v, hv⟩ := Option.isSome_iff_exists.mp hx
  rw [get?_of_owner? (hs.owner?_eq_some_iff.mpr ⟨d, hin⟩) hscope]
  simp [getAt?, hway, bindingsOf?, hscope, hv]

/--
Looking up and assigning agree: an assignment takes place exactly if the name has a value, and
otherwise changes nothing.  It changes the one binding that the name belongs to, and is seen
through every chain of parents on which the name belongs to the same scope, and through no
other.  The distance of that scope gives the same value and the same change as the name.
-/
theorem assignment_seen_where_shared (hs : s.Acyclic) (e : Nat) (x : Bytes) (v : Value) :
    (s.assign? e x v).isSome = (s.get? e x).isSome ∧
    (s.assign? e x v = none → ∀ m : Machine, m.scopes = s → m.current = e →
      Machine.assign x v m = .done () m) ∧
    ∀ t, s.assign? e x v = some t →
      (∀ m : Machine, m.scopes = s → m.current = e →
        Machine.assign x v m = .done () { m with scopes := t }) ∧
      ∃ hops owner, s.Innermost e x hops owner ∧ s.Rebound t owner x v ∧
        (∀ f k, s.Innermost f x k owner → t.get? f x = some v) ∧
        (∀ f, (∀ k, ¬ s.Innermost f x k owner) → t.get? f x = s.get? f x) ∧
        (∀ f y, y ≠ x → t.get? f y = s.get? f y) ∧
        ∀ d, s.ancestor? e d = some owner →
          s.getAt? e d x = s.get? e x ∧ s.assignAt? e d x v = s.assign? e x v := by
  refine ⟨hs.isSome_assign? v, ?_, fun t ht => ⟨?_, ?_⟩⟩
  · rintro hnone m rfl rfl
    unfold assign? at hnone
    cases howner : m.scopes.owner? m.current x with
    | none => simp [Machine.assign, howner]
    | some owner => simp [howner] at hnone
  · rintro m rfl rfl
    unfold assign? at ht
    cases howner : m.scopes.owner? m.current x with
    | none => simp [howner] at ht
    | some owner =>
        simp only [howner, Option.some.injEq] at ht
        simp [Machine.assign, Machine.defineIn, howner, ht]
  · obtain ⟨hops, owner, hin, hdefine⟩ := hs.assign?_eq_some_iff.mp ht
    have hrebound : s.Rebound t owner x v := hdefine ▸ rebound_define hin.bound v
    refine ⟨hops, owner, hin, hrebound, ?_, ?_, ?_, fun d hd => ⟨?_, ?_⟩⟩
    · intro f k hf
      exact hrebound.get?_of_innermost hs hf
    · intro f hf
      exact hrebound.get?_eq hs fun _ => hf
    · intro f y hy
      exact hrebound.get?_eq hs fun heq => absurd heq hy
    · exact hs.getAt?_eq_get? hin hd
    · rw [ht, assignAt?, hd, hdefine]

/-- Two closures in a block that binds `a` once more, and one outside of it. -/
def threeClosures : Scopes :=
  #[{ bindings := [(utf8 "a", .nil)] },
    { parent := some 0, bindings := [(utf8 "a", .bool false)] },
    { parent := some 1 }, { parent := some 1 }, { parent := some 0 }]

/-- What the first closure assigns is seen by the second and not by the one outside. -/
theorem assignment_seen_where_shared_closures :
    threeClosures.Acyclic ∧
    ∃ t, threeClosures.assign? 2 (utf8 "a") (.bool true) = some t ∧
      t.get? 3 (utf8 "a") = some (.bool true) ∧ t.get? 4 (utf8 "a") = some .nil ∧
      threeClosures.getAt? 2 1 (utf8 "a") = some (.bool false) ∧
      threeClosures.assignAt? 2 1 (utf8 "a") (.bool true) = some t := by
  have hs : threeClosures.Acyclic := by
    refine acyclic_of_older fun id scope parent hscope hparent => ?_
    have hid : id < 5 := (Array.getElem?_eq_some_iff.mp hscope).1
    interval_cases id <;> cases hscope <;> cases hparent <;> decide
  obtain ⟨hfound, -, hchange⟩ := assignment_seen_where_shared hs 2 (utf8 "a") (.bool true)
  obtain ⟨t, ht⟩ := Option.isSome_iff_exists.mp (hfound.trans rfl)
  obtain ⟨-, hops, owner, hin, -, hseen, hhidden, -, hdistance⟩ := hchange t ht
  obtain rfl : owner = 1 := Option.some.inj <|
    (hs.owner?_eq_some_iff.mpr ⟨hops, hin⟩).symm.trans rfl
  obtain ⟨k, hshared⟩ : ∃ k, threeClosures.Innermost 3 (utf8 "a") k 1 :=
    hs.owner?_eq_some_iff.mp rfl
  have houtside : ∀ k, ¬ threeClosures.Innermost 4 (utf8 "a") k 1 := by
    intro k hk
    cases (hs.owner?_eq_some_iff.mpr ⟨k, hk⟩).symm.trans rfl
  obtain ⟨hread, hwrite⟩ := hdistance 1 rfl
  exact ⟨hs, t, ht, hseen 3 k hshared, (hhidden 4 houtside).trans rfl, hread.trans rfl,
    hwrite.trans ht⟩

end Lox.Scopes
