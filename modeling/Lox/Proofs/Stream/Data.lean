import Lox.Proofs.Stream.Format
import Mathlib.Data.List.Nodup
import Mathlib.Tactic.Choose

/-!
Data that read back.

Data of a shape are written as one item.  From this item they read back if all of their texts
are accepted, and otherwise nothing is read.  The induction is on the data; a record is written
with its entries in another order than that of its fields, so its fields are looked up.
-/

namespace Lox

open Cbor (nameLe lowerAscii sizeLimit depthLimit)

/-! ## Texts -/

namespace Datum

mutual

def texts : Datum → List Bytes
  | .text s => [s]
  | .integer _ => []
  | .list items => textsList items
  | .record fields => textsFields fields

def textsList : List Datum → List Bytes
  | [] => []
  | d :: rest => d.texts ++ textsList rest

def textsFields : List (Bytes × Datum) → List Bytes
  | [] => []
  | (_, d) :: rest => d.texts ++ textsFields rest

end

theorem textsList_eq (items : List Datum) : textsList items = items.flatMap texts := by
  induction items with
  | nil => rfl
  | cons d rest ih => simp [textsList, ih]

theorem textsFields_eq (fields : List (Bytes × Datum)) :
    textsFields fields = fields.flatMap fun f => f.2.texts := by
  induction fields with
  | nil => rfl
  | cons f rest ih => simp [textsFields, ih]

def Acceptable (accepts : Bytes → Bool) (d : Datum) : Prop := ∀ s ∈ d.texts, accepts s = true

instance (accepts : Bytes → Bool) (d : Datum) : Decidable (d.Acceptable accepts) :=
  inferInstanceAs (Decidable (∀ _ ∈ _, _))

theorem acceptable_list {accepts : Bytes → Bool} {items : List Datum} :
    (list items).Acceptable accepts ↔ ∀ d ∈ items, d.Acceptable accepts := by
  simp only [Acceptable, texts, textsList_eq, List.mem_flatMap]
  exact ⟨fun h d hd s hs => h s ⟨d, hd, hs⟩, fun h s ⟨d, hd, hs⟩ => h d hd s hs⟩

theorem acceptable_record {accepts : Bytes → Bool} {α : Type} {parts : List α}
    {name : α → Bytes} {value : α → Datum} :
    (record (parts.map fun p => (name p, value p))).Acceptable accepts ↔
      ∀ p ∈ parts, (value p).Acceptable accepts := by
  simp only [Acceptable, texts, textsFields_eq, List.flatMap_map, List.mem_flatMap]
  exact ⟨fun h p hp s hs => h s ⟨p, hp, hs⟩, fun h s ⟨p, hp, hs⟩ => h p hp s hs⟩

/-! ## Shapes -/

/--
The data have the shape and can be written.  The parts of a record are its fields, each with its
shape and its value.
-/
inductive Fits (accepts : Bytes → Bool) : Nat → Shape → Datum → Prop
  | text {k : Nat} {s : Bytes} (h : s.length < 2 ^ 63) : Fits accepts k .text (.text s)
  | integer {k : Nat} {n : Int} (h : Cbor.IsWord n) : Fits accepts k .integer (.integer n)
  | list {k : Nat} {shape : Shape} {items : List Datum} (hsize : items.length ≤ sizeLimit)
      (hitems : ∀ d ∈ items, Fits accepts k shape d) :
      Fits accepts (k + 1) (.list shape) (.list items)
  | record {k : Nat} (parts : List (Bytes × Shape × Datum)) (hsize : parts.length ≤ sizeLimit)
      (hnames : ∀ p ∈ parts, p.1.length < 2 ^ 63 ∧ accepts p.1 = true)
      (hdistinct : (parts.map fun p => p.1.map lowerAscii).Nodup)
      (hparts : ∀ p ∈ parts, Fits accepts k p.2.1 p.2.2) :
      Fits accepts (k + 1) (.record (parts.map fun p => (p.1, p.2.1)))
        (.record (parts.map fun p => (p.1, p.2.2)))

end Datum

/-! ## The order of names -/

namespace Bytes

theorem le_total (s t : Bytes) : (s.le t || t.le s) = true := by
  induction s generalizing t with
  | nil => rfl
  | cons a s ih =>
      cases t with
      | nil => rfl
      | cons b t =>
          rcases Nat.lt_trichotomy a.toNat b.toNat with h | h | h
          · simp [le, UInt8.lt_iff_toNat_lt.mpr h]
          · obtain rfl := UInt8.toNat_inj.mp h
            simpa [le] using ih t
          · simp [le, UInt8.lt_iff_toNat_lt.mpr h]

theorem le_trans {s t u : Bytes} (h : s.le t = true) (h' : t.le u = true) : s.le u = true := by
  induction s generalizing t u with
  | nil => rfl
  | cons a s ih =>
      cases t with
      | nil => cases h
      | cons b t =>
          cases u with
          | nil => cases h'
          | cons c u =>
              simp only [le, Bool.or_eq_true, Bool.and_eq_true, decide_eq_true_eq,
                beq_iff_eq] at h h' ⊢
              rcases h with h | ⟨rfl, h⟩
              · rcases h' with h' | ⟨rfl, -⟩
                · exact .inl (UInt8.lt_trans h h')
                · exact .inl h
              · exact h'.imp_right fun h' => ⟨h'.1, ih h h'.2⟩

theorem le_antisymm {s t : Bytes} (h : s.le t = true) (h' : t.le s = true) : s = t := by
  induction s generalizing t with
  | nil =>
      cases t with
      | nil => rfl
      | cons b t => cases h'
  | cons a s ih =>
      cases t with
      | nil => cases h
      | cons b t =>
          simp only [le, Bool.or_eq_true, Bool.and_eq_true, decide_eq_true_eq, beq_iff_eq] at h h'
          rcases h with h | ⟨rfl, h⟩
          · rcases h' with h' | ⟨rfl, -⟩
            · exact absurd h' (UInt8.lt_asymm h)
            · exact absurd h (UInt8.lt_irrefl _)
          · rcases h' with h' | ⟨-, h'⟩
            · exact absurd h' (UInt8.lt_irrefl _)
            · rw [ih h h']

end Bytes

namespace Cbor

theorem nameLe_iff {x y : Bytes} : nameLe x y = true ↔
    x.length < y.length ∨ x.length = y.length ∧ x.le y = true := by
  simp [nameLe]

theorem nameLe_total (x y : Bytes) : (nameLe x y || nameLe y x) = true := by
  have htotal := Bytes.le_total x y
  simp only [Bool.or_eq_true, nameLe_iff] at htotal ⊢
  rcases Nat.lt_trichotomy x.length y.length with h | h | h
  · exact .inl (.inl h)
  · exact htotal.imp (fun hle => .inr ⟨h, hle⟩) fun hle => .inr ⟨h.symm, hle⟩
  · exact .inr (.inl h)

theorem nameLe_trans {x y z : Bytes} (h : nameLe x y = true) (h' : nameLe y z = true) :
    nameLe x z = true := by
  rw [nameLe_iff] at h h' ⊢
  rcases h with h | ⟨hlength, h⟩ <;> rcases h' with h' | ⟨hlength', h'⟩
  · exact .inl (Nat.lt_trans h h')
  · exact .inl (hlength' ▸ h)
  · exact .inl (hlength ▸ h')
  · exact .inr ⟨hlength.trans hlength', Bytes.le_trans h h'⟩

theorem nameLe_antisymm {x y : Bytes} (h : nameLe x y = true) (h' : nameLe y x = true) :
    x = y := by
  rw [nameLe_iff] at h h'
  rcases h with h | ⟨hlength, h⟩
  · omega
  · rcases h' with h' | ⟨-, h'⟩
    · omega
    · exact Bytes.le_antisymm h h'

theorem pairwise_mergeSort_nameLe {α : Type} (name : α → Bytes) (xs : List α) :
    (xs.mergeSort fun x y => nameLe (name x) (name y)).Pairwise
      fun x y => nameLe (name x) (name y) := by
  refine List.pairwise_mergeSort ?_ ?_ xs
  · exact fun _ _ _ => nameLe_trans
  · exact fun _ _ => nameLe_total _ _

theorem pairwise_mergeSort_of_nodup {α : Type} {name : α → Bytes} {xs : List α}
    (h : (xs.map name).Nodup) :
    (xs.mergeSort fun x y => nameLe (name x) (name y)).Pairwise
      fun x y => nameLe (name x) (name y) ∧ name x ≠ name y := by
  have hperm := (xs.mergeSort_perm fun x y => nameLe (name x) (name y)).map name
  have hdistinct := List.pairwise_map.mp (hperm.nodup_iff.mpr h)
  exact (pairwise_mergeSort_nameLe name xs).and hdistinct

end Cbor

/-! ## Reading back -/

theorem mapM_eq_ite {f : α → Option β} {g : α → β} {P : α → Prop} [DecidablePred P]
    {xs : List α} (h : ∀ x ∈ xs, f x = if P x then some (g x) else none) :
    xs.mapM f = if ∀ x ∈ xs, P x then some (xs.map g) else none := by
  induction xs with
  | nil => simp
  | cons x rest ih =>
      obtain ⟨hx, hrest⟩ := List.forall_mem_cons.mp h
      rw [List.mapM_cons, hx, ih hrest]
      by_cases hp : P x
      · by_cases hall : ∀ y ∈ rest, P y
        · rw [if_pos hp, if_pos hall, if_pos (List.forall_mem_cons.mpr ⟨hp, hall⟩)]
          rfl
        · rw [if_pos hp, if_neg hall, if_neg fun h => hall (List.forall_mem_cons.mp h).2]
          rfl
      · rw [if_neg hp, if_neg fun h => hp (List.forall_mem_cons.mp h).1]
        rfl

theorem mapM_congr {f g : α → Option β} {xs : List α} (h : ∀ x ∈ xs, f x = g x) :
    xs.mapM f = xs.mapM g := by
  induction xs with
  | nil => rfl
  | cons x rest ih =>
      obtain ⟨hx, hrest⟩ := List.forall_mem_cons.mp h
      rw [List.mapM_cons, List.mapM_cons, hx, ih hrest]

theorem lookup_map_of_mem {α β γ : Type} [BEq β] [LawfulBEq β] {xs : List α} {key : α → β}
    (value : α → γ) (h : (xs.map key).Nodup) {x : α} (hx : x ∈ xs) :
    (xs.map fun x => (key x, value x)).lookup (key x) = some (value x) := by
  induction xs with
  | nil => cases hx
  | cons y rest ih =>
      obtain ⟨hy, hrest⟩ := List.nodup_cons.mp h
      rw [List.map_cons, List.lookup_cons]
      rcases List.mem_cons.mp hx with rfl | hx
      · simp
      · have hne : key x ≠ key y := fun heq => hy (heq ▸ List.mem_map_of_mem hx)
        rw [beq_eq_false_iff_ne.mpr hne]
        exact ih hrest hx

namespace Datum.Fits

open Cbor (IsItem listItem recordItem)

/-- One item is what the datum is written as, and from it the datum is read if it is acceptable. -/
def ReadsBack (codec reader : Codec) (accepts : Bytes → Bool) (k : Nat) (shape : Shape)
    (d : Datum) (s : Bytes) : Prop :=
  codec.encode d = .ok s ∧ IsItem k s ∧
    reader.decode? shape s = if d.Acceptable accepts then some d else none

variable {codec reader : Codec} {accepts : Bytes → Bool} {k : Nat}

theorem readsBack_integer (hwrites : codec.Canonical) (hreads : reader.Reading accepts) {n : Int}
    (h : Cbor.IsWord n) : ∃ s, ReadsBack codec reader accepts k .integer (.integer n) s := by
  obtain ⟨hlow, hhigh⟩ := h
  cases n with
  | ofNat n =>
      have hn : n < 2 ^ 63 := by simp only [Int.ofNat_eq_natCast] at hhigh; omega
      refine ⟨_, hwrites.natural n hn, .natural hn, ?_⟩
      simp [hreads.natural n hn, Acceptable, texts]
  | negSucc n =>
      have hn : n < 2 ^ 63 := by omega
      refine ⟨_, hwrites.negative n hn, .negative hn, ?_⟩
      simp [hreads.negative n hn, Acceptable, texts]

theorem readsBack_list (hwrites : codec.Canonical) (hreads : reader.Reading accepts)
    (hk : k < depthLimit) {shape : Shape} {items : List Datum} {part : Datum → Bytes}
    (hsize : items.length ≤ sizeLimit)
    (hitems : ∀ d ∈ items, ReadsBack codec reader accepts k shape d (part d)) :
    ReadsBack codec reader accepts (k + 1) (.list shape) (.list items)
      (listItem (items.map part)) := by
  have hparts : List.Forall₂ (fun d s => codec.encode d = .ok s) items (items.map part) :=
    List.forall₂_map_right_iff.mpr (List.forall₂_same.mpr fun d hd => (hitems d hd).1)
  have hitems' : ∀ s ∈ items.map part, IsItem k s :=
    List.forall_mem_map.mpr fun d hd => (hitems d hd).2.1
  have hsize' : (items.map part).length ≤ sizeLimit := by rwa [List.length_map]
  refine ⟨hwrites.list items _ (Nat.lt_of_le_of_lt hsize (by decide)) hparts,
    .list hsize' hitems', ?_⟩
  have hmapM : items.mapM (reader.decode? shape ∘ part) = _ :=
    mapM_eq_ite fun d hd => (hitems d hd).2.2
  rw [hreads.list shape _ k hsize' hitems' hk, List.mapM_map, hmapM, List.map_id']
  simp only [acceptable_list]
  split <;> rfl

/-! The entries of a record are written in the order of their names. -/

section

variable {parts : List (Bytes × Shape × Datum)} {part : Bytes × Shape × Datum → Bytes}

def entriesOf (parts : List (Bytes × Shape × Datum)) (part : Bytes × Shape × Datum → Bytes) :
    List (Bytes × Bytes) :=
  (parts.mergeSort fun p q => nameLe p.1 q.1).map fun p => (p.1, part p)

theorem entriesOf_perm : (entriesOf parts part).Perm (parts.map fun p => (p.1, part p)) :=
  (List.mergeSort_perm _ _).map _

theorem mem_entriesOf {e : Bytes × Bytes} :
    e ∈ entriesOf parts part ↔ ∃ p ∈ parts, (p.1, part p) = e :=
  entriesOf_perm.mem_iff.trans List.mem_map

theorem encode_record (hwrites : codec.Canonical)
    (hnames : ∀ p ∈ parts, p.1.length < 2 ^ 63) (hdistinct : (parts.map fun p => p.1).Nodup)
    (hencode : ∀ p ∈ parts, codec.encode p.2.2 = .ok (part p)) :
    codec.encode (.record (parts.map fun p => (p.1, p.2.2))) =
      .ok (recordItem (entriesOf parts part)) := by
  let sorted := parts.mergeSort fun p q => nameLe p.1 q.1
  have hperm : sorted.Perm parts := List.mergeSort_perm _ _
  refine hwrites.record _ (sorted.map fun p => (p.1, p.2.2)) _ (hperm.map _) ?_ ?_ ?_
  · exact List.pairwise_map.mpr (Cbor.pairwise_mergeSort_of_nodup hdistinct)
  · exact List.forall_mem_map.mpr hnames
  · rw [entriesOf, List.forall₂_map_left_iff, List.forall₂_map_right_iff, List.forall₂_same]
    exact fun p hp => ⟨rfl, hencode p (hperm.mem_iff.mp hp)⟩

theorem field?_entriesOf (hdistinct : (parts.map fun p => p.1).Nodup)
    {p : Bytes × Shape × Datum} (hp : p ∈ parts)
    (hdecode : reader.decode? p.2.1 (part p) =
      if p.2.2.Acceptable accepts then some p.2.2 else none) :
    reader.field? (entriesOf parts part) (p.1, p.2.1) =
      if p.2.2.Acceptable accepts then some (p.1, p.2.2) else none := by
  have hperm := List.mergeSort_perm parts fun p q => nameLe p.1 q.1
  have hlookup : (entriesOf parts part).lookup p.1 = some (part p) := by
    apply lookup_map_of_mem part
    · exact (hperm.map _).nodup_iff.mpr hdistinct
    · exact hperm.mem_iff.mpr hp
  simp only [Codec.field?, hlookup, Option.bind_eq_bind, Option.bind_some, hdecode]
  split <;> rfl

theorem readsBack_record (hwrites : codec.Canonical) (hreads : reader.Reading accepts)
    (hk : k < depthLimit) (hsize : parts.length ≤ sizeLimit)
    (hnames : ∀ p ∈ parts, p.1.length < 2 ^ 63 ∧ accepts p.1 = true)
    (hdistinct : (parts.map fun p => p.1.map lowerAscii).Nodup)
    (hparts : ∀ p ∈ parts, ReadsBack codec reader accepts k p.2.1 p.2.2 (part p)) :
    ReadsBack codec reader accepts (k + 1) (.record (parts.map fun p => (p.1, p.2.1)))
      (.record (parts.map fun p => (p.1, p.2.2))) (recordItem (entriesOf parts part)) := by
  have hnodup : (parts.map fun p => p.1).Nodup := by
    refine List.Nodup.of_map (fun name => name.map lowerAscii) ?_
    rwa [List.map_map]
  have hentry : ∀ e ∈ entriesOf parts part,
      e.1.length < 2 ^ 63 ∧ accepts e.1 = true ∧ IsItem k e.2 := by
    intro e he
    obtain ⟨p, hp, rfl⟩ := mem_entriesOf.mp he
    exact ⟨(hnames p hp).1, (hnames p hp).2, (hparts p hp).2.1⟩
  have hsize' : (entriesOf parts part).length ≤ sizeLimit := by
    rw [entriesOf_perm.length_eq, List.length_map]
    exact hsize
  have hnames' : ((entriesOf parts part).map Prod.fst).Perm
      ((parts.map fun p => (p.1, p.2.1)).map Prod.fst) := by
    have h : ((entriesOf parts part).map Prod.fst).Perm _ := entriesOf_perm.map _
    rwa [List.map_map] at h ⊢
  refine ⟨?_, .record hsize' (fun e he => (hentry e he).1) fun e he => (hentry e he).2.2, ?_⟩
  · exact encode_record hwrites (fun p hp => (hnames p hp).1) hnodup fun p hp => (hparts p hp).1
  · have hmapM : parts.mapM (reader.field? (entriesOf parts part) ∘ fun p => (p.1, p.2.1)) = _ :=
      mapM_eq_ite fun p hp => field?_entriesOf hnodup hp (hparts p hp).2.2
    rw [hreads.record _ _ k hsize' hentry hk hnames' (by rwa [List.map_map]), List.mapM_map, hmapM]
    simp only [acceptable_record]
    split <;> rfl

end

/-- A datum is written as one item, from which it is read if its texts are accepted. -/
theorem reads_back (hwrites : codec.Canonical) (hreads : reader.Reading accepts) {shape : Shape}
    {d : Datum} (h : d.Fits accepts k shape) (hk : k ≤ depthLimit) :
    ∃ s, ReadsBack codec reader accepts k shape d s := by
  induction h with
  | @text k s h =>
      refine ⟨_, hwrites.text s h, .text h, ?_⟩
      simp [hreads.text s h, Acceptable, texts]
  | integer h => exact readsBack_integer hwrites hreads h
  | list hsize _ ih =>
      choose! part hpart using fun d hd => ih d hd (Nat.le_of_succ_le hk)
      exact ⟨_, readsBack_list hwrites hreads hk hsize hpart⟩
  | record parts hsize hnames hdistinct _ ih =>
      choose! part hpart using fun p hp => ih p hp (Nat.le_of_succ_le hk)
      exact ⟨_, readsBack_record hwrites hreads hk hsize hnames hdistinct hpart⟩

end Datum.Fits

end Lox
