import Lox.Proofs.Stream.Data
import Lox.Proofs.Stream.Items

/-!
The codec of data items is canonical and reads what it writes.
-/

namespace Lox.Cbor

variable {accepts : Bytes → Bool}

/-! ## Writing -/

theorem encodeList_eq (items : List Cbor) : encodeList items = items.flatMap encode := by
  induction items with
  | nil => rfl
  | cons item rest ih => rw [encodeList, ih, List.flatMap_cons]

theorem encodeEntries_eq_flatMap (entries : List (Cbor × Cbor)) :
    encodeEntries entries = entries.flatMap fun e => encode e.1 ++ encode e.2 := by
  induction entries with
  | nil => rfl
  | cons entry rest ih => rw [encodeEntries, ih, List.flatMap_cons]

theorem encode_ofText (s : Bytes) : encode (ofText s) = textItem s := by
  simp [ofText, encode, textItem]

theorem encode_array (items : List Cbor) :
    encode (.array items) = listItem (items.map encode) := by
  rw [encode, encodeList_eq, listItem, List.length_map, List.flatMap_def]

theorem encode_map {α : Type} (name : α → Bytes) (value : α → Cbor) (xs : List α) :
    encode (.map (xs.map fun x => (ofText (name x), value x))) =
      recordItem (xs.map fun x => (name x, encode (value x))) := by
  simp [encode, encodeEntries_eq_flatMap, recordItem, List.flatMap_map, encode_ofText]

theorem ofData_eq (items : List Datum) : ofData items = items.map ofDatum := by
  induction items with
  | nil => rfl
  | cons d rest ih => rw [ofData, ih, List.map_cons]

theorem ofFields_eq (fields : List (Bytes × Datum)) :
    ofFields fields = fields.map fun f => (f.1, ofDatum f.2) := by
  induction fields with
  | nil => rfl
  | cons f rest ih => rw [ofFields, ih, List.map_cons]

theorem mergeSort_ofFields {fields sorted : List (Bytes × Datum)} (hperm : sorted.Perm fields)
    (hsorted : sorted.Pairwise fun f g => nameLe f.1 g.1 ∧ f.1 ≠ g.1) :
    (ofFields fields).mergeSort (fun e e' => nameLe e.1 e'.1) =
      sorted.map fun f => (f.1, ofDatum f.2) := by
  have hnodup : (sorted.map Prod.fst).Nodup :=
    List.pairwise_map.mpr (hsorted.imp And.right)
  have hperm' : ((ofFields fields).mergeSort fun e e' => nameLe e.1 e'.1).Perm
      (sorted.map fun f => (f.1, ofDatum f.2)) := by
    rw [ofFields_eq]
    exact (List.mergeSort_perm _ _).trans (hperm.symm.map _)
  have hsorted' := pairwise_mergeSort_nameLe Prod.fst (ofFields fields)
  refine hperm'.eq_of_pairwise ?_ hsorted' (List.pairwise_map.mpr (hsorted.imp And.left))
  intro e e' he he' h h'
  obtain ⟨f, hf, rfl⟩ := List.mem_map.mp (hperm'.mem_iff.mp he)
  obtain ⟨g, hg, rfl⟩ := List.mem_map.mp he'
  rw [List.inj_on_of_nodup_map hnodup hf hg (nameLe_antisymm h h')]

theorem codecFor_canonical (accepts : Bytes → Bool) : (codecFor accepts).Canonical where
  text s _ := congrArg Except.ok (encode_ofText s)
  natural _ _ := rfl
  negative _ _ := rfl
  list items parts _ hparts := by
    have hencode : parts = items.map fun d => encode (ofDatum d) := by
      clear * - hparts
      induction hparts with
      | nil => rfl
      | cons hd _ ih =>
          cases hd
          rw [ih, List.map_cons]
    simp only [codecFor, ofDatum, ofData_eq, encode_array, List.map_map, hencode]
    rfl
  record fields sorted entries hperm hsorted _ hentries := by
    have hencode : entries = sorted.map fun f => (f.1, encode (ofDatum f.2)) := by
      clear hperm hsorted
      induction hentries with
      | nil => rfl
      | @cons f e _ _ hf _ ih =>
          obtain ⟨name, s⟩ := e
          obtain ⟨rfl, hs⟩ := hf
          cases hs
          rw [ih, List.map_cons]
    simp only [codecFor, ofDatum, mergeSort_ofFields hperm hsorted, List.map_map, hencode]
    exact congrArg Except.ok (encode_map Prod.fst (fun f => ofDatum f.2) sorted)

/-! ## Reading -/

section

variable {k : Nat}

theorem encode_readsBack_list {parts : List Bytes} {item : Bytes → Cbor}
    (hsize : parts.length ≤ sizeLimit) (hencode : ∀ s ∈ parts, encode (item s) = s)
    (hreads : ∀ s ∈ parts, ReadsBack k (item s)) :
    encode (.array (parts.map item)) = listItem parts ∧
      ReadsBack (k + 1) (.array (parts.map item)) := by
  have hparts : parts.map (encode ∘ item) = _ := List.map_congr_left hencode
  refine ⟨?_, .array (List.forall_mem_map.mpr hreads) (by rwa [List.length_map])⟩
  rw [encode_array, List.map_map, hparts, List.map_id']

theorem encode_readsBack_record {entries : List (Bytes × Bytes)} {item : Bytes × Bytes → Cbor}
    (hsize : entries.length ≤ sizeLimit) (hnames : ∀ e ∈ entries, e.1.length < 2 ^ 63)
    (hencode : ∀ e ∈ entries, encode (item e) = e.2)
    (hreads : ∀ e ∈ entries, ReadsBack k (item e)) :
    encode (.map (entries.map fun e => (ofText e.1, item e))) = recordItem entries ∧
      ReadsBack (k + 1) (.map (entries.map fun e => (ofText e.1, item e))) := by
  refine ⟨?_, .map (List.forall_mem_map.mpr fun e he => ⟨?_, hreads e he⟩) ?_⟩
  · rw [encode_map, List.map_congr_left fun e he => by rw [hencode e he], List.map_id']
  · have hlength := Nat.lt_trans (hnames e he) (show 2 ^ 63 < 2 ^ 64 by decide)
    exact (ReadsBack.ofText hlength).mono (Nat.zero_le k)
  · rwa [List.length_map]

/-- Every item reads back as what it was written from. -/
theorem IsItem.exists_encode {s : Bytes} (h : IsItem k s) :
    ∃ item, encode item = s ∧ ReadsBack k item := by
  induction h with
  | @text k s h =>
      have hlength : s.length < 2 ^ 64 := Nat.lt_trans h (by decide)
      exact ⟨ofText s, encode_ofText s, (ReadsBack.ofText hlength).mono (Nat.zero_le k)⟩
  | @natural k n h =>
      have hint : ReadsBack 0 (ofInt n) := .ofInt (by omega) (by omega)
      exact ⟨.unsigned n, rfl, hint.mono (Nat.zero_le k)⟩
  | @negative k n h =>
      have hint : ReadsBack 0 (ofInt (.negSucc n)) := .ofInt (by omega) (by omega)
      exact ⟨.negative n, rfl, hint.mono (Nat.zero_le k)⟩
  | list hsize _ ih =>
      choose! item hencode hreads using ih
      exact ⟨_, encode_readsBack_list hsize hencode hreads⟩
  | record hsize hnames _ ih =>
      choose! item hencode hreads using ih
      exact ⟨_, encode_readsBack_record hsize hnames hencode hreads⟩

end

theorem decode?_of_encode_eq {k : Nat} {s : Bytes} {item : Cbor} (hk : k ≤ depthLimit)
    (h : encode item = s ∧ ReadsBack k item) : decode? s = some item :=
  h.1 ▸ decode?_encode h.2 hk

theorem asInt?_ofInt {i : Int} (h : IsWord i) : asInt? (ofInt i) = some i := by
  obtain ⟨hlow, hhigh⟩ := h
  cases i with
  | ofNat n =>
      simp only [Int.ofNat_eq_natCast] at hhigh
      have hle : n ≤ largestInt := by unfold largestInt; omega
      simp [ofInt, asInt?, bounded?, hle]
  | negSucc n =>
      have hle : n ≤ largestInt := by unfold largestInt; omega
      simp [ofInt, asInt?, boundedNegative?, hle]

theorem namedEntries?_map {entries : List (Bytes × Bytes)} (item : Bytes × Bytes → Cbor)
    (h : ∀ e ∈ entries, accepts e.1 = true) :
    namedEntries? accepts (entries.map fun e => (ofText e.1, item e)) =
      some (entries.map fun e => (e.1.map lowerAscii, item e)) := by
  induction entries with
  | nil => rfl
  | cons e rest ih =>
      obtain ⟨he, hrest⟩ := List.forall_mem_cons.mp h
      have hkey : asText? accepts (ofText e.1) = some e.1 := by simp [ofText, asText?, he]
      rw [List.map_cons, namedEntries?, ih hrest]
      simp only [ofText] at hkey ⊢
      simp [hkey]

theorem asFields?_eq_mapM {fields : List (Bytes × Datum.Shape)} {named : List (Bytes × Cbor)}
    {field : Bytes × Datum.Shape → Option (Bytes × Datum)}
    (h : ∀ f ∈ fields, ∃ item, named.lookup (f.1.map lowerAscii) = some item ∧
      field f = do return (f.1, ← asDatum? accepts f.2 item)) :
    asFields? accepts fields named = fields.mapM field := by
  induction fields with
  | nil => rfl
  | cons f rest ih =>
      obtain ⟨⟨item, hlookup, hfield⟩, hrest⟩ := List.forall_mem_cons.mp h
      obtain ⟨name, shape⟩ := f
      rw [asFields?, ih hrest, List.mapM_cons, hfield, hlookup]
      simp only [Option.bind_eq_bind, Option.bind_assoc, Option.pure_def, Option.bind_some]

theorem decode?_codecFor {s : Bytes} {item : Cbor} (h : decode? s = some item)
    (shape : Datum.Shape) :
    (codecFor accepts).decode? shape s = asDatum? accepts shape item := by
  simp only [codecFor, h, Option.bind_some]

theorem asDatum?_array (shape : Datum.Shape) (items : List Cbor) :
    asDatum? accepts (.list shape) (.array items) =
      (items.mapM (asDatum? accepts shape)).map .list := by
  simp only [asDatum?, asArray?, Option.bind_eq_bind, Option.bind_some, Option.map_eq_bind]
  rfl

theorem asDatum?_map {entries : List (Cbor × Cbor)} {named : List (Bytes × Cbor)}
    (h : namedEntries? accepts entries = some named) (fields : List (Bytes × Datum.Shape)) :
    asDatum? accepts (.record fields) (.map entries) =
      (asFields? accepts fields named).map .record := by
  simp only [asDatum?, asRecord?, h, Option.bind_eq_bind, Option.bind_some, Option.map_eq_bind]
  rfl

theorem codecFor_reading (accepts : Bytes → Bool) :
    Codec.Reading accepts (codecFor accepts) where
  text s h := by
    have hlength : s.length < 2 ^ 64 := Nat.lt_trans h (by decide)
    have hdecode : decode? (textItem s) = some (ofText s) :=
      decode?_of_encode_eq (Nat.zero_le _) ⟨encode_ofText s, .ofText hlength⟩
    rw [decode?_codecFor hdecode, asDatum?, ofText, asText?]
    by_cases hs : accepts s = true <;> simp [hs]
  natural n h := by
    have hword : IsWord (n : Int) := ⟨by omega, by omega⟩
    have hdecode : decode? (head 0 n) = some (ofInt n) :=
      decode?_of_encode_eq (Nat.zero_le _) ⟨rfl, .ofInt hword.1 hword.2⟩
    rw [decode?_codecFor hdecode, asDatum?, asInt?_ofInt hword]
    rfl
  negative n h := by
    have hword : IsWord (.negSucc n) := ⟨by omega, by omega⟩
    have hdecode : decode? (head 1 n) = some (ofInt (.negSucc n)) :=
      decode?_of_encode_eq (Nat.zero_le _) ⟨rfl, .ofInt hword.1 hword.2⟩
    rw [decode?_codecFor hdecode, asDatum?, asInt?_ofInt hword]
    rfl
  list shape parts k hsize hparts hk := by
    choose! item hencode hreads using fun s hs => (hparts s hs).exists_encode
    have hpart : ∀ s ∈ parts, (codecFor accepts).decode? shape s =
        asDatum? accepts shape (item s) := fun s hs =>
      decode?_codecFor (decode?_of_encode_eq (Nat.le_of_lt hk) ⟨hencode s hs, hreads s hs⟩) shape
    rw [decode?_codecFor (decode?_of_encode_eq hk (encode_readsBack_list hsize hencode hreads)),
      asDatum?_array, List.mapM_map, mapM_congr hpart]
    rfl
  record fields entries k hsize hentries hk hnames hdistinct := by
    choose! item hencode hreads using fun e he => (hentries e he).2.2.exists_encode
    have hdecode := decode?_of_encode_eq hk (encode_readsBack_record hsize
      (fun e he => (hentries e he).1) hencode hreads)
    have hnamed := namedEntries?_map item fun e he => (hentries e he).2.1
    have hperm : (entries.map fun e => e.1.map lowerAscii).Perm
        (fields.map fun f => f.1.map lowerAscii) := by
      have h := hnames.map fun name => name.map lowerAscii
      rwa [List.map_map, List.map_map] at h
    have hnodup : (entries.map Prod.fst).Nodup := by
      refine hnames.nodup_iff.mpr (List.Nodup.of_map (fun name => name.map lowerAscii) ?_)
      rwa [List.map_map]
    rw [decode?_codecFor hdecode, asDatum?_map hnamed]
    refine congrArg _ (asFields?_eq_mapM fun f hf => ?_)
    obtain ⟨e, he, hname⟩ := List.mem_map.mp (hnames.mem_iff.mpr (List.mem_map_of_mem hf))
    refine ⟨item e, ?_, ?_⟩
    · rw [← hname]
      exact lookup_map_of_mem item (hperm.nodup_iff.mpr hdistinct) he
    · have hentry := lookup_map_of_mem Prod.snd hnodup he
      rw [List.map_id'] at hentry
      have hpart := decode?_of_encode_eq (Nat.le_of_lt hk) ⟨hencode e he, hreads e he⟩
      simp only [Codec.field?, ← hname, hentry, Option.bind_eq_bind, Option.bind_some,
        decode?_codecFor hpart]

end Lox.Cbor
