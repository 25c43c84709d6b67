import Lox.Proofs.Stream.Canonical
import Lox.Token.Stream

/-!
Token streams that read back.

A stream is a record with one list of records, so it is written as one item, whatever its texts
are.  It reads back when these texts are well formed.  A reader that takes any text would read
every stream back, and so streams with the same bytes have the same records.
-/

namespace Lox

open Utf8 (isValid)

variable {accepts : Bytes → Bool}

/-! ## Records -/

namespace Record

/-- The numbers are 64-bit integers, and so are the lengths of the texts. -/
structure Storable (r : Record) : Prop where
  line : Cbor.IsWord r.line
  column : Cbor.IsWord r.column
  offset : Cbor.IsWord r.offset
  kind : r.kind.length < 2 ^ 63
  lexeme : r.lexeme.length < 2 ^ 63
  literal : r.literal.length < 2 ^ 63

def parts (r : Record) : List (Bytes × Datum.Shape × Datum) :=
  [(utf8 "kind", .text, .text r.kind), (utf8 "lexeme", .text, .text r.lexeme),
    (utf8 "literal", .text, .text r.literal), (utf8 "line", .integer, .integer r.line),
    (utf8 "column", .integer, .integer r.column), (utf8 "offset", .integer, .integer r.offset)]

def names : List Bytes :=
  [utf8 "kind", utf8 "lexeme", utf8 "literal", utf8 "line", utf8 "column", utf8 "offset"]

theorem fits {r : Record} (h : r.Storable) (hvalid : ∀ s, isValid s = true → accepts s = true) :
    r.datum.Fits accepts 1 shape := by
  have hnames : ∀ name ∈ names, name.length < 2 ^ 63 ∧ isValid name = true := by decide
  have hdistinct : (names.map fun name => name.map Cbor.lowerAscii).Nodup := by decide
  refine .record r.parts (by simp [parts, Cbor.sizeLimit]) (fun p hp => ?_) hdistinct ?_
  · exact (hnames p.1 (List.mem_map_of_mem hp)).imp_right (hvalid _)
  · simp only [parts, List.forall_mem_cons, List.not_mem_nil, false_implies, implies_true,
      and_true]
    exact ⟨.text h.kind, .text h.lexeme, .text h.literal, .integer h.line, .integer h.column,
      .integer h.offset⟩

def Acceptable (accepts : Bytes → Bool) (r : Record) : Prop :=
  accepts r.kind = true ∧ accepts r.lexeme = true ∧ accepts r.literal = true

instance (accepts : Bytes → Bool) (r : Record) : Decidable (r.Acceptable accepts) :=
  inferInstanceAs (Decidable (_ ∧ _))

theorem acceptable_datum (r : Record) : r.datum.Acceptable accepts ↔ r.Acceptable accepts := by
  simp [Datum.Acceptable, datum, Datum.texts, Datum.textsFields, Acceptable]

theorem ofDatum?_datum (r : Record) : ofDatum? r.datum = some r := rfl

end Record

/-! ## Streams -/

namespace Stream

variable {codec reader : Codec} {records others : List Record}

theorem fits (hsize : records.length ≤ Cbor.sizeLimit) (h : ∀ r ∈ records, r.Storable)
    (hvalid : ∀ s, isValid s = true → accepts s = true) :
    (datum records).Fits accepts 3 shape := by
  have hlist : Datum.Fits accepts 2 (.list Record.shape) (.list (records.map Record.datum)) :=
    .list (by rwa [List.length_map])
      (List.forall_mem_map.mpr fun r hr => Record.fits (h r hr) hvalid)
  have hlength : (utf8 "tokens").length < 2 ^ 63 := by decide
  have hname : accepts (utf8 "tokens") = true := hvalid _ (by decide)
  refine .record [(utf8 "tokens", .list Record.shape, .list (records.map Record.datum))]
    (Nat.le_of_ble_eq_true rfl) ?_ (List.nodup_singleton _) ?_
  · exact List.forall_mem_singleton.mpr ⟨hlength, hname⟩
  · exact List.forall_mem_singleton.mpr hlist

theorem ofDatum?_datum (records : List Record) : ofDatum? (datum records) = some records := by
  have hrecords : records.mapM (Record.ofDatum? ∘ Record.datum) = some records := by
    induction records with
    | nil => rfl
    | cons r rest ih => simp [List.mapM_cons, ih, Record.ofDatum?_datum]
  simp only [ofDatum?, datum, List.mapM_map, hrecords]

theorem acceptable_datum :
    (datum records).Acceptable accepts ↔ ∀ r ∈ records, r.Acceptable accepts := by
  have hlist : (datum records).Acceptable accepts ↔
      (Datum.list (records.map Record.datum)).Acceptable accepts := by
    simp [Datum.Acceptable, datum, Datum.texts, Datum.textsFields]
  rw [hlist, Datum.acceptable_list, List.forall_mem_map]
  exact forall₂_congr fun r _ => r.acceptable_datum

theorem reads_back (hwrites : codec.Canonical) (hreads : reader.Reading accepts)
    (hvalid : ∀ s, isValid s = true → accepts s = true)
    (hsize : records.length ≤ Cbor.sizeLimit) (h : ∀ r ∈ records, r.Storable) :
    ∃ s, encode codec records = .ok s ∧
      decode? reader s = if ∀ r ∈ records, r.Acceptable accepts then some records else none := by
  obtain ⟨s, hencode, -, hdecode⟩ :=
    (fits hsize h hvalid).reads_back hwrites hreads (by decide)
  refine ⟨s, hencode, ?_⟩
  rw [decode?, hdecode]
  simp only [acceptable_datum]
  split
  · exact ofDatum?_datum records
  · rfl

/-- Whatever the texts are, the records can be told from the bytes. -/
theorem encode_injective (hwrites : codec.Canonical) (hsize : records.length ≤ Cbor.sizeLimit)
    (hsize' : others.length ≤ Cbor.sizeLimit) (h : ∀ r ∈ records, r.Storable)
    (h' : ∀ r ∈ others, r.Storable) (hbytes : encode codec records = encode codec others) :
    records = others := by
  have hreads := Cbor.codecFor_reading fun _ => true
  obtain ⟨s, hencode, hdecode⟩ := reads_back hwrites hreads (fun _ _ => rfl) hsize h
  obtain ⟨s', hencode', hdecode'⟩ := reads_back hwrites hreads (fun _ _ => rfl) hsize' h'
  rw [hencode, hencode'] at hbytes
  cases hbytes
  rw [if_pos fun _ _ => ⟨rfl, rfl, rfl⟩] at hdecode hdecode'
  exact Option.some.inj (hdecode.symm.trans hdecode')

end Stream

end Lox
