import Lox.Proofs.Number.Text
import Lox.Proofs.Stream.RoundTrip
import Lox.Proofs.Token.Coverage
import Lox.Proofs.Token.Lines

/-!
Streams of tokens.

A stream of tokens reads back when their lexemes and literals are well formed.  Of the tokens
of a source only the strings decide this, for everything else is written in single bytes; a
string stands between two quotes, which cut no character.
-/

namespace Lox

open Utf8 (isValid Ascii)

theorem Kind.ascii_name (k : Kind) : Ascii (utf8 k.name) := by
  cases k <;> decide

/-- The positions are 64-bit integers. -/
structure Token.Positioned (t : Token) : Prop where
  line : Cbor.IsWord t.line
  column : Cbor.IsWord t.span.start.column
  offset : Cbor.IsWord t.span.start.offset

instance (t : Token) : Decidable t.Positioned :=
  decidable_of_iff
    (Cbor.IsWord t.line ∧ Cbor.IsWord t.span.start.column ∧ Cbor.IsWord t.span.start.offset)
    ⟨fun h => ⟨h.1, h.2.1, h.2.2⟩, fun h => ⟨h.line, h.column, h.offset⟩⟩

structure Token.Storable (t : Token) : Prop extends t.Positioned where
  lexeme : t.lexeme.length < 2 ^ 63
  literal : ∀ s, t.literal = .text s → s.length < 2 ^ 63

namespace Record

theorem acceptable_ofToken (t : Token) : (ofToken t).Acceptable isValid ↔
    isValid t.lexeme = true ∧ isValid t.literal.echoed = true :=
  and_iff_right t.kind.ascii_name.isValid

theorem storable_ofToken {t : Token} (h : t.Storable) : (ofToken t).Storable where
  line := h.line
  column := h.column
  offset := h.offset
  kind := by
    have hname : (utf8 t.kind.name).length ≤ 13 := by cases t.kind <;> decide
    exact Nat.lt_of_le_of_lt hname (by decide)
  lexeme := h.lexeme
  literal := by
    simp only [ofToken]
    cases hliteral : t.literal with
    | nil => decide
    | bool b => cases b <;> decide
    | number x => exact Nat.lt_of_le_of_lt (Number.length_literal_le x) (by decide)
    | text s => exact h.literal s hliteral

end Record

/-! ## Tokens of a source -/

namespace Scan

theorem ascii_takeWhile {p : UInt8 → Bool} (hp : ∀ x, p x = true → x < 0x80) (s : Bytes) :
    Ascii (s.takeWhile p) :=
  fun x hx => hp x (List.mem_takeWhile_imp hx)

theorem lt_of_isDigit (x : UInt8) (h : Bytes.isDigit x = true) : x < 0x80 := by
  grind [Bytes.isDigit]

theorem lt_of_isWordPart (x : UInt8) (h : isWordPart x = true) : x < 0x80 := by
  grind [isWordPart, isWordStart, Bytes.isDigit]

theorem lt_of_single? {b : UInt8} {k : Kind} (h : single? b = some k) : b < 0x80 := by
  by_contra hb
  have hne {c : UInt8} (hc : c < 0x80) : b ≠ c := fun heq => hb (heq ▸ hc)
  unfold single? at h
  iterate 11 rw [if_neg (hne (by decide))] at h
  cases h

theorem lt_of_extensible? {b : UInt8} {kinds : Kind × Kind} (h : extensible? b = some kinds) :
    b < 0x80 := by
  grind [extensible?]

theorem ascii_number (s : Bytes) : Ascii (s.take (numberLength s)) := by
  rcases take_numberLength s with hs | ⟨t, hs⟩
  · rw [hs]
    exact ascii_takeWhile lt_of_isDigit s
  · rw [hs]
    apply (ascii_takeWhile lt_of_isDigit s).append
    intro x hx
    rcases List.mem_cons.mp hx with rfl | hx
    · decide
    · exact ascii_takeWhile lt_of_isDigit t x hx

/-- A token is a string in its quotes, or written in single bytes. -/
theorem text_of_munch {b : UInt8} {rest : Bytes} {k : Kind} {length : Nat}
    (h : munch b rest = (.token k, length)) :
    Ascii ((b :: rest).take length) ∨
      k = .string ∧ ∃ body, (b :: rest).take length = 0x22 :: (body ++ [0x22]) := by
  cases begins_of_munch h with
  | number => exact .inl (ascii_number _)
  | word hword =>
      left
      rw [List.length_cons, List.take_succ_cons, take_length_takeWhile]
      intro x hx
      rcases List.mem_cons.mp hx with rfl | hx
      · exact lt_of_isWordPart x (by simp [isWordPart, hword])
      · exact ascii_takeWhile lt_of_isWordPart rest x hx
  | string hquote hopen =>
      refine .inr ⟨rfl, rest.takeWhile (· != 0x22), ?_⟩
      rw [List.take_succ_cons, take_quoted hopen, hquote]
  | long hext hequal =>
      obtain ⟨rest, rfl⟩ := List.head?_eq_some_iff.mp hequal
      have hfirst := lt_of_extensible? hext
      exact .inl (by simpa [Ascii] using hfirst)
  | short _ hext =>
      have hfirst := lt_of_extensible? hext
      exact .inl (by simpa [Ascii] using hfirst)
  | single _ hsingle =>
      have hfirst := lt_of_single? hsingle
      exact .inl (by simpa [Ascii] using hfirst)

theorem ascii_literalOf (kind : Kind) {lexeme : Bytes} (h : Ascii lexeme) :
    Ascii (literalOf kind lexeme).echoed := by
  have hnull : Ascii (utf8 "null") := by decide
  unfold literalOf
  split
  · exact Number.ascii_literal _
  · intro x hx
    exact h x (List.mem_of_mem_drop (List.mem_of_mem_dropLast hx))
  · exact hnull

theorem length_literalOf {kind : Kind} {lexeme s : Bytes} (h : literalOf kind lexeme = .text s) :
    s.length ≤ lexeme.length := by
  unfold literalOf at h
  split at h
  · cases h
  · cases h
    rw [List.length_dropLast, List.length_drop]
    omega
  · cases h

structure Holds (source : Bytes) (t : Token) : Prop where
  literal : isValid t.literal.echoed = isValid t.lexeme
  plain : t.kind ≠ .string → isValid t.lexeme = true
  valid : isValid source = true → isValid t.lexeme = true
  length_lexeme : t.lexeme.length ≤ source.length
  length_literal : ∀ s, t.literal = .text s → s.length ≤ source.length

theorem Holds.of_ascii {source : Bytes} {t : Token} (hlexeme : Ascii t.lexeme)
    (hliteral : Ascii t.literal.echoed) (hlength : t.lexeme.length ≤ source.length)
    (hlength' : ∀ s, t.literal = .text s → s.length ≤ source.length) : Holds source t where
  literal := by rw [hliteral.isValid, hlexeme.isValid]
  plain := fun _ => hlexeme.isValid
  valid := fun _ => hlexeme.isValid
  length_lexeme := hlength
  length_literal := hlength'

theorem isValid_quoted (body : Bytes) : isValid (0x22 :: (body ++ [0x22])) = isValid body := by
  rw [Utf8.isValid_cons_ascii (by decide), Utf8.isValid_append_ascii (by decide)]
  exact Bool.and_true _

theorem holds_of_mem_segments {source : Bytes} {s : Segment} {t : Token}
    (hs : s ∈ segments source) (ht : s.token? = some t) : Holds source t := by
  obtain ⟨before, after, b, rest, hsource, hrest, hmunch, -⟩ := exists_around_of_mem_segments hs
  obtain ⟨shape, text, span⟩ := s
  cases shape with
  | blank | comment | fault => cases ht
  | token kind =>
      cases ht
      dsimp only at hsource hrest hmunch
      have htext : (b :: rest).take text.length = text := by
        rw [← hrest, List.take_left]
      have hlength : text.length ≤ source.length := by
        rw [hsource, List.length_append, List.length_append]
        omega
      have hlength' (s : Bytes) (h : literalOf kind text = .text s) : s.length ≤ source.length :=
        Nat.le_trans (length_literalOf h) hlength
      have hform := text_of_munch hmunch
      rw [htext] at hform
      rcases hform with hascii | ⟨rfl, body, rfl⟩
      · exact .of_ascii hascii (ascii_literalOf kind hascii) hlength hlength'
      · refine ⟨?_, fun h => absurd rfl h, fun hvalid => ?_, hlength, hlength'⟩
        · rw [isValid_quoted]
          simp [literalOf, Literal.echoed, Literal.textWith]
        · -- the quotes cut the source into three parts
          rw [isValid_quoted]
          have hparts : source = before ++ 0x22 :: (body ++ 0x22 :: after) := by simp [hsource]
          rw [hparts, Utf8.isValid_append_ascii (by decide),
            Utf8.isValid_append_ascii (by decide)] at hvalid
          simp only [Bool.and_eq_true] at hvalid
          exact hvalid.2.1

theorem holds_of_mem_scan {source : Bytes} {t : Token} (ht : t ∈ (scan source).1) :
    Holds source t := by
  rcases List.mem_append.mp ht with ht | ht
  · obtain ⟨s, hs, ht⟩ := List.mem_filterMap.mp ht
    exact holds_of_mem_segments hs ht
  · obtain rfl := List.mem_singleton.mp ht
    have hnull : Ascii (utf8 "null") := by decide
    exact .of_ascii (by simp [endToken, Ascii]) hnull (Nat.zero_le _) (by simp [endToken])

theorem storable_of_positioned {source : Bytes} (h : ∀ t ∈ (scan source).1, t.Positioned)
    {t : Token} (ht : t ∈ (scan source).1) : t.Storable := by
  have hend : (endToken source).Positioned := h _ (List.mem_append_right _ List.mem_cons_self)
  have hlength : source.length < 2 ^ 63 := by
    have hoffset := hend.offset.2
    rw [endToken_span] at hoffset
    simp only [Position.ofOffset] at hoffset
    omega
  have hholds := holds_of_mem_scan ht
  exact ⟨h t ht, Nat.lt_of_le_of_lt hholds.length_lexeme hlength,
    fun s hs => Nat.lt_of_le_of_lt (hholds.length_literal s hs) hlength⟩

end Scan

namespace Stream

variable {codec : Codec} {tokens : List Token}

theorem forall_storable_ofToken (h : ∀ t ∈ tokens, t.Storable) :
    ∀ r ∈ tokens.map Record.ofToken, r.Storable :=
  List.forall_mem_map.mpr fun t ht => Record.storable_ofToken (h t ht)

theorem reads_back_tokens (hwrites : codec.Canonical) (hreads : codec.Reading isValid)
    (hsize : tokens.length ≤ Cbor.sizeLimit) (h : ∀ t ∈ tokens, t.Storable) :
    ∃ s, encode codec (tokens.map .ofToken) = .ok s ∧
      decode? codec s =
        if ∀ t ∈ tokens, isValid t.lexeme = true ∧ isValid t.literal.echoed = true
        then some (tokens.map .ofToken) else none := by
  have hsize' : (tokens.map Record.ofToken).length ≤ Cbor.sizeLimit := by rwa [List.length_map]
  obtain ⟨s, hencode, hdecode⟩ :=
    reads_back hwrites hreads (fun _ => id) hsize' (forall_storable_ofToken h)
  refine ⟨s, hencode, ?_⟩
  simp only [hdecode, List.forall_mem_map, Record.acceptable_ofToken]

theorem valid_scan_iff (source : Bytes) :
    (∀ t ∈ (scan source).1, isValid t.lexeme = true ∧ isValid t.literal.echoed = true) ↔
      ∀ t ∈ (scan source).1, t.kind = .string → isValid t.lexeme = true := by
  constructor
  · intro h t ht _
    exact (h t ht).1
  · intro h t ht
    have hholds := Scan.holds_of_mem_scan ht
    rw [hholds.literal, and_self]
    by_cases hkind : t.kind = .string
    · exact h t ht hkind
    · exact hholds.plain hkind

/--
With a codec that writes every datum in its one encoding, and reads the items written so whose
texts are well formed: a stream of tokens is written, and reads back, as the records it was
written from, exactly if all lexemes and literals are well formed; streams with the same bytes
have the same records.  The tokens of a source read back exactly if its strings are well formed,
and so if the source is.
-/
theorem tokens_read_back (codec : Codec) (hwrites : codec.Canonical)
    (hreads : codec.Reading isValid) :
    (∀ tokens : List Token, tokens.length ≤ 131072 → (∀ t ∈ tokens, t.Storable) →
      ∃ s, encode codec (tokens.map .ofToken) = .ok s ∧
        ((decode? codec s).isSome = true ↔
          ∀ t ∈ tokens, isValid t.lexeme = true ∧ isValid t.literal.echoed = true) ∧
        (∀ records, decode? codec s = some records → records = tokens.map .ofToken) ∧
        ∀ others : List Token, others.length ≤ 131072 → (∀ t ∈ others, t.Storable) →
          encode codec (others.map .ofToken) = .ok s →
            others.map Record.ofToken = tokens.map .ofToken) ∧
    ∀ source : Bytes, (scan source).1.length ≤ 131072 → (∀ t ∈ (scan source).1, t.Positioned) →
      ∃ s, encode codec ((scan source).1.map .ofToken) = .ok s ∧
        ((decode? codec s).isSome = true ↔
          ∀ t ∈ (scan source).1, t.kind = .string → isValid t.lexeme = true) ∧
        (isValid source = true → decode? codec s = some ((scan source).1.map .ofToken)) := by
  refine ⟨fun tokens hsize h => ?_, fun source hsize h => ?_⟩
  · obtain ⟨s, hencode, hdecode⟩ := reads_back_tokens hwrites hreads hsize h
    refine ⟨s, hencode, ?_, fun records hrecords => ?_, fun others hsize' h' hencode' => ?_⟩
    · rw [hdecode, Option.isSome_ite]
    · rw [hdecode, Option.ite_none_right_eq_some] at hrecords
      exact (Option.some.inj hrecords.2).symm
    · have hbytes := hencode'.trans hencode.symm
      refine encode_injective hwrites ?_ ?_ (forall_storable_ofToken h')
        (forall_storable_ofToken h) hbytes
      · rwa [List.length_map]
      · rwa [List.length_map]
  · have hstorable : ∀ t ∈ (scan source).1, t.Storable := fun t ht =>
      Scan.storable_of_positioned h ht
    obtain ⟨s, hencode, hdecode⟩ := reads_back_tokens hwrites hreads hsize hstorable
    refine ⟨s, hencode, ?_, fun hvalid => ?_⟩
    · rw [hdecode, Option.isSome_ite]
      exact valid_scan_iff source
    · rw [hdecode, if_pos]
      exact (valid_scan_iff source).mpr fun t ht _ => (Scan.holds_of_mem_scan ht).valid hvalid

/-- A string of one character in two bytes, and one of a byte that is none. -/
theorem quoted_tokens_read_back :
    let whole : Bytes := [0x22, 0xc3, 0xa9, 0x22]
    let broken : Bytes := [0x22, 0xc3, 0x22]
    (Cbor.codec.Canonical ∧ Cbor.codec.Reading isValid) ∧
    (∀ source ∈ [whole, broken], (scan source).1.length ≤ 131072 ∧
      ∀ t ∈ (scan source).1, t.Storable) ∧
    (∃ s, encode Cbor.codec ((scan whole).1.map .ofToken) = .ok s ∧
      decode? Cbor.codec s = some ((scan whole).1.map .ofToken)) ∧
    ∃ s, encode Cbor.codec ((scan broken).1.map .ofToken) = .ok s ∧
      decode? Cbor.codec s = none := by
  intro whole broken
  have hwrites : Cbor.codec.Canonical := Cbor.codecFor_canonical isValid
  have hreads : Cbor.codec.Reading isValid := Cbor.codecFor_reading isValid
  have hstorable : ∀ source ∈ [whole, broken], ∀ t ∈ (scan source).1, t.Storable :=
    fun source hsource _ => Scan.storable_of_positioned ((by decide :
      ∀ source ∈ [whole, broken], ∀ t ∈ (scan source).1, t.Positioned) source hsource)
  have hinvalid : ¬∀ t ∈ (scan broken).1,
      isValid t.lexeme = true ∧ isValid t.literal.echoed = true := by decide
  refine ⟨⟨hwrites, hreads⟩, fun source hsource => ⟨?_, hstorable source hsource⟩, ?_, ?_⟩
  · revert source
    decide
  · obtain ⟨s, hencode, -, hvalid⟩ :=
      (tokens_read_back Cbor.codec hwrites hreads).2 whole (by decide) (by decide)
    exact ⟨s, hencode, hvalid (by decide)⟩
  · obtain ⟨s, hencode, hvalid, -⟩ := (tokens_read_back Cbor.codec hwrites hreads).1
      (scan broken).1 (by decide) (hstorable broken (by decide))
    exact ⟨s, hencode, Option.not_isSome_iff_eq_none.mp (mt hvalid.mp hinvalid)⟩

end Stream

end Lox
