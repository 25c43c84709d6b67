import Lox.Proofs.Token.Segment
import Lox.Proofs.WellFormed

/-!
How the words of a source are spelled.

The kind of a word is decided by its letters alone: an identifier is never a reserved
word, and a reserved word has one spelling.  No segment is an end: only the token that
closes a source is.
-/

namespace Lox

/-- A token that is a word has the kind of its letters. -/
def Token.Spelled (t : Token) : Prop :=
  (t.kind = .identifier ∨ t.kind.isKeyword) → Kind.ofWord t.lexeme = t.kind

theorem Token.Spelled.nameable {t : Token} (h : t.Spelled) (hkind : t.kind = .identifier) :
    t.Nameable := by
  have hword := h (.inl hkind)
  rw [hkind] at hword
  constructor
  · intro hthis
    rw [hthis] at hword
    exact absurd hword (by decide)
  · intro hsuper
    rw [hsuper] at hword
    exact absurd hword (by decide)

theorem Kind.mem_reserved_of_ofWord {word : Bytes} {k : Kind} (h : ofWord word = k)
    (hk : k ≠ .identifier) : (word, k) ∈ reserved := by
  unfold ofWord at h
  cases hlookup : reserved.lookup word with
  | none => rw [hlookup] at h; exact absurd h.symm hk
  | some found =>
      rw [hlookup] at h
      obtain rfl : found = k := h
      obtain ⟨l₁, l₂, hsplit, -⟩ := List.lookup_eq_some_iff.mp hlookup
      simp [hsplit]

theorem Token.Spelled.this {t : Token} (h : t.Spelled) (hkind : t.kind = .thisKw) :
    t.lexeme = utf8 "this" := by
  have hword := h (.inr (by rw [hkind]; decide))
  rw [hkind] at hword
  have hmem := Kind.mem_reserved_of_ofWord hword (by decide)
  simpa [Kind.reserved] using hmem

namespace Scan

private theorem forall_mem_ite {c : Prop} [Decidable c] {x y : Option α} {P : α → Prop}
    (hx : ∀ a ∈ x, P a) (hy : ∀ a ∈ y, P a) : ∀ a ∈ (if c then x else y), P a := by
  by_cases hc : c
  · rwa [if_pos hc]
  · rwa [if_neg hc]

abbrev IsPlain (k : Kind) : Prop := ¬(k = .identifier ∨ k.isKeyword) ∧ k ≠ .eof

theorem isPlain_of_single? (b : UInt8) : ∀ k ∈ single? b, IsPlain k := by
  unfold single? IsPlain
  iterate 11 refine forall_mem_ite (by rintro _ ⟨⟩; decide) ?_
  simp

theorem isPlain_of_extensible? (b : UInt8) :
    ∀ kinds ∈ extensible? b, IsPlain kinds.1 ∧ IsPlain kinds.2 := by
  unfold extensible? IsPlain
  iterate 4 refine forall_mem_ite (by rintro _ ⟨⟩; decide) ?_
  simp

inductive Begins (b : UInt8) (rest : Bytes) : Kind → (length : Nat) → Prop where
  | number : Bytes.isDigit b = true → Begins b rest .number (numberLength (b :: rest))
  | word : isWordStart b = true →
      Begins b rest (.ofWord (b :: rest.takeWhile isWordPart))
        (b :: rest.takeWhile isWordPart).length
  | string : b = 0x22 → rest.dropWhile (· != 0x22) ≠ [] →
      Begins b rest .string ((rest.takeWhile (· != 0x22)).length + 2)
  | long {short long : Kind} : extensible? b = some (short, long) → rest.head? = some 0x3d →
      Begins b rest long 2
  | short {short long : Kind} : isBlank b = false → extensible? b = some (short, long) →
      Begins b rest short 1
  | single {k : Kind} : isBlank b = false → single? b = some k → Begins b rest k 1

theorem begins_of_munch {b : UInt8} {rest : Bytes} {k : Kind} {length : Nat}
    (h : munch b rest = (.token k, length)) : Begins b rest k length := by
  cases isFront_of_munch h with
  | number hdigit => exact .number hdigit
  | word hword => exact .word hword
  | string hquote hends => exact .string hquote hends
  | long _ hext hequal => exact .long hext hequal
  | short hsymbol hext => exact .short hsymbol.blank hext
  | single hsymbol _ hsingle => exact .single hsymbol.blank hsingle

theorem take_length_takeWhile (p : UInt8 → Bool) (s : Bytes) :
    s.take (s.takeWhile p).length = s.takeWhile p :=
  (List.prefix_iff_eq_take.mp (s.takeWhile_prefix p)).symm

theorem kind_of_munch {b : UInt8} {rest : Bytes} {k : Kind} {length : Nat}
    (h : munch b rest = (.token k, length)) :
    IsPlain k ∨ Kind.ofWord ((b :: rest).take length) = k := by
  cases begins_of_munch h with
  | number | string => exact .inl (by decide)
  | word =>
      right
      rw [List.length_cons, List.take_succ_cons, take_length_takeWhile]
  | long hext => exact .inl (isPlain_of_extensible? b _ hext).2
  | short _ hext => exact .inl (isPlain_of_extensible? b _ hext).1
  | single _ hsingle => exact .inl (isPlain_of_single? b k hsingle)

theorem ofWord_ne_eof (word : Bytes) : Kind.ofWord word ≠ .eof := by
  intro h
  have hmem := Kind.mem_reserved_of_ofWord h (by decide)
  simp [Kind.reserved] at hmem

theorem place_of_mem_segmentsFrom {skip : Nat} {p : Position} {source : Bytes} {s : Segment}
    (hs : s ∈ segmentsFrom skip p source) :
    ∃ before b rest length, source = before ++ b :: rest ∧ munch b rest = (s.shape, length) ∧
      s.text = (b :: rest).take length ∧
      s.span = ⟨p.advanceBy before, p.advanceBy (before ++ s.text)⟩ := by
  induction source generalizing skip p with
  | nil => simp [segmentsFrom] at hs
  | cons c source ih =>
      have step {skip : Nat} (hs : s ∈ segmentsFrom skip (p.advance c) source) :
          ∃ before b rest length, c :: source = before ++ b :: rest ∧
            munch b rest = (s.shape, length) ∧ s.text = (b :: rest).take length ∧
            s.span = ⟨p.advanceBy before, p.advanceBy (before ++ s.text)⟩ := by
        obtain ⟨before, b, rest, length, rfl, hmunch, htext, hspan⟩ := ih hs
        exact ⟨c :: before, b, rest, length, rfl, hmunch, htext, hspan⟩
      cases skip with
      | succ skip => exact step hs
      | zero =>
          rw [segmentsFrom] at hs
          rcases List.mem_cons.mp hs with rfl | hs
          · exact ⟨[], c, source, (munch c source).2, rfl, rfl, rfl, rfl⟩
          · exact step hs

theorem kind_of_mem_segments {source : Bytes} {s : Segment} {t : Token}
    (hs : s ∈ segments source) (ht : s.token? = some t) :
    IsPlain t.kind ∨ Kind.ofWord t.lexeme = t.kind := by
  obtain ⟨-, b, rest, length, -, hmunch, htext, -⟩ := place_of_mem_segmentsFrom hs
  obtain ⟨shape, text, span⟩ := s
  cases shape with
  | token k =>
      cases ht
      rw [show text = (b :: rest).take length from htext]
      exact kind_of_munch hmunch
  | blank | comment | fault => simp [Segment.token?] at ht

end Scan

/-- All words among the tokens of a source are spelled as their kinds say. -/
theorem spelled_of_mem_scan {source : Bytes} {t : Token} (h : t ∈ (scan source).1) :
    t.Spelled := by
  rcases List.mem_append.mp h with h | h
  · obtain ⟨s, hs, ht⟩ := List.mem_filterMap.mp h
    intro hword
    rcases Scan.kind_of_mem_segments hs ht with hplain | hkind
    · exact absurd hword hplain.1
    · exact hkind
  · obtain rfl := List.mem_singleton.mp h
    intro hkind
    exact absurd hkind (by simp [Scan.endToken]; decide)

/-- The tokens of a source are closed by the only one that is an end. -/
theorem scan_tokens (source : Bytes) :
    ∃ tokens, (scan source).1 = tokens ++ [Scan.endToken source] ∧
      ∀ t ∈ tokens, t.kind ≠ .eof := by
  refine ⟨(Scan.segments source).filterMap Scan.Segment.token?, rfl, fun t ht heof => ?_⟩
  obtain ⟨s, hs, ht⟩ := List.mem_filterMap.mp ht
  rcases Scan.kind_of_mem_segments hs ht with hplain | hkind
  · exact hplain.2 heof
  · exact Scan.ofWord_ne_eof t.lexeme (hkind.trans heof)

theorem Scan.filter_scan (source : Bytes) :
    (scan source).1.filter (fun t => t.kind != .eof) =
      (segments source).filterMap Segment.token? := by
  obtain ⟨tokens, hscan, hkinds⟩ := scan_tokens source
  have htokens : tokens = (segments source).filterMap Segment.token? :=
    (List.append_cancel_right hscan).symm
  rw [hscan, List.filter_append, ← htokens, List.filter_eq_self.mpr]
  · simp [endToken]
  · intro t ht
    simpa using hkinds t ht

end Lox
