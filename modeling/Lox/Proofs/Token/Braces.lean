import Lox.Proofs.Token.Coverage

/-!
Braces in the text of a source and among its tokens.

A brace outside of strings and comments is a token of its own.  So there are as many braces in
a text as there are tokens of their kind, and those that strings and comments conceal.
-/

namespace Lox.Scan

/-- The shapes whose text is free: comments, strings, and strings without an end. -/
def Shape.conceals : Shape → Bool
  | .comment | .token .string | .fault .unterminatedString => true
  | _ => false

def concealed (c : UInt8) (source : Bytes) : Nat :=
  (((segments source).filter fun s => s.shape.conceals).flatMap Segment.text).count c

inductive IsBrace : UInt8 → Kind → Prop where
  | left : IsBrace 0x7b .leftBrace
  | right : IsBrace 0x7d .rightBrace

/-! ## Other segments -/

namespace IsBrace

variable {c : UInt8} {k : Kind}

theorem ofWord_ne (h : IsBrace c k) (word : Bytes) : Kind.ofWord word ≠ k := by
  intro hword
  cases h <;> simpa [Kind.reserved] using Kind.mem_reserved_of_ofWord hword (by decide)

theorem single?_eq_some_iff (h : IsBrace c k) (b : UInt8) : single? b = some k ↔ b = c := by
  constructor
  · intro hb
    cases h
    all_goals
      simp only [single?, ite_eq_iff, Option.some.injEq, reduceCtorEq, and_false, and_true,
        false_or, or_false] at hb
      tauto
  · rintro rfl
    cases h <;> rfl

theorem ne_of_single?_eq_none (h : IsBrace c k) {b : UInt8} (hb : single? b = none) : b ≠ c := by
  rintro rfl
  rw [(h.single?_eq_some_iff b).mpr rfl] at hb
  cases hb

theorem ne_of_extensible? (h : IsBrace c k) {b : UInt8} {short long : Kind}
    (hb : extensible? b = some (short, long)) : b ≠ c ∧ short ≠ k ∧ long ≠ k := by
  cases h <;> grind [extensible?]

theorem foreign (h : IsBrace c k) : Bytes.isDigit c = false ∧ c ≠ 0x2e ∧ isWordPart c = false ∧
    isBlank c = false ∧ c ≠ 0x3d ∧ c < 0x80 := by
  cases h <;> decide

theorem count_of_munch (h : IsBrace c k) {b : UInt8} {rest : Bytes} {shape : Shape} {length : Nat}
    (hmunch : munch b rest = (shape, length)) (hshape : shape.conceals = false) :
    ((b :: rest).take length).count c = if shape = .token k then 1 else 0 := by
  have without {xs : Bytes} {shape : Shape} (hxs : c ∉ xs) (hne : shape ≠ .token k) :
      xs.count c = if shape = .token k then 1 else 0 := by
    rw [if_neg hne, List.count_eq_zero.mpr hxs]
  obtain ⟨hdigit, hpoint, hword, hblank, hequal, hascii⟩ := h.foreign
  cases isFront_of_munch hmunch with
  | number =>
      refine without (fun hc => ?_) (by cases h <;> simp)
      simpa [hdigit, hpoint] using isDigit_or_point_of_mem_number hc
  | word hstart =>
      rw [List.length_cons, List.take_succ_cons, take_length_takeWhile]
      refine without (fun hc => ?_) (by simpa using h.ofWord_ne _)
      rcases List.mem_cons.mp hc with rfl | hc
      · simp [isWordPart, hstart] at hword
      · simpa [hword] using List.mem_takeWhile_imp hc
  | blank hspace =>
      refine without (fun hc => ?_) (by simp)
      obtain rfl : c = b := by simpa using hc
      simp [hspace] at hblank
  | comment | unterminated | string => cases hshape
  | long _ hext hnext =>
      obtain ⟨hb, -, hlong⟩ := h.ne_of_extensible? hext
      obtain ⟨rest, rfl⟩ := List.head?_eq_some_iff.mp hnext
      exact without (by simp [hequal, hb.symm]) (by simpa using hlong)
  | short _ hext =>
      obtain ⟨hb, hshort, -⟩ := h.ne_of_extensible? hext
      exact without (by simp [hb.symm]) (by simpa using hshort)
  | @single kind _ _ hsingle =>
      have hiff : kind = k ↔ b = c := by
        rw [← h.single?_eq_some_iff, hsingle, Option.some.injEq]
      simp [List.count_singleton, hiff]
  | character _ _ hsingle hfront =>
      obtain ⟨tail, after, rfl, rfl, htail⟩ := front?_tail hfront
      refine without ?_ (by simp)
      rw [List.take_succ_cons, List.take_left, List.mem_cons]
      rintro (rfl | hc)
      · exact h.ne_of_single?_eq_none hsingle rfl
      · exact UInt8.not_le.mpr hascii (htail c hc)
  | stray _ _ hsingle =>
      exact without (by simpa using (h.ne_of_single?_eq_none hsingle).symm) (by simp)

end IsBrace

/-! ## Whole sources -/

theorem flatMap_text_segmentsFrom (skip : Nat) (p : Position) (source : Bytes) :
    (segmentsFrom skip p source).flatMap Segment.text = source.drop skip := by
  induction source generalizing skip p with
  | nil => simp [segmentsFrom]
  | cons b rest ih =>
      cases skip with
      | succ skip => exact ih skip _
      | zero =>
          obtain ⟨n, hn⟩ := Nat.exists_eq_succ_of_ne_zero (munch_length b rest).1.ne'
          rw [segmentsFrom_zero, List.flatMap_cons, ih, hn]
          simp

theorem Segment.countP_token? (s : Segment) (k : Kind) :
    s.token?.toList.countP (fun t => t.kind = k) = if s.shape = .token k then 1 else 0 := by
  unfold Segment.token?
  cases s.shape with
  | token kind => simp [List.countP_cons]
  | blank | comment | fault => simp

namespace IsBrace

variable {c : UInt8} {k : Kind} {source : Bytes}

theorem ne_of_conceals (h : IsBrace c k) {shape : Shape} (hshape : shape.conceals = true) :
    shape ≠ .token k := by
  rintro rfl
  cases h <;> cases hshape

theorem count_of_subset (h : IsBrace c k) {segs : List Segment} (hsegs : segs ⊆ segments source) :
    (segs.flatMap Segment.text).count c =
      (segs.filterMap Segment.token?).countP (fun t => t.kind = k) +
        ((segs.filter fun s => s.shape.conceals).flatMap Segment.text).count c := by
  induction segs with
  | nil => rfl
  | cons s rest ih =>
      obtain ⟨hs, hrest⟩ := List.cons_subset.mp hsegs
      have htokens : (s :: rest).filterMap Segment.token? =
          s.token?.toList ++ rest.filterMap Segment.token? := by
        cases htoken : s.token? <;> simp [htoken]
      rw [htokens, List.countP_append, s.countP_token?, List.flatMap_cons, List.count_append,
        ih hrest, List.filter_cons]
      cases hshape : s.shape.conceals with
      | true =>
          rw [if_neg (h.ne_of_conceals hshape), if_pos rfl, List.flatMap_cons, List.count_append]
          omega
      | false =>
          obtain ⟨-, b, after, length, -, hmunch, htext, -⟩ := place_of_mem_segmentsFrom hs
          rw [htext, h.count_of_munch hmunch hshape, if_neg Bool.false_ne_true]
          omega

/-- The braces of one kind in a source: those that are tokens, and those that are concealed. -/
theorem count_eq (h : IsBrace c k) (source : Bytes) :
    source.count c = (scan source).1.countP (fun t => t.kind = k) + concealed c source := by
  have hend : [endToken source].countP (fun t => t.kind = k) = 0 := by
    cases h <;> rfl
  have hscan : (scan source).1 =
      (segments source).filterMap Segment.token? ++ [endToken source] := rfl
  have htext : (segments source).flatMap Segment.text = source :=
    flatMap_text_segmentsFrom 0 .first source
  have hcount := h.count_of_subset (List.Subset.refl (segments source))
  rw [htext] at hcount
  rw [hscan, List.countP_append, hend, Nat.add_zero]
  exact hcount

end IsBrace

end Lox.Scan
