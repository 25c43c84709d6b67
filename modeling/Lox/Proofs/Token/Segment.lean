import Lox.Token.Scan

/-!
The segment at the front of a text.

It is a number, a word, a blank, a comment or a string by its first byte, and else an operator or
a character that is at fault.
-/

namespace Lox

namespace Scan

/-! ## Numbers -/

theorem numberLength_le (s : Bytes) : numberLength s ≤ s.length := by
  have hsplit : (s.takeWhile Bytes.isDigit).length + (s.dropWhile Bytes.isDigit).length =
      s.length := by
    rw [← List.length_append, List.takeWhile_append_dropWhile]
  unfold numberLength numberParts
  split
  · rename_i whole hparts
    split at hparts <;> simp_all <;> omega
  · rename_i whole fraction _ hparts
    split at hparts
    · rename_i rest hdrop
      have hrest := (rest.takeWhile_prefix Bytes.isDigit).length_le
      cases hparts
      simp only [hdrop, List.length_cons] at hsplit
      omega
    · simp_all

theorem numberLength_pos {b : UInt8} (hb : Bytes.isDigit b = true) (s : Bytes) :
    0 < numberLength (b :: s) := by
  have hwhole : (numberParts (b :: s)).1 ≠ [] := by
    unfold numberParts
    dsimp only
    split <;> simp [hb]
  rw [← List.length_pos_iff] at hwhole
  unfold numberLength
  split
  · simp_all
  · omega

/-! ## Characters -/

theorem payload?_of_ascii {x : UInt8} (hx : x < 0x80) : Utf8.payload? x = none := by
  have hlow : ¬0x80 ≤ x := UInt8.not_le.mpr hx
  simp [Utf8.payload?, hlow]

theorem scalar?_width {code width least : Nat} {c : Char} {n : Nat}
    (h : Utf8.scalar? code width least = some (c, n)) : n = width := by
  unfold Utf8.scalar? at h
  split at h <;> simp_all

theorem le_of_payload? {x : UInt8} {n : Nat} (h : Utf8.payload? x = some n) : 0x80 ≤ x := by
  apply UInt8.not_lt.mp
  intro hx
  rw [payload?_of_ascii hx] at h
  cases h

/-- The bytes of a character after its first one are none of their own. -/
theorem front?_tail {b : UInt8} {s : Bytes} {c : Char} {width : Nat}
    (h : Utf8.front? (b :: s) = some (c, width)) :
    ∃ tail rest, s = tail ++ rest ∧ width = tail.length + 1 ∧ ∀ x ∈ tail, 0x80 ≤ x := by
  simp only [Utf8.front?] at h
  split at h
  · exact ⟨[], s, rfl, scalar?_width h, by simp⟩
  split at h
  · cases h
  split at h
  · split at h
    · next c₁ rest =>
        simp only [Option.bind_eq_bind, Option.bind_eq_some_iff] at h
        obtain ⟨x, hx, h⟩ := h
        exact ⟨[c₁], rest, rfl, scalar?_width h, by simpa using le_of_payload? hx⟩
    · cases h
  split at h
  · split at h
    · next c₁ c₂ rest =>
        simp only [Option.bind_eq_bind, Option.bind_eq_some_iff] at h
        obtain ⟨x, hx, y, hy, h⟩ := h
        exact ⟨[c₁, c₂], rest, rfl, scalar?_width h,
          by simpa using ⟨le_of_payload? hx, le_of_payload? hy⟩⟩
    · cases h
  split at h
  · split at h
    · next c₁ c₂ c₃ rest =>
        simp only [Option.bind_eq_bind, Option.bind_eq_some_iff] at h
        obtain ⟨x, hx, y, hy, z, hz, h⟩ := h
        exact ⟨[c₁, c₂, c₃], rest, rfl, scalar?_width h,
          by simpa using ⟨le_of_payload? hx, le_of_payload? hy, le_of_payload? hz⟩⟩
    · cases h
  · cases h

theorem front?_width {b : UInt8} {s : Bytes} {c : Char} {width : Nat}
    (h : Utf8.front? (b :: s) = some (c, width)) : 0 < width ∧ width ≤ s.length + 1 := by
  obtain ⟨tail, rest, rfl, rfl, -⟩ := front?_tail h
  rw [List.length_append]
  omega

/-! ## Segments -/

structure IsSymbol (b : UInt8) (rest : Bytes) : Prop where
  digit : Bytes.isDigit b = false
  word : isWordStart b = false
  blank : isBlank b = false
  comment : ¬(b = 0x2f ∧ rest.head? = some 0x2f)
  quote : b ≠ 0x22

inductive IsFront (b : UInt8) (rest : Bytes) : Shape → (length : Nat) → Prop where
  | number : Bytes.isDigit b = true →
      IsFront b rest (.token .number) (numberLength (b :: rest))
  | word : isWordStart b = true →
      IsFront b rest (.token (.ofWord (b :: rest.takeWhile isWordPart)))
        (b :: rest.takeWhile isWordPart).length
  | blank : isBlank b = true → IsFront b rest .blank 1
  | comment : b = 0x2f → rest.head? = some 0x2f →
      IsFront b rest .comment ((rest.takeWhile (· != 0x0a)).length + 1)
  | unterminated : b = 0x22 → rest.dropWhile (· != 0x22) = [] →
      IsFront b rest (.fault .unterminatedString) ((rest.takeWhile (· != 0x22)).length + 1)
  | string : b = 0x22 → rest.dropWhile (· != 0x22) ≠ [] →
      IsFront b rest (.token .string) ((rest.takeWhile (· != 0x22)).length + 2)
  | long {short long : Kind} : IsSymbol b rest → extensible? b = some (short, long) →
      rest.head? = some 0x3d → IsFront b rest (.token long) 2
  | short {short long : Kind} : IsSymbol b rest → extensible? b = some (short, long) →
      rest.head? ≠ some 0x3d → IsFront b rest (.token short) 1
  | single {k : Kind} : IsSymbol b rest → extensible? b = none → single? b = some k →
      IsFront b rest (.token k) 1
  | character {c : Char} {width : Nat} : IsSymbol b rest → extensible? b = none →
      single? b = none → Utf8.front? (b :: rest) = some (c, width) →
      IsFront b rest (.fault (.unexpectedCharacter c)) width
  | stray : IsSymbol b rest → extensible? b = none → single? b = none →
      Utf8.front? (b :: rest) = none →
      IsFront b rest (.fault (.unexpectedCharacter Utf8.replacement)) 1

theorem isFront_of_munch {b : UInt8} {rest : Bytes} {shape : Shape} {length : Nat}
    (h : munch b rest = (shape, length)) : IsFront b rest shape length := by
  unfold munch at h
  by_cases hdigit : Bytes.isDigit b = true
  · rw [if_pos hdigit] at h
    cases h
    exact .number hdigit
  rw [if_neg hdigit] at h
  by_cases hword : isWordStart b = true
  · rw [if_pos hword] at h
    cases h
    exact .word hword
  rw [if_neg hword] at h
  by_cases hblank : isBlank b = true
  · rw [if_pos hblank] at h
    cases h
    exact .blank hblank
  rw [if_neg hblank] at h
  by_cases hcomment : (b = 0x2f && rest.head? == some 0x2f) = true
  · rw [if_pos hcomment, Nat.add_comm] at h
    simp only [Bool.and_eq_true, decide_eq_true_eq, beq_iff_eq] at hcomment
    cases h
    exact .comment hcomment.1 hcomment.2
  rw [if_neg hcomment] at h
  by_cases hquote : b = 0x22
  · rw [if_pos hquote] at h
    dsimp only at h
    by_cases hopen : (rest.dropWhile (· != 0x22)).isEmpty = true
    · rw [if_pos hopen] at h
      cases h
      exact .unterminated hquote (List.isEmpty_iff.mp hopen)
    · rw [if_neg hopen] at h
      cases h
      exact .string hquote (mt List.isEmpty_iff.mpr hopen)
  rw [if_neg hquote] at h
  have hsymbol : IsSymbol b rest :=
    { digit := Bool.eq_false_iff.mpr hdigit, word := Bool.eq_false_iff.mpr hword
      blank := Bool.eq_false_iff.mpr hblank, quote := hquote
      comment := by simpa using hcomment }
  cases hext : extensible? b with
  | some kinds =>
      simp only [hext] at h
      by_cases hequal : (rest.head? == some 0x3d) = true
      · rw [if_pos hequal] at h
        cases h
        exact .long hsymbol hext (beq_iff_eq.mp hequal)
      · rw [if_neg hequal] at h
        cases h
        exact .short hsymbol hext (mt beq_iff_eq.mpr hequal)
  | none =>
      simp only [hext] at h
      cases hsingle : single? b with
      | some kind =>
          simp only [hsingle] at h
          cases h
          exact .single hsymbol hext hsingle
      | none =>
          simp only [hsingle] at h
          cases hfront : Utf8.front? (b :: rest) with
          | some found =>
              simp only [hfront] at h
              cases h
              exact .character hsymbol hext hsingle hfront
          | none =>
              simp only [hfront] at h
              cases h
              exact .stray hsymbol hext hsingle hfront

/-- A segment has a byte at least, and none after the end of the source. -/
theorem munch_length (b : UInt8) (s : Bytes) :
    0 < (munch b s).2 ∧ (munch b s).2 ≤ s.length + 1 := by
  obtain ⟨shape, length, hmunch⟩ : ∃ shape length, munch b s = (shape, length) := ⟨_, _, rfl⟩
  rw [hmunch]
  cases isFront_of_munch hmunch with
  | number hdigit => exact ⟨numberLength_pos hdigit s, numberLength_le (b :: s)⟩
  | word =>
      have hword := (s.takeWhile_prefix isWordPart).length_le
      simpa using hword
  | comment =>
      have hline := (s.takeWhile_prefix (· != 0x0a)).length_le
      simpa using hline
  | unterminated =>
      have hbody := (s.takeWhile_prefix (· != 0x22)).length_le
      simpa using hbody
  | string _ hends =>
      have hquote : (s.takeWhile (· != 0x22)).length + (s.dropWhile (· != 0x22)).length =
          s.length := by
        rw [← List.length_append, List.takeWhile_append_dropWhile]
      have hpos := List.length_pos_iff.mpr hends
      dsimp only
      omega
  | long _ _ hequal =>
      obtain ⟨rest, rfl⟩ := List.head?_eq_some_iff.mp hequal
      simp
  | character _ _ _ hfront => exact front?_width hfront
  | blank | short | single | stray => simp

end Scan

end Lox
