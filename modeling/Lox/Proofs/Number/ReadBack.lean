import Lox.Proofs.Layout.Respelled
import Lox.Proofs.Number.Shortest

/-!
Printed numbers read back as themselves.

Both texts of a number are digits, with at most one point between them: no exponent is ever
written.  Such a text is a number token, and its digits denote a decimal that rounds to the
number it was printed from.
-/

namespace Lox

open Scan (IsDigits IsLexeme)

namespace Bytes

/-! ## Digits -/

theorem toNat_append (s t : Bytes) : toNat (s ++ t) = toNat s * 10 ^ t.length + toNat t := by
  induction t using List.reverseRecOn with
  | nil => simp [toNat]
  | append_singleton t d ih =>
      have hlast (u : Bytes) : toNat (u ++ [d]) = 10 * toNat u + (d.toNat - 0x30) := by
        simp [toNat]
      rw [← List.append_assoc, hlast, hlast, ih, List.length_append, List.length_singleton]
      ring

theorem toNat_zeros (n : Nat) : toNat (Number.zeros n) = 0 := by
  induction n with
  | zero => rfl
  | succ n ih => exact ih

theorem toNat_digit {c : Char} (h : c.isDigit = true) :
    c.val.toUInt8.toNat = c.toNat ∧ isDigit c.val.toUInt8 = true := by
  simp only [Char.isDigit, ge_iff_le, Bool.and_eq_true, decide_eq_true_eq] at h
  have hlow : 48 ≤ c.toNat := UInt32.le_iff_toNat_le.mp h.1
  have hhigh : c.toNat ≤ 57 := UInt32.le_iff_toNat_le.mp h.2
  have hbyte : c.val.toUInt8.toNat = c.toNat := by
    rw [UInt32.toNat_toUInt8]
    exact Nat.mod_eq_of_lt (Nat.lt_of_le_of_lt hhigh (by decide))
  refine ⟨hbyte, ?_⟩
  simp only [isDigit, Bool.and_eq_true, decide_eq_true_eq, UInt8.le_iff_toNat_le, hbyte]
  exact ⟨hlow, hhigh⟩

theorem isDigits_ofNat (n : Nat) : IsDigits (ofNat n) := by
  refine ⟨by simp [ofNat, Nat.toDigits_ne_nil], ?_⟩
  intro b hb
  obtain ⟨c, hc, rfl⟩ := List.mem_map.mp hb
  exact (toNat_digit (Nat.isDigit_of_mem_toDigits (by decide) (by decide) hc)).2

theorem toNat_ofNat (n : Nat) : toNat (ofNat n) = n := by
  rw [toNat, ofNat, List.foldl_map]
  calc (Nat.toDigits 10 n).foldl (fun n c => 10 * n + (c.val.toUInt8.toNat - 0x30)) 0
      = (Nat.toDigits 10 n).foldl (fun n c => 10 * n + (c.toNat - '0'.toNat)) 0 := by
        apply List.foldl_ext
        intro n c hc
        rw [(toNat_digit (Nat.isDigit_of_mem_toDigits (by decide) (by decide) hc)).1]
        rfl
    _ = n := by
        rw [← Nat.ofDigitChars_eq_foldl, Nat.ofDigitChars_ten_toDigits]

end Bytes

theorem isDigit_of_mem_zeros {n : Nat} : ∀ b ∈ Number.zeros n, Bytes.isDigit b = true := by
  intro b hb
  rw [List.eq_of_mem_replicate hb]
  decide

namespace Scan

/-! ## Numerals -/

/-- A number token's text, with the decimal that its digits denote. -/
inductive Denotes : Bytes → ℚ → Prop where
  | whole {digits : Bytes} : IsDigits digits → Denotes digits (Bytes.toNat digits)
  | decimal {whole fraction : Bytes} : IsDigits whole → IsDigits fraction →
      Denotes (whole ++ 0x2e :: fraction)
        (Bytes.toNat (whole ++ fraction) / 10 ^ fraction.length)

theorem takeWhile_isDigit {digits : Bytes} (rest : Bytes) (h : IsDigits digits) :
    (digits ++ 0x2e :: rest).takeWhile Bytes.isDigit = digits ∧
      (digits ++ 0x2e :: rest).dropWhile Bytes.isDigit = 0x2e :: rest := by
  rw [List.takeWhile_append_of_pos h.2, List.dropWhile_append_of_pos h.2]
  simp [show Bytes.isDigit 0x2e = false by decide]

namespace Denotes

variable {text : Bytes} {v : ℚ}

theorem isLexeme (h : Denotes text v) : IsLexeme text := by
  cases h with
  | whole h => exact .whole h
  | decimal hwhole hfraction => exact .decimal hwhole hfraction

theorem kindOf (h : Denotes text v) : kindOf text = .number := by
  have hfirst {b : UInt8} {digits : Bytes} (hdigits : IsDigits (b :: digits)) :
      Bytes.isDigit b = true := hdigits.2 b List.mem_cons_self
  cases h with
  | whole h =>
      obtain ⟨b, digits, rfl⟩ := List.exists_cons_of_ne_nil h.1
      exact kindOf_number (hfirst h)
  | decimal h _ =>
      obtain ⟨b, digits, rfl⟩ := List.exists_cons_of_ne_nil h.1
      exact kindOf_number (hfirst h)

theorem read_eq (h : Denotes text v) :
    ∃ c k : Nat, v = c / 10 ^ k ∧
      literalOf .number text = .number (Float.ofScientific c true k) := by
  cases h with
  | whole h =>
      refine ⟨Bytes.toNat text, 0, by simp, ?_⟩
      have hparts : numberParts text = (text, []) := by
        unfold numberParts
        rw [List.takeWhile_eq_self_iff.mpr h.2, List.dropWhile_eq_nil_iff.mpr h.2]
      simp [literalOf, hparts, Number.read]
  | @decimal whole fraction hwhole hfraction =>
      refine ⟨Bytes.toNat (whole ++ fraction), fraction.length, rfl, ?_⟩
      have hparts : numberParts (whole ++ 0x2e :: fraction) = (whole, fraction) := by
        obtain ⟨htake, hdrop⟩ := takeWhile_isDigit fraction hwhole
        unfold numberParts
        rw [htake, hdrop]
        exact congrArg (whole, ·) (List.takeWhile_eq_self_iff.mpr hfraction.2)
      simp [literalOf, hparts, Number.read]

/-- A decimal that rounds to a double is read as that double. -/
theorem literalOf_eq (h : Denotes text v) {m : Nat} {q : Int} (hmq : Number.Canonical m q)
    (hv : Number.RoundsTo m q v) : literalOf .number text = .number hmq.toFloat := by
  obtain ⟨c, k, rfl, hread⟩ := h.read_eq
  rw [hread, Number.ofScientific_eq hmq hv]

theorem scan_eq (h : Denotes text v) :
    ∃ t, scan text = ([t, endToken text], []) ∧ t.kind = .number ∧ t.lexeme = text ∧
      t.literal = literalOf .number text := by
  have hreads : ReadsAs text [contentOf text] := by
    have hstops : Stops [] := by rintro c ⟨⟩
    have hreads := ReadsAs.lexeme h.isLexeme hstops .nil
    rwa [List.append_nil] at hreads
  have htokens := hreads.tokens .first
  obtain ⟨t, ht, hcontent⟩ := List.map_eq_singleton_iff.mp htokens
  have hscan : scan text = ([t, endToken text], []) := by
    unfold scan
    exact Prod.ext (congrArg (· ++ [endToken text]) ht) (hreads.problems .first)
  simp only [contentOf, h.kindOf, Token.content, Prod.mk.injEq] at hcontent
  exact ⟨t, hscan, hcontent⟩

end Denotes

end Scan

namespace Number

open Scan (Denotes)

/-! ## The two texts of a number -/

theorem denotes_point {whole fraction : Bytes} {c k : Nat} (hwhole : IsDigits whole)
    (hfraction : IsDigits fraction) (hc : Bytes.toNat (whole ++ fraction) = c)
    (hk : fraction.length = k) : Denotes (whole ++ utf8 "." ++ fraction) (c / 10 ^ k) := by
  subst hc hk
  have hpoint : utf8 "." = [0x2e] := by decide
  rw [hpoint, List.append_assoc, List.singleton_append]
  exact .decimal hwhole hfraction

theorem isDigits_zero : IsDigits [0x30] := ⟨by simp, List.forall_mem_singleton.mpr rfl⟩

theorem denotes_whole (n : Nat) : Denotes (Bytes.ofNat n ++ utf8 ".0") n := by
  have htext : Bytes.ofNat n ++ utf8 ".0" = Bytes.ofNat n ++ utf8 "." ++ [0x30] := by
    rw [List.append_assoc]
    exact congrArg (Bytes.ofNat n ++ ·) (by decide)
  have hdenotes : Denotes (Bytes.ofNat n ++ utf8 "." ++ [0x30]) ((n * 10 : Nat) / 10 ^ 1) := by
    refine denotes_point (Bytes.isDigits_ofNat n) isDigits_zero ?_ rfl
    rw [Bytes.toNat_append, Bytes.toNat_ofNat]
    rfl
  rw [htext]
  convert hdenotes using 1
  push_cast
  ring

theorem denotes_plain (d : Decimal) : Denotes d.plain d.value := by
  obtain ⟨c, n | n⟩ := d
  all_goals
    obtain ⟨hne, hdigits⟩ := Bytes.isDigits_ofNat c
    unfold Decimal.plain Decimal.value
    dsimp only
  · have hdenotes := @Denotes.whole (Bytes.ofNat c ++ zeros n)
      ⟨by simp [hne], List.forall_mem_append.mpr ⟨hdigits, isDigit_of_mem_zeros⟩⟩
    rw [Bytes.toNat_append, Bytes.toNat_ofNat, Bytes.toNat_zeros] at hdenotes
    convert hdenotes using 1
    simp [zeros]
  rw [zpow_negSucc, ← div_eq_mul_inv]
  split
  · next hle =>
      -- zeros are put between the point and the digits
      have htext : utf8 "0." = [0x30] ++ utf8 "." := by decide
      rw [htext, List.append_assoc ([0x30] ++ utf8 ".")]
      refine denotes_point isDigits_zero
        ⟨by simp [hne], List.forall_mem_append.mpr ⟨isDigit_of_mem_zeros, hdigits⟩⟩ ?_ ?_
      · rw [Bytes.toNat_append, Bytes.toNat_append, Bytes.toNat_ofNat, Bytes.toNat_zeros]
        simp [Bytes.toNat]
      · rw [List.length_append, zeros, List.length_replicate]
        omega
  · next hlt =>
      have hplaces := Nat.lt_of_not_le hlt
      refine denotes_point ⟨?_, fun b hb => hdigits b (List.mem_of_mem_take hb)⟩
        ⟨?_, fun b hb => hdigits b (List.mem_of_mem_drop hb)⟩ ?_ ?_
      · rw [ne_eq, List.take_eq_nil_iff, not_or]
        exact ⟨by omega, hne⟩
      · rw [ne_eq, List.drop_eq_nil_iff]
        omega
      · rw [List.take_append_drop, Bytes.toNat_ofNat]
      · rw [List.length_drop]
        omega

/-! ## Doubles from zero upwards -/

theorem eq_of_toBits {x y : Float} (h : x.toBits = y.toBits) : x = y := by
  obtain ⟨⟨word, hvalid⟩⟩ := x
  obtain ⟨⟨word', hvalid'⟩⟩ := y
  cases h
  rfl

theorem canonical_of_bits {bits : Nat} (h : bits < 0x7ff0000000000000) (hpos : 0 < bits) :
    ∃ m q, Canonical m q ∧ Canonical.bits m q = bits ∧ partsOfBits bits = .finite false m q := by
  have hfraction : bits % 2 ^ 52 < 2 ^ 52 := Nat.mod_lt _ (by decide)
  have hexponent : bits / 2 ^ 52 < 2047 := by omega
  have hparts : partsOfBits bits =
      if bits / 2 ^ 52 = 0 then .finite false (bits % 2 ^ 52) leastPower
      else .finite false (2 ^ 52 + bits % 2 ^ 52) ((bits / 2 ^ 52 : Nat) - 1075) := by
    have hsign : (bits / Nat.pow 2 63 % 2 == 1) = false := by
      rw [Nat.pow_eq, Nat.div_eq_of_lt (by omega)]
      rfl
    have hmod : bits / 2 ^ 52 % 2 ^ 11 = bits / 2 ^ 52 := Nat.mod_eq_of_lt (by omega)
    simp only [partsOfBits, hsign, Nat.pow_eq, hmod, if_neg hexponent.ne]
  rw [hparts]
  unfold Canonical.bits
  split
  · next hzero =>
      have hmantissa : bits % 2 ^ 52 = bits := Nat.mod_eq_of_lt (by omega)
      refine ⟨bits, leastPower, ⟨⟨by omega, by decide, by decide⟩, hpos, .inr rfl⟩, ?_, ?_⟩
      · rw [if_pos (by omega)]
      · rw [hmantissa]
  · next hzero =>
      refine ⟨_, _, ⟨⟨?_, ?_, ?_⟩, ?_, .inl ?_⟩, ?_, rfl⟩
      case refine_6 =>
        rw [if_neg (by omega)]
        omega
      all_goals omega

theorem whole?_value {m n : Nat} {q : Int} (h : whole? m q = some n) : (n : ℚ) = m * 2 ^ q := by
  obtain k | k := q
  · cases h
    simp
  · simp only [whole?, Nat.pow_eq] at h
    split at h
    · next hzero =>
        cases h
        rw [zpow_negSucc, ← div_eq_mul_inv, eq_div_iff (by positivity)]
        exact_mod_cast Nat.div_mul_cancel (Nat.dvd_of_mod_eq_zero hzero)
    · cases h

theorem texts_zero :
    display (Float.ofBits 0) = utf8 "0" ∧ literal (Float.ofBits 0) = utf8 "0.0" := by
  have hparts : parts (Float.ofBits 0) = .finite false 0 leastPower := by decide
  have hwhole (q : Int) : whole? 0 q = some 0 := by
    cases q <;> simp [whole?]
  refine ⟨by decide, ?_⟩
  simp only [literal, hparts, hwhole]
  decide

/-- Both texts of a number are numerals that are read as that number. -/
theorem texts_denote {x : Float} {text : Bytes} (h : x.toBits.toNat < 0x7ff0000000000000)
    (htext : text = display x ∨ text = literal x) :
    (∃ v, Denotes text v) ∧ Scan.literalOf .number text = .number x := by
  rcases Nat.eq_zero_or_pos x.toBits.toNat with hzero | hpos
  · obtain rfl : x = Float.ofBits 0 := by
      apply eq_of_toBits
      apply UInt64.toNat_inj.mp
      rw [hzero]
      rfl
    rw [texts_zero.1, texts_zero.2] at htext
    rcases htext with rfl | rfl
    · exact ⟨⟨_, .whole isDigits_zero⟩, rfl⟩
    · exact ⟨⟨_, denotes_whole 0⟩, rfl⟩
  · obtain ⟨m, q, hmq, hbits, hparts⟩ := canonical_of_bits h hpos
    obtain rfl := hmq.eq_toFloat hbits.symm
    suffices hdenotes : ∃ v, Denotes text v ∧ RoundsTo m q v by
      obtain ⟨v, hdenotes, hv⟩ := hdenotes
      exact ⟨⟨v, hdenotes⟩, hdenotes.literalOf_eq hmq hv⟩
    have hshortest : ∃ v, Denotes (shortest m q).plain v ∧ RoundsTo m q v :=
      ⟨_, denotes_plain _, shortest_roundsTo hmq⟩
    rcases htext with rfl | rfl
    · simp only [display, parts, hparts]
      exact hshortest
    · simp only [literal, parts, hparts]
      cases hwhole : whole? m q with
      | none => exact hshortest
      | some n =>
          refine ⟨n, denotes_whole n, ?_⟩
          rw [whole?_value hwhole]
          exact .exact

theorem toBits_ofBits {bits : UInt64} (h : bits.toNat < 0x7ff0000000000000) :
    (Float.ofBits bits).toBits = bits := by
  rcases Nat.eq_zero_or_pos bits.toNat with hzero | hpos
  · obtain rfl : bits = 0 := UInt64.toNat_inj.mp hzero
    rfl
  · obtain ⟨m, q, hmq, hbits, -⟩ := canonical_of_bits h hpos
    obtain rfl : bits = hmq.toFloat.toBits :=
      UInt64.toNat_inj.mp (hbits.symm.trans hmq.toBits_toFloat.symm)
    have hfloat : Float.ofBits hmq.toFloat.toBits = hmq.toFloat :=
      congrArg (fun x => Float.ofModel (.pack x)) hmq.unpack_toFloat
    rw [hfloat]

/--
A finite double without a sign, printed for display or as a literal, is a source of one number
token without problems, and the value of the token has the bits of the double.
-/
theorem printed_reads_back (bits : UInt64) (h : bits < 0x7ff0000000000000) (text : Bytes)
    (htext : text = display (Float.ofBits bits) ∨ text = literal (Float.ofBits bits)) :
    ∃ t x, scan text = ([t, Scan.endToken text], []) ∧ t.kind = .number ∧ t.lexeme = text ∧
      t.literal = .number x ∧ x.toBits = bits := by
  have hbits := toBits_ofBits (UInt64.lt_iff_toNat_lt.mp h)
  obtain ⟨⟨v, hdenotes⟩, hliteral⟩ := texts_denote (by rw [hbits]; exact h) htext
  obtain ⟨t, hscan, hkind, hlexeme, hvalue⟩ := hdenotes.scan_eq
  exact ⟨t, Float.ofBits bits, hscan, hkind, hlexeme, hvalue.trans hliteral, hbits⟩

/-- One tenth. -/
theorem printed_reads_back_tenth :
    (0x3fb999999999999a : UInt64) < 0x7ff0000000000000 ∧
      literal (Float.ofBits 0x3fb999999999999a) = utf8 "0.1" ∧
      ∃ t x, scan (utf8 "0.1") = ([t, Scan.endToken (utf8 "0.1")], []) ∧ t.kind = .number ∧
        t.lexeme = utf8 "0.1" ∧ t.literal = .number x ∧ x.toBits = 0x3fb999999999999a := by
  have htext : literal (Float.ofBits 0x3fb999999999999a) = utf8 "0.1" := by decide +kernel
  exact ⟨by decide, htext, printed_reads_back _ (by decide) _ (.inr htext.symm)⟩

end Number

end Lox
