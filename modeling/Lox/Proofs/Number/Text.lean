import Lox.Number.Layout
import Lox.Proofs.Text.Utf8
import Mathlib.Data.Nat.Digits.Lemmas

/-!
What number texts are made of.

A double has a mantissa below `2 ^ 53` and a power between `-1074` and `971`.  Hence its
digits, and the zeros put around them, are limited in number, whichever grid the shortest
digits are found on.  All bytes of a number text are characters of their own.
-/

namespace Lox

namespace Bytes

theorem ascii_ofNat (n : Nat) : Utf8.Ascii (ofNat n) := by
  intro x hx
  obtain ⟨c, hc, rfl⟩ := List.mem_map.mp hx
  have hdigit := Nat.isDigit_of_mem_toDigits (by decide) (by decide) hc
  simp only [Char.isDigit, ge_iff_le, Bool.and_eq_true, decide_eq_true_eq] at hdigit
  have hle : c.val.toNat ≤ 57 := UInt32.le_iff_toNat_le.mp hdigit.2
  rw [UInt8.lt_iff_toNat_lt, UInt32.toNat_toUInt8]
  have hmod : c.val.toNat % 256 = c.val.toNat := Nat.mod_eq_of_lt (by omega)
  rw [hmod]
  exact Nat.lt_of_le_of_lt hle (by decide)

theorem length_ofNat_le {n k : Nat} (h : n < 10 ^ k) (hk : 0 < k) : (ofNat n).length ≤ k := by
  rw [ofNat, List.length_map]
  exact (Nat.length_toDigits_le_iff (by decide) hk).mpr h

end Bytes

namespace Number

open Utf8 (Ascii)

/-! ## The parts of a double -/

structure Bounded (m : Nat) (q : Int) : Prop where
  mantissa : m < 2 ^ 53
  least : -1074 ≤ q
  greatest : q ≤ 971

theorem bounded_of_parts {x : Float} {negative : Bool} {m : Nat} {q : Int}
    (h : parts x = .finite negative m q) : Bounded m q := by
  unfold parts partsOfBits at h
  generalize x.toBits.toNat = bits at h
  have hfraction : bits % Nat.pow 2 52 < 2 ^ 52 := Nat.mod_lt _ (by decide)
  have hexponent : bits / Nat.pow 2 52 % Nat.pow 2 11 < 2048 := Nat.mod_lt _ (by decide)
  dsimp only at h
  split at h
  · split at h <;> cases h
  split at h
  · cases h
    exact ⟨by omega, by decide, by decide⟩
  · cases h
    have hpow : Nat.pow 2 52 = 2 ^ 52 := rfl
    exact ⟨by omega, by omega, by omega⟩

/-! ## The length of decimals -/

theorem lt_ten_pow {n k : Nat} (h : n < 2 ^ k) : n < 10 ^ k :=
  Nat.lt_of_lt_of_le h (Nat.pow_le_pow_left (by decide) k)

theorem mul_two_pow_lt {m n a b : Nat} (hm : m < 2 ^ a) (hn : n ≤ b) :
    m * 2 ^ n < 2 ^ (a + b) :=
  calc m * 2 ^ n < 2 ^ a * 2 ^ n := Nat.mul_lt_mul_of_pos_right hm (Nat.two_pow_pos n)
    _ ≤ 2 ^ a * 2 ^ b := Nat.mul_le_mul_left _ (Nat.pow_le_pow_right (by decide) hn)
    _ = 2 ^ (a + b) := (Nat.pow_add 2 a b).symm

theorem whole?_lt {m n : Nat} {q : Int} (h : Bounded m q) (hn : whole? m q = some n) :
    n < 2 ^ (53 + 971) := by
  have hgreatest := h.greatest
  unfold whole? at hn
  split at hn
  · next k =>
      cases hn
      exact mul_two_pow_lt h.mantissa (by simp only [Int.ofNat_eq_natCast] at hgreatest; omega)
  · dsimp only at hn
    split at hn
    · cases hn
      have hm := mul_two_pow_lt h.mantissa (Nat.zero_le 971)
      rw [Nat.pow_zero, Nat.mul_one] at hm
      exact Nat.lt_of_le_of_lt (Nat.div_le_self m _) hm
    · cases hn

structure Decimal.Moderate (k : Nat) (d : Decimal) : Prop where
  coefficient : d.coefficient < 10 ^ k
  exponent : d.exponent.natAbs ≤ k

theorem Decimal.Moderate.mono {k k' : Nat} {d : Decimal} (h : d.Moderate k) (hk : k ≤ k') :
    d.Moderate k' :=
  ⟨Nat.lt_of_lt_of_le h.coefficient (Nat.pow_le_pow_right (by decide) hk),
    Nat.le_trans h.exponent hk⟩

namespace Interval

theorem around_bounds {m : Nat} {q : Int} (h : Bounded m q) :
    (around m q).value < 10 ^ (55 + 1076) ∧ (around m q).denominator < 10 ^ (55 + 1076) := by
  obtain ⟨hmantissa, hleast, hgreatest⟩ := h
  have hquarters : 4 * m < 2 ^ 55 := by omega
  have hpower (n : Nat) (hn : n ≤ 1076) : 2 ^ n < 10 ^ (55 + 1076) := by
    have hone : 1 * 2 ^ n < 2 ^ (55 + 1076) := mul_two_pow_lt (by decide) hn
    rw [Nat.one_mul] at hone
    exact lt_ten_pow hone
  unfold around
  dsimp only
  split
  · next n hn =>
      simp only [Int.ofNat_eq_natCast] at hn
      exact ⟨lt_ten_pow (mul_two_pow_lt hquarters (by omega)), hpower 0 (by decide)⟩
  · next n hn =>
      exact ⟨lt_ten_pow (mul_two_pow_lt (n := 0) hquarters (by decide)),
        hpower (n + 1) (by omega)⟩

theorem digitCount_le {n k : Nat} (h : n < 10 ^ k) (hk : 0 < k) : digitCount n ≤ k :=
  (Nat.length_toDigits_le_iff (by decide) hk).mpr h

theorem natAbs_magnitude_le {i : Interval} {k : Nat} (hvalue : i.value < 10 ^ k)
    (hdenominator : i.denominator < 10 ^ k) (hk : 0 < k) : i.magnitude.natAbs ≤ k := by
  unfold magnitude
  split
  · have hcount := digitCount_le
      (Nat.lt_of_le_of_lt (Nat.div_le_self i.value i.denominator) hvalue) hk
    omega
  · have hbelow : (i.denominator - 1) / i.value < 10 ^ k :=
      Nat.lt_of_le_of_lt (Nat.div_le_self _ _) (by omega)
    have hcount := digitCount_le hbelow hk
    omega

theorem onGrid?_moderate {i : Interval} {k e : Nat} {exponent : Int} {d : Decimal}
    (hvalue : i.value < 10 ^ k) (he : exponent.natAbs ≤ e) (h : i.onGrid? exponent = some d) :
    d.Moderate (k + e + 1) := by
  have hbottom : (powerOfTen exponent).2 ≤ 10 ^ e := by
    unfold powerOfTen
    split
    · exact Nat.one_le_pow _ _ (by decide)
    · exact Nat.pow_le_pow_right (by decide) (by omega)
  have hdown (unit : Nat) : i.value * (powerOfTen exponent).2 / unit + 1 < 10 ^ (k + e + 1) := by
    have hproduct : i.value * (powerOfTen exponent).2 / unit < 10 ^ (k + e) :=
      calc i.value * (powerOfTen exponent).2 / unit
          ≤ i.value * (powerOfTen exponent).2 := Nat.div_le_self _ _
        _ ≤ i.value * 10 ^ e := Nat.mul_le_mul_left _ hbottom
        _ < 10 ^ k * 10 ^ e := Nat.mul_lt_mul_of_pos_right hvalue (by positivity)
        _ = 10 ^ (k + e) := (Nat.pow_add _ _ _).symm
    exact Nat.lt_of_le_of_lt hproduct (Nat.pow_lt_pow_right (by decide) (Nat.lt_succ_self _))
  have hmoderate (unit c : Nat) (hc : c ≤ i.value * (powerOfTen exponent).2 / unit + 1) :
      (Decimal.mk c exponent).Moderate (k + e + 1) :=
    ⟨Nat.lt_of_le_of_lt hc (hdown unit), by dsimp only; omega⟩
  unfold onGrid? at h
  dsimp only at h
  split at h
  · split at h <;> cases h
    · exact hmoderate _ _ (Nat.le_succ _)
    · exact hmoderate _ _ (Nat.le_refl _)
  split at h
  · cases h
    exact hmoderate _ _ (Nat.le_succ _)
  split at h
  · cases h
    exact hmoderate _ _ (Nat.le_refl _)
  · cases h

theorem firstOnGrid_moderate {i : Interval} {k e : Nat} {magnitude : Int}
    (hvalue : i.value < 10 ^ k) (tries digits : Nat)
    (he : magnitude.natAbs + (digits + tries) ≤ e) :
    (i.firstOnGrid magnitude tries digits).Moderate (k + e + 1) := by
  induction tries generalizing digits with
  | zero => exact ⟨by simp [firstOnGrid], by simp [firstOnGrid]⟩
  | succ tries ih =>
      rw [firstOnGrid]
      cases hgrid : i.onGrid? (magnitude - digits) with
      | some d => exact onGrid?_moderate hvalue (by omega) hgrid
      | none => exact ih (digits + 1) (by omega)

end Interval

namespace Decimal

theorem go_moderate {k : Nat} (fuel : Nat) {d : Decimal} (h : d.Moderate k) :
    (trim.go fuel d).Moderate (k + fuel) := by
  induction fuel generalizing d k with
  | zero => exact h
  | succ fuel ih =>
      rw [trim.go]
      split
      · have hstep : Moderate (k + 1) ⟨d.coefficient / 10, d.exponent + 1⟩ := by
          constructor
          · exact Nat.lt_of_le_of_lt (Nat.div_le_self _ _) (h.mono (Nat.le_succ k)).coefficient
          · have hexponent := h.exponent
            dsimp only
            omega
        rw [Nat.add_comm fuel, ← Nat.add_assoc]
        exact ih hstep
      · exact h.mono (Nat.le_add_right _ _)

theorem trim_moderate {k : Nat} (hk : 0 < k) {d : Decimal} (h : d.Moderate k) :
    d.trim.Moderate (2 * k) := by
  have hfuel := Interval.digitCount_le h.coefficient hk
  exact (go_moderate _ h).mono (by omega)

theorem length_plain_le {k : Nat} (hk : 0 < k) {d : Decimal} (h : d.Moderate k) :
    d.plain.length ≤ 2 * k + 2 := by
  have hdigits := Bytes.length_ofNat_le h.coefficient hk
  have hexponent := h.exponent
  unfold plain
  dsimp only
  split
  · next n hn =>
      rw [hn, Int.natAbs_ofNat'] at hexponent
      simp only [List.length_append, zeros, List.length_replicate]
      omega
  · next n hn =>
      rw [hn, Int.natAbs_negSucc] at hexponent
      split
      · simp only [List.length_append, zeros, List.length_replicate]
        change 2 + _ + _ ≤ _
        omega
      · simp only [List.length_append, List.length_take, List.length_drop]
        change _ + 1 + _ ≤ _
        omega

theorem ascii_plain (d : Decimal) : Ascii d.plain := by
  have hdigits := Bytes.ascii_ofNat d.coefficient
  have hzeros (n : Nat) : Ascii (zeros n) := by
    intro x hx
    obtain rfl := List.eq_of_mem_replicate hx
    decide
  unfold plain
  dsimp only
  split
  · exact hdigits.append (hzeros _)
  · split
    · exact (Ascii.append (by decide) (hzeros _)).append hdigits
    · exact (Ascii.append (fun x hx => hdigits x (List.mem_of_mem_take hx))
        (by decide)).append fun x hx => hdigits x (List.mem_of_mem_drop hx)

end Decimal

theorem shortest_moderate {m : Nat} {q : Int} (h : Bounded m q) : (shortest m q).Moderate 6000 := by
  unfold shortest
  split
  · exact ⟨by positivity, by decide⟩
  · obtain ⟨hvalue, hdenominator⟩ := Interval.around_bounds h
    have hmagnitude := Interval.natAbs_magnitude_le hvalue hdenominator (by decide)
    have hgrid : (Interval.around m q).magnitude.natAbs + (1 + 17) ≤ 1200 :=
      Nat.le_trans (Nat.add_le_add_right hmagnitude _) (by decide)
    have hfound := Interval.firstOnGrid_moderate hvalue 17 1 hgrid
    exact (Decimal.trim_moderate (by decide) hfound).mono (by decide)

/-! ## The literal form -/

theorem ascii_signed (negative : Bool) {s : Bytes} (h : Ascii s) : Ascii (signed negative s) := by
  unfold signed
  split
  · exact Ascii.append (s := [0x2d]) (by decide) h
  · exact h

theorem ascii_literal (x : Float) : Ascii (literal x) := by
  unfold literal
  split
  · decide
  · split <;> decide
  · split
    · exact ascii_signed _ ((Bytes.ascii_ofNat _).append (by decide))
    · exact ascii_signed _ (Decimal.ascii_plain _)

theorem length_signed_le (negative : Bool) (s : Bytes) :
    (signed negative s).length ≤ s.length + 1 := by
  unfold signed
  split <;> simp

theorem length_literal_le (x : Float) : (literal x).length ≤ 20000 := by
  unfold literal
  split
  · decide
  · split <;> decide
  · next negative m q hparts =>
      have hbounded := bounded_of_parts hparts
      split
      · next n hn =>
          have hdigits := Bytes.length_ofNat_le (lt_ten_pow (whole?_lt hbounded hn)) (by decide)
          have hsigned := length_signed_le negative (Bytes.ofNat n ++ utf8 ".0")
          have hpoint : (utf8 ".0").length = 2 := by decide
          rw [List.length_append] at hsigned
          omega
      · have hplain := Decimal.length_plain_le (by decide) (shortest_moderate hbounded)
        have hsigned := length_signed_le negative (shortest m q).plain
        omega

end Number

end Lox
