import Lox.Proofs.Number.Rounding

/-!
The shortest digits of a double round to it.

A point of a decimal grid is taken only where it stands in the interval around the double, and
seventeen digits are enough for one: the points are then nearer to each other than the doubles
are.  Zeros moved from the digits to the exponent change nothing.
-/

namespace Lox.Number

namespace Decimal

def value (d : Decimal) : ℚ := d.coefficient * 10 ^ d.exponent

theorem value_go (fuel : Nat) (d : Decimal) : (trim.go fuel d).value = d.value := by
  induction fuel generalizing d with
  | zero => rfl
  | succ fuel ih =>
      rw [trim.go]
      split
      · next h =>
          have hten : (d.coefficient : ℚ) = (d.coefficient / 10 : Nat) * 10 := by
            exact_mod_cast (Nat.div_mul_cancel (Nat.dvd_of_mod_eq_zero h.2)).symm
          rw [ih]
          unfold value
          rw [hten, zpow_add_one₀ (by norm_num)]
          ring
      · rfl

theorem value_trim (d : Decimal) : d.trim.value = d.value := value_go _ d

end Decimal

theorem zpow_powerOfTen (exponent : Int) :
    (10 : ℚ) ^ exponent * (powerOfTen exponent).2 = (powerOfTen exponent).1 := by
  obtain n | n := exponent
  · simp [powerOfTen]
  · have hpos : (0 : ℚ) < 10 ^ (n + 1) := by positivity
    rw [zpow_negSucc]
    simp only [powerOfTen, Nat.pow_eq]
    push_cast
    exact inv_mul_cancel₀ hpos.ne'

theorem powerOfTen_pos (exponent : Int) :
    0 < (powerOfTen exponent).1 ∧ 0 < (powerOfTen exponent).2 := by
  obtain n | n := exponent <;> simp [powerOfTen]

namespace Interval

/-! ## The interval around a double -/

/-- The whole numbers of the interval stand for the double and for the ends around it. -/
structure Frames (i : Interval) (m : Nat) (q : Int) : Prop where
  denominator : 0 < i.denominator
  low : (i.low : ℚ) = (m - reach m q) * 2 ^ q * i.denominator
  value : (i.value : ℚ) = m * 2 ^ q * i.denominator
  high : (i.high : ℚ) = (m + 1 / 2) * 2 ^ q * i.denominator
  closed : i.closed = true ↔ m % 2 = 0

theorem frames_of_scale {m below scale denominator : Nat} {q : Int} (hm : 0 < m)
    (hbelow : below = if m = 2 ^ 52 ∧ -1074 < q then 1 else 2) (hdenominator : 0 < denominator)
    (hscale : (scale : ℚ) = 2 ^ q / 4 * denominator) :
    Frames ⟨(4 * m - below) * scale, 4 * m * scale, (4 * m + 2) * scale, denominator,
      m % 2 == 0⟩ m q := by
  have hreach : (below : ℚ) = 4 * reach m q := by
    rw [hbelow, reach]
    split <;> norm_num
  have hle : below ≤ 4 * m := by
    rw [hbelow]
    split <;> omega
  constructor
  case denominator => exact hdenominator
  case closed => simp
  all_goals
    push_cast [Nat.cast_sub hle]
    rw [hscale]
  case low =>
    rw [hreach]
    ring
  case value => ring
  case high => ring

theorem around_frames {m : Nat} (q : Int) (hm : 0 < m) : (around m q).Frames m q := by
  have hquarter : (2 : ℚ) ^ (q - 2) = 2 ^ q / 4 := by
    rw [zpow_sub₀ (by norm_num)]
    norm_num
  have hbelow : (if m = Nat.pow 2 52 ∧ leastPower < q then 1 else 2) =
      if m = 2 ^ 52 ∧ -1074 < q then 1 else 2 := rfl
  unfold around
  dsimp only
  rcases hn : q - 2 with n | n
  · apply frames_of_scale hm hbelow Nat.one_pos
    rw [← hquarter, hn]
    simp
  · apply frames_of_scale hm hbelow (Nat.two_pow_pos _)
    have hpos : (0 : ℚ) < 2 ^ (n + 1) := by positivity
    rw [← hquarter, hn, zpow_negSucc]
    push_cast
    exact (inv_mul_cancel₀ hpos.ne').symm

namespace Frames

variable {i : Interval} {m : Nat} {q : Int}

theorem denominator_pos (h : i.Frames m q) : (0 : ℚ) < i.denominator := by
  exact_mod_cast h.denominator

theorem roundsTo (h : i.Frames m q) {point unit : Nat} (hunit : 0 < unit)
    (hholds : i.holds point unit = true) : RoundsTo m q (point / (unit * i.denominator)) := by
  have hdenominator := h.denominator_pos
  have hunit' : (0 : ℚ) < unit := by exact_mod_cast hunit
  have hpos := mul_pos hunit' hdenominator
  have hlow : (i.low : ℚ) * unit = (m - reach m q) * 2 ^ q * (unit * i.denominator) := by
    rw [h.low]
    ring
  have hhigh : (i.high : ℚ) * unit = (m + 1 / 2) * 2 ^ q * (unit * i.denominator) := by
    rw [h.high]
    ring
  unfold holds at hholds
  dsimp only at hholds
  split at hholds
  · next hclosed =>
      simp only [Bool.and_eq_true, decide_eq_true_eq] at hholds
      have hle : (i.low : ℚ) * unit ≤ point := by exact_mod_cast hholds.1
      have hge : (point : ℚ) ≤ i.high * unit := by exact_mod_cast hholds.2
      rw [hlow] at hle
      rw [hhigh] at hge
      exact ⟨(le_div_iff₀ hpos).mpr hle, (div_le_iff₀ hpos).mpr hge, fun _ => h.closed.mp hclosed⟩
  · simp only [Bool.and_eq_true, decide_eq_true_eq] at hholds
    have hlt : (i.low : ℚ) * unit < point := by exact_mod_cast hholds.1
    have hgt : (point : ℚ) < i.high * unit := by exact_mod_cast hholds.2
    rw [hlow, ← lt_div_iff₀ hpos] at hlt
    rw [hhigh, ← div_lt_iff₀ hpos] at hgt
    refine ⟨hlt.le, hgt.le, ?_⟩
    rintro (heq | heq)
    · exact absurd heq.symm hlt.ne
    · exact absurd heq hgt.ne

theorem holds_of_lt (h : i.Frames m q) {point unit : Nat} (hunit : 0 < unit)
    (hlow : (m - reach m q) * 2 ^ q < (point : ℚ) / (unit * i.denominator))
    (hhigh : (point : ℚ) / (unit * i.denominator) < (m + 1 / 2) * 2 ^ q) :
    i.holds point unit = true := by
  have hdenominator := h.denominator_pos
  have hunit' : (0 : ℚ) < unit := by exact_mod_cast hunit
  have hpos := mul_pos hunit' hdenominator
  rw [lt_div_iff₀ hpos] at hlow
  rw [div_lt_iff₀ hpos] at hhigh
  have hlt : i.low * unit < point := by
    have hcast : (i.low : ℚ) * unit < point := by
      rw [h.low]
      linarith
    exact_mod_cast hcast
  have hgt : point < i.high * unit := by
    have hcast : (point : ℚ) < i.high * unit := by
      rw [h.high]
      linarith
    exact_mod_cast hcast
  unfold holds
  simp [hlt, hgt, hlt.le, hgt.le]

/-! ## Grids -/

theorem point_eq (h : i.Frames m q) (exponent : Int) (c : Nat) :
    ((c * ((powerOfTen exponent).1 * i.denominator) : Nat) : ℚ) /
      ((powerOfTen exponent).2 * i.denominator) = c * 10 ^ exponent := by
  have hdenominator := h.denominator_pos
  have hbottom : (0 : ℚ) < (powerOfTen exponent).2 := by
    exact_mod_cast (powerOfTen_pos exponent).2
  push_cast
  rw [← zpow_powerOfTen]
  field_simp

theorem onGrid?_roundsTo (h : i.Frames m q) {exponent : Int} {d : Decimal}
    (hd : i.onGrid? exponent = some d) : RoundsTo m q d.value := by
  have inside {c : Nat} (hholds : i.holds (c * ((powerOfTen exponent).1 * i.denominator))
      (powerOfTen exponent).2 = true) : RoundsTo m q (Decimal.value ⟨c, exponent⟩) := by
    have hpoint := h.roundsTo (powerOfTen_pos exponent).2 hholds
    rwa [h.point_eq] at hpoint
  unfold onGrid? at hd
  dsimp only at hd
  split at hd
  · next hboth =>
      rw [Bool.and_eq_true] at hboth
      split at hd <;> cases hd
      · exact inside hboth.1
      · exact inside hboth.2
  split at hd
  · next hdown =>
      cases hd
      exact inside hdown
  split at hd
  · next hup =>
      cases hd
      exact inside hup
  · cases hd

theorem holds_point (h : i.Frames m q) {exponent : Int} {c : Nat}
    (hlow : (m - reach m q) * 2 ^ q < (c : ℚ) * 10 ^ exponent)
    (hhigh : (c : ℚ) * 10 ^ exponent < (m + 1 / 2) * 2 ^ q) :
    i.holds (c * ((powerOfTen exponent).1 * i.denominator)) (powerOfTen exponent).2 = true := by
  apply h.holds_of_lt (powerOfTen_pos exponent).2
  · rwa [h.point_eq]
  · rwa [h.point_eq]

theorem down_bounds (h : i.Frames m q) (exponent : Int) :
    let down := i.value * (powerOfTen exponent).2 / ((powerOfTen exponent).1 * i.denominator)
    (down : ℚ) * 10 ^ exponent ≤ m * 2 ^ q ∧
      m * 2 ^ q < (down + 1 : Nat) * (10 : ℚ) ^ exponent := by
  intro down
  have hdenominator := h.denominator_pos
  have hbottom : (0 : ℚ) < (powerOfTen exponent).2 := by
    exact_mod_cast (powerOfTen_pos exponent).2
  have hpos := mul_pos hbottom hdenominator
  have hunit : 0 < (powerOfTen exponent).1 * i.denominator :=
    Nat.mul_pos (powerOfTen_pos exponent).1 h.denominator
  have hvalue : (m : ℚ) * 2 ^ q =
      (i.value * (powerOfTen exponent).2 : Nat) / ((powerOfTen exponent).2 * i.denominator) := by
    push_cast
    rw [h.value]
    field_simp
  rw [← h.point_eq exponent down, ← h.point_eq exponent (down + 1), hvalue]
  constructor
  · rw [div_le_div_iff_of_pos_right hpos]
    exact_mod_cast Nat.div_mul_le_self _ _
  · rw [div_lt_div_iff_of_pos_right hpos]
    exact_mod_cast Nat.lt_mul_of_div_lt (Nat.lt_succ_self _) hunit

/-- Of a grid as fine as this one of the two points next to the double is inside. -/
theorem exists_point (hm : m < 2 ^ 53) {down step : ℚ}
    (hfine : step * 10 ^ 16 ≤ m * 2 ^ q) (hdown : down ≤ m * 2 ^ q)
    (hup : m * 2 ^ q < down + step) :
    (m - reach m q) * 2 ^ q < down ∨ down + step < (m + 1 / 2) * 2 ^ q := by
  have hpos := zpow_two_pos q
  by_cases hpower : m ≤ 2 ^ 52
  · right
    have hle : (m : ℚ) ≤ 2 ^ 52 := by exact_mod_cast hpower
    have hstep := hfine.trans (mul_le_mul_of_nonneg_right hle hpos.le)
    linarith
  · have hreach : reach m q = 1 / 2 := by
      rw [reach, if_neg]
      omega
    have hle : (m : ℚ) ≤ 2 ^ 53 := by exact_mod_cast hm.le
    have hstep := hfine.trans (mul_le_mul_of_nonneg_right hle hpos.le)
    rw [hreach]
    -- the two points are nearer to each other than the ends of the interval
    rcases lt_or_ge ((m - 1 / 2 : ℚ) * 2 ^ q) down with hlow | hlow
    · exact .inl hlow
    · right
      linarith

theorem isSome_onGrid? (h : i.Frames m q) (hm : m < 2 ^ 53) {exponent : Int}
    (hfine : (10 : ℚ) ^ exponent * 10 ^ 16 ≤ m * 2 ^ q) : (i.onGrid? exponent).isSome := by
  have hpos := zpow_two_pos q
  obtain ⟨hdown, hup⟩ := h.down_bounds exponent
  unfold onGrid?
  dsimp only
  generalize i.value * (powerOfTen exponent).2 / ((powerOfTen exponent).1 * i.denominator) = down
    at hdown hup ⊢
  have hnext : ((down + 1 : Nat) : ℚ) * 10 ^ exponent =
      down * 10 ^ exponent + 10 ^ exponent := by
    push_cast
    ring
  rw [hnext] at hup
  have hlow : (m - reach m q) * (2 : ℚ) ^ q < m * 2 ^ q :=
    mul_lt_mul_of_pos_right (by linarith [RoundsTo.reach_pos (m := m) (q := q)]) hpos
  have hhigh : (m : ℚ) * 2 ^ q < (m + 1 / 2) * 2 ^ q :=
    mul_lt_mul_of_pos_right (by linarith) hpos
  have hinside : i.holds (down * ((powerOfTen exponent).1 * i.denominator))
        (powerOfTen exponent).2 = true ∨
      i.holds ((down + 1) * ((powerOfTen exponent).1 * i.denominator))
        (powerOfTen exponent).2 = true := by
    rcases exists_point hm hfine hdown hup with hinside | hinside
    · exact .inl (h.holds_point hinside (lt_of_le_of_lt hdown hhigh))
    · refine .inr (h.holds_point ?_ ?_)
      · rw [hnext]
        exact hlow.trans hup
      · rwa [hnext]
  split
  · split <;> rfl
  split
  · rfl
  split
  · rfl
  · next hdown' hup' => exact absurd hinside (not_or.mpr ⟨hdown', hup'⟩)

end Frames

/-! ## Seventeen digits -/

theorem lt_digitCount (n : Nat) : n < 10 ^ digitCount n :=
  (Nat.length_toDigits_le_iff (by decide) Nat.length_toDigits_pos).mp (Nat.le_refl _)

theorem digitCount_le_of_pos {n : Nat} (h : 0 < n) : 10 ^ (digitCount n - 1) ≤ n := by
  rcases Nat.eq_zero_or_pos (digitCount n - 1) with hone | hone
  · rw [hone]
    exact h
  · by_contra hlt
    have hle : digitCount n ≤ digitCount n - 1 :=
      (Nat.length_toDigits_le_iff (by decide) hone).mpr (Nat.lt_of_not_le hlt)
    omega

theorem digitCount_pos (n : Nat) : 0 < digitCount n := Nat.length_toDigits_pos

theorem Frames.magnitude_le {i : Interval} {m : Nat} {q : Int} (h : i.Frames m q) (hm : 0 < m) :
    (10 : ℚ) ^ (i.magnitude - 1) ≤ m * 2 ^ q := by
  have hdenominator := h.denominator_pos
  have hq := zpow_two_pos q
  have hvalue : 0 < i.value := by
    have hcast : 0 < (i.value : ℚ) := by
      rw [h.value]
      positivity
    exact_mod_cast hcast
  rw [eq_div_of_mul_eq hdenominator.ne' h.value.symm, le_div_iff₀ hdenominator]
  unfold magnitude
  split
  · next hle =>
      have hcount := digitCount_pos (i.value / i.denominator)
      have hexponent : (digitCount (i.value / i.denominator) : Int) - 1 =
          ((digitCount (i.value / i.denominator) - 1 : Nat) : Int) := by omega
      have hpow := Nat.mul_le_of_le_div _ _ _
        (digitCount_le_of_pos (Nat.div_pos hle h.denominator))
      rw [hexponent, zpow_natCast]
      exact_mod_cast hpow
  · next hlt =>
      have hpow := Nat.lt_mul_of_div_lt (lt_digitCount ((i.denominator - 1) / i.value)) hvalue
      have hle : i.denominator ≤ 10 ^ digitCount ((i.denominator - 1) / i.value) * i.value := by
        omega
      rw [show (1 : Int) - digitCount ((i.denominator - 1) / i.value) - 1 =
        -(digitCount ((i.denominator - 1) / i.value) : Int) by omega, zpow_neg, zpow_natCast,
        inv_mul_le_iff₀ (by positivity)]
      exact_mod_cast hle

theorem firstOnGrid_spec {i : Interval} {magnitude : Int} (tries digits : Nat)
    (h : (i.onGrid? (magnitude - (digits + tries : Nat))).isSome) :
    ∃ exponent, i.onGrid? exponent = some (i.firstOnGrid magnitude (tries + 1) digits) := by
  induction tries generalizing digits with
  | zero =>
      obtain ⟨d, hd⟩ := Option.isSome_iff_exists.mp h
      rw [Nat.add_zero] at hd
      refine ⟨magnitude - digits, ?_⟩
      rw [firstOnGrid, hd]
  | succ tries ih =>
      rw [firstOnGrid]
      cases hgrid : i.onGrid? (magnitude - digits) with
      | some d => exact ⟨_, hgrid⟩
      | none =>
          apply ih (digits + 1)
          rwa [Nat.add_right_comm, Nat.add_assoc]

end Interval

/-- The shortest digits of a double stand in the interval around it. -/
theorem shortest_roundsTo {m : Nat} {q : Int} (h : Canonical m q) :
    RoundsTo m q (shortest m q).value := by
  have hframes := Interval.around_frames q h.pos
  have hfine : (10 : ℚ) ^ ((Interval.around m q).magnitude - (1 + 16 : Nat)) * 10 ^ 16 ≤
      m * 2 ^ q := by
    calc (10 : ℚ) ^ ((Interval.around m q).magnitude - (1 + 16 : Nat)) * 10 ^ 16
        = 10 ^ ((Interval.around m q).magnitude - 1) := by
          rw [← zpow_natCast, ← zpow_add₀ (by norm_num)]
          congr 1
          push_cast
          ring
      _ ≤ m * 2 ^ q := hframes.magnitude_le h.pos
  obtain ⟨exponent, hfound⟩ :=
    Interval.firstOnGrid_spec 16 1 (hframes.isSome_onGrid? h.mantissa hfine)
  rw [shortest, if_neg h.pos.ne', Decimal.value_trim]
  exact hframes.onGrid?_roundsTo hfound

end Lox.Number
