import Lox.Proofs.Number.Text
import Mathlib.Algebra.Order.Field.Power
import Mathlib.Tactic.FieldSimp
import Mathlib.Tactic.Linarith
import Mathlib.Tactic.NormNum
import Mathlib.Tactic.Positivity
import Mathlib.Tactic.Ring

/-!
Rounding to a double.

A number is cut off at some binary place, with two bits that tell where it stands in the last
place.  Cutting further keeps this, and from it the nearest mantissa is found.  So every number
in the interval around a double rounds to that double, in whichever way it was given: as a whole
number, a product or a quotient.
-/

namespace Lox.Number

open Float.Model
open Float.Model.UnpackedFloat

/-! ## Numbers that were cut off -/

/-- Where a number stands that was cut off to a mantissa. -/
def Describes : ExtendedMantissa → ℚ → Prop
  | ⟨m, false, false⟩, x => x = m
  | ⟨m, false, true⟩, x => m < x ∧ x < m + 1 / 2
  | ⟨m, true, false⟩, x => x = m + 1 / 2
  | ⟨m, true, true⟩, x => m + 1 / 2 < x ∧ x < m + 1

namespace Describes

variable {em : ExtendedMantissa} {m : Nat} {accuracy : Accuracy} {x : ℚ}

theorem bounds (h : Describes em x) : em.mantissa ≤ x ∧ x < em.mantissa + 1 := by
  obtain ⟨m, _ | _, _ | _⟩ := em <;> simp only [Describes] at h ⊢ <;>
    constructor <;> linarith

theorem shiftRightOne (h : Describes em x) : Describes em.shiftRightOne (x / 2) := by
  obtain ⟨m, round, sticky⟩ := em
  have hm : (m : ℚ) = 2 * (m / 2 : Nat) + (m % 2 : Nat) := by
    exact_mod_cast (Nat.div_add_mod m 2).symm
  unfold ExtendedMantissa.shiftRightOne
  rcases Nat.mod_two_eq_zero_or_one m with hparity | hparity <;> rw [hparity] at hm ⊢ <;>
    cases round <;> cases sticky <;> simp [Describes] at h hm ⊢ <;>
    first | linarith | (constructor <;> linarith)

theorem shiftRight (h : Describes em x) (n : Nat) : Describes (em >>> n) (x / 2 ^ n) := by
  change Describes (n.repeat ExtendedMantissa.shiftRightOne em) (x / 2 ^ n)
  induction n with
  | zero => simpa [Nat.repeat] using h
  | succ n ih =>
      rw [pow_succ, ← div_div]
      exact ih.shiftRightOne

end Describes

/-- The whole number nearest to another one, and the even one of two. -/
structure Nearest (n : Nat) (x : ℚ) : Prop where
  low : n - 1 / 2 ≤ x
  high : x ≤ n + 1 / 2
  even : x = n - 1 / 2 ∨ x = n + 1 / 2 → n % 2 = 0

theorem Nearest.le {n k : Nat} {x : ℚ} (hn : Nearest n x) (hk : Nearest k x) : n ≤ k := by
  by_contra hlt
  have hcast : (k : ℚ) + 1 ≤ n := by exact_mod_cast Nat.lt_of_not_le hlt
  have hlow := hn.low
  have hhigh := hk.high
  -- two neighbours at the same distance cannot both be even
  have heven := hn.even (.inl (by linarith))
  have heven' := hk.even (.inr (by linarith))
  have hnext : (n : ℚ) = (k + 1 : Nat) := by
    push_cast
    linarith
  have hnext : n = k + 1 := by exact_mod_cast hnext
  omega

theorem Nearest.eq {n k : Nat} {x : ℚ} (hn : Nearest n x) (hk : Nearest k x) : n = k :=
  Nat.le_antisymm (hn.le hk) (hk.le hn)

theorem Nearest.inside {n : Nat} {x : ℚ} (hlow : n - 1 / 2 < x) (hhigh : x < n + 1 / 2) :
    Nearest n x := by
  refine ⟨hlow.le, hhigh.le, ?_⟩
  rintro (h | h) <;> linarith

theorem Describes.nearest {em : ExtendedMantissa} {x : ℚ} (h : Describes em x) :
    Nearest em.roundedMantissa x := by
  obtain ⟨m, _ | _, _ | _⟩ := em <;>
    simp only [Describes, ExtendedMantissa.roundedMantissa, ExtendedMantissa.accuracy,
      Accuracy.roundToNearestEven] at h ⊢
  case false.false => exact .inside (by linarith) (by linarith)
  case false.true => exact .inside (by linarith) (by linarith)
  case true.false =>
    have hle : ((m % 2 : Nat) : ℚ) ≤ 1 := by exact_mod_cast (show m % 2 ≤ 1 by omega)
    have hpos : (0 : ℚ) ≤ (m % 2 : Nat) := Nat.cast_nonneg _
    refine ⟨?_, ?_, fun _ => by omega⟩ <;> push_cast <;> linarith
  case true.true => exact .inside (by push_cast; linarith) (by push_cast; linarith)

/-! ## The place of the last digit -/

theorem targetExponent_binary64 (places : Int) :
    Format.binary64.targetExponent places = max (places - 53) (-1074) := rfl

theorem targetExponent_eq (m : Nat) (e : Int) :
    Format.binary64.targetExponent (totalExponent m e) = max (m.log2 + e - 52) (-1074) := by
  rw [targetExponent_binary64, totalExponent]
  omega

theorem zpow_two_pos (e : Int) : (0 : ℚ) < 2 ^ e := by positivity

theorem zpow_two_lt_iff {a b : Int} : (2 : ℚ) ^ a < 2 ^ b ↔ a < b :=
  zpow_lt_zpow_iff_right₀ (by norm_num)

theorem zpow_two_le_iff {a b : Int} : (2 : ℚ) ^ a ≤ 2 ^ b ↔ a ≤ b :=
  zpow_le_zpow_iff_right₀ (by norm_num)

theorem zpow_two_add (a b : Int) : (2 : ℚ) ^ (a + b) = 2 ^ a * 2 ^ b :=
  zpow_add₀ (by norm_num) a b

theorem log2_bounds {m : Nat} {e : Int} {v : ℚ} (hlow : m * (2 : ℚ) ^ e ≤ v)
    (hhigh : v < (m + 1) * (2 : ℚ) ^ e) :
    (m ≠ 0 → (2 : ℚ) ^ (m.log2 + e) ≤ v) ∧ v < (2 : ℚ) ^ (m.log2 + 1 + e) := by
  constructor
  · intro hm
    have hself : ((2 ^ m.log2 : Nat) : ℚ) ≤ m := by exact_mod_cast Nat.log2_self_le hm
    calc (2 : ℚ) ^ (m.log2 + e) = (2 ^ m.log2 : Nat) * (2 : ℚ) ^ e := by
          rw [zpow_two_add]
          norm_cast
      _ ≤ m * (2 : ℚ) ^ e := mul_le_mul_of_nonneg_right hself (zpow_two_pos e).le
      _ ≤ v := hlow
  · have hself : (m + 1 : ℚ) ≤ (2 ^ (m.log2 + 1) : Nat) := by
      exact_mod_cast Nat.lt_log2_self (n := m)
    calc v < (m + 1) * (2 : ℚ) ^ e := hhigh
      _ ≤ (2 ^ (m.log2 + 1) : Nat) * (2 : ℚ) ^ e :=
          mul_le_mul_of_nonneg_right hself (zpow_two_pos e).le
      _ = (2 : ℚ) ^ (m.log2 + 1 + e) := by
          rw [zpow_two_add]
          norm_cast

/-! ## Rounding -/

/-- A number by its first digits, of which there are as many as a double has. -/
structure Given (v : ℚ) (n : Nat) (e : Int) (accuracy : Accuracy) : Prop where
  describes : Describes (.ofMantissaAndAccuracy n accuracy) (v / 2 ^ e)
  enough : 2 ^ 52 ≤ n ∨ e ≤ -1074

def target (n : Nat) (e : Int) : Int := max (n.log2 + e - 52) (-1074)

theorem mantissa_ofMantissaAndAccuracy (n : Nat) (accuracy : Accuracy) :
    (ExtendedMantissa.ofMantissaAndAccuracy n accuracy).mantissa = n := by
  obtain _ | _ | _ | _ := accuracy <;> rfl

namespace Given

variable {v : ℚ} {n : Nat} {e q : Int} {accuracy : Accuracy}

theorem bounds (h : Given v n e accuracy) :
    n * (2 : ℚ) ^ e ≤ v ∧ v < (n + 1) * (2 : ℚ) ^ e := by
  have hbounds := h.describes.bounds
  rw [mantissa_ofMantissaAndAccuracy, le_div_iff₀ (zpow_two_pos e),
    div_lt_iff₀ (zpow_two_pos e)] at hbounds
  exact hbounds

theorem le_target (h : Given v n e accuracy) : e ≤ target n e := by
  unfold target
  rcases h.enough with hn | he
  · have hlog := (Nat.le_log2 (by omega)).mpr hn
    omega
  · omega

theorem target_le (h : Given v n e accuracy) (hq : -1074 ≤ q) (hv : v < 2 ^ (53 + q)) :
    target n e ≤ q := by
  unfold target
  by_cases hn : n = 0
  · subst hn
    have he := h.enough.resolve_left (by decide)
    simp only [Nat.log2_zero]
    omega
  · have hlow := (log2_bounds h.bounds.1 h.bounds.2).1 hn
    have hlt := zpow_two_lt_iff.mp (lt_of_le_of_lt hlow hv)
    omega

theorem target_ge (h : Given v n e accuracy) (hv : 2 ^ (52 + q) ≤ v) : q ≤ target n e := by
  have hhigh := (log2_bounds h.bounds.1 h.bounds.2).2
  have hlt := zpow_two_lt_iff.mp (lt_of_le_of_lt hv hhigh)
  unfold target
  omega

theorem shift (h : Given v n e accuracy) :
    ∃ em, shiftToTargetExponent .binary64 n e accuracy = (em, target n e) ∧
      Describes em (v / 2 ^ target n e) := by
  have hle := h.le_target
  unfold shiftToTargetExponent shiftToExponent
  rw [targetExponent_eq]
  change ∃ em, (_, e + ((target n e - e).toNat : Int)) = (em, target n e) ∧ _
  refine ⟨_, by rw [Prod.mk.injEq]; exact ⟨rfl, by omega⟩, ?_⟩
  have hshift := h.describes.shiftRight (target n e - e).toNat
  rw [div_div, ← zpow_natCast, ← zpow_two_add, Int.toNat_of_nonneg (by omega),
    add_sub_cancel] at hshift
  exact hshift

end Given

theorem shift_of_lt {r : Nat} {t : Int} (hr : r < 2 ^ 53) (ht : -1074 ≤ t) :
    shiftToTargetExponent .binary64 r t .exact = (⟨r, false, false⟩, t) := by
  have hlog : r.log2 ≤ 52 := by
    rcases Nat.eq_zero_or_pos r with rfl | hpos
    · decide
    · exact Nat.le_of_lt_succ ((Nat.log2_lt (by omega)).mpr hr)
  have hstay : (max (r.log2 + t - 52) (-1074) - t).toNat = 0 := by omega
  unfold shiftToTargetExponent shiftToExponent
  rw [targetExponent_eq]
  dsimp only
  rw [hstay]
  simp [HShiftRight.hShiftRight, Nat.repeat, ExtendedMantissa.ofMantissaAndAccuracy]

theorem shift_full {t : Int} (ht : -1074 ≤ t) :
    shiftToTargetExponent .binary64 (2 ^ 53) t .exact = (⟨2 ^ 52, false, false⟩, t + 1) := by
  have hstep : (max ((2 ^ 53 : Nat).log2 + t - 52) (-1074) - t).toNat = 1 := by
    rw [Nat.log2_two_pow]
    omega
  unfold shiftToTargetExponent shiftToExponent
  rw [targetExponent_eq]
  dsimp only
  rw [hstep]
  rfl

/-- A positive double, whose mantissa is as long as its power allows. -/
structure Canonical (m : Nat) (q : Int) : Prop extends Bounded m q where
  pos : 0 < m
  full : 2 ^ 52 ≤ m ∨ q = -1074

/-- How far below a double there are numbers that round to it, in units of the last place. -/
def reach (m : Nat) (q : Int) : ℚ := if m = 2 ^ 52 ∧ -1074 < q then 1 / 4 else 1 / 2

structure RoundsTo (m : Nat) (q : Int) (v : ℚ) : Prop where
  low : (m - reach m q) * 2 ^ q ≤ v
  high : v ≤ (m + 1 / 2) * 2 ^ q
  even : v = (m - reach m q) * 2 ^ q ∨ v = (m + 1 / 2) * 2 ^ q → m % 2 = 0

namespace RoundsTo

variable {m : Nat} {q : Int} {v : ℚ}

theorem reach_le : reach m q ≤ 1 / 2 := by
  unfold reach
  split <;> norm_num

theorem reach_pos : 0 < reach m q := by
  unfold reach
  split <;> norm_num

theorem exact : RoundsTo m q (m * 2 ^ q) := by
  have hpos := zpow_two_pos q
  have hreach := reach_pos (m := m) (q := q)
  have hlow : (m - reach m q) * (2 : ℚ) ^ q < m * 2 ^ q :=
    mul_lt_mul_of_pos_right (by linarith) hpos
  have hhigh : (m : ℚ) * 2 ^ q < (m + 1 / 2) * 2 ^ q :=
    mul_lt_mul_of_pos_right (by linarith) hpos
  refine ⟨hlow.le, hhigh.le, ?_⟩
  rintro (h | h) <;> linarith

theorem lt (h : RoundsTo m q v) (hmq : Canonical m q) : v < 2 ^ (53 + q) := by
  have hm : (m : ℚ) + 1 ≤ 2 ^ (53 : Int) := by exact_mod_cast hmq.mantissa
  calc v ≤ (m + 1 / 2) * 2 ^ q := h.high
    _ < 2 ^ (53 : Int) * 2 ^ q := mul_lt_mul_of_pos_right (by linarith) (zpow_two_pos q)
    _ = 2 ^ (53 + q) := (zpow_two_add 53 q).symm

/-- Where the last place is that of the double, its mantissa is the nearest one. -/
theorem nearest (h : RoundsTo m q v) : Nearest m (v / 2 ^ q) := by
  have hpos := zpow_two_pos q
  have hlow := (le_div_iff₀ hpos).mpr h.low
  have hreach := reach_le (m := m) (q := q)
  refine ⟨by linarith, (div_le_iff₀ hpos).mpr h.high, ?_⟩
  rintro (heq | heq)
  · have hends : v / 2 ^ q = m - reach m q := by linarith
    exact h.even (.inl ((div_eq_iff hpos.ne').mp hends))
  · exact h.even (.inr ((div_eq_iff hpos.ne').mp heq))

/-- Just below a power of two the last place is half as large. -/
theorem nearest_below (h : RoundsTo (2 ^ 52) q v) (hq : -1074 < q) (hv : v < 2 ^ (52 + q)) :
    Nearest (2 ^ 53) (v / 2 ^ (q - 1)) := by
  have hpos := zpow_two_pos (q - 1)
  have hdouble : (2 : ℚ) ^ q = 2 * 2 ^ (q - 1) := by
    rw [← zpow_one_add₀ (by norm_num)]
    congr 1
    omega
  have hlow := h.low
  rw [reach, if_pos ⟨rfl, hq⟩, hdouble] at hlow
  have hhigh : v < 2 ^ 53 * 2 ^ (q - 1) := by
    rw [zpow_two_add, hdouble] at hv
    norm_num at hv ⊢
    linarith
  have hlow' : 2 ^ 53 - 1 / 2 ≤ v / 2 ^ (q - 1) := by
    rw [le_div_iff₀ hpos]
    push_cast at hlow
    linarith
  have hhigh' : v / 2 ^ (q - 1) < 2 ^ 53 := (div_lt_iff₀ hpos).mpr hhigh
  refine ⟨by push_cast; linarith, by push_cast; linarith, fun _ => by decide⟩

end RoundsTo

theorem RoundsTo.power_of_two {m : Nat} {q : Int} {v : ℚ} (h : RoundsTo m q v)
    (hmq : Canonical m q) (hq : -1074 < q) (hv : v < 2 ^ (52 + q)) :
    m = 2 ^ 52 ∧ 2 ^ (52 + (q - 1)) ≤ v := by
  have hpos := zpow_two_pos q
  have hreach := RoundsTo.reach_le (m := m) (q := q)
  have hfull : 2 ^ 52 ≤ m := hmq.full.resolve_right (by omega)
  have hlow : (m - 1 / 2) * (2 : ℚ) ^ q ≤ v :=
    le_trans (mul_le_mul_of_nonneg_right (by linarith) hpos.le) h.low
  rw [zpow_two_add] at hv
  have hlt : (m : ℚ) - 1 / 2 < 2 ^ (52 : Int) :=
    lt_of_mul_lt_mul_right (lt_of_le_of_lt hlow hv) hpos.le
  have hm : m ≤ 2 ^ 52 := by
    have hpower : (2 : ℚ) ^ (52 : Int) = 2 ^ 52 := zpow_natCast 2 52
    have hlt' : (m : ℚ) < 2 ^ 52 + 1 := by linarith
    exact Nat.le_of_lt_succ (by exact_mod_cast hlt')
  have heq : m = 2 ^ 52 := Nat.le_antisymm hm hfull
  refine ⟨heq, ?_⟩
  rw [show 52 + (q - 1) = 51 + q by omega, zpow_two_add]
  refine le_trans (mul_le_mul_of_nonneg_right ?_ hpos.le) hlow
  rw [heq]
  norm_num

theorem finite_congr {sign sign' : Sign} {m n : Nat} {e f : Int} (hsign : sign = sign')
    (hm : m = n) (he : e = f) (hpos : 0 < m) :
    finite sign m e hpos = finite sign' n f (hm ▸ hpos) := by
  subst hsign hm he
  rfl

/-- All numbers in the interval around a double round to it. -/
theorem roundWithAccuracy_eq {m n : Nat} {q e : Int} {v : ℚ} {accuracy : Accuracy}
    (hmq : Canonical m q) (hv : RoundsTo m q v) (hgiven : Given v n e accuracy) :
    roundWithAccuracy .binary64 .positive n e accuracy = .finite .positive m q hmq.pos := by
  obtain ⟨em, hshift, hdescribes⟩ := hgiven.shift
  have hround := hdescribes.nearest
  have hle := hgiven.target_le hmq.least (hv.lt hmq)
  unfold roundWithAccuracy
  rw [hshift]
  dsimp only
  by_cases htarget : target n e = q
  · rw [htarget] at hround ⊢
    have hm : em.roundedMantissa = m := hround.eq hv.nearest
    rw [hm, shift_of_lt hmq.mantissa hmq.least]
    exact dif_neg hmq.pos.ne'
  · -- just below a power of two the mantissa is rounded up to one more digit
    have hlt : target n e < q := lt_of_le_of_ne hle htarget
    have hq : -1074 < q := lt_of_le_of_lt (le_max_right _ _) hlt
    have hbelow : v < 2 ^ (52 + q) := by
      by_contra hnot
      exact absurd (hgiven.target_ge (not_lt.mp hnot)) (not_le.mpr hlt)
    obtain ⟨rfl, hv'⟩ := hv.power_of_two hmq hq hbelow
    have htarget' : target n e = q - 1 := by
      apply le_antisymm
      · omega
      · exact hgiven.target_ge hv'
    rw [htarget'] at hround ⊢
    have hm : em.roundedMantissa = 2 ^ 53 := hround.eq (hv.nearest_below hq hbelow)
    rw [hm, shift_full (by omega)]
    refine (dif_neg (Nat.two_pow_pos 52).ne').trans ?_
    exact finite_congr rfl rfl (by omega) _

/-! ## Whole numbers and quotients -/

theorem given_whole {n k : Nat} (hn : 2 ^ 52 ≤ n * 2 ^ k) :
    Given n (n * 2 ^ k) (-k) .exact where
  describes := by
    have hpos : (0 : ℚ) < 2 ^ k := by positivity
    change (n : ℚ) / 2 ^ (-k : Int) = (n * 2 ^ k : Nat)
    rw [zpow_neg, zpow_natCast, div_inv_eq_mul]
    norm_cast
  enough := .inl hn

theorem describes_fraction {n a b : Nat} (h : a < b) :
    Describes (.ofMantissaAndAccuracy n (accuracyOfFraction a b)) (n + a / b) := by
  have hb : (0 : ℚ) < b := by exact_mod_cast Nat.lt_of_le_of_lt (Nat.zero_le a) h
  unfold accuracyOfFraction
  split
  · next ha => simp [ExtendedMantissa.ofMantissaAndAccuracy, Describes, ha]
  · next ha =>
      have ha' : (0 : ℚ) < a := by exact_mod_cast Nat.pos_of_ne_zero ha
      have hfraction : 0 < (a : ℚ) / b := div_pos ha' hb
      rcases hcompare : compare (2 * a) b with _ | _ | _
      · have hlt : (2 : ℚ) * a < b := by exact_mod_cast Nat.compare_eq_lt.mp hcompare
        have hhalf : (a : ℚ) / b < 1 / 2 := by
          rw [div_lt_div_iff₀ hb two_pos]
          linarith
        exact ⟨by linarith, by linarith⟩
      · have heq : (2 : ℚ) * a = b := by exact_mod_cast Nat.compare_eq_eq.mp hcompare
        have hhalf : (a : ℚ) / b = 1 / 2 := by
          rw [div_eq_div_iff hb.ne' two_ne_zero]
          linarith
        change (n : ℚ) + a / b = n + 1 / 2
        rw [hhalf]
      · have hlt : (b : ℚ) < 2 * a := by exact_mod_cast Nat.compare_eq_gt.mp hcompare
        have hhalf : 1 / 2 < (a : ℚ) / b := by
          rw [div_lt_div_iff₀ two_pos hb]
          linarith
        have hone : (a : ℚ) / b < 1 := by
          rw [div_lt_one hb]
          exact_mod_cast h
        exact ⟨by linarith, by linarith⟩

theorem given_divCore {m₁ m₂ : Nat} (e₁ e₂ : Int) (h₁ : 0 < m₁) (h₂ : 0 < m₂) :
    Given (m₁ * 2 ^ e₁ / (m₂ * 2 ^ e₂)) (divCore .binary64 m₁ e₁ m₂ e₂).1
      (divCore .binary64 m₁ e₁ m₂ e₂).2.1 (divCore .binary64 m₁ e₁ m₂ e₂).2.2 := by
  have htarget : Format.binary64.targetExponent (totalExponent m₁ e₁ - totalExponent m₂ e₂) =
      max (m₁.log2 + e₁ - (m₂.log2 + e₂) - 53) (-1074) := by
    rw [targetExponent_binary64, totalExponent, totalExponent]
    omega
  unfold divCore
  dsimp only
  rw [htarget]
  generalize ht : min (e₁ - e₂) (max (m₁.log2 + e₁ - (m₂.log2 + e₂) - 53) (-1074)) = t
  generalize hs : (e₁ - e₂ - t).toNat = s
  have hm₂ : (m₂ : ℚ) ≠ 0 := by exact_mod_cast h₂.ne'
  have hscale : (m₁ : ℚ) * 2 ^ e₁ / (m₂ * 2 ^ e₂) / 2 ^ t = (m₁ <<< s : Nat) / m₂ := by
    have hshift : e₁ = s + e₂ + t := by omega
    rw [hshift, zpow_two_add, zpow_two_add, Nat.shiftLeft_eq]
    push_cast
    rw [zpow_natCast]
    have h2 := (zpow_two_pos e₂).ne'
    have h3 := (zpow_two_pos t).ne'
    field_simp
  constructor
  case describes =>
    have hmod : ((m₁ <<< s : Nat) : ℚ) / m₂ =
        (m₁ <<< s / m₂ : Nat) + (m₁ <<< s % m₂ : Nat) / (m₂ : ℚ) := by
      have hsplit : (m₂ : ℚ) * (m₁ <<< s / m₂ : Nat) + (m₁ <<< s % m₂ : Nat) =
          (m₁ <<< s : Nat) := by
        exact_mod_cast Nat.div_add_mod (m₁ <<< s) m₂
      rw [← hsplit]
      field_simp
    rw [hscale, hmod]
    exact describes_fraction (Nat.mod_lt _ h₂)
  case enough =>
    rcases le_or_gt t (-1074) with hsmall | hlarge
    · exact .inr hsmall
    · left
      have hdigits : 53 + m₂.log2 ≤ m₁.log2 + s := by omega
      rw [Nat.le_div_iff_mul_le h₂, Nat.shiftLeft_eq]
      calc 2 ^ 52 * m₂ ≤ 2 ^ 52 * 2 ^ (m₂.log2 + 1) :=
            Nat.mul_le_mul_left _ (Nat.lt_log2_self).le
        _ = 2 ^ (53 + m₂.log2) := by rw [← Nat.pow_add]; congr 1; omega
        _ ≤ 2 ^ (m₁.log2 + s) := Nat.pow_le_pow_right (by decide) hdigits
        _ = 2 ^ m₁.log2 * 2 ^ s := Nat.pow_add _ _ _
        _ ≤ m₁ * 2 ^ s := Nat.mul_le_mul_right _ (Nat.log2_self_le h₁.ne')

theorem div_eq {m m₁ m₂ : Nat} {q e₁ e₂ : Int} {h₁ : 0 < m₁} {h₂ : 0 < m₂} (hmq : Canonical m q)
    (hv : RoundsTo m q (m₁ * 2 ^ e₁ / (m₂ * 2 ^ e₂))) :
    UnpackedFloat.div .binary64 (.finite .positive m₁ e₁ h₁) (.finite .positive m₂ e₂ h₂) =
      .finite .positive m q hmq.pos :=
  roundWithAccuracy_eq hmq hv (given_divCore e₁ e₂ h₁ h₂)

theorem mul_eq {m n k a b : Nat} {q e f : Int} {ha : 0 < a} {hb : 0 < b} (hmq : Canonical m q)
    (hv : RoundsTo m q n) (hn : 2 ^ 52 ≤ n * 2 ^ k) (hab : a * b = n * 2 ^ k) (hef : e + f = -k) :
    UnpackedFloat.mul .binary64 (.finite .positive a e ha) (.finite .positive b f hb) =
      .finite .positive m q hmq.pos := by
  change roundWithAccuracy .binary64 .positive (a * b) (e + f) .exact = _
  rw [hab, hef]
  exact roundWithAccuracy_eq hmq hv (given_whole hn)

/-! ## Doubles and their bits -/

theorem packComponents_toNat (exponent : BitVec 11) (mantissa : BitVec 52) :
    (packComponents .binary64 .positive exponent mantissa).toNat =
      exponent.toNat * 2 ^ 52 + mantissa.toNat := by
  have hsign : (Sign.positive.toBitVec ++ exponent).toNat = exponent.toNat := by
    rw [BitVec.toNat_append]
    simp [Sign.toBitVec]
  change (Sign.positive.toBitVec ++ exponent ++ mantissa).toNat = _
  rw [BitVec.toNat_append, hsign, ← Nat.shiftLeft_add_eq_or_of_lt mantissa.isLt,
    Nat.shiftLeft_eq]

theorem unpackSign_packComponents (exponent : BitVec 11) (mantissa : BitVec 52) :
    Sign.ofBitVec (unpackSign (packComponents .binary64 .positive exponent mantissa)) =
      .positive := by
  have hbit : (unpackSign (packComponents .binary64 .positive exponent mantissa)).getLsbD 0 =
      (Sign.positive.toBitVec ++ exponent ++ mantissa).getLsbD 63 := by
    change ((Sign.positive.toBitVec ++ exponent ++ mantissa).extractLsb 63 63).getLsbD 0 = _
    rw [BitVec.getLsbD_extractLsb]
    rfl
  rw [BitVec.getLsbD_append, if_neg (by decide), BitVec.getLsbD_append, if_neg (by decide)] at hbit
  have hsign : unpackSign (packComponents .binary64 .positive exponent mantissa) =
      Sign.positive.toBitVec := by
    apply BitVec.eq_of_getLsbD_eq
    intro i hi
    obtain rfl : i = 0 := by omega
    exact hbit
  rw [hsign]
  rfl

theorem unpack_subnormal {m : Nat} (hpos : 0 < m) (hm : m < 2 ^ 52) :
    UnpackedFloat.unpack .binary64
      (packComponents .binary64 .positive 0#11 (BitVec.ofNat 52 m)) =
      .finite .positive m (-1074) hpos := by
  have htoNat : (BitVec.ofNat 52 m).toNat = m := by
    rw [BitVec.toNat_ofNat, Nat.mod_eq_of_lt hm]
  have hne : BitVec.ofNat 52 m ≠ 0#52 := by
    intro hzero
    rw [hzero] at htoNat
    exact absurd htoNat hpos.ne
  have hsign := unpackSign_packComponents 0#11 (BitVec.ofNat 52 m)
  have hexponent : unpackExponent
      (packComponents .binary64 .positive 0#11 (BitVec.ofNat 52 m)) = 0#11 :=
    unpackExponent_packComponents
  have hmantissa : unpackMantissa
      (packComponents .binary64 .positive 0#11 (BitVec.ofNat 52 m)) = BitVec.ofNat 52 m :=
    unpackMantissa_packComponents
  generalize packComponents .binary64 .positive 0#11 (BitVec.ofNat 52 m) = word at *
  unfold UnpackedFloat.unpack
  dsimp only
  rw [if_neg (by rw [hexponent]; decide), if_pos hexponent, dif_neg (by rw [hmantissa]; exact hne)]
  refine finite_congr hsign (by rw [hmantissa, htoNat]) ?_ _
  rw [hexponent]
  rfl

theorem unpack_normal {m exponent : Nat} (hpos : 0 < m) (hm : 2 ^ 52 ≤ m) (hlt : m < 2 ^ 53)
    (hleast : 0 < exponent) (hgreatest : exponent < 2047) :
    UnpackedFloat.unpack .binary64
      (packComponents .binary64 .positive (BitVec.ofNat 11 exponent) (BitVec.ofNat 52 m)) =
      .finite .positive m ((exponent : Int) - 1075) hpos := by
  have htoNat : (BitVec.ofNat 11 exponent).toNat = exponent := by
    rw [BitVec.toNat_ofNat, Nat.mod_eq_of_lt (by omega)]
  have hones : BitVec.ofNat 11 exponent ≠ -1#11 := by
    intro heq
    rw [heq] at htoNat
    simp at htoNat
    omega
  have hzero : BitVec.ofNat 11 exponent ≠ 0#11 := by
    intro heq
    rw [heq] at htoNat
    simp at htoNat
    omega
  have hfull : (1#1 ++ BitVec.ofNat 52 m).toNat = m := by
    rw [BitVec.toNat_append, ← Nat.shiftLeft_add_eq_or_of_lt (BitVec.ofNat 52 m).isLt,
      Nat.shiftLeft_eq]
    simp
    omega
  have hsign := unpackSign_packComponents (BitVec.ofNat 11 exponent) (BitVec.ofNat 52 m)
  have hexponent : unpackExponent (packComponents .binary64 .positive
      (BitVec.ofNat 11 exponent) (BitVec.ofNat 52 m)) = BitVec.ofNat 11 exponent :=
    unpackExponent_packComponents
  have hmantissa : unpackMantissa (packComponents .binary64 .positive
      (BitVec.ofNat 11 exponent) (BitVec.ofNat 52 m)) = BitVec.ofNat 52 m :=
    unpackMantissa_packComponents
  generalize packComponents .binary64 .positive (BitVec.ofNat 11 exponent)
    (BitVec.ofNat 52 m) = word at *
  unfold UnpackedFloat.unpack
  dsimp only
  rw [if_neg (by rw [hexponent]; exact hones), if_neg (by rw [hexponent]; exact hzero)]
  refine finite_congr hsign (by rw [hmantissa]; exact hfull) ?_ _
  rw [hexponent]
  exact congrArg (fun n : Nat => (n : Int) - 1075) htoNat

namespace Canonical

variable {m : Nat} {q : Int}

def toFloat (h : Canonical m q) : Float := .ofModel (.pack (.finite .positive m q h.pos))

def bits (m : Nat) (q : Int) : Nat := if m < 2 ^ 52 then m else (q + 1074).toNat * 2 ^ 52 + m

theorem pack_eq (h : Canonical m q) :
    UnpackedFloat.pack .binary64 (.finite .positive m q h.pos) =
      packComponents .binary64 .positive
        (if m < 2 ^ 52 then 0#11 else BitVec.ofNat 11 (q + 1075).toNat) (BitVec.ofNat 52 m) := by
  have hbiased : (q + Format.binary64.exponentBias + (52 : Nat)).toNat = (q + 1075).toNat := by
    change (q + (1023 : Nat) + (52 : Nat)).toNat = _
    omega
  have hfits : ¬2 ^ 11 ≤ (q + 1075).toNat + 1 := by
    have := h.greatest
    omega
  have hlog : m.log2 + 1 = 53 ↔ ¬m < 2 ^ 52 := by
    have hlt := (Nat.log2_lt h.pos.ne').mpr h.mantissa
    rw [← Nat.log2_lt h.pos.ne']
    omega
  unfold UnpackedFloat.pack
  dsimp only
  rw [hbiased, if_neg hfits]
  change (if m.log2 + 1 = 53 then _ else _) = _
  by_cases hm : m < 2 ^ 52
  · rw [if_neg (by tauto), if_pos hm]
  · rw [if_pos (by tauto), if_neg hm]

theorem toBits_toFloat (h : Canonical m q) : h.toFloat.toBits.toNat = bits m q := by
  change (UnpackedFloat.pack .binary64 (.finite .positive m q h.pos)).toNat = _
  rw [h.pack_eq, packComponents_toNat]
  have hmantissa := h.mantissa
  have hgreatest := h.greatest
  have hleast := h.least
  unfold bits
  split
  · simp
    omega
  · simp
    omega

theorem unpack_toFloat (h : Canonical m q) :
    h.toFloat.toModel.unpack = .finite .positive m q h.pos := by
  change UnpackedFloat.unpack .binary64
    (UnpackedFloat.pack .binary64 (.finite .positive m q h.pos)) = _
  rw [h.pack_eq]
  by_cases hm : m < 2 ^ 52
  · obtain rfl := h.full.resolve_left (by omega)
    rw [if_pos hm, unpack_subnormal h.pos hm]
  · have hgreatest := h.greatest
    have hleast := h.least
    rw [if_neg hm, unpack_normal h.pos (by omega) h.mantissa (by omega) (by omega)]
    exact finite_congr rfl rfl (by omega) _

theorem eq_toFloat (h : Canonical m q) {x : Float} (hx : x.toBits.toNat = bits m q) :
    x = h.toFloat := by
  obtain ⟨⟨word, hvalid⟩⟩ := x
  have hword : word = h.toFloat.toModel.toBits :=
    UInt64.toNat_inj.mp (hx.trans h.toBits_toFloat.symm)
  subst hword
  rfl

end Canonical

/-! ## Reading decimals -/

theorem canonical_whole {n : Nat} (hpos : 0 < n) (hn : n < 2 ^ 53) :
    Canonical (n * 2 ^ (52 - n.log2)) (-(52 - n.log2 : Nat)) := by
  have hlog : n.log2 ≤ 52 := Nat.le_of_lt_succ ((Nat.log2_lt hpos.ne').mpr hn)
  have hlow : 2 ^ 52 ≤ n * 2 ^ (52 - n.log2) :=
    calc 2 ^ 52 = 2 ^ n.log2 * 2 ^ (52 - n.log2) := by rw [← Nat.pow_add]; congr 1; omega
      _ ≤ n * 2 ^ (52 - n.log2) := Nat.mul_le_mul_right _ (Nat.log2_self_le hpos.ne')
  have hhigh : n * 2 ^ (52 - n.log2) < 2 ^ 53 :=
    calc n * 2 ^ (52 - n.log2) < 2 ^ (n.log2 + 1) * 2 ^ (52 - n.log2) :=
          Nat.mul_lt_mul_of_pos_right Nat.lt_log2_self (Nat.two_pow_pos _)
      _ = 2 ^ 53 := by rw [← Nat.pow_add]; congr 1; omega
  exact ⟨⟨hhigh, by omega, by omega⟩, by positivity, .inl hlow⟩

theorem toFloat_whole {n : Nat} (hpos : 0 < n) (hn : n < 2 ^ 53) :
    n.toUInt64.toFloat = (canonical_whole hpos hn).toFloat := by
  have hcanonical := canonical_whole hpos hn
  have hlog : n.log2 ≤ 52 := Nat.le_of_lt_succ ((Nat.log2_lt hpos.ne').mpr hn)
  have htoNat : n.toUInt64.toNat = n := by
    change n % 2 ^ 64 = n
    exact Nat.mod_eq_of_lt (by omega)
  have htarget : Format.binary64.targetExponent (totalExponent n 0) =
      -(52 - n.log2 : Nat) := by
    rw [targetExponent_eq]
    omega
  have hshift : ((0 : Int) - -(52 - n.log2 : Nat)).toNat = 52 - n.log2 := by omega
  have hvalue : (n : ℚ) = (n * 2 ^ (52 - n.log2) : Nat) * 2 ^ (-(52 - n.log2 : Nat) : Int) := by
    rw [zpow_neg, zpow_natCast]
    push_cast
    field_simp
  have hgiven := given_whole (n := n) (k := 52 - n.log2) (hcanonical.full.resolve_right (by omega))
  have hrounds : RoundsTo (n * 2 ^ (52 - n.log2)) (-(52 - n.log2 : Nat)) n := by
    have hexact := RoundsTo.exact (m := n * 2 ^ (52 - n.log2)) (q := -(52 - n.log2 : Nat))
    rwa [← hvalue] at hexact
  have hround := roundWithAccuracy_eq hcanonical hrounds hgiven
  change Float.ofModel (.pack (UnpackedFloat.normalize .binary64 n.toUInt64.toNat 0 .positive)) = _
  rw [htoNat]
  unfold UnpackedFloat.normalize
  rw [Int.compare_eq_gt.mpr (by omega)]
  dsimp only
  unfold UnpackedFloat.round
  dsimp only
  rw [Int.toNat_natCast, htarget]
  unfold decreaseExponent
  dsimp only
  rw [hshift, Nat.shiftLeft_eq, Int.zero_sub, hround]
  rfl

theorem canonical_power {k : Nat} (hk : k < 23) :
    Canonical (5 ^ k * 2 ^ (52 - (5 ^ k).log2)) (k - (52 - (5 ^ k).log2 : Nat)) := by
  have hlt : 5 ^ k < 2 ^ 53 :=
    Nat.lt_of_le_of_lt (Nat.pow_le_pow_right (by decide) (Nat.le_of_lt_succ hk)) (by decide)
  have hwhole := canonical_whole (Nat.pow_pos (n := k) (by decide)) hlt
  exact ⟨⟨hwhole.mantissa, by omega, by omega⟩, hwhole.pos,
    .inl (hwhole.full.resolve_right (by omega))⟩

theorem toBits_power : ∀ e : Fin Float.exactlyRepresentablePowersOfTen.size,
    Float.exactlyRepresentablePowersOfTen[e].toBits.toNat =
      Canonical.bits (5 ^ e.val * 2 ^ (52 - (5 ^ e.val).log2))
        (e.val - (52 - (5 ^ e.val).log2 : Nat)) := by
  decide +kernel

theorem toFloat_power {k : Nat} (hk : k < Float.exactlyRepresentablePowersOfTen.size) :
    Float.exactlyRepresentablePowersOfTen[k] = (canonical_power hk).toFloat :=
  (canonical_power hk).eq_toFloat (toBits_power ⟨k, hk⟩)

theorem RoundsTo.pos {m : Nat} {q : Int} {v : ℚ} (h : RoundsTo m q v) (hm : 0 < m) :
    2 ^ (q - 1) ≤ v := by
  have hone : (1 : ℚ) ≤ m := by exact_mod_cast hm
  have hreach := RoundsTo.reach_le (m := m) (q := q)
  calc (2 : ℚ) ^ (q - 1) = 1 / 2 * 2 ^ q := by
        rw [zpow_sub_one₀ (by norm_num)]
        ring
    _ ≤ (m - reach m q) * 2 ^ q :=
        mul_le_mul_of_nonneg_right (by linarith) (zpow_two_pos q).le
    _ ≤ v := h.low

/-- What rounds to a double is not so small that it is taken for zero unseen. -/
theorem places_le {m c k : Nat} {q : Int} (hmq : Canonical m q) (hv : RoundsTo m q (c / 10 ^ k)) :
    k ≤ 2048 + c.log2 := by
  by_contra hlarge
  have hlow := hv.pos hmq.pos
  have hpow : (2 : ℚ) ^ k ≤ 10 ^ k := by gcongr; norm_num
  have hc : (c : ℚ) ≤ 2 ^ (c.log2 + 1) := by exact_mod_cast Nat.lt_log2_self.le
  have hvalue : (c : ℚ) / 10 ^ k ≤ 2 ^ ((c.log2 : Int) + 1 - k) := by
    rw [zpow_sub₀ (by norm_num), zpow_natCast]
    gcongr
    exact_mod_cast hc
  have hpowers := zpow_two_le_iff.mp (hlow.trans hvalue)
  have hleast := hmq.least
  omega

theorem ofScientific_small {m c k : Nat} {q : Int} (hmq : Canonical m q) (hpos : 0 < c)
    (hc : c < 2 ^ 53) (hk : k < Float.exactlyRepresentablePowersOfTen.size)
    (hv : RoundsTo m q (c / 10 ^ k)) :
    c.toUInt64.toFloat / Float.exactlyRepresentablePowersOfTen[k] = hmq.toFloat := by
  rw [toFloat_whole hpos hc, toFloat_power]
  change Float.ofModel (.pack (UnpackedFloat.div .binary64
    (canonical_whole hpos hc).toFloat.toModel.unpack
    (canonical_power hk).toFloat.toModel.unpack)) = _
  rw [Canonical.unpack_toFloat, Canonical.unpack_toFloat, div_eq hmq]
  · rfl
  · have hnumerator : ((c * 2 ^ (52 - c.log2) : Nat) : ℚ) * 2 ^ (-(52 - c.log2 : Nat) : Int) =
        c := by
      rw [zpow_neg, zpow_natCast]
      push_cast
      field_simp
    have hdenominator : ((5 ^ k * 2 ^ (52 - (5 ^ k).log2) : Nat) : ℚ) *
        2 ^ ((k : Int) - (52 - (5 ^ k).log2 : Nat)) = 10 ^ k := by
      rw [zpow_sub₀ (by norm_num), zpow_natCast, zpow_natCast]
      push_cast
      rw [show (10 : ℚ) = 5 * 2 by norm_num, mul_pow]
      field_simp
    rw [hnumerator, hdenominator]
    exact hv

/-- A decimal in the interval around a double is read as that double. -/
theorem ofScientific_eq {m c k : Nat} {q : Int} (hmq : Canonical m q)
    (hv : RoundsTo m q (c / 10 ^ k)) : Float.ofScientific c true k = hmq.toFloat := by
  have hpos : 0 < c := by
    have hlow := lt_of_lt_of_le (zpow_two_pos (q - 1)) (hv.pos hmq.pos)
    rcases Nat.eq_zero_or_pos c with rfl | hpos
    · simp at hlow
    · exact hpos
  have hplaces := places_le hmq hv
  unfold Float.ofScientific
  split
  · next h => exact ofScientific_small hmq hpos h.1 _ hv
  · dsimp only
    have hunpacked : UnpackedFloat.ofScientific .binary64 c (Int.negOfNat k) =
        .finite .positive m q hmq.pos := by
      unfold UnpackedFloat.ofScientific
      have hsign : Int.negOfNat k = -(k : Int) := Int.negOfNat_eq
      have hlarge : ¬(-(k : Int) > 2 ^ Format.binary64.exponentBits) := by
        have hexponent : (0 : Int) < 2 ^ 11 := by decide
        change ¬(-(k : Int) > 2 ^ 11)
        omega
      have hsmall : ¬(-(k : Int) < -(2 ^ Format.binary64.exponentBits + (c.log2 : Int))) := by
        have hexponent : (2 : Int) ^ 11 = 2048 := by decide
        change ¬(-(k : Int) < -(2 ^ 11 + (c.log2 : Int)))
        omega
      rw [dif_neg hpos.ne', hsign, if_neg hlarge, if_neg hsmall]
      rcases Nat.eq_zero_or_pos k with rfl | hk
      · rw [if_pos (by decide)]
        rw [pow_zero, div_one] at hv
        apply mul_eq hmq hv (k := 53) (by omega)
        · rw [Nat.shiftLeft_eq]
          exact Nat.mul_one _
        · rfl
      · rw [if_neg (by omega)]
        apply div_eq hmq
        simpa using hv
    change Float.ofModel (.pack (UnpackedFloat.ofScientific .binary64 c (Int.negOfNat k))) = _
    rw [hunpacked]
    rfl

/-! ## The range of what is read -/

inductive Positive : UnpackedFloat → Prop where
  | zero : Positive (.zero .positive)
  | infinity : Positive (.infinity .positive)
  | finite {m : Nat} {e : Int} (h : 0 < m) : Positive (.finite .positive m e h)

namespace Positive

theorem ite {p : Prop} [Decidable p] {x y : UnpackedFloat} (hx : Positive x) (hy : Positive y) :
    Positive (if p then x else y) := by
  split
  · exact hx
  · exact hy

theorem rounded (m : Nat) (e : Int) : Positive
    (if h : m = 0 then .zero .positive else .finite .positive m e (Nat.pos_of_ne_zero h)) := by
  by_cases h : m = 0
  · rw [dif_pos h]
    exact .zero
  · rw [dif_neg h]
    exact .finite _

theorem roundWithAccuracy (n : Nat) (e : Int) (accuracy : Accuracy) :
    Positive (roundWithAccuracy .binary64 .positive n e accuracy) := by
  unfold UnpackedFloat.roundWithAccuracy
  exact rounded _ _

theorem pack_le {x : UnpackedFloat} (h : Positive x) :
    (UnpackedFloat.pack .binary64 x).toNat ≤ 0x7ff0000000000000 := by
  cases h with
  | zero => decide
  | infinity => decide
  | @finite m e hpos =>
      unfold UnpackedFloat.pack
      dsimp only
      split
      · decide
      · next hsmall =>
          change ¬2 ^ 11 ≤ _ at hsmall
          generalize (e + Format.binary64.exponentBias +
            Format.binary64.mantissaBitsWithoutImplicit).toNat = biased at hsmall ⊢
          have hpack (exponent : BitVec 11) (hexponent : exponent.toNat < 2047) :
              (packComponents .binary64 .positive exponent (BitVec.ofNat 52 m)).toNat ≤
                0x7ff0000000000000 := by
            have hmantissa := (BitVec.ofNat 52 m).isLt
            rw [packComponents_toNat]
            omega
          split
          · apply hpack
            rw [BitVec.toNat_ofNat]
            omega
          · exact hpack _ (by decide)

end Positive

theorem ofScientific_le (c k : Nat) :
    (Float.ofScientific c true k).toBits.toNat ≤ 0x7ff0000000000000 := by
  unfold Float.ofScientific
  split
  · next h =>
      have hpower := toFloat_power (Nat.lt_succ_of_le h.2)
      have hquotient : Positive (UnpackedFloat.div .binary64 c.toUInt64.toFloat.toModel.unpack
          (canonical_power (Nat.lt_succ_of_le h.2)).toFloat.toModel.unpack) := by
        rw [Canonical.unpack_toFloat]
        rcases Nat.eq_zero_or_pos c with rfl | hpos
        · exact .zero
        · rw [toFloat_whole hpos h.1, Canonical.unpack_toFloat]
          exact .roundWithAccuracy _ _ _
      rw [← hpower] at hquotient
      exact hquotient.pack_le
  · change (UnpackedFloat.pack .binary64
      (UnpackedFloat.ofScientific .binary64 c (Int.negOfNat k))).toNat ≤ _
    apply Positive.pack_le
    unfold UnpackedFloat.ofScientific
    by_cases hc : c = 0
    · rw [dif_pos hc]
      exact .zero
    rw [dif_neg hc]
    exact .ite .infinity (.ite .zero (.ite (.roundWithAccuracy _ _ _) (.roundWithAccuracy _ _ _)))

end Lox.Number
