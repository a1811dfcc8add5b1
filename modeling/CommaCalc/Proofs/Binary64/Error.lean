import CommaCalc.Proofs.Binary64.Exact
import Mathlib.Algebra.Order.Field.Basic
import Mathlib.Algebra.Order.Field.Rat
import Mathlib.Tactic.FieldSimp
import Mathlib.Tactic.GCongr
import Mathlib.Tactic.Positivity

/-!
# How far a rounding goes

A rounded ratio is within half a step of the grid.  On the grid of 53 leading bits that
half step is at most 2⁻⁵³ of the value, so each rounding changes a value by a factor
between `1 - 2⁻⁵³` and `1 + 2⁻⁵³`, as long as the value is not subnormal.  The factors of
several roundings multiply, whatever the order in which the operations are made.
-/

namespace CommaCalc

open Rounding

attribute [local instance (high)] instPowNat

namespace Rounding

/-- The nearest whole number is within one half. -/
theorem nearestEven_bounds (num : Nat) {den : Nat} (hden : 0 < den) :
    2 * num ≤ 2 * (nearestEven num den * den) + den ∧
      2 * (nearestEven num den * den) ≤ 2 * num + den := by
  have hdivision := Nat.div_add_mod' num den
  have hmod := Nat.mod_lt num hden
  unfold nearestEven
  dsimp only
  generalize num / den = q at hdivision ⊢
  generalize num % den = r at hdivision hmod ⊢
  have hsucc : (q + 1) * den = q * den + den := Nat.succ_mul q den
  split
  · omega
  · split
    · omega
    · rcases Nat.mod_two_eq_zero_or_one q with hq | hq
      · rw [hq, Nat.add_zero]
        omega
      · rw [hq]
        omega

/-- A rounded ratio is within half a step of the grid. -/
theorem roundUnits_bounds (num : Nat) {den : Nat} (hden : 0 < den) :
    2 * num ≤ 2 * (roundUnits num den * den) + spacing (num / den) * den ∧
      2 * (roundUnits num den * den) ≤ 2 * num + spacing (num / den) * den := by
  have hbounds := nearestEven_bounds num (Nat.mul_pos hden (spacing_pos (num / den)))
  rw [roundUnits]
  generalize spacing (num / den) = step at hbounds ⊢
  have hswap : nearestEven num (den * step) * step * den =
      nearestEven num (den * step) * (den * step) := by ring
  rw [hswap, Nat.mul_comm step den]
  exact hbounds

/-- With all 53 leading bits, a step is at most one part in 2⁵². -/
theorem spacing_mul_two_pow_le {units : Nat} (hnormal : 2 ^ (precision - 1) ≤ units) :
    spacing units * 2 ^ precision ≤ 2 * units := by
  have hpos : 0 < units := Nat.lt_of_lt_of_le (Nat.two_pow_pos _) hnormal
  have hlog : precision - 1 ≤ units.log2 := (Nat.le_log2 (by omega)).mpr hnormal
  have hexponent : units.log2 + 1 - precision + precision = units.log2 + 1 := by
    unfold precision at hlog ⊢
    omega
  rw [spacing, ← Nat.pow_add, hexponent, Nat.pow_succ, Nat.mul_comm]
  exact Nat.mul_le_mul_left 2 (Nat.log2_self_le (by omega))

/-- Short of the midpoint above a double, rounding does not pass it. -/
theorem roundUnits_le_of_lt {units num den : Nat} (hden : 0 < den) (hdvd : spacing units ∣ units)
    (hlt : 2 * num < (2 * units + spacing units) * den) : roundUnits num den ≤ units := by
  rcases Nat.le_total num (units * den) with hle | hge
  · exact roundUnits_le hden hdvd hle
  · have hlow : 2 * units * den < 2 * num + spacing (units - 1) * den := by
      have hstep := Nat.mul_pos (spacing_pos (units - 1)) hden
      rw [Nat.mul_assoc]
      omega
    exact (roundUnits_eq hden hdvd hlow.le hlt.le fun _ => ⟨hlow, hlt⟩).le

end Rounding

/-- The largest relative change of a rounding. -/
def unitRoundoff : ℚ := 1 / 2 ^ 53

theorem unitRoundoff_nonneg : 0 ≤ unitRoundoff := by
  unfold unitRoundoff
  positivity

theorem unitRoundoff_le_one : unitRoundoff ≤ 1 := by
  norm_num [unitRoundoff]

theorem one_sub_unitRoundoff_nonneg : 0 ≤ 1 - unitRoundoff :=
  sub_nonneg.mpr unitRoundoff_le_one

theorem one_le_one_add_unitRoundoff : 1 ≤ 1 + unitRoundoff :=
  le_add_of_nonneg_right unitRoundoff_nonneg

namespace Rounding

/-- Rounding a ratio with all 53 leading bits changes it by at most one part in 2⁵³. -/
theorem roundUnits_relative {num den : Nat} (hden : 0 < den)
    (hnormal : 2 ^ (precision - 1) * den ≤ num) :
    (num / den : ℚ) * (1 - unitRoundoff) ≤ roundUnits num den ∧
      (roundUnits num den : ℚ) ≤ num / den * (1 + unitRoundoff) := by
  have hden' : (0 : ℚ) < den := Nat.cast_pos.mpr hden
  have hstep : spacing (num / den) * den * 2 ^ precision ≤ 2 * num := by
    have hspacing := spacing_mul_two_pow_le ((Nat.le_div_iff_mul_le hden).mpr hnormal)
    calc spacing (num / den) * den * 2 ^ precision
        = spacing (num / den) * 2 ^ precision * den := Nat.mul_right_comm ..
      _ ≤ 2 * (num / den) * den := Nat.mul_le_mul_right den hspacing
      _ = 2 * (num / den * den) := Nat.mul_assoc ..
      _ ≤ 2 * num := Nat.mul_le_mul_left 2 (Nat.div_mul_le_self ..)
  obtain ⟨hlow, hhigh⟩ := roundUnits_bounds num hden
  generalize roundUnits num den = rounded at hlow hhigh ⊢
  generalize spacing (num / den) = step at hstep hlow hhigh
  have hstep' : (step * den * 2 ^ 53 : ℚ) ≤ 2 * num := by exact_mod_cast hstep
  have hlow' : (2 * num : ℚ) ≤ 2 * (rounded * den) + step * den := by exact_mod_cast hlow
  have hhigh' : (2 * (rounded * den) : ℚ) ≤ 2 * num + step * den := by exact_mod_cast hhigh
  rw [unitRoundoff, div_mul_eq_mul_div, div_mul_eq_mul_div, div_le_iff₀ hden', le_div_iff₀ hden']
  constructor <;> linarith

/-- Below 2⁵³ units the doubles are all the whole numbers of units. -/
theorem spacing_eq_one {units : Nat} (hunits : units < 2 ^ precision) : spacing units = 1 := by
  have hdvd := spacing_dvd_two_pow precision hunits
  rw [Nat.sub_self, Nat.pow_zero] at hdvd
  exact Nat.dvd_one.mp hdvd

theorem abs_roundUnits_sub_le_of_normal {num den : Nat} (hden : 0 < den)
    (hnormal : 2 ^ (precision - 1) * den ≤ num) :
    |(roundUnits num den : ℚ) - num / den| ≤ unitRoundoff * (num / den) := by
  obtain ⟨hlow, hhigh⟩ := roundUnits_relative hden hnormal
  rw [abs_le]
  constructor <;> linarith

/-- A rounded ratio is off by one part in 2⁵³ at most, or by half a unit if it is subnormal. -/
theorem abs_roundUnits_sub_le (num : Nat) {den : Nat} (hden : 0 < den) :
    |(roundUnits num den : ℚ) - num / den| ≤ unitRoundoff * (num / den) + 1 / 2 := by
  have hden' : (0 : ℚ) < den := Nat.cast_pos.mpr hden
  rcases Nat.lt_or_ge num (2 ^ (precision - 1) * den) with hsmall | hnormal
  · have hone : spacing (num / den) = 1 := by
      refine spacing_eq_one (Nat.lt_trans ((Nat.div_lt_iff_lt_mul hden).mpr hsmall) ?_)
      decide
    obtain ⟨hlow, hhigh⟩ := roundUnits_bounds num hden
    rw [hone, Nat.one_mul] at hlow hhigh
    have hlow' : (2 * num : ℚ) ≤ 2 * (roundUnits num den * den) + den := by exact_mod_cast hlow
    have hhigh' : (2 * (roundUnits num den * den) : ℚ) ≤ 2 * num + den := by exact_mod_cast hhigh
    have hnonneg : 0 ≤ unitRoundoff * (num / den : ℚ) := by
      have hroundoff := unitRoundoff_nonneg
      positivity
    have hhalf : |(roundUnits num den : ℚ) - num / den| ≤ 1 / 2 := by
      rw [abs_le, neg_le_sub_iff_le_add, sub_le_iff_le_add, div_le_iff₀ hden',
        ← sub_le_iff_le_add', le_div_iff₀ hden']
      constructor <;> linarith
    linarith
  · have hrelative := abs_roundUnits_sub_le_of_normal hden hnormal
    linarith

/-- A whole number of units is off by one part in 2⁵³ at most, for a short one is kept. -/
theorem abs_roundUnits_one_sub_le (num : Nat) :
    |(roundUnits num 1 : ℚ) - num| ≤ unitRoundoff * num := by
  rcases Nat.lt_or_ge num (2 ^ precision) with hshort | hlong
  · have hkept : roundUnits num 1 = num := by
      have hself := roundUnits_mul_self Nat.one_pos
        (show spacing num ∣ num by rw [spacing_eq_one hshort]; exact Nat.one_dvd num)
      rwa [Nat.mul_one] at hself
    rw [hkept, sub_self, abs_zero]
    exact mul_nonneg unitRoundoff_nonneg (Nat.cast_nonneg num)
  · have hnormal : 2 ^ (precision - 1) * 1 ≤ num :=
      Nat.le_trans (by decide) hlong
    simpa only [Nat.cast_one, div_one] using abs_roundUnits_sub_le_of_normal Nat.one_pos hnormal

end Rounding

end CommaCalc
