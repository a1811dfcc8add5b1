import CommaCalc.Proofs.Binary64.Power
import CommaCalc.Text.Numeral

/-!
# A fraction lies between 0 and 1

The digits of a fraction are a whole number below their power of ten, but both are
rounded before the division, so that the quotient could exceed 1.  It does not: up to
10³⁸ no smaller whole number is rounded past the power, and from 10³⁹ on the powers exceed
every number that is read.  The quotient is 0 only if the digits are, or if the power is
infinite, for the least quotient of a positive number by a finite power is still far above
the least double.
-/

namespace CommaCalc

open Rounding

attribute [local instance (high)] instPowNat

/-- The powers of two are doubles. -/
theorem spacing_two_pow_mul_dvd (exponent : Nat) :
    spacing (2 ^ exponent * unitsPerOne) ∣ 2 ^ exponent * unitsPerOne := by
  have hdvd := spacing_dvd_mul_two_pow (exponent + unitExponent)
    (Nat.one_le_two_pow (n := precision))
  rw [Nat.one_mul, Nat.pow_add] at hdvd
  unfold unitsPerOne
  exact hdvd

theorem two_pow_mul_unitsPerOne_lt {exponent : Nat} (hexponent : exponent < 1024) :
    2 ^ exponent * unitsPerOne < overflowUnits := by
  unfold unitsPerOne overflowUnits
  rw [← Nat.pow_add]
  exact Nat.pow_lt_pow_right (by decide) (by unfold unitExponent overflowExponent; omega)

theorem overflowUnits_le : overflowUnits ≤ unitsPerOne * unitsPerOne := by
  unfold unitsPerOne overflowUnits
  rw [← Nat.pow_add]
  exact Nat.pow_le_pow_right (by decide) (by decide)

/-- Nothing is rounded to nothing, and a ratio of at least one unit to something. -/
theorem Rounding.roundUnits_eq_zero_iff {num den : Nat} (hden : 0 < den)
    (hnum : num = 0 ∨ den ≤ num) : roundUnits num den = 0 ↔ num = 0 := by
  constructor
  · intro hzero
    refine hnum.resolve_right fun hle => ?_
    have hpos : 1 ≤ roundUnits num den :=
      le_roundUnits hden (Nat.dvd_refl 1) (by rwa [Nat.one_mul])
    exact absurd hzero (Nat.ne_of_gt hpos)
  · rintro rfl
    exact Nat.le_zero.mp (roundUnits_le hden (Nat.dvd_zero _) (Nat.zero_le _))

namespace Binary64

/-- A ratio that is rounded below 2¹⁰²⁴ is finite. -/
theorem exists_ofRatio (negative : Bool) {num den : Nat}
    (hrange : roundUnits num den < overflowUnits) :
    ∃ m : Magnitude, ofRatio negative num den = .finite negative m ∧ m.units = roundUnits num den :=
  ⟨_, dif_pos hrange, rfl⟩

/-- A ratio up to a power of two is rounded to a double up to it. -/
theorem exists_ofRatio_le (negative : Bool) {num den exponent : Nat} (hden : 0 < den)
    (hle : num ≤ 2 ^ exponent * unitsPerOne * den) (hexponent : exponent < 1024) :
    ∃ m : Magnitude, ofRatio negative num den = .finite negative m ∧
      m.units = roundUnits num den ∧ m.units ≤ 2 ^ exponent * unitsPerOne := by
  have hround := roundUnits_le hden (spacing_two_pow_mul_dvd exponent) hle
  obtain ⟨m, hm, hunits⟩ := exists_ofRatio negative
    (Nat.lt_of_le_of_lt hround (two_pow_mul_unitsPerOne_lt hexponent))
  exact ⟨m, hm, hunits, hunits ▸ hround⟩

/-- A whole number up to 2¹²⁸ is rounded to a double up to 2¹²⁸. -/
theorem exists_ofNat_of_le {value : Nat} (hvalue : value ≤ numeralLimit) :
    ∃ m : Magnitude, ofNat value = .finite false m ∧
      m.units = roundUnits (value * unitsPerOne) 1 ∧ m.units ≤ numeralLimit * unitsPerOne := by
  refine exists_ofRatio_le false Nat.one_pos ?_ (by decide)
  rw [Nat.mul_one]
  exact Nat.mul_le_mul_right _ hvalue

/-- A whole number other than 0 is not rounded below 1. -/
theorem unitsPerOne_le_roundUnits {value : Nat} (hvalue : value ≠ 0) :
    unitsPerOne ≤ roundUnits (value * unitsPerOne) 1 := by
  refine le_roundUnits Nat.one_pos spacing_unitsPerOne_dvd ?_
  rw [Nat.mul_one]
  exact Nat.le_mul_of_pos_left _ (Nat.pos_of_ne_zero hvalue)

theorem roundUnits_whole_eq_zero_iff {value : Nat} :
    roundUnits (value * unitsPerOne) 1 = 0 ↔ value = 0 := by
  constructor
  · intro hzero
    by_contra hne
    have hle := unitsPerOne_le_roundUnits hne
    rw [hzero] at hle
    exact Nat.not_lt.mpr hle unitsPerOne_pos
  · rintro rfl
    rw [Nat.zero_mul]
    exact (roundUnits_eq_zero_iff Nat.one_pos (.inl rfl)).mpr rfl

/-- A whole number is short of the midpoint above the double. -/
def Covers (x : Binary64) (value : Nat) : Bool :=
  match x with
  | .finite _ m => decide (2 * (value * unitsPerOne) < 2 * m.units + spacing m.units)
  | _ => true

/-- As far as a power of ten is within the numbers that are read, no smaller whole number
is rounded past it.  The power itself may lie at the midpoint, as 10²³ does. -/
theorem covers_tenPower {exponent : Nat} (hexponent : exponent ≤ 38) :
    (tenPower exponent).Covers (10 ^ exponent - 1) = true := by
  have hall : ∀ n : Fin 39, (tenPower n).Covers (10 ^ (n : Nat) - 1) = true := by decide +kernel
  exact hall ⟨exponent, by omega⟩

/-- Beyond, a power exceeds the numbers that are read, however it is rounded. -/
theorem limit_le_tenPower {exponent : Nat} (hexponent : 39 ≤ exponent) (hmax : exponent ≤ 308)
    {m : Magnitude} (hm : tenPower exponent = .finite false m) :
    numeralLimit * unitsPerOne ≤ m.units := by
  have happrox := tenPower_approximates exponent
  rw [hm] at happrox
  have hroundings : (1 / 2 : ℚ) ≤ (1 - unitRoundoff) ^ (exponent / 16) :=
    calc (1 / 2 : ℚ) ≤ (1 - unitRoundoff) ^ 19 := by norm_num [unitRoundoff]
      _ ≤ (1 - unitRoundoff) ^ (exponent / 16) :=
        pow_le_pow_of_le_one one_sub_unitRoundoff_nonneg (sub_le_self 1 unitRoundoff_nonneg)
          (by omega)
  have hlarge : (numeralLimit : ℚ) ≤ m.toRat :=
    calc (numeralLimit : ℚ) ≤ 10 ^ 39 * (1 / 2) := by norm_num [numeralLimit, numeralBits]
      _ ≤ 10 ^ exponent * (1 - unitRoundoff) ^ (exponent / 16) := by
        gcongr
        norm_num
      _ ≤ m.toRat := happrox.2.1
  rw [Magnitude.toRat, le_div_iff₀ cast_unitsPerOne_pos] at hlarge
  exact_mod_cast hlarge

/-- Digits are not rounded past their power of ten. -/
theorem roundUnits_le_tenPower {value digits : Nat} (hvalue : value < 10 ^ digits)
    (hlimit : value < numeralLimit) (hdigits : digits ≤ 308) {m : Magnitude}
    (hm : tenPower digits = .finite false m) : roundUnits (value * unitsPerOne) 1 ≤ m.units := by
  rcases Nat.lt_or_ge 38 digits with hlong | hshort
  · refine roundUnits_le Nat.one_pos m.spacing_dvd ?_
    rw [Nat.mul_one]
    exact Nat.le_trans (Nat.mul_le_mul_right _ hlimit.le) (limit_le_tenPower hlong hdigits hm)
  · have hcovers := covers_tenPower hshort
    rw [hm, Covers, decide_eq_true_iff] at hcovers
    refine roundUnits_le_of_lt Nat.one_pos m.spacing_dvd ?_
    rw [Nat.mul_one]
    refine Nat.lt_of_le_of_lt (Nat.mul_le_mul_left 2 ?_) hcovers
    exact Nat.mul_le_mul_right _ (Nat.le_sub_one_of_lt hvalue)

theorem exists_zero (negative : Bool) :
    ∃ m : Magnitude, zero negative = .finite negative m ∧ m.units = 0 :=
  ⟨_, rfl, rfl⟩

/-- A whole number over a power that is not below it lies between 0 and 1, and is not lost
unless it is 0. -/
private theorem exists_finite_div {a b : Magnitude} (ha : a.units = 0 ∨ unitsPerOne ≤ a.units)
    (hb : unitsPerOne ≤ b.units) (hle : a.units ≤ b.units) :
    ∃ m : Magnitude, div (.finite false a) (.finite false b) = .finite false m ∧
      m.units ≤ unitsPerOne ∧ (m.units = 0 ↔ a.units = 0) := by
  have hpos : 0 < b.units := Nat.lt_of_lt_of_le unitsPerOne_pos hb
  have hone : roundUnits (a.units * unitsPerOne) b.units ≤ unitsPerOne := by
    refine roundUnits_le hpos spacing_unitsPerOne_dvd ?_
    rw [Nat.mul_comm]
    exact Nat.mul_le_mul_left _ hle
  have hzero : a.units * unitsPerOne = 0 ∨ b.units ≤ a.units * unitsPerOne := by
    refine ha.imp (fun hzero => by rw [hzero, Nat.zero_mul]) fun hunits => ?_
    calc b.units ≤ overflowUnits := b.inRange.le
      _ ≤ unitsPerOne * unitsPerOne := overflowUnits_le
      _ ≤ a.units * unitsPerOne := Nat.mul_le_mul_right _ hunits
  obtain ⟨m, hm, hunits⟩ := exists_ofRatio false
    (Nat.lt_of_le_of_lt hone unitsPerOne_lt_overflowUnits)
  refine ⟨m, ?_, hunits ▸ hone, ?_⟩
  · rw [div, if_neg hpos.ne', bne_self_eq_false, hm]
  · rw [hunits, roundUnits_eq_zero_iff hpos hzero, Nat.mul_eq_zero,
      or_iff_left unitsPerOne_pos.ne']

/-- The quotient of the digits by their power of ten lies between 0 and 1.  It is 0
exactly if the digits are or if the power is infinite. -/
theorem exists_ofFraction {value digits : Nat} (hvalue : value < 10 ^ digits)
    (hlimit : value < numeralLimit) :
    ∃ m, ofFraction value digits = .finite false m ∧ m.units ≤ unitsPerOne ∧
      (m.units = 0 ↔ value = 0 ∨ 309 ≤ digits) := by
  obtain ⟨a, ha, haUnits, -⟩ := exists_ofNat_of_le hlimit.le
  rcases Nat.lt_or_ge 308 digits with hlong | hshort
  · have hmin : 309 ≤ min digits maxTenExponent := Nat.le_min.mpr ⟨hlong, by decide⟩
    obtain ⟨m, hm, hunits⟩ := exists_zero false
    refine ⟨m, ?_, ?_, iff_of_true hunits (.inr hlong)⟩
    · rw [ofFraction, ha, tenPower_of_ge hmin]
      exact hm
    · rw [hunits]
      exact Nat.zero_le _
  · obtain ⟨b, hb, hbOne, -, -⟩ := exists_tenPower_of_le hshort
    have hmin : min digits maxTenExponent = digits :=
      Nat.min_eq_left (Nat.le_trans hshort (by decide))
    have hzero : a.units = 0 ↔ value = 0 := by rw [haUnits, roundUnits_whole_eq_zero_iff]
    have hcases : a.units = 0 ∨ unitsPerOne ≤ a.units := by
      rw [or_iff_not_imp_left, hzero, haUnits]
      exact unitsPerOne_le_roundUnits
    have hle : a.units ≤ b.units := by
      rw [haUnits]
      exact roundUnits_le_tenPower hvalue hlimit hshort hb
    obtain ⟨m, hm, hmOne, hmZero⟩ := exists_finite_div hcases hbOne hle
    refine ⟨m, ?_, hmOne, ?_⟩
    · rw [ofFraction, hmin, ha, hb, hm]
    · rw [hmZero, hzero, or_iff_left (by omega)]

end Binary64

end CommaCalc
