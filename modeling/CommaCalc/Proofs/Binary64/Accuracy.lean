import CommaCalc.Proofs.Binary64.Fraction

/-!
# How far a number is from its digits

A whole number is rounded once.  The digits of a fraction are rounded once, their power of
ten up to nineteen times and the quotient once more, and the quotient can be subnormal; a
power that has become infinite leaves nothing of a fraction that is below 10⁻²⁷⁰.  All of it
is bounded by one relative and one absolute error, and a further rounding adds to both.
-/

namespace CommaCalc

open Rounding

attribute [local instance (high)] instPowNat

/-- What is off by a relative and an absolute error stays so when it is rounded.  As long as
the relative error is below 1, a rounding costs less than two parts in 2⁵³. -/
theorem abs_sub_le_of_rounded {exact before after slack unit : ℚ} {roundings : ℕ}
    (hexact : 0 ≤ exact) (hslack : 0 ≤ slack) (hfew : roundings * unitRoundoff ≤ 1)
    (hbefore : |before - exact| ≤ roundings * unitRoundoff * exact + slack)
    (hafter : |after - before| ≤ unitRoundoff * before + unit) :
    |after - exact| ≤ (roundings + 2) * unitRoundoff * exact + 2 * slack + unit := by
  have hroundoff := unitRoundoff_nonneg
  have htwice : before ≤ 2 * exact + slack := by
    have hrelative := mul_le_mul_of_nonneg_right hfew hexact
    linarith [(abs_le.mp hbefore).2]
  have hcost : unitRoundoff * before ≤ 2 * unitRoundoff * exact + slack :=
    calc unitRoundoff * before ≤ unitRoundoff * (2 * exact + slack) := by gcongr
      _ = 2 * unitRoundoff * exact + unitRoundoff * slack := by ring
      _ ≤ 2 * unitRoundoff * exact + slack := by
        have hless := mul_le_mul_of_nonneg_right unitRoundoff_le_one hslack
        linarith
  calc |after - exact| ≤ |after - before| + |before - exact| := abs_sub_le after before exact
    _ ≤ unitRoundoff * before + unit + (roundings * unitRoundoff * exact + slack) :=
      add_le_add hafter hbefore
    _ ≤ (roundings + 2) * unitRoundoff * exact + 2 * slack + unit := by linarith

/-- Half the least double is next to nothing. -/
theorem half_unit_le : (1 / (2 * unitsPerOne) : ℚ) ≤ 1 / 10 ^ 270 := by
  have hunits : 10 ^ 270 ≤ 2 * unitsPerOne := by decide +kernel
  have hcast : (10 ^ 270 : ℚ) ≤ 2 * unitsPerOne := by exact_mod_cast hunits
  exact one_div_le_one_div_of_le (by positivity) hcast

/-- A fraction that is lost is below 10⁻²⁷⁰. -/
theorem fraction_le_of_long {value digits : Nat} (hlimit : value < numeralLimit)
    (hlong : 309 ≤ digits) : (value / 10 ^ digits : ℚ) ≤ 1 / 10 ^ 270 := by
  have hvalue : (value : ℚ) ≤ 10 ^ 39 := by
    have hle : value ≤ 10 ^ 39 := Nat.le_trans hlimit.le (by decide)
    exact_mod_cast hle
  have hpower : (10 : ℚ) ^ 309 ≤ 10 ^ digits := pow_le_pow_right₀ (by norm_num) hlong
  calc (value / 10 ^ digits : ℚ) ≤ 10 ^ 39 / 10 ^ 309 := by gcongr
    _ = 1 / 10 ^ 270 := by
        rw [div_eq_div_iff (by positivity) (by positivity), one_mul, ← pow_add]

namespace Magnitude

variable {m : Magnitude}

/-- A whole number of units is rounded. -/
theorem abs_toRat_sub_le {units : Nat} (hm : m.units = roundUnits units 1) :
    |m.toRat - units / unitsPerOne| ≤ unitRoundoff * (units / unitsPerOne) := by
  have hone := cast_unitsPerOne_pos
  rw [toRat, hm, ← sub_div, abs_div, abs_of_pos hone, ← mul_div_assoc]
  exact div_le_div_of_nonneg_right (abs_roundUnits_one_sub_le units) hone.le

/-- A quotient of two magnitudes is rounded. -/
theorem abs_toRat_sub_div_le {a b : Magnitude} (hb : 0 < b.units)
    (hm : m.units = roundUnits (a.units * unitsPerOne) b.units) :
    |m.toRat - a.toRat / b.toRat| ≤
      unitRoundoff * (a.toRat / b.toRat) + 1 / (2 * unitsPerOne) := by
  have hone := cast_unitsPerOne_pos
  have hbUnits : (0 : ℚ) < b.units := Nat.cast_pos.mpr hb
  have hquotient : a.toRat / b.toRat = (a.units * unitsPerOne : ℕ) / b.units / unitsPerOne := by
    rw [toRat, toRat]
    push_cast
    field_simp
  have hslack : (1 / (2 * unitsPerOne) : ℚ) = 1 / 2 / unitsPerOne := by rw [div_div]
  rw [toRat, hm, hquotient, hslack, ← sub_div, abs_div, abs_of_pos hone, ← mul_div_assoc,
    ← add_div]
  exact div_le_div_of_nonneg_right (abs_roundUnits_sub_le _ hb) hone.le

end Magnitude

namespace Binary64

theorem units_of_ofRatio {negative sign : Bool} {num den : Nat} {m : Magnitude}
    (hm : ofRatio negative num den = .finite sign m) : m.units = roundUnits num den := by
  rw [ofRatio] at hm
  split at hm
  · cases hm
    rfl
  · cases hm

/-- A whole number that is read is rounded once. -/
theorem exists_ofNat_near {value : Nat} (hvalue : value ≤ numeralLimit) :
    ∃ m : Magnitude, ofNat value = .finite false m ∧ m.units ≤ numeralLimit * unitsPerOne ∧
      |m.toRat - value| ≤ unitRoundoff * value := by
  obtain ⟨m, hm, hunits, hlimit⟩ := exists_ofNat_of_le hvalue
  have hnear := Magnitude.abs_toRat_sub_le hunits
  rw [Nat.cast_mul, mul_div_cancel_right₀ _ cast_unitsPerOne_pos.ne'] at hnear
  exact ⟨m, hm, hlimit, hnear⟩

theorem units_of_add {a b m : Magnitude} {sign : Bool}
    (hm : add (.finite false a) (.finite false b) = .finite sign m) :
    m.units = roundUnits (a.units + b.units) 1 := by
  rw [add, if_pos rfl] at hm
  exact units_of_ofRatio hm

/-- A sum is rounded once. -/
theorem abs_add_sub_le {a b m : Magnitude} {sign : Bool}
    (hm : add (.finite false a) (.finite false b) = .finite sign m) :
    |m.toRat - (a.toRat + b.toRat)| ≤ unitRoundoff * (a.toRat + b.toRat) := by
  have hnear := Magnitude.abs_toRat_sub_le (units_of_add hm)
  rwa [Nat.cast_add, add_div] at hnear

/-- A quotient by a power that was rounded nineteen times. -/
theorem abs_div_sub_le {a b value power : ℚ} (hvalue : 0 ≤ value) (hpower : 0 < power)
    (ha : |a - value| ≤ unitRoundoff * value) (hlow : power * (1 - unitRoundoff) ^ 19 ≤ b)
    (hhigh : b ≤ power * (1 + unitRoundoff) ^ 19) :
    |a / b - value / power| ≤ 21 * unitRoundoff * (value / power) := by
  obtain ⟨haLow, haHigh⟩ := abs_le.mp ha
  have hfactor : 0 < (1 - unitRoundoff) ^ 19 := by norm_num [unitRoundoff]
  have hb : 0 < b := (mul_pos hpower hfactor).trans_le hlow
  have hupper : a / b ≤ (1 + 21 * unitRoundoff) * (value / power) := by
    rw [← mul_div_assoc, div_le_div_iff₀ hb hpower]
    calc a * power ≤ (1 + unitRoundoff) * value * power := by
          gcongr
          linarith
      _ ≤ (1 + 21 * unitRoundoff) * (1 - unitRoundoff) ^ 19 * value * power := by
          gcongr
          norm_num [unitRoundoff]
      _ = (1 + 21 * unitRoundoff) * value * (power * (1 - unitRoundoff) ^ 19) := by ring
      _ ≤ (1 + 21 * unitRoundoff) * value * b := by
          have hroundoff := unitRoundoff_nonneg
          gcongr
  have hlower : (1 - 21 * unitRoundoff) * (value / power) ≤ a / b := by
    rw [← mul_div_assoc, div_le_div_iff₀ hpower hb]
    calc (1 - 21 * unitRoundoff) * value * b
        ≤ (1 - 21 * unitRoundoff) * value * (power * (1 + unitRoundoff) ^ 19) := by
          have hfew : 0 ≤ 1 - 21 * unitRoundoff := by norm_num [unitRoundoff]
          gcongr
      _ = (1 - 21 * unitRoundoff) * (1 + unitRoundoff) ^ 19 * value * power := by ring
      _ ≤ (1 - unitRoundoff) * value * power := by
          gcongr
          norm_num [unitRoundoff]
      _ ≤ a * power := by
          gcongr
          linarith
  rw [abs_le]
  constructor <;> linarith

/-- Up to nineteen roundings keep a power within the factors of nineteen. -/
theorem exists_tenPower_near {exponent : Nat} (hexponent : exponent ≤ 308) :
    ∃ m : Magnitude, tenPower exponent = .finite false m ∧ unitsPerOne ≤ m.units ∧
      10 ^ exponent * (1 - unitRoundoff) ^ 19 ≤ m.toRat ∧
      m.toRat ≤ 10 ^ exponent * (1 + unitRoundoff) ^ 19 := by
  obtain ⟨m, hm, hone, hlow, hhigh⟩ := exists_tenPower_of_le hexponent
  have hroundings : exponent / 16 ≤ 19 := by omega
  refine ⟨m, hm, hone, le_trans ?_ hlow, hhigh.trans ?_⟩
  · have hless := pow_le_pow_of_le_one one_sub_unitRoundoff_nonneg
      (sub_le_self 1 unitRoundoff_nonneg) hroundings
    gcongr
  · have hmore := pow_le_pow_right₀ one_le_one_add_unitRoundoff hroundings
    gcongr

/-- The digits of a fraction over their power of ten are off by few roundings, and by nearly
nothing if the quotient is subnormal or lost. -/
theorem exists_ofFraction_near {value digits : Nat} (hvalue : value < 10 ^ digits)
    (hlimit : value < numeralLimit) :
    ∃ m : Magnitude, ofFraction value digits = .finite false m ∧ m.units ≤ unitsPerOne ∧
      |m.toRat - value / 10 ^ digits| ≤
        23 * unitRoundoff * (value / 10 ^ digits) + 1 / 10 ^ 270 := by
  obtain ⟨m, hm, hmOne, hmZero⟩ := exists_ofFraction hvalue hlimit
  refine ⟨m, hm, hmOne, ?_⟩
  have hexact : (0 : ℚ) ≤ value / 10 ^ digits := by positivity
  rcases Nat.lt_or_ge 308 digits with hlong | hshort
  · have hlost : m.toRat = 0 := by
      rw [Magnitude.toRat, hmZero.mpr (.inr hlong), Nat.cast_zero, zero_div]
    have hroundoff := unitRoundoff_nonneg
    rw [hlost, zero_sub, abs_neg, abs_of_nonneg hexact]
    exact (fraction_le_of_long hlimit hlong).trans (le_add_of_nonneg_left (by positivity))
  · obtain ⟨a, ha, -, haNear⟩ := exists_ofNat_near hlimit.le
    obtain ⟨b, hb, hbOne, hbLow, hbHigh⟩ := exists_tenPower_near hshort
    have hbPos : 0 < b.units := Nat.lt_of_lt_of_le unitsPerOne_pos hbOne
    have hmin : min digits maxTenExponent = digits :=
      Nat.min_eq_left (Nat.le_trans hshort (by decide))
    rw [ofFraction, hmin, ha, hb, div, if_neg hbPos.ne'] at hm
    have hdivided := Magnitude.abs_toRat_sub_div_le hbPos (units_of_ofRatio hm)
    have hquotient := abs_div_sub_le (Nat.cast_nonneg value) (by positivity) haNear hbLow hbHigh
    rw [← add_zero (21 * unitRoundoff * _)] at hquotient
    have hnear := abs_sub_le_of_rounded hexact le_rfl (by norm_num [unitRoundoff])
      (by exact_mod_cast hquotient : _ ≤ (21 : ℕ) * unitRoundoff * _ + 0) hdivided
    have hroundings : ((21 : ℕ) : ℚ) + 2 = 23 := by norm_num
    rw [hroundings, mul_zero, add_zero] at hnear
    exact hnear.trans (add_le_add le_rfl half_unit_le)

end Binary64

end CommaCalc
