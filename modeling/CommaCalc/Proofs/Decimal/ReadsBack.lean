import CommaCalc.Decimal.Shortest
import CommaCalc.Proofs.Binary64.Exact
import CommaCalc.Text.Numeral

/-!
# The shortest decimal reads back

Whatever the search for few digits returns lies in the interval of its double, so it
rounds to that double.  It keeps every power of ten that divides the exact value, so
a whole number is printed as a whole number.  And since the interval of a double
below a power of two ends below that power, the printed whole part stays below 2¹²⁸
exactly for the doubles that do.
-/

namespace CommaCalc

open Rounding

attribute [local instance (high)] instPowNat

theorem ticksPerUnit_pos : 0 < 2 * ticksPerHalfUnit :=
  Nat.mul_pos two_pos ticksPerHalfUnit_pos

/-- The ticks of 1. -/
theorem ten_pow_decimalPlaces :
    10 ^ decimalPlaces = 2 * ticksPerHalfUnit * unitsPerOne := by
  decide +kernel

/-- The ticks of a whole number. -/
theorem whole_mul_ticks (whole : Nat) :
    whole * unitsPerOne * (2 * ticksPerHalfUnit) = whole * 10 ^ decimalPlaces := by
  rw [ten_pow_decimalPlaces, Nat.mul_assoc, Nat.mul_comm unitsPerOne]

namespace Magnitude

variable (m : Magnitude)

theorem le_of_readsBack {m : Magnitude} {candidate : Nat} (h : m.readsBack candidate = true) :
    m.lowerTicks ≤ candidate ∧ candidate ≤ m.upperTicks := by
  unfold readsBack at h
  split at h <;> simp only [Bool.and_eq_true, decide_eq_true_eq] at h <;> omega

theorem lt_of_readsBack {m : Magnitude} {candidate : Nat} (h : m.readsBack candidate = true)
    (hodd : m.units / spacing m.units % 2 = 1) :
    m.lowerTicks < candidate ∧ candidate < m.upperTicks := by
  have heven : m.isEven = false := by simp [isEven, hodd]
  simpa [readsBack, heven] using h

/-- The interval, with the value counted in half units. -/
theorem bounds_of_readsBack {m : Magnitude} {candidate : Nat} (h : m.readsBack candidate = true) :
    2 * m.units * (2 * ticksPerHalfUnit) ≤
        2 * candidate + spacing (m.units - 1) * (2 * ticksPerHalfUnit) ∧
      2 * candidate ≤ (2 * m.units + spacing m.units) * (2 * ticksPerHalfUnit) := by
  obtain ⟨hlow, hhigh⟩ := le_of_readsBack h
  rw [lowerTicks, Nat.sub_mul] at hlow
  rw [upperTicks] at hhigh
  simp only [Nat.mul_left_comm _ 2 ticksPerHalfUnit]
  omega

/-- A decimal that reads back rounds to the double. -/
theorem roundUnits_of_readsBack {m : Magnitude} {candidate : Nat}
    (h : m.readsBack candidate = true) :
    roundUnits candidate (2 * ticksPerHalfUnit) = m.units := by
  obtain ⟨hlow, hhigh⟩ := bounds_of_readsBack h
  refine roundUnits_eq ticksPerUnit_pos m.spacing_dvd hlow hhigh ?_
  intro hodd
  obtain ⟨hlower, hupper⟩ := lt_of_readsBack h hodd
  rw [lowerTicks, Nat.sub_mul] at hlower
  rw [upperTicks] at hupper
  simp only [Nat.mul_left_comm _ 2 ticksPerHalfUnit]
  omega

theorem readsBack_ticks : m.readsBack m.ticks = true := by
  have hlower := Nat.mul_pos (spacing_pos (m.units - 1)) ticksPerHalfUnit_pos
  have hupper := Nat.mul_pos (spacing_pos m.units) ticksPerHalfUnit_pos
  unfold readsBack lowerTicks upperTicks ticks
  rw [Nat.sub_mul, Nat.add_mul]
  split
  · simp only [Bool.and_eq_true, decide_eq_true_eq]
    omega
  · next heven =>
    have hpos : 0 < m.units := by
      refine Nat.pos_of_ne_zero fun hzero => heven ?_
      simp [isEven, hzero]
    have hticks := Nat.mul_pos (Nat.mul_pos two_pos hpos) ticksPerHalfUnit_pos
    simp only [Bool.and_eq_true, decide_eq_true_eq]
    omega

theorem nearestOnGrid?_eq_some {m : Magnitude} {grid candidate : Nat}
    (h : m.nearestOnGrid? grid = some candidate) :
    m.readsBack candidate = true ∧ grid ∣ candidate := by
  have hbelow : grid ∣ m.ticks / grid * grid := Nat.dvd_mul_left ..
  have habove : grid ∣ m.ticks / grid * grid + grid := Nat.dvd_add hbelow (Nat.dvd_refl grid)
  unfold nearestOnGrid? at h
  dsimp only at h
  split at h
  · next h₁ h₂ =>
    simp only [Option.some.injEq] at h
    split at h
    · exact h ▸ ⟨h₁, hbelow⟩
    · exact h ▸ ⟨h₂, habove⟩
  · next h₁ h₂ =>
    simp only [Option.some.injEq] at h
    exact h ▸ ⟨h₁, hbelow⟩
  · next h₁ h₂ =>
    simp only [Option.some.injEq] at h
    exact h ▸ ⟨h₂, habove⟩
  · simp at h

/-- On a grid that holds the value itself, the value is found. -/
theorem nearestOnGrid?_of_dvd {m : Magnitude} {grid : Nat} (hgrid : 0 < grid)
    (hdvd : grid ∣ m.ticks) : m.nearestOnGrid? grid = some m.ticks := by
  have hbelow : m.ticks / grid * grid = m.ticks := Nat.div_mul_cancel hdvd
  simp only [nearestOnGrid?, hbelow, readsBack_ticks, Nat.sub_self, Nat.mul_zero, hgrid,
    if_true]
  cases m.readsBack (m.ticks + grid) <;> rfl

theorem readsBack_shortestFrom (exponent : Nat) :
    m.readsBack (m.shortestFrom exponent) = true := by
  induction exponent with
  | zero => exact m.readsBack_ticks
  | succ exponent ih =>
    rw [shortestFrom]
    split
    · next h => exact (nearestOnGrid?_eq_some h).1
    · exact ih

/-- A power of ten that divides the value divides what is found. -/
theorem ten_pow_dvd_shortestFrom {power : Nat} (hpower : 10 ^ power ∣ m.ticks)
    (exponent : Nat) : 10 ^ power ∣ m.shortestFrom exponent := by
  induction exponent with
  | zero => exact hpower
  | succ exponent ih =>
    rw [shortestFrom]
    split
    · next h =>
      rcases Nat.le_total power (exponent + 1) with hle | hle
      · exact Nat.dvd_trans (Nat.pow_dvd_pow 10 hle) (nearestOnGrid?_eq_some h).2
      · have hgrid := Nat.dvd_trans (Nat.pow_dvd_pow 10 hle) hpower
        rw [nearestOnGrid?_of_dvd (Nat.pow_pos (by decide)) hgrid, Option.some.injEq] at h
        exact h ▸ hpower
    · exact ih

/-- The shortest decimal rounds to its double. -/
theorem roundUnits_shortestTicks :
    roundUnits m.shortestTicks (2 * ticksPerHalfUnit) = m.units :=
  roundUnits_of_readsBack (m.readsBack_shortestFrom _)

/-- The shortest decimal lies in the interval of its double. -/
theorem bounds_shortestTicks :
    2 * m.units * (2 * ticksPerHalfUnit) ≤
        2 * m.shortestTicks + spacing (m.units - 1) * (2 * ticksPerHalfUnit) ∧
      2 * m.shortestTicks ≤ (2 * m.units + spacing m.units) * (2 * ticksPerHalfUnit) :=
  bounds_of_readsBack (m.readsBack_shortestFrom _)

/-- The shortest decimal of a whole number is a whole number. -/
theorem ten_pow_dvd_shortestTicks (hwhole : m.IsWhole) :
    10 ^ decimalPlaces ∣ m.shortestTicks := by
  refine m.ten_pow_dvd_shortestFrom ?_ _
  rw [ten_pow_decimalPlaces, ticks, Nat.mul_assoc, Nat.mul_assoc, Nat.mul_comm m.units]
  exact Nat.mul_dvd_mul_left 2 (Nat.mul_dvd_mul_left _ hwhole)

theorem shortestTicks_lt {exponent : Nat} (hunits : m.units < 2 ^ exponent) :
    m.shortestTicks < 2 * ticksPerHalfUnit * 2 ^ exponent := by
  have hle := (le_of_readsBack (m.readsBack_shortestFrom
    ((m.upperTicks.log2 + 1) * 10 / 33))).2
  have hnext := add_spacing_le_two_pow exponent m.spacing_dvd hunits
  apply Nat.lt_of_le_of_lt hle
  rw [upperTicks, Nat.mul_right_comm]
  exact Nat.mul_lt_mul_of_pos_right (by omega) ticksPerHalfUnit_pos

theorem le_shortestTicks {exponent : Nat} (hunits : 2 ^ exponent < m.units) :
    2 * ticksPerHalfUnit * 2 ^ exponent ≤ m.shortestTicks := by
  have hle := (le_of_readsBack (m.readsBack_shortestFrom
    ((m.upperTicks.log2 + 1) * 10 / 33))).1
  have hpos := Nat.two_pow_pos exponent
  have hpred := two_pow_add_spacing_le m.spacing_dvd (by omega)
  have hlog : exponent ≤ (m.units - 1).log2 := (Nat.le_log2 (by omega)).mpr (by omega)
  have hpow := Nat.pow_le_pow_right two_pos hlog
  refine Nat.le_trans ?_ hle
  rw [lowerTicks, Nat.mul_right_comm]
  exact Nat.mul_le_mul_right _ (by omega)

/-- The double 2¹²⁸ is printed as a number that is larger. -/
private theorem numeralLimit_le_shortestTicks {m : Magnitude}
    (hunits : m.units = numeralLimit * unitsPerOne) :
    numeralLimit ≤ m.shortestTicks / 10 ^ decimalPlaces := by
  have hm : m = Binary64.wholeMagnitude 1 numeralBits (by decide) (by decide) := by
    apply Magnitude.ext
    rw [hunits, Binary64.wholeMagnitude_units, Nat.one_mul, numeralLimit]
  rw [hm]
  decide +kernel

/-- The printed whole part stays below the limit exactly when the double does. -/
theorem shortestTicks_div_lt_iff :
    m.shortestTicks / 10 ^ decimalPlaces < numeralLimit ↔ m.Below numeralLimit := by
  rw [Below]
  have hlimit : numeralLimit * unitsPerOne = 2 ^ (numeralBits + unitExponent) := by
    rw [numeralLimit, unitsPerOne_eq, Nat.pow_add]
  have hticks : numeralLimit * 10 ^ decimalPlaces =
      2 * ticksPerHalfUnit * 2 ^ (numeralBits + unitExponent) := by
    rw [ten_pow_decimalPlaces, ← hlimit, Nat.mul_left_comm]
  have hpos : 0 < 10 ^ decimalPlaces := Nat.pow_pos (by decide)
  rcases Nat.lt_trichotomy m.units (numeralLimit * unitsPerOne) with hlt | heq | hgt
  · refine iff_of_true ((Nat.div_lt_iff_lt_mul hpos).mpr ?_) hlt
    rw [hticks]
    exact m.shortestTicks_lt (hlimit ▸ hlt)
  · apply iff_of_false (Nat.not_lt.mpr (numeralLimit_le_shortestTicks heq))
    rw [heq]
    exact Nat.lt_irrefl _
  · refine iff_of_false (Nat.not_lt.mpr ((Nat.le_div_iff_mul_le hpos).mpr ?_))
      (Nat.not_lt.mpr hgt.le)
    rw [hticks]
    exact m.le_shortestTicks (hlimit ▸ hgt)

/-- A double below 1 is printed below 1. -/
theorem shortestTicks_lt_one (hbelow : m.Below 1) : m.shortestTicks < 10 ^ decimalPlaces := by
  have hunits : m.units < 2 ^ unitExponent := by
    rw [Below, Nat.one_mul, unitsPerOne_eq] at hbelow
    exact hbelow
  rw [ten_pow_decimalPlaces, unitsPerOne_eq]
  exact m.shortestTicks_lt hunits

end Magnitude

end CommaCalc
