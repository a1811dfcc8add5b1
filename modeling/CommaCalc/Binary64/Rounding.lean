/-!
# Rounding to 53 leading bits

Every finite double is a whole number of *units* of 2⁻¹⁰⁷⁴, the least positive
double.  Counted in units, the doubles below 2⁵³ are all the naturals; from
there on the distance between neighbours doubles at each power of two, so that
53 leading bits are kept.  `spacing` is that distance, and `roundUnits` takes an
exact ratio of units to the nearest double, a tie to the even neighbour.

Working in units keeps all of this in the naturals: there is one rounding, with
no separate treatment of subnormal numbers or of a carry into the next binade.

Powers of naturals are the ones that `Nat` itself defines.  The instance is fixed
in each module that writes one, so that a power means the same whatever else is
imported.
-/

namespace CommaCalc.Rounding

attribute [local instance (high)] instPowNat

/-- The number of leading bits that are kept. -/
def precision : Nat := 53

/-- The whole number nearest to `num / den`; of two equally near, the even one. -/
def nearestEven (num den : Nat) : Nat :=
  let low := num / den
  let twice := 2 * (num % den)
  if twice < den then low
  else if den < twice then low + 1
  else low + low % 2

/-- The distance, in units, from a double of `units` units to the next larger one. -/
def spacing (units : Nat) : Nat :=
  2 ^ (units.log2 + 1 - precision)

/-- The double nearest to `num / den` units, itself counted in units.  The grid
is the one on which the whole part of the ratio lies; rounding up to the next
power of two stays on the grid of that power. -/
def roundUnits (num den : Nat) : Nat :=
  let step := spacing (num / den)
  nearestEven num (den * step) * step

theorem spacing_pos (units : Nat) : 0 < spacing units :=
  Nat.two_pow_pos _

theorem nearestEven_le (num den : Nat) : nearestEven num den ≤ num / den + 1 := by
  unfold nearestEven
  dsimp only
  split
  · omega
  · split <;> omega

/-- At most 53 bits followed by zeros lie on the grid of their own binade. -/
theorem spacing_dvd_mul_two_pow {significand : Nat} (exponent : Nat)
    (hsignificand : significand ≤ 2 ^ precision) :
    spacing (significand * 2 ^ exponent) ∣ significand * 2 ^ exponent := by
  rcases Nat.lt_or_eq_of_le hsignificand with hlt | rfl
  · rcases Nat.eq_zero_or_pos significand with rfl | hpos
    · simp
    · have hunits : significand * 2 ^ exponent ≠ 0 :=
        Nat.mul_ne_zero (Nat.ne_of_gt hpos) (Nat.ne_of_gt (Nat.two_pow_pos _))
      have hlog : (significand * 2 ^ exponent).log2 < precision + exponent := by
        rw [Nat.log2_lt hunits, Nat.pow_add]
        exact Nat.mul_lt_mul_of_pos_right hlt (Nat.two_pow_pos _)
      exact Nat.dvd_trans (Nat.pow_dvd_pow 2 (by omega)) (Nat.dvd_mul_left _ _)
  · rw [← Nat.pow_add, spacing, Nat.log2_two_pow]
    exact Nat.pow_dvd_pow 2 (by unfold precision; omega)

theorem div_spacing_lt (units : Nat) : units / spacing units < 2 ^ precision := by
  rw [Nat.div_lt_iff_lt_mul (spacing_pos units), spacing, ← Nat.pow_add]
  exact Nat.lt_of_lt_of_le Nat.lt_log2_self (Nat.pow_le_pow_right (by decide) (by omega))

/-- What rounding returns is a double: it keeps 53 leading bits. -/
theorem spacing_dvd_roundUnits (num den : Nat) :
    spacing (roundUnits num den) ∣ roundUnits num den := by
  refine spacing_dvd_mul_two_pow _ ?_
  have hle := nearestEven_le num (den * spacing (num / den))
  have hlt := div_spacing_lt (num / den)
  rw [Nat.div_div_eq_div_mul] at hlt
  exact Nat.le_trans hle hlt

end CommaCalc.Rounding
