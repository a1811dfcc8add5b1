import CommaCalc.Proofs.Binary64.Integer
import CommaCalc.Proofs.Decimal.Spelled

/-!
# Whole numbers are printed in full

The shortest decimal of a whole number is one, and up to 2⁵³ no other whole number lies in the
interval of its double, except next to 2⁵³ itself, which is nearer.  So such a double is
printed as the digits of its integer; only a negative zero has a sign that the integer has not.
-/

namespace CommaCalc

open Rounding

attribute [local instance (high)] instPowNat

namespace Magnitude

variable {m : Magnitude} {n : Nat}

/-- On a grid of units, only one point lies within half a unit of another. -/
private theorem eq_of_bounds {k unit scale below above : Nat} (hunit : 0 < unit * scale)
    (hbelow : below ≤ unit) (habove : above ≤ unit)
    (hlow : 2 * (n * unit) * scale ≤ 2 * (k * unit * scale) + below * scale)
    (hhigh : 2 * (k * unit * scale) ≤ (2 * (n * unit) + above) * scale) : k = n := by
  have hbelow := Nat.mul_le_mul_right scale hbelow
  have habove := Nat.mul_le_mul_right scale habove
  rw [Nat.mul_assoc] at hlow
  rw [Nat.add_mul, Nat.mul_assoc 2] at hhigh
  rcases Nat.lt_trichotomy k n with hlt | heq | hgt
  · have hstep := Nat.mul_le_mul_right (unit * scale) hlt
    rw [Nat.succ_mul, ← Nat.mul_assoc, ← Nat.mul_assoc] at hstep
    omega
  · exact heq
  · have hstep := Nat.mul_le_mul_right (unit * scale) hgt
    rw [Nat.succ_mul, ← Nat.mul_assoc, ← Nat.mul_assoc] at hstep
    omega

/-- At 2⁵³ the next whole number reads back as well. -/
private theorem shortestTicks_two_pow (hm : m.units = 2 ^ precision * unitsPerOne) :
    m.shortestTicks = 2 ^ precision * 10 ^ decimalPlaces := by
  have heq : m = Binary64.wholeMagnitude 1 precision (by decide) (by decide) := by
    apply Magnitude.ext
    rw [hm, Binary64.wholeMagnitude_units, Nat.one_mul]
  rw [heq]
  decide +kernel

/-- The shortest decimal of a whole number up to 2⁵³ is that number. -/
theorem shortestTicks_of_units (hn : n ≤ 2 ^ precision) (hm : m.units = n * unitsPerOne) :
    m.shortestTicks = n * 10 ^ decimalPlaces := by
  rcases Nat.lt_or_eq_of_le hn with hlt | rfl
  · have hrange : m.units < 2 ^ precision * unitsPerOne := by
      rw [hm]
      exact Nat.mul_lt_mul_of_pos_right hlt unitsPerOne_pos
    have hbelow := Nat.le_of_dvd unitsPerOne_pos
      (spacing_dvd_unitsPerOne (Nat.lt_of_le_of_lt (Nat.sub_le m.units 1) hrange))
    have habove := Nat.le_of_dvd unitsPerOne_pos (spacing_dvd_unitsPerOne hrange)
    have hwhole : m.IsWhole := by
      rw [IsWhole, hm]
      exact Nat.dvd_mul_left ..
    obtain ⟨k, hk⟩ := m.ten_pow_dvd_shortestTicks hwhole
    rw [Nat.mul_comm] at hk
    obtain ⟨hlow, hhigh⟩ := m.bounds_shortestTicks
    rw [hk, ← whole_mul_ticks, hm] at hlow hhigh
    rw [hm] at hbelow habove
    rw [hk, eq_of_bounds (Nat.mul_pos unitsPerOne_pos ticksPerUnit_pos) hbelow habove hlow hhigh]
  · exact shortestTicks_two_pow hm

end Magnitude

/-- A whole number of ones is written without a comma. -/
theorem ticksText_whole (n : Nat) : ticksText (n * 10 ^ decimalPlaces) = Nat.toDigits 10 n := by
  have hpos : 0 < 10 ^ decimalPlaces := Nat.pow_pos (by decide)
  rw [ticksText, Nat.mul_div_cancel n hpos, Nat.mul_mod_left, fractionDigits_zero]

namespace Binary64

variable {x : Binary64} {negative : Bool} {n : Nat}

theorem IsInteger.decimalChars_eq (hx : x.IsInteger negative n) (hn : n ≤ 2 ^ precision) :
    x.decimalChars = minusChars (signBlanks negative) ++ Nat.toDigits 10 n := by
  obtain ⟨m, rfl, hm⟩ := hx
  rw [decimalChars_finite, Magnitude.shortestTicks_of_units hn hm, ticksText_whole]

/-- The text of an integer is its digits behind its sign. -/
theorem toList_toString_signedValue (negative : Bool) {n : Nat} (hn : n ≠ 0) :
    (toString (signedValue negative n)).toList =
      minusChars (signBlanks negative) ++ Nat.toDigits 10 n := by
  have hdigits : ∀ k : Nat, (toString k).toList = Nat.toDigits 10 k := fun k => by simp
  cases negative with
  | false => exact hdigits n
  | true =>
    obtain ⟨k, rfl⟩ := Nat.exists_eq_succ_of_ne_zero hn
    have htext : toString (signedValue true (k + 1)) = "-" ++ toString (k + 1) := rfl
    rw [Nat.succ_eq_add_one, htext, String.toList_append, hdigits]
    rfl

/-- A double of an integer is printed as the integer, but for the sign of a zero. -/
theorem Represents.decimalText_eq {c : Int} {zeroSign : Bool} (hx : x.Represents c zeroSign)
    (hc : c.natAbs ≤ 2 ^ precision) :
    x.decimalText = if c = 0 ∧ zeroSign = true then "-0" else toString c := by
  obtain ⟨negative, hinteger, hsigned, hzero⟩ := hx
  rw [decimalText, hinteger.decimalChars_eq hc]
  by_cases hcZero : c = 0
  · obtain rfl := hzero hcZero
    subst hcZero
    cases negative <;> rfl
  · have htext := toList_toString_signedValue negative (Int.natAbs_ne_zero.mpr hcZero)
    rw [hsigned] at htext
    rw [if_neg fun h => hcZero h.1, ← htext, String.ofList_toList]

end Binary64

end CommaCalc
