import CommaCalc.Binary64.Basic

/-!
# The 64-bit interchange format

Sign bit, eleven bits of exponent, 52 bits of significand.  Read as one number,
the lower 63 bits enumerate the magnitudes in increasing order: with `e` the
exponent of a magnitude's grid, they hold `e * 2⁵² + units / 2ᵉ`, for subnormal
and normal magnitudes alike.
-/

namespace CommaCalc

open Rounding

attribute [local instance (high)] instPowNat

/-- The magnitude of `significand * 2ᵉ` units. -/
def Magnitude.ofParts (significand exponent : Nat) (hsignificand : significand < 2 ^ precision)
    (hexponent : exponent + precision ≤ overflowExponent) : Magnitude where
  units := significand * 2 ^ exponent
  spacing_dvd := spacing_dvd_mul_two_pow exponent (Nat.le_of_lt hsignificand)
  inRange := by
    rw [overflowUnits_eq]
    refine Nat.lt_of_lt_of_le
      (Nat.mul_lt_mul_of_pos_right hsignificand (Nat.two_pow_pos exponent)) ?_
    rw [← Nat.pow_add, Nat.add_comm]
    exact Nat.pow_le_pow_right (by decide) hexponent

namespace Binary64

/-- The sign bit. -/
def signBit : Nat := 0x8000000000000000

/-- The pattern of all exponent bits, that of +∞. -/
def infinityBits : Nat := 0x7FF0000000000000

/-- The NaN pattern that is written: quiet, positive, without payload. -/
def nanBits : Nat := 0x7FF8000000000000

/-- The lowest exponent bit, 2⁵².  It stands where a normal significand has the
leading bit that is not stored. -/
def exponentBit : Nat := 0x0010000000000000

/-- The sign bit of a negative double, and no bit of any other. -/
def signPattern (negative : Bool) : Nat :=
  if negative then signBit else 0

/-- The 64 bits of a double. -/
def toBits : Binary64 → UInt64
  | .nan => UInt64.ofNat nanBits
  | .infinite s => UInt64.ofNat (signPattern s + infinityBits)
  | .finite s a =>
    let exponent := a.units.log2 + 1 - precision
    UInt64.ofNat (signPattern s + exponent * exponentBit + a.units / 2 ^ exponent)

/-- The double with the given 64 bits; every NaN pattern is the one NaN. -/
def ofBits (bits : UInt64) : Binary64 :=
  let negative := decide (signBit ≤ bits.toNat)
  let field := bits.toNat / exponentBit % 2048
  let fraction := bits.toNat % exponentBit
  have hfraction : fraction < exponentBit := Nat.mod_lt _ (by decide)
  have hfield : field < 2048 := Nat.mod_lt _ (by decide)
  have hnormal : exponentBit + fraction < 2 ^ precision := by
    simp only [exponentBit, precision] at hfraction ⊢
    omega
  if hspecial : field = 2047 then
    if fraction = 0 then .infinite negative else .nan
  else if field = 0 then
    .finite negative
      (.ofParts fraction 0 (Nat.lt_of_le_of_lt (Nat.le_add_left _ _) hnormal) (by decide))
  else
    .finite negative
      (.ofParts (exponentBit + fraction) (field - 1) hnormal
        (by simp only [precision, overflowExponent]; omega))

end Binary64

end CommaCalc
