import CommaCalc.Binary64.Rounding

/-!
# Double-precision numbers

A double is not a number, a signed infinity, or a sign with a magnitude that is
counted in units of 2⁻¹⁰⁷⁴.  The two zeros are distinct values, so equality of
the type is equality bit for bit, except that there is a single NaN.  Equality
as numbers is `Binary64.numEq`.

The units in 1 and in 2¹⁰²⁴ are numbers of more than a thousand bits.  They are
irreducible, so that no unification computes them, and are used through their lemmas.
-/

namespace CommaCalc

open Rounding

attribute [local instance (high)] instPowNat

/-- The exponent of the unit 2⁻¹⁰⁷⁴, sign left aside. -/
def unitExponent : Nat := 1074

/-- The number of units in 1. -/
def unitsPerOne : Nat := 2 ^ unitExponent

/-- The exponent of 2¹⁰²⁴, where the finite doubles end, in units. -/
def overflowExponent : Nat := 2098

/-- The number of units in 2¹⁰²⁴. -/
def overflowUnits : Nat := 2 ^ overflowExponent

theorem unitsPerOne_eq : unitsPerOne = 2 ^ unitExponent := rfl

theorem unitsPerOne_pos : 0 < unitsPerOne :=
  Nat.two_pow_pos unitExponent

theorem overflowUnits_eq : overflowUnits = 2 ^ overflowExponent := rfl

theorem overflowUnits_pos : 0 < overflowUnits :=
  Nat.two_pow_pos overflowExponent

attribute [irreducible] unitsPerOne overflowUnits

/-- The absolute value of a finite double, in units of 2⁻¹⁰⁷⁴. -/
structure Magnitude where
  units : Nat
  spacing_dvd : spacing units ∣ units
  inRange : units < overflowUnits
  deriving DecidableEq

/-- A double-precision floating-point number. -/
inductive Binary64 where
  | nan
  | infinite (negative : Bool)
  | finite (negative : Bool) (magnitude : Magnitude)
  deriving DecidableEq

namespace Binary64

/-- The double nearest to `num / den` units under the given sign, a tie to the
even one; a ratio that rounds to 2¹⁰²⁴ or more is infinite. -/
def ofRatio (negative : Bool) (num den : Nat) : Binary64 :=
  if hrange : roundUnits num den < overflowUnits then
    .finite negative ⟨roundUnits num den, spacing_dvd_roundUnits num den, hrange⟩
  else
    .infinite negative

/-- The double nearest to a natural number. -/
def ofNat (value : Nat) : Binary64 :=
  ofRatio false (value * unitsPerOne) 1

/-- The zero of either sign. -/
def zero (negative : Bool) : Binary64 :=
  .finite negative ⟨0, Nat.dvd_zero _, overflowUnits_pos⟩

/-- Equality as numbers: NaN equals nothing, and the two zeros are equal. -/
def numEq : Binary64 → Binary64 → Bool
  | .infinite s, .infinite t => s == t
  | .finite s a, .finite t b => a.units == b.units && (s == t || a.units == 0)
  | _, _ => false

/-- Whether the number is a zero of either sign. -/
def isZero (x : Binary64) : Bool :=
  x.numEq (zero false)

end Binary64

end CommaCalc
