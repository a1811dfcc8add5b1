import CommaCalc.Binary64.Basic

/-!
# The shortest decimal that reads back

A double is a whole number of units of 2⁻¹⁰⁷⁴, so it is exact in 1075 decimal
places, and so is the midpoint between it and either neighbour.  Counting in
units of 10⁻¹⁰⁷⁵, which this module calls *ticks*, the value, the interval of
numbers that round to it and every candidate decimal are naturals, and a decimal
has few digits when a high power of ten divides its ticks.

`shortestTicks` searches the grids of multiples of 10ⁿ from the coarsest down.
The first grid with a point in the interval fixes the number of digits; of two
such points the one nearer to the value wins, and a tie goes to the larger.
-/

namespace CommaCalc

open Rounding

attribute [local instance (high)] instPowNat

/-- The decimal places in which every double and every midpoint is exact. -/
def decimalPlaces : Nat := 1075

/-- The number of ticks of 10⁻¹⁰⁷⁵ in half a unit of 2⁻¹⁰⁷⁴. -/
def ticksPerHalfUnit : Nat := 5 ^ decimalPlaces

theorem ticksPerHalfUnit_pos : 0 < ticksPerHalfUnit :=
  Nat.pow_pos (by decide)

attribute [irreducible] ticksPerHalfUnit

namespace Magnitude

/-- The value, in ticks. -/
def ticks (m : Magnitude) : Nat :=
  2 * m.units * ticksPerHalfUnit

/-- The midpoint towards the next smaller double, in ticks.  The gap below a
power of two is that of the binade underneath. -/
def lowerTicks (m : Magnitude) : Nat :=
  (2 * m.units - spacing (m.units - 1)) * ticksPerHalfUnit

/-- The midpoint towards the next larger double, in ticks. -/
def upperTicks (m : Magnitude) : Nat :=
  (2 * m.units + spacing m.units) * ticksPerHalfUnit

/-- Whether the last of the 53 leading bits is zero, so that a tie is rounded to
this number. -/
def isEven (m : Magnitude) : Bool :=
  m.units / spacing m.units % 2 == 0

/-- Whether a decimal, in ticks, is rounded to this number. -/
def readsBack (m : Magnitude) (candidate : Nat) : Bool :=
  if m.isEven then
    decide (m.lowerTicks ≤ candidate) && decide (candidate ≤ m.upperTicks)
  else
    decide (m.lowerTicks < candidate) && decide (candidate < m.upperTicks)

/-- The multiple of `grid` nearest to the value among those that read back.
Only the two neighbours of the value can be it. -/
def nearestOnGrid? (m : Magnitude) (grid : Nat) : Option Nat :=
  let below := m.ticks / grid * grid
  let above := below + grid
  match m.readsBack below, m.readsBack above with
  | true, true => some (if 2 * (m.ticks - below) < grid then below else above)
  | true, false => some below
  | false, true => some above
  | false, false => none

/-- The point on the coarsest grid of multiples of 10ⁿ with `n ≤ exponent` that
has one; the grid of single ticks holds the value itself. -/
def shortestFrom (m : Magnitude) : Nat → Nat
  | 0 => m.ticks
  | exponent + 1 =>
    match m.nearestOnGrid? (10 ^ (exponent + 1)) with
    | some candidate => candidate
    | none => m.shortestFrom exponent

/-- The shortest decimal that reads back, in ticks.  Ten decimal digits carry
more than 33 bits, which bounds the powers of ten up to the upper midpoint. -/
def shortestTicks (m : Magnitude) : Nat :=
  m.shortestFrom ((m.upperTicks.log2 + 1) * 10 / 33)

end Magnitude

end CommaCalc
