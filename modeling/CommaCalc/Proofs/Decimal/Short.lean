import CommaCalc.Proofs.Binary64.Sum
import CommaCalc.Proofs.Decimal.Spelled

/-!
# Few digits are printed as they are

The interval of a double holds at most one decimal with fifteen digits, for the doubles
stand closer than such decimals do.  The search for few digits stops at the latest when it
comes to the places of that decimal, and what it then finds is a multiple of them, so it is
the decimal itself: a short decimal is printed as the digits that it was read from, less the
zeros that do not count.
-/

namespace CommaCalc

open Rounding

attribute [local instance (high)] instPowNat

namespace Magnitude

variable {m : Magnitude}

theorem le_upperTicks {candidate : Nat}
    (hround : roundUnits candidate (2 * ticksPerHalfUnit) = m.units) :
    candidate ≤ m.upperTicks ∧
      (m.units / spacing m.units % 2 = 1 → candidate < m.upperTicks) := by
  obtain ⟨hle, hodd⟩ := le_of_roundUnits_eq ticksPerUnit_pos m.spacing_dvd hround
  rw [Nat.mul_left_comm] at hle hodd
  rw [upperTicks]
  exact ⟨Nat.le_of_mul_le_mul_left hle two_pos,
    fun h => Nat.lt_of_mul_lt_mul_left (hodd h)⟩

theorem lowerTicks_le {candidate : Nat}
    (hround : roundUnits candidate (2 * ticksPerHalfUnit) = m.units) :
    m.lowerTicks ≤ candidate ∧
      (m.units / spacing m.units % 2 = 1 → m.lowerTicks < candidate) := by
  rcases Nat.eq_zero_or_pos m.units with hzero | hpos
  · rw [lowerTicks, hzero, Nat.mul_zero, Nat.zero_sub, Nat.zero_mul, Nat.zero_div]
    exact ⟨Nat.zero_le _, fun hodd => absurd hodd (by decide)⟩
  · obtain ⟨below, hbelow, hnext⟩ := exists_next_eq m.spacing_dvd hpos
    rw [← hnext] at hround
    obtain ⟨hge, hodd⟩ := ge_of_roundUnits_eq ticksPerUnit_pos hbelow hround
    have hlower : m.lowerTicks = (2 * below + spacing below) * ticksPerHalfUnit := by
      rw [lowerTicks, ← hnext, (next_double hbelow).2.1]
      congr 1
      omega
    rw [Nat.mul_left_comm] at hge hodd
    rw [hlower, ← hnext]
    exact ⟨Nat.le_of_mul_le_mul_left hge two_pos, fun h => Nat.lt_of_mul_lt_mul_left (hodd h)⟩

/-- A decimal that rounds to the double reads back. -/
theorem readsBack_of_roundUnits {candidate : Nat}
    (hround : roundUnits candidate (2 * ticksPerHalfUnit) = m.units) :
    m.readsBack candidate = true := by
  obtain ⟨hhigh, hhighOdd⟩ := le_upperTicks hround
  obtain ⟨hlow, hlowOdd⟩ := lowerTicks_le hround
  rw [readsBack]
  split
  · simp only [hlow, hhigh, decide_true, Bool.and_self]
  · next heven =>
    rw [isEven_iff, Nat.mod_two_not_eq_zero] at heven
    simp only [hlowOdd heven, hhighOdd heven, decide_true, Bool.and_self]

theorem readsBack_of_between {low candidate high : Nat} (hlow : m.readsBack low = true)
    (hhigh : m.readsBack high = true) (hle : low ≤ candidate) (hge : candidate ≤ high) :
    m.readsBack candidate = true := by
  cases heven : m.isEven <;>
    simp only [readsBack, heven, if_true, if_false, Bool.false_eq_true, Bool.and_eq_true,
      decide_eq_true_eq] at hlow hhigh ⊢ <;> omega

variable {candidate : Nat}

/-- A grid with a point that reads back has one next to the value. -/
theorem nearestOnGrid?_ne_none {grid : Nat} (hgrid : 0 < grid)
    (hreads : m.readsBack candidate = true) (hdvd : grid ∣ candidate) :
    m.nearestOnGrid? grid ≠ none := by
  intro hnone
  have hbelow := Nat.div_mul_le_self m.ticks grid
  have habove := Nat.lt_div_mul_add hgrid (a := m.ticks)
  unfold nearestOnGrid? at hnone
  dsimp only at hnone
  split at hnone <;> try exact Option.some_ne_none _ hnone
  next hlow hhigh =>
  rcases Nat.lt_or_ge (m.ticks / grid * grid) candidate with hlt | hge
  · have hnext := add_le_of_dvd (Nat.dvd_mul_left grid (m.ticks / grid)) hdvd hlt
    rw [readsBack_of_between m.readsBack_ticks hreads habove.le hnext] at hhigh
    exact Bool.noConfusion hhigh
  · rw [readsBack_of_between hreads m.readsBack_ticks hge hbelow] at hlow
    exact Bool.noConfusion hlow

/-- The search does not go below the grid of a decimal that reads back. -/
theorem ten_pow_dvd_shortestFrom_of_readsBack {power exponent : Nat}
    (hreads : m.readsBack candidate = true) (hdvd : 10 ^ power ∣ candidate)
    (hpower : power ≤ exponent) : 10 ^ power ∣ m.shortestFrom exponent := by
  induction exponent with
  | zero =>
    rw [Nat.le_zero.mp hpower, Nat.pow_zero]
    exact Nat.one_dvd _
  | succ exponent ih =>
    rw [shortestFrom]
    split
    · next hfound =>
      exact Nat.dvd_trans (Nat.pow_dvd_pow 10 hpower) (nearestOnGrid?_eq_some hfound).2
    · next hnone =>
      refine ih (Nat.le_of_lt_succ (Nat.lt_of_le_of_ne hpower ?_))
      rintro rfl
      exact nearestOnGrid?_ne_none (Nat.pow_pos (by decide)) hreads hdvd hnone

/-- Ten decimal digits carry more than 33 bits. -/
theorem le_bits_of_ten_pow_lt {power bits : Nat} (hlt : 10 ^ power < 2 ^ bits) :
    power ≤ bits * 10 / 33 := by
  by_contra hshort
  have hbits : bits * 10 ≤ 33 * power := by omega
  have hten : (2 ^ 33) ^ power ≤ (10 ^ 10) ^ power := Nat.pow_le_pow_left (by decide) power
  have hpowers : (10 ^ power) ^ 10 < (2 ^ bits) ^ 10 := Nat.pow_lt_pow_left hlt (by decide)
  rw [← Nat.pow_mul, ← Nat.pow_mul, Nat.mul_comm power, Nat.pow_mul] at hpowers
  rw [← Nat.pow_mul] at hten
  have htwo : 2 ^ (bits * 10) ≤ 2 ^ (33 * power) := Nat.pow_le_pow_right two_pos hbits
  omega

/-- The search begins above the places of any decimal that reads back. -/
theorem ten_pow_dvd_shortestTicks_of_readsBack {power : Nat} (hne : candidate ≠ 0)
    (hreads : m.readsBack candidate = true) (hdvd : 10 ^ power ∣ candidate) :
    10 ^ power ∣ m.shortestTicks := by
  refine ten_pow_dvd_shortestFrom_of_readsBack hreads hdvd (le_bits_of_ten_pow_lt ?_)
  calc 10 ^ power ≤ candidate := Nat.le_of_dvd (Nat.pos_of_ne_zero hne) hdvd
    _ ≤ m.upperTicks := (le_of_readsBack hreads).2
    _ < 2 ^ (m.upperTicks.log2 + 1) := Nat.lt_log2_self

/-- On a grid that is wider than the interval, one point at most reads back. -/
theorem eq_of_readsBack_of_dvd {grid a b : Nat}
    (hwidth : 2 * (spacing m.units * ticksPerHalfUnit) < grid) (ha : m.readsBack a = true)
    (hb : m.readsBack b = true) (hadvd : grid ∣ a) (hbdvd : grid ∣ b) : a = b := by
  obtain ⟨haLow, haHigh⟩ := le_of_readsBack ha
  obtain ⟨hbLow, hbHigh⟩ := le_of_readsBack hb
  have hspacing := Nat.le_of_dvd (spacing_pos m.units)
    (spacing_dvd_spacing (Nat.sub_le m.units 1))
  have hnarrow : m.upperTicks ≤ m.lowerTicks + 2 * (spacing m.units * ticksPerHalfUnit) := by
    have hsum : 2 * m.units + spacing m.units ≤
        2 * m.units - spacing (m.units - 1) + 2 * spacing m.units := by omega
    rw [upperTicks, lowerTicks, ← Nat.mul_assoc, ← Nat.add_mul]
    exact Nat.mul_le_mul_right _ hsum
  rcases Nat.lt_trichotomy a b with hlt | heq | hgt
  · have hstep := add_le_of_dvd hadvd hbdvd hlt
    omega
  · exact heq
  · have hstep := add_le_of_dvd hbdvd hadvd hgt
    omega

/-- Up to fifteen digits in front of a place of 10⁻¹⁵ or more, the interval is narrower than
that place. -/
theorem width_lt {power : Nat} (hpower : decimalPlaces - 15 ≤ power)
    (hticks : m.ticks ≤ 10 ^ 15 * 10 ^ power) :
    2 * (spacing m.units * ticksPerHalfUnit) < 10 ^ power := by
  rcases Nat.lt_or_ge m.units (2 ^ (precision - 1)) with hsmall | hnormal
  · have hone : spacing m.units = 1 :=
      spacing_eq_one (Nat.lt_trans hsmall (Nat.pow_lt_pow_right (by decide) (by decide)))
    have hticksPerUnit : 2 * ticksPerHalfUnit < 10 ^ (decimalPlaces - 15) := by decide +kernel
    rw [hone, Nat.one_mul]
    exact Nat.lt_of_lt_of_le hticksPerUnit (Nat.pow_le_pow_right (by decide) hpower)
  · have hstep := Nat.mul_le_mul_right ticksPerHalfUnit (spacing_mul_two_pow_le hnormal)
    have hbits : 2 * 10 ^ 15 < 2 ^ precision := by decide
    have hpos : 0 < 10 ^ power := Nat.pow_pos (by decide)
    refine Nat.lt_of_mul_lt_mul_left (a := 2 ^ precision) ?_
    calc 2 ^ precision * (2 * (spacing m.units * ticksPerHalfUnit))
        = 2 * (spacing m.units * 2 ^ precision * ticksPerHalfUnit) := by ring
      _ ≤ 2 * m.ticks := Nat.mul_le_mul_left 2 hstep
      _ ≤ 2 * 10 ^ 15 * 10 ^ power := by rw [Nat.mul_assoc]; exact Nat.mul_le_mul_left 2 hticks
      _ < 2 ^ precision * 10 ^ power := Nat.mul_lt_mul_of_pos_right hbits hpos

/-- A decimal of at most fifteen digits is the shortest one of the double it rounds to. -/
theorem shortestTicks_eq {value places : Nat} (hvalue : value < 10 ^ 15) (hplaces : places ≤ 15)
    (hround : roundUnits (value * 10 ^ (decimalPlaces - places)) (2 * ticksPerHalfUnit) = m.units) :
    m.shortestTicks = value * 10 ^ (decimalPlaces - places) := by
  have hpower : decimalPlaces - 15 ≤ decimalPlaces - places := Nat.sub_le_sub_left hplaces _
  have htop : 10 ^ 15 * 10 ^ (decimalPlaces - places) =
      10 ^ (15 - places) * unitsPerOne * (2 * ticksPerHalfUnit) := by
    rw [whole_mul_ticks, ← Nat.pow_add, ← Nat.pow_add]
    congr 1
    unfold decimalPlaces
    omega
  have hunits : m.units ≤ 10 ^ (15 - places) * unitsPerOne := by
    rw [← hround]
    refine roundUnits_le ticksPerUnit_pos (spacing_mul_unitsPerOne ?_) ?_
    · exact Nat.le_trans (Nat.pow_le_pow_right (by decide) (Nat.sub_le 15 places)) (by decide)
    · rw [← htop]
      exact Nat.mul_le_mul_right _ hvalue.le
  have hticks : m.ticks ≤ 10 ^ 15 * 10 ^ (decimalPlaces - places) := by
    rw [htop, ticks, Nat.mul_comm 2, Nat.mul_assoc]
    exact Nat.mul_le_mul_right _ hunits
  have hreads := readsBack_of_roundUnits hround
  refine eq_of_readsBack_of_dvd (width_lt hpower hticks) (m.readsBack_shortestFrom _) hreads ?_
    (Nat.dvd_mul_left ..)
  rcases Nat.eq_zero_or_pos (value * 10 ^ (decimalPlaces - places)) with hzero | hpos
  · -- Zero has no places; its double is zero, which every grid holds.
    refine m.ten_pow_dvd_shortestFrom ?_ _
    have hunits : m.units = 0 := by
      rw [← hround, hzero]
      exact Nat.le_zero.mp (roundUnits_le ticksPerUnit_pos (Nat.dvd_zero _) (Nat.zero_le _))
    rw [ticks, hunits, Nat.mul_zero, Nat.zero_mul]
    exact Nat.dvd_zero _
  · exact ten_pow_dvd_shortestTicks_of_readsBack hpos.ne' hreads (Nat.dvd_mul_left ..)

end Magnitude

end CommaCalc
