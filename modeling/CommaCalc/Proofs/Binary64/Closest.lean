import CommaCalc.Decimal.Shortest
import CommaCalc.Proofs.Binary64.Power

/-!
# The nearest double, a tie to the even one

A double is nearest to an exact value when no other is nearer, and when of two that are
equally near it is the one whose last bit is zero.  Neighbouring doubles are never both
even, so there is at most one, and it is the double to which the value is rounded: the
interval that rounds to a double is all that lies nearer to it than to its neighbours.
-/

namespace CommaCalc

open Rounding

attribute [local instance (high)] instPowNat

namespace Rounding

variable {units other num den : Nat}

/-- The number of steps up to a power of two is even. -/
private theorem two_pow_div_spacing_even {exponent step : Nat} (hstep : step ≤ exponent) :
    2 ^ (exponent + 1) / 2 ^ step % 2 = 0 := by
  rw [Nat.pow_div (by omega) two_pos, show exponent + 1 - step = exponent - step + 1 by omega,
    Nat.pow_succ, Nat.mul_mod_left]

/-- One step further the last bit has changed. -/
private theorem add_div_odd_iff {step : Nat} (hstep : 0 < step) :
    units / step % 2 = 1 ↔ (units + step) / step % 2 = 0 := by
  rw [Nat.add_div_right _ hstep]
  omega

/-- One step above a double stands the next one, and of the two exactly one is even. -/
theorem next_double (hdvd : spacing units ∣ units) :
    spacing (units + spacing units) ∣ units + spacing units ∧
      spacing (units + spacing units - 1) = spacing units ∧
      (units / spacing units % 2 = 1 ↔
        (units + spacing units) / spacing (units + spacing units) % 2 = 0) := by
  rcases Nat.eq_zero_or_pos units with rfl | hpos
  · decide
  have hself := Nat.log2_self_le (n := units) (by omega)
  have hstep := spacing_pos units
  have hbelow : spacing (units + spacing units - 1) = spacing units := by
    have hnext := add_spacing_le_two_pow (units.log2 + 1) hdvd Nat.lt_log2_self
    exact spacing_eq_of_log2_eq ((Nat.log2_eq_iff (by omega)).mpr ⟨by omega, by omega⟩)
  rcases Nat.lt_or_eq_of_le (add_spacing_le_two_pow (units.log2 + 1) hdvd Nat.lt_log2_self) with
    hlt | heq
  · have hsame : spacing (units + spacing units) = spacing units :=
      spacing_eq_of_log2_eq ((Nat.log2_eq_iff (by omega)).mpr ⟨by omega, hlt⟩)
    rw [hsame]
    exact ⟨Nat.dvd_add hdvd (Nat.dvd_refl _), hbelow, add_div_odd_iff hstep⟩
  · -- The next double is a power of two, which is even on its own grid and on the one below.
    refine ⟨?_, hbelow, ?_⟩
    · rw [heq, spacing, Nat.log2_two_pow]
      exact Nat.pow_dvd_pow 2 (by unfold precision; omega)
    · rw [add_div_odd_iff hstep, heq]
      simp only [spacing, Nat.log2_two_pow]
      exact iff_of_true (two_pow_div_spacing_even (by unfold precision; omega))
        (two_pow_div_spacing_even (by unfold precision; omega))

/-- Every double but zero is the next one of another. -/
theorem exists_next_eq (hdvd : spacing units ∣ units) (hpos : 0 < units) :
    ∃ below, spacing below ∣ below ∧ below + spacing below = units := by
  have hfine : spacing (units - 1) ∣ units :=
    Nat.dvd_trans (spacing_dvd_spacing (Nat.sub_le units 1)) hdvd
  have hstep := spacing_pos (units - 1)
  have hle := Nat.le_of_dvd hpos hfine
  have hsame : spacing (units - spacing (units - 1)) = spacing (units - 1) := by
    rcases Nat.lt_or_ge 1 units with hone | hone
    · have hpred := two_pow_add_spacing_le hdvd hone
      have hself : units - 1 < 2 ^ ((units - 1).log2 + 1) := Nat.lt_log2_self
      have htwo := Nat.two_pow_pos (units - 1).log2
      exact spacing_eq_of_log2_eq ((Nat.log2_eq_iff (by omega)).mpr ⟨by omega, by omega⟩)
    · obtain rfl : units = 1 := by omega
      rfl
  refine ⟨units - spacing (units - 1), ?_, ?_⟩
  · rw [hsame]
    exact Nat.dvd_sub hfine (Nat.dvd_refl _)
  · rw [hsame, Nat.sub_add_cancel hle]

/-- A larger double is not before the next one. -/
theorem add_spacing_le (hdvd : spacing units ∣ units) (hother : spacing other ∣ other)
    (hlt : units < other) : units + spacing units ≤ other :=
  add_le_of_dvd hdvd (Nat.dvd_trans (spacing_dvd_spacing hlt.le) hother) hlt

/-- Past the midpoint below a double, rounding reaches it. -/
theorem le_roundUnits_of_lt (hden : 0 < den) (hdvd : spacing units ∣ units)
    (hlt : 2 * units * den < 2 * num + spacing (units - 1) * den) :
    units ≤ roundUnits num den := by
  rcases Nat.le_total (units * den) num with hle | hge
  · exact le_roundUnits hden hdvd hle
  · have hhigh : 2 * num < (2 * units + spacing units) * den := by
      have hstep := Nat.mul_pos (spacing_pos units) hden
      rw [Nat.add_mul, Nat.mul_assoc]
      omega
    exact (roundUnits_eq hden hdvd hlt.le hhigh.le fun _ => ⟨hlt, hhigh⟩).ge

/-- What rounds to a double lies within half a step above it, and strictly so if the double
is odd. -/
theorem le_of_roundUnits_eq (hden : 0 < den) (hdvd : spacing units ∣ units)
    (hround : roundUnits num den = units) :
    2 * num ≤ (2 * units + spacing units) * den ∧
      (units / spacing units % 2 = 1 → 2 * num < (2 * units + spacing units) * den) := by
  obtain ⟨hnext, hstep, hparity⟩ := next_double hdvd
  have hpos := spacing_pos units
  have hmid : 2 * (units + spacing units) * den =
      (2 * units + spacing units) * den + spacing units * den := by ring
  have hle : 2 * num ≤ (2 * units + spacing units) * den := by
    by_contra hpast
    have hreach : units + spacing units ≤ roundUnits num den :=
      le_roundUnits_of_lt hden hnext (by rw [hstep]; omega)
    omega
  refine ⟨hle, fun hodd => Nat.lt_of_le_of_ne hle fun htie => ?_⟩
  -- The midpoint is rounded to the next double, which is even.
  have heven := hparity.mp hodd
  have hwide : (2 * units + spacing units) * den ≤
      (2 * (units + spacing units) + spacing (units + spacing units)) * den :=
    Nat.mul_le_mul_right den (by omega)
  have hreach : roundUnits num den = units + spacing units :=
    roundUnits_eq hden hnext (by rw [hstep]; omega) (by omega) fun hnot => by omega
  omega

/-- What rounds to a double that another one precedes lies within half a step below it, and
strictly so if the double is odd. -/
theorem ge_of_roundUnits_eq (hden : 0 < den) (hdvd : spacing units ∣ units)
    (hround : roundUnits num den = units + spacing units) :
    (2 * units + spacing units) * den ≤ 2 * num ∧
      ((units + spacing units) / spacing (units + spacing units) % 2 = 1 →
        (2 * units + spacing units) * den < 2 * num) := by
  obtain ⟨hnext, hstep, hparity⟩ := next_double hdvd
  have hpos := spacing_pos units
  have hle : (2 * units + spacing units) * den ≤ 2 * num := by
    by_contra hshort
    have hstay := roundUnits_le_of_lt hden hdvd (Nat.lt_of_not_le hshort)
    omega
  refine ⟨hle, fun hodd => Nat.lt_of_le_of_ne hle fun htie => ?_⟩
  have hwide : 2 * units * den ≤ (2 * units + spacing units) * den :=
    Nat.mul_le_mul_right den (by omega)
  have hstay : roundUnits num den = units :=
    roundUnits_eq hden hdvd (by omega) htie.ge fun hnot => by omega
  omega

/-- What rounds to the smaller of two doubles is not past their midpoint, nor at it if the
double is odd. -/
theorem le_midpoint (hden : 0 < den) (hdvd : spacing units ∣ units)
    (hother : spacing other ∣ other) (hlt : units < other) (hround : roundUnits num den = units) :
    2 * num ≤ (units + other) * den ∧
      (units / spacing units % 2 = 1 → 2 * num < (units + other) * den) := by
  obtain ⟨hle, hodd⟩ := le_of_roundUnits_eq hden hdvd hround
  have hnext := add_spacing_le hdvd hother hlt
  have hwide : (2 * units + spacing units) * den ≤ (units + other) * den :=
    Nat.mul_le_mul_right den (by omega)
  exact ⟨hle.trans hwide, fun h => (hodd h).trans_le hwide⟩

/-- What rounds to the larger of two doubles is not before their midpoint, nor at it if the
double is odd. -/
theorem midpoint_le (hden : 0 < den) (hdvd : spacing units ∣ units)
    (hother : spacing other ∣ other) (hlt : other < units) (hround : roundUnits num den = units) :
    (units + other) * den ≤ 2 * num ∧
      (units / spacing units % 2 = 1 → (units + other) * den < 2 * num) := by
  obtain ⟨below, hbelow, rfl⟩ := exists_next_eq hdvd (by omega)
  obtain ⟨hge, hodd⟩ := ge_of_roundUnits_eq hden hbelow hround
  have hle : other ≤ below := by
    by_contra hpast
    have hnext := add_spacing_le hbelow hother (Nat.lt_of_not_le hpast)
    omega
  have hwide : (below + spacing below + other) * den ≤ (2 * below + spacing below) * den :=
    Nat.mul_le_mul_right den (by omega)
  exact ⟨hwide.trans hge, fun h => hwide.trans_lt (hodd h)⟩

/-- Rounding is monotone.  If a smaller ratio were rounded to a larger double, it would lie behind
the midpoint of the two doubles and the larger ratio before it, so that the ratios were equal. -/
theorem roundUnits_mono {num num' : Nat} (hden : 0 < den) (hle : num ≤ num') :
    roundUnits num den ≤ roundUnits num' den := by
  by_contra hpassed
  have hlt := Nat.lt_of_not_le hpassed
  have hdvd := spacing_dvd_roundUnits num den
  have hdvd' := spacing_dvd_roundUnits num' den
  have hbehind := (midpoint_le hden hdvd hdvd' hlt rfl).1
  have hbefore := (le_midpoint hden hdvd' hdvd hlt rfl).1
  rw [Nat.add_comm] at hbefore
  have heq : num = num' := by omega
  rw [heq] at hlt
  exact Nat.lt_irrefl _ hlt

section Distance

variable {a b x : ℚ}

/-- The smaller of two numbers is nearer to what lies before their midpoint. -/
theorem abs_sub_lt_iff_of_lt (hab : a < b) : |a - x| < |b - x| ↔ 2 * x < a + b := by
  rcases abs_cases (a - x) with ⟨ha, hax⟩ | ⟨ha, hax⟩ <;>
    rcases abs_cases (b - x) with ⟨hb, hbx⟩ | ⟨hb, hbx⟩ <;>
    rw [ha, hb] <;> constructor <;> intro h <;> linarith

/-- The larger one is nearer to what lies behind it. -/
theorem abs_sub_lt_iff_of_gt (hab : a < b) : |b - x| < |a - x| ↔ a + b < 2 * x := by
  rcases abs_cases (a - x) with ⟨ha, hax⟩ | ⟨ha, hax⟩ <;>
    rcases abs_cases (b - x) with ⟨hb, hbx⟩ | ⟨hb, hbx⟩ <;>
    rw [ha, hb] <;> constructor <;> intro h <;> linarith

theorem abs_sub_eq_of_midpoint (hmid : 2 * x = a + b) : |a - x| = |b - x| := by
  have hopposite : a - x = -(b - x) := by linarith
  rw [hopposite, abs_neg]

end Distance

/-- The double to which a ratio is rounded is nearer to it than any other, or equally near
and even. -/
theorem nearest_of_roundUnits_eq (hden : 0 < den) (hdvd : spacing units ∣ units)
    (hround : roundUnits num den = units) (hother : spacing other ∣ other) (hne : other ≠ units) :
    |(units : ℚ) - num / den| < |(other : ℚ) - num / den| ∨
      |(units : ℚ) - num / den| = |(other : ℚ) - num / den| ∧ units / spacing units % 2 = 0 := by
  have hden' : (0 : ℚ) < den := Nat.cast_pos.mpr hden
  rcases Nat.lt_or_gt_of_ne hne with hlt | hgt
  · obtain ⟨hle, hodd⟩ := midpoint_le hden hdvd hother hlt hround
    rcases Nat.lt_or_eq_of_le hle with hpast | htie
    · refine .inl ((abs_sub_lt_iff_of_gt (by exact_mod_cast hlt)).mpr ?_)
      rw [← mul_div_assoc, lt_div_iff₀ hden', add_comm]
      exact_mod_cast hpast
    · refine .inr ⟨abs_sub_eq_of_midpoint ?_, by omega⟩
      rw [← mul_div_assoc, div_eq_iff hden'.ne']
      exact_mod_cast htie.symm
  · obtain ⟨hle, hodd⟩ := le_midpoint hden hdvd hother hgt hround
    rcases Nat.lt_or_eq_of_le hle with hshort | htie
    · refine .inl ((abs_sub_lt_iff_of_lt (by exact_mod_cast hgt)).mpr ?_)
      rw [← mul_div_assoc, div_lt_iff₀ hden']
      exact_mod_cast hshort
    · refine .inr ⟨abs_sub_eq_of_midpoint ?_, by omega⟩
      rw [← mul_div_assoc, div_eq_iff hden'.ne']
      exact_mod_cast htie

end Rounding

/-! ## The nearest magnitude -/

namespace Magnitude

variable {m n : Magnitude} {exact : ℚ}

/-- No other magnitude is nearer to the exact value, and if one is as near, the last of the
leading bits is zero. -/
def IsNearest (m : Magnitude) (exact : ℚ) : Prop :=
  ∀ other : Magnitude, other ≠ m →
    |m.toRat - exact| < |other.toRat - exact| ∨
      |m.toRat - exact| = |other.toRat - exact| ∧ m.isEven = true

theorem isEven_iff : m.isEven = true ↔ m.units / spacing m.units % 2 = 0 :=
  beq_iff_eq

theorem units_ne (hne : m ≠ n) : m.units ≠ n.units :=
  fun hunits => hne (ext hunits)

theorem toRat_lt_toRat_iff : m.toRat < n.toRat ↔ m.units < n.units := by
  rw [toRat, toRat, div_lt_div_iff_of_pos_right cast_unitsPerOne_pos, Nat.cast_lt]

/-- A distance, in units. -/
theorem abs_toRat_sub (m : Magnitude) (num den : Nat) :
    |m.toRat - num / den / unitsPerOne| = |(m.units : ℚ) - num / den| / unitsPerOne := by
  rw [toRat, ← sub_div, abs_div, abs_of_pos cast_unitsPerOne_pos]

/-- What a ratio is rounded to is nearest to it. -/
theorem isNearest_of_roundUnits {num den : Nat} (hden : 0 < den)
    (hround : roundUnits num den = m.units) : m.IsNearest (num / den / unitsPerOne) := by
  intro other hne
  have hone := cast_unitsPerOne_pos
  rw [abs_toRat_sub, abs_toRat_sub, div_lt_div_iff_of_pos_right hone,
    div_left_inj' hone.ne', isEven_iff]
  exact nearest_of_roundUnits_eq hden m.spacing_dvd hround other.spacing_dvd (units_ne hne)

/-- What a quotient of whole numbers is rounded to is nearest to it. -/
theorem isNearest_div {value den : Nat} (hden : 0 < den)
    (hround : roundUnits (value * unitsPerOne) den = m.units) : m.IsNearest (value / den) := by
  have hnearest := isNearest_of_roundUnits hden hround
  rwa [Nat.cast_mul, mul_div_right_comm, mul_div_assoc, div_self cast_unitsPerOne_pos.ne',
    mul_one] at hnearest

/-- What a sum with a whole number is rounded to is nearest to it. -/
theorem isNearest_add {value : Nat}
    (hround : roundUnits (value * unitsPerOne + n.units) 1 = m.units) :
    m.IsNearest (value + n.toRat) := by
  have hnearest := isNearest_of_roundUnits Nat.one_pos hround
  rwa [Nat.cast_one, div_one, Nat.cast_add, Nat.cast_mul, add_div,
    mul_div_cancel_right₀ _ cast_unitsPerOne_pos.ne', ← toRat] at hnearest

namespace IsNearest

/-- Two nearest doubles have the exact value midway between them, and both are even. -/
private theorem midpoint_of_lt (hm : m.IsNearest exact) (hn : n.IsNearest exact)
    (hlt : m.units < n.units) :
    m.isEven = true ∧ n.isEven = true ∧ 2 * exact = m.toRat + n.toRat := by
  have hne : n ≠ m := fun heq => Nat.ne_of_gt hlt (congrArg units heq)
  have hrat := toRat_lt_toRat_iff.mpr hlt
  rcases hm n hne with hnear | ⟨hequal, hmEven⟩
  · rcases hn m hne.symm with hfar | ⟨hequal, -⟩
    · exact absurd hfar hnear.asymm
    · exact absurd hequal hnear.ne'
  · rcases hn m hne.symm with hfar | ⟨-, hnEven⟩
    · exact absurd hequal hfar.ne'
    · refine ⟨hmEven, hnEven, le_antisymm (le_of_not_gt fun h => ?_) (le_of_not_gt fun h => ?_)⟩
      · exact ((abs_sub_lt_iff_of_gt hrat).mpr h).ne' hequal
      · exact ((abs_sub_lt_iff_of_lt hrat).mpr h).ne hequal

/-- Two even doubles have another one between them, which is nearer to their midpoint. -/
private theorem not_units_lt (hm : m.IsNearest exact) (hn : n.IsNearest exact) :
    ¬ m.units < n.units := by
  intro hlt
  obtain ⟨hmEven, hnEven, hmid⟩ := midpoint_of_lt hm hn hlt
  rw [isEven_iff] at hmEven hnEven
  obtain ⟨hdvd, -, hparity⟩ := next_double m.spacing_dvd
  have hbetween : m.units + spacing m.units < n.units := by
    refine Nat.lt_of_le_of_ne (add_spacing_le m.spacing_dvd n.spacing_dvd hlt) fun heq => ?_
    rw [← heq] at hnEven
    have hodd := hparity.mpr hnEven
    omega
  obtain ⟨next, hunits⟩ : ∃ next : Magnitude, next.units = m.units + spacing m.units :=
    ⟨⟨_, hdvd, Nat.lt_trans hbetween n.inRange⟩, rfl⟩
  have hstep := spacing_pos m.units
  have hnext : m.toRat < next.toRat := toRat_lt_toRat_iff.mpr (by omega)
  have hnext' : next.toRat < n.toRat := toRat_lt_toRat_iff.mpr (by omega)
  have hnearer : |next.toRat - exact| < |n.toRat - exact| :=
    (abs_sub_lt_iff_of_lt hnext').mpr (by linarith)
  rcases hn next (by rintro rfl; exact hnext'.ne rfl) with h | ⟨h, -⟩
  · exact hnearer.asymm h
  · exact hnearer.ne' h

/-- There is only one nearest double. -/
theorem unique (hm : m.IsNearest exact) (hn : n.IsNearest exact) : m = n :=
  ext (Nat.le_antisymm (Nat.le_of_not_lt (hn.not_units_lt hm)) (Nat.le_of_not_lt (hm.not_units_lt hn)))

end IsNearest

/-- Within the range of the doubles, the nearest one is what the ratio is rounded to. -/
theorem isNearest_iff {num den : Nat} (hden : 0 < den) (hrange : roundUnits num den < overflowUnits) :
    m.IsNearest (num / den / unitsPerOne) ↔ roundUnits num den = m.units := by
  refine ⟨fun hm => ?_, isNearest_of_roundUnits hden⟩
  have hrounded := isNearest_of_roundUnits (m := ⟨_, spacing_dvd_roundUnits num den, hrange⟩) hden rfl
  exact congrArg units (hrounded.unique hm)

end Magnitude

end CommaCalc
