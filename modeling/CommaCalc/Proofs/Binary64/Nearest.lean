import CommaCalc.Binary64.Rounding
import Mathlib.Tactic.Linarith
import Mathlib.Tactic.Ring

/-!
# Rounding goes to the nearest double

A ratio rounds to a given double exactly within half the distance to either
neighbour, the ends included when the last of the leading bits is zero.  The gap
below a power of two is that of the binade underneath, so the proof compares the
grid of the whole part with the grid of the double on either side.

Rounding never passes a double, so a part of a sum can be rounded first as long as
the ends of the interval, seen from the other part, are doubles themselves.
-/

namespace CommaCalc.Rounding

attribute [local instance (high)] instPowNat

/-- A whole number is the nearest one when the ratio is within one half of it, and
strictly so if the number is odd. -/
theorem nearestEven_eq {num den k : Nat} (hden : 0 < den)
    (hlow : 2 * (k * den) ≤ 2 * num + den) (hhigh : 2 * num ≤ 2 * (k * den) + den)
    (hodd : k % 2 = 1 → 2 * (k * den) < 2 * num + den ∧ 2 * num < 2 * (k * den) + den) :
    nearestEven num den = k := by
  have hdivision := Nat.div_add_mod num den
  have hmod := Nat.mod_lt num hden
  generalize hq : num / den = q at hdivision
  generalize hr : num % den = r at hdivision hmod
  have hqk : q ≤ k := by
    by_contra hnot
    have hmul := Nat.mul_le_mul_right den (Nat.lt_of_not_le hnot)
    rw [Nat.succ_mul, Nat.mul_comm q] at hmul
    omega
  have hkq : k ≤ q + 1 := by
    by_contra hnot
    have hmul := Nat.mul_le_mul_right den (Nat.lt_of_not_le hnot)
    rw [Nat.succ_mul, Nat.succ_mul, Nat.mul_comm q] at hmul
    omega
  simp only [nearestEven, hq, hr]
  rcases Nat.eq_or_lt_of_le hqk with rfl | hlt
  · rw [Nat.mul_comm q] at hlow hhigh hodd
    split
    · rfl
    · split <;> omega
  · obtain rfl : k = q + 1 := by omega
    have hexpand : (q + 1) * den = den * q + den := by ring
    rw [hexpand] at hlow hhigh hodd
    split
    · omega
    · split <;> omega

/-- Only the ratio matters. -/
theorem nearestEven_mul_right (num den : Nat) {scale : Nat} (hscale : 0 < scale) :
    nearestEven (num * scale) (den * scale) = nearestEven num den := by
  have hdiv : num * scale / (den * scale) = num / den := Nat.mul_div_mul_right _ _ hscale
  have hmod : num * scale % (den * scale) = num % den * scale := Nat.mul_mod_mul_right ..
  have hlt : ∀ a b : Nat, 2 * (a * scale) < b * scale ↔ 2 * a < b := by
    intro a b
    rw [← Nat.mul_assoc, Nat.mul_lt_mul_right hscale]
  have hgt : ∀ a b : Nat, b * scale < 2 * (a * scale) ↔ b < 2 * a := by
    intro a b
    rw [← Nat.mul_assoc, Nat.mul_lt_mul_right hscale]
  simp only [nearestEven, hdiv, hmod, hlt, hgt]

variable {units bound : Nat}

theorem spacing_dvd_spacing {small large : Nat} (hle : small ≤ large) :
    spacing small ∣ spacing large := by
  rcases Nat.eq_zero_or_pos small with rfl | hpos
  · exact one_dvd _
  · have hlog : small.log2 ≤ large.log2 := by
      rw [Nat.le_log2 (by omega)]
      exact Nat.le_trans (Nat.log2_self_le (by omega)) hle
    exact Nat.pow_dvd_pow 2 (by omega)

/-- Within one binade the grid is the same. -/
theorem spacing_eq_of_log2_eq {small large : Nat} (hlog : small.log2 = large.log2) :
    spacing small = spacing large := by
  rw [spacing, spacing, hlog]

theorem spacing_dvd_two_pow (exponent : Nat) (hunits : units < 2 ^ exponent) :
    spacing units ∣ 2 ^ (exponent - precision) := by
  rcases Nat.eq_zero_or_pos units with rfl | hpos
  · exact one_dvd _
  · have hlog : units.log2 < exponent := (Nat.log2_lt (by omega)).mpr hunits
    exact Nat.pow_dvd_pow 2 (by omega)

theorem two_pow_dvd_spacing (exponent : Nat) (hunits : 2 ^ exponent ≤ units) :
    2 ^ (exponent + 1 - precision) ∣ spacing units := by
  have hpos := Nat.two_pow_pos exponent
  have hlog : exponent ≤ units.log2 := (Nat.le_log2 (by omega)).mpr hunits
  exact Nat.pow_dvd_pow 2 (by omega)

/-- Of two multiples, the larger one is larger by a step at least. -/
theorem add_le_of_dvd {step small large : Nat} (hsmall : step ∣ small) (hlarge : step ∣ large)
    (hlt : small < large) : small + step ≤ large := by
  obtain ⟨a, rfl⟩ := hsmall
  obtain ⟨b, rfl⟩ := hlarge
  rw [← Nat.mul_succ]
  exact Nat.mul_le_mul_left step (Nat.lt_of_mul_lt_mul_left hlt)

/-- The next larger double stays up to the next power of two. -/
theorem add_spacing_le_two_pow (exponent : Nat) (hdvd : spacing units ∣ units)
    (hunits : units < 2 ^ exponent) : units + spacing units ≤ 2 ^ exponent :=
  add_le_of_dvd hdvd (Nat.dvd_trans (spacing_dvd_two_pow exponent hunits)
    (Nat.pow_dvd_pow 2 (Nat.sub_le ..))) hunits

/-- The next smaller double stays down to the power of two below it. -/
theorem two_pow_add_spacing_le (hdvd : spacing units ∣ units) (hpos : 1 < units) :
    2 ^ (units - 1).log2 + spacing (units - 1) ≤ units := by
  have hpred := Nat.log2_self_le (n := units - 1) (by omega)
  refine add_le_of_dvd ?_ (Nat.dvd_trans (spacing_dvd_spacing (by omega)) hdvd) (by omega)
  exact Nat.pow_dvd_pow 2 (by unfold precision; omega)

/-- On the right grid, the double is the nearest grid point. -/
private theorem roundUnits_eq_of_grid {num den step : Nat} (hden : 0 < den)
    (hgrid : spacing (num / den) = step) (hdvd : step ∣ units)
    (hlow : 2 * units * den ≤ 2 * num + step * den)
    (hhigh : 2 * num ≤ 2 * units * den + step * den)
    (hodd : units / step % 2 = 1 →
      2 * units * den < 2 * num + step * den ∧ 2 * num < 2 * units * den + step * den) :
    roundUnits num den = units := by
  have hstep : 0 < step := hgrid ▸ spacing_pos _
  obtain ⟨k, rfl⟩ := hdvd
  have hassoc : 2 * (step * k) * den = 2 * (k * (den * step)) := by ring
  rw [Nat.mul_div_cancel_left k hstep, hassoc, Nat.mul_comm step den] at hodd
  rw [hassoc, Nat.mul_comm step den] at hlow hhigh
  rw [roundUnits, hgrid, nearestEven_eq (Nat.mul_pos hden hstep) hlow hhigh hodd,
    Nat.mul_comm]

/-- The ratio lies at or above the double: both lie on one grid. -/
private theorem spacing_div_of_le {num den : Nat} (hden : 0 < den)
    (hdvd : spacing units ∣ units) (hle : units * den ≤ num)
    (hhigh : 2 * num ≤ (2 * units + spacing units) * den) :
    spacing (num / den) = spacing units := by
  have hfloor : units ≤ num / den := (Nat.le_div_iff_mul_le hden).mpr hle
  have hmul := Nat.div_mul_le_self num den
  have htwice : 2 * (num / den) * den ≤ (2 * units + spacing units) * den := by
    rw [Nat.mul_assoc]
    omega
  have htop := Nat.le_of_mul_le_mul_right htwice hden
  have hspacing := spacing_pos units
  rcases Nat.eq_zero_or_pos units with rfl | hpos
  · have hone : spacing 0 = 1 := rfl
    rw [hone] at htop
    rw [show num / den = 0 by omega]
  · have hnext := add_spacing_le_two_pow (units.log2 + 1) hdvd Nat.lt_log2_self
    have hself := Nat.log2_self_le (n := units) (by omega)
    refine spacing_eq_of_log2_eq ((Nat.log2_eq_iff (by omega)).mpr ⟨?_, ?_⟩) <;> omega

/-- The ratio lies below the double: it lies on the grid of the numbers just below. -/
private theorem spacing_div_of_lt {num den : Nat} (hden : 0 < den)
    (hdvd : spacing units ∣ units) (hlt : num < units * den)
    (hlow : 2 * units * den ≤ 2 * num + spacing (units - 1) * den) :
    spacing (num / den) = spacing (units - 1) := by
  have hfloor : num / den < units := (Nat.div_lt_iff_lt_mul hden).mpr hlt
  have hnum := Nat.lt_div_mul_add hden (a := num)
  have htwice : 2 * units * den < (2 * (num / den) + 2 + spacing (units - 1)) * den := by
    have hexpand : (2 * (num / den) + 2 + spacing (units - 1)) * den =
        2 * (num / den * den) + 2 * den + spacing (units - 1) * den := by ring
    omega
  have hbottom := Nat.lt_of_mul_lt_mul_right htwice
  have hspacing := spacing_pos (units - 1)
  rcases Nat.lt_or_ge 1 units with hone | hone
  · have hpred := two_pow_add_spacing_le hdvd hone
    have hself : units - 1 < 2 ^ ((units - 1).log2 + 1) := Nat.lt_log2_self
    have hzero : num / den ≠ 0 := by
      have htwo := Nat.two_pow_pos (units - 1).log2
      omega
    exact spacing_eq_of_log2_eq ((Nat.log2_eq_iff hzero).mpr ⟨by omega, by omega⟩)
  · rw [show num / den = units - 1 by omega]

/-- An odd multiple of a fine step is an odd multiple of a coarser one: a power of two
is even on the grid of the binade underneath. -/
private theorem odd_div_of_dvd {fine coarse : Nat} (hfine : fine ∣ coarse)
    (hcoarse : coarse ∣ units) (hpos : 0 < coarse) (hodd : units / fine % 2 = 1) :
    units / coarse % 2 = 1 := by
  obtain ⟨ratio, rfl⟩ := hfine
  obtain ⟨k, rfl⟩ := hcoarse
  have hfinePos : 0 < fine := Nat.pos_of_mul_pos_right hpos
  rw [Nat.mul_assoc, Nat.mul_div_cancel_left _ hfinePos, Nat.mul_mod] at hodd
  rw [Nat.mul_div_cancel_left k hpos]
  rcases Nat.mod_two_eq_zero_or_one k with hk | hk
  · rw [hk, Nat.mul_zero] at hodd
    exact absurd hodd (by decide)
  · exact hk

/-- A ratio within half the distance to either neighbour rounds to the double, at the
ends of the interval only if the last of the leading bits is zero. -/
theorem roundUnits_eq {num den : Nat} (hden : 0 < den) (hdvd : spacing units ∣ units)
    (hlow : 2 * units * den ≤ 2 * num + spacing (units - 1) * den)
    (hhigh : 2 * num ≤ (2 * units + spacing units) * den)
    (hodd : units / spacing units % 2 = 1 →
      2 * units * den < 2 * num + spacing (units - 1) * den ∧
        2 * num < (2 * units + spacing units) * den) :
    roundUnits num den = units := by
  rcases Nat.lt_or_ge num (units * den) with hlt | hge
  · have hpred := spacing_dvd_spacing (Nat.sub_le units 1)
    have hstep := Nat.mul_pos (spacing_pos (units - 1)) hden
    refine roundUnits_eq_of_grid hden (spacing_div_of_lt hden hdvd hlt hlow)
      (Nat.dvd_trans hpred hdvd) hlow (by rw [Nat.mul_assoc]; omega) ?_
    intro hparity
    have hcoarse := odd_div_of_dvd hpred hdvd (spacing_pos units) hparity
    exact ⟨(hodd hcoarse).1, by rw [Nat.mul_assoc]; omega⟩
  · have hstep := Nat.mul_pos (spacing_pos units) hden
    have hexpand : (2 * units + spacing units) * den =
        2 * units * den + spacing units * den := Nat.add_mul ..
    refine roundUnits_eq_of_grid hden (spacing_div_of_le hden hdvd hge hhigh) hdvd
      (by rw [Nat.mul_assoc]; omega) (by omega) ?_
    intro hparity
    exact ⟨by rw [Nat.mul_assoc]; omega, by rw [← hexpand]; exact (hodd hparity).2⟩

/-- Only the ratio matters. -/
theorem roundUnits_mul_right (num den : Nat) {scale : Nat} (hscale : 0 < scale) :
    roundUnits (num * scale) (den * scale) = roundUnits num den := by
  have hdiv : num * scale / (den * scale) = num / den := Nat.mul_div_mul_right _ _ hscale
  have hstep : den * scale * spacing (num / den) = den * spacing (num / den) * scale := by ring
  simp only [roundUnits, hdiv, hstep, nearestEven_mul_right _ _ hscale]

/-- A double rounds to itself. -/
theorem roundUnits_mul_self {den : Nat} (hden : 0 < den) (hdvd : spacing units ∣ units) :
    roundUnits (units * den) den = units := by
  have hlow := Nat.mul_pos (spacing_pos (units - 1)) hden
  have hhigh := Nat.mul_pos (spacing_pos units) hden
  have hexpand : (2 * units + spacing units) * den =
      2 * units * den + spacing units * den := Nat.add_mul ..
  refine roundUnits_eq hden hdvd ?_ ?_ fun _ => ⟨?_, ?_⟩ <;>
    rw [← Nat.mul_assoc] <;> omega

/-! ## Rounding does not pass a double -/

theorem nearestEven_le_of_le {num den k : Nat} (hden : 0 < den) (hle : num ≤ k * den) :
    nearestEven num den ≤ k := by
  have hlow : num / den ≤ k := Nat.div_le_of_le_mul (by rwa [Nat.mul_comm])
  rcases Nat.lt_or_eq_of_le hlow with hlt | heq
  · exact Nat.le_trans (nearestEven_le num den) hlt
  · have hdivision := Nat.div_add_mod num den
    have hmod : num % den = 0 := by
      rw [heq, Nat.mul_comm den] at hdivision
      omega
    simp only [nearestEven, heq, hmod, Nat.mul_zero, hden, if_true, Nat.le_refl]

theorem div_le_nearestEven (num den : Nat) : num / den ≤ nearestEven num den := by
  unfold nearestEven
  dsimp only
  split
  · exact Nat.le_refl _
  · split <;> omega

theorem roundUnits_le {num den : Nat} (hden : 0 < den) (hdvd : spacing units ∣ units)
    (hle : num ≤ units * den) : roundUnits num den ≤ units := by
  have hfloor : num / den ≤ units := Nat.div_le_of_le_mul (by rwa [Nat.mul_comm])
  have hgrid := Nat.dvd_trans (spacing_dvd_spacing hfloor) hdvd
  have hstep := spacing_pos (num / den)
  rw [roundUnits]
  generalize spacing (num / den) = step at hgrid hstep ⊢
  obtain ⟨k, rfl⟩ := hgrid
  have hnum : num ≤ k * (den * step) := by
    rwa [Nat.mul_comm step, Nat.mul_assoc, Nat.mul_comm step] at hle
  rw [Nat.mul_comm step]
  exact Nat.mul_le_mul_right step (nearestEven_le_of_le (Nat.mul_pos hden hstep) hnum)

/-- Between a double and any larger number lies a point of the grid of the latter: the
double itself, or the power of two below the number. -/
private theorem exists_grid_between {large : Nat} (hdvd : spacing units ∣ units)
    (hle : units ≤ large) : ∃ point, units ≤ point ∧ point ≤ large ∧ spacing large ∣ point := by
  rcases Nat.eq_zero_or_pos units with rfl | hpos
  · exact ⟨0, Nat.le_refl 0, hle, Nat.dvd_zero _⟩
  · have hself := Nat.log2_self_le (n := large) (by omega)
    rcases Nat.lt_or_ge units (2 ^ large.log2) with hlt | hge
    · exact ⟨2 ^ large.log2, hlt.le, hself, Nat.pow_dvd_pow 2 (by unfold precision; omega)⟩
    · have hlog : units.log2 = large.log2 :=
        (Nat.log2_eq_iff (by omega)).mpr ⟨hge, Nat.lt_of_le_of_lt hle Nat.lt_log2_self⟩
      exact ⟨units, Nat.le_refl _, hle, spacing_eq_of_log2_eq hlog ▸ hdvd⟩

theorem le_roundUnits {num den : Nat} (hden : 0 < den) (hdvd : spacing units ∣ units)
    (hle : units * den ≤ num) : units ≤ roundUnits num den := by
  obtain ⟨point, hunits, hpoint, k, rfl⟩ :=
    exists_grid_between hdvd ((Nat.le_div_iff_mul_le hden).mpr hle)
  have hstep := spacing_pos (num / den)
  rw [roundUnits]
  generalize spacing (num / den) = step at hunits hpoint hstep ⊢
  have hk : k ≤ num / (den * step) := by
    rw [← Nat.div_div_eq_div_mul, Nat.le_div_iff_mul_le hstep, Nat.mul_comm]
    exact hpoint
  calc units ≤ step * k := hunits
    _ = k * step := Nat.mul_comm step k
    _ ≤ nearestEven num (den * step) * step :=
      Nat.mul_le_mul_right step (Nat.le_trans hk (div_le_nearestEven num (den * step)))

/-- A number with at most 53 bits in front of its zeros is a double. -/
theorem spacing_dvd_of_two_pow_dvd (exponent : Nat) (hdvd : 2 ^ exponent ∣ units)
    (hle : units ≤ 2 ^ precision * 2 ^ exponent) : spacing units ∣ units := by
  obtain ⟨significand, rfl⟩ := hdvd
  rw [Nat.mul_comm] at hle ⊢
  exact spacing_dvd_mul_two_pow exponent (Nat.le_of_mul_le_mul_right hle (Nat.two_pow_pos _))

section Rest

variable {base den point : Nat} (exponent rest : Nat)

/-- A point that is a double as seen from the base is not passed upwards. -/
theorem add_roundUnits_le (hden : 0 < den) (hbase : 2 ^ exponent ∣ base)
    (hpoint : 2 ^ exponent ∣ point) (hreach : base ≤ point)
    (hrange : point ≤ base + 2 ^ precision * 2 ^ exponent)
    (hle : base * den + rest ≤ point * den) : base + roundUnits rest den ≤ point := by
  have hdouble : spacing (point - base) ∣ point - base :=
    spacing_dvd_of_two_pow_dvd exponent (Nat.dvd_sub hpoint hbase) (by omega)
  have hrounded : roundUnits rest den ≤ point - base := by
    refine roundUnits_le hden hdouble ?_
    rw [Nat.sub_mul]
    omega
  omega

/-- Nor is it passed downwards. -/
theorem le_add_roundUnits (hden : 0 < den) (hbase : 2 ^ exponent ∣ base)
    (hpoint : 2 ^ exponent ∣ point) (hrange : point ≤ base + 2 ^ precision * 2 ^ exponent)
    (hle : point * den ≤ base * den + rest) : point ≤ base + roundUnits rest den := by
  have hdouble : spacing (point - base) ∣ point - base :=
    spacing_dvd_of_two_pow_dvd exponent (Nat.dvd_sub hpoint hbase) (by omega)
  have hrounded : point - base ≤ roundUnits rest den := by
    refine le_roundUnits hden hdouble ?_
    rw [Nat.sub_mul]
    omega
  omega

end Rest

theorem exists_half {step gap : Nat} (hdvd : 2 * step ∣ gap) :
    ∃ half, gap = 2 * half ∧ step ∣ half := by
  obtain ⟨k, rfl⟩ := hdvd
  exact ⟨step * k, Nat.mul_assoc .., Nat.dvd_mul_right ..⟩

/-- A ratio in the interval of an even double, split into a base and a rest, still rounds
to the double when the rest is rounded first.  The ends of the interval, seen from the
base, lie on a grid on which they are doubles, so the rounded rest does not pass them. -/
theorem roundUnits_add_roundUnits {base rest den : Nat} (exponent : Nat) (hden : 0 < den)
    (hdvd : spacing units ∣ units) (heven : units / spacing units % 2 = 0)
    (hlow : 2 * units * den ≤ 2 * (base * den + rest) + spacing (units - 1) * den)
    (hhigh : 2 * (base * den + rest) ≤ (2 * units + spacing units) * den)
    (hgrid : 2 * 2 ^ exponent ∣ spacing (units - 1)) (hbase : 2 ^ exponent ∣ base)
    (hrange : 2 * units + spacing units ≤ 2 * (base + 2 ^ precision * 2 ^ exponent)) :
    roundUnits (base + roundUnits rest den) 1 = units := by
  have hgrid' := Nat.dvd_trans hgrid (spacing_dvd_spacing (Nat.sub_le units 1))
  have hunits : 2 ^ exponent ∣ units :=
    Nat.dvd_trans (Nat.dvd_trans (Nat.dvd_mul_left _ 2) hgrid') hdvd
  obtain ⟨gapBelow, hgapBelow, hdvdBelow⟩ := exists_half hgrid
  obtain ⟨gapAbove, hgapAbove, hdvdAbove⟩ := exists_half hgrid'
  rw [hgapBelow, Nat.mul_assoc, Nat.mul_assoc] at hlow
  rw [hgapAbove, ← Nat.mul_add, Nat.mul_assoc] at hhigh
  rw [hgapAbove] at hrange
  have hstart : base ≤ units + gapAbove := by
    refine Nat.le_of_mul_le_mul_right ?_ hden
    omega
  have hle : base + roundUnits rest den ≤ units + gapAbove :=
    add_roundUnits_le exponent rest hden hbase (Nat.dvd_add hunits hdvdAbove) hstart (by omega)
      (by omega)
  have hge : units - gapBelow ≤ base + roundUnits rest den := by
    refine le_add_roundUnits exponent rest hden hbase (Nat.dvd_sub hunits hdvdBelow) (by omega) ?_
    rw [Nat.sub_mul]
    omega
  refine roundUnits_eq Nat.one_pos hdvd ?_ ?_ fun hodd => by omega
  · rw [hgapBelow]
    omega
  · rw [hgapAbove]
    omega

end CommaCalc.Rounding
