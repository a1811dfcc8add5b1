import CommaCalc.Proofs.Binary64.Closest

/-!
# A whole number and a fraction that was rounded before

A literal is rounded twice: its fraction is, and then the sum with its whole part.  Seen from
the whole part, every double of the sum and every midpoint of two of them is a double of the
fraction, so the first rounding does not pass them.  It can only reach a midpoint, and then
the second rounding may go to the other side than a single one would.
-/

namespace CommaCalc

open Rounding

attribute [local instance (high)] instPowNat

namespace Rounding

/-- Two to this exponent is, in units, half the distance of the doubles next above 1 and the
distance of those next below. -/
@[irreducible]
def fineExponent : Nat := unitExponent - precision

theorem unitsPerOne_eq_fine : unitsPerOne = 2 ^ precision * 2 ^ fineExponent := by
  decide +kernel

theorem two_pow_fineExponent_dvd (whole : Nat) : 2 ^ fineExponent ∣ whole * unitsPerOne := by
  rw [unitsPerOne_eq_fine, ← Nat.mul_assoc]
  exact Nat.dvd_mul_left _ (whole * 2 ^ precision)

/-- From 1 on every double is twice a point of the fine grid. -/
theorem exists_two_mul_fine {units : Nat} (hdvd : spacing units ∣ units)
    (hone : unitsPerOne ≤ units) : ∃ half, units = 2 * half ∧ 2 ^ fineExponent ∣ half := by
  have hgrid : spacing unitsPerOne = 2 * 2 ^ fineExponent := by decide +kernel
  have hfine := Nat.dvd_trans (spacing_dvd_spacing hone) hdvd
  rw [hgrid] at hfine
  exact exists_half hfine

variable {whole rest den : Nat}

/-- What lies between two whole numbers is rounded to a double between them. -/
theorem roundUnits_between (num : Nat) (hwhole : whole < 2 ^ precision) (hden : 0 < den)
    (hlow : whole * unitsPerOne * den ≤ num)
    (hhigh : num ≤ whole * unitsPerOne * den + unitsPerOne * den) :
    whole * unitsPerOne ≤ roundUnits num den ∧
      roundUnits num den ≤ whole * unitsPerOne + unitsPerOne := by
  refine ⟨le_roundUnits hden (spacing_mul_unitsPerOne hwhole.le) hlow, ?_⟩
  rw [← Nat.succ_mul]
  refine roundUnits_le hden (spacing_mul_unitsPerOne hwhole) ?_
  rwa [Nat.succ_mul, Nat.add_mul]

/-- If a whole number, other than 0, and a rounded fraction do not add to what their exact
sum is rounded to, they add to the midpoint between that double and the one they round to. -/
theorem eq_or_midpoint_of_sum {units nearest : Nat} (hpos : 0 < whole)
    (hwhole : whole < 2 ^ precision) (hden : 0 < den) (hrest : rest ≤ unitsPerOne * den)
    (hsum : roundUnits (whole * unitsPerOne + roundUnits rest den) 1 = units)
    (hexact : roundUnits (whole * unitsPerOne * den + rest) den = nearest) :
    units = nearest ∨ 2 * (whole * unitsPerOne + roundUnits rest den) = units + nearest := by
  have hpart : roundUnits rest den ≤ unitsPerOne :=
    roundUnits_le hden spacing_unitsPerOne_dvd hrest
  have hunits := roundUnits_between (whole * unitsPerOne + roundUnits rest den) hwhole
    Nat.one_pos (by omega) (by omega)
  have hnearest := roundUnits_between (whole * unitsPerOne * den + rest) hwhole hden
    (by omega) (by omega)
  have hdvd := spacing_dvd_roundUnits (whole * unitsPerOne + roundUnits rest den) 1
  have hdvd' := spacing_dvd_roundUnits (whole * unitsPerOne * den + rest) den
  rw [hsum] at hunits hdvd
  rw [hexact] at hnearest hdvd'
  have hone : unitsPerOne ≤ whole * unitsPerOne := Nat.le_mul_of_pos_left _ hpos
  obtain ⟨half, hhalf, hfine⟩ := exists_two_mul_fine hdvd (hone.trans hunits.1)
  obtain ⟨half', hhalf', hfine'⟩ := exists_two_mul_fine hdvd' (hone.trans hnearest.1)
  have hpoint := Nat.dvd_add hfine hfine'
  have hbase := two_pow_fineExponent_dvd whole
  have hrange : half + half' ≤ whole * unitsPerOne + 2 ^ precision * 2 ^ fineExponent := by
    rw [← unitsPerOne_eq_fine]
    omega
  have htwice : (units + nearest) * den = 2 * ((half + half') * den) := by
    rw [hhalf, hhalf', ← Nat.mul_add, Nat.mul_assoc]
  rcases Nat.lt_trichotomy units nearest with hlt | heq | hgt
  · refine .inr (Nat.le_antisymm ?_ ?_)
    · simpa using (le_midpoint Nat.one_pos hdvd hdvd' hlt hsum).1
    · have hpast := (midpoint_le hden hdvd' hdvd hlt hexact).1
      rw [Nat.add_comm nearest, htwice] at hpast
      have hle := le_add_roundUnits fineExponent rest hden hbase hpoint hrange (by omega)
      omega
  · exact .inl heq
  · refine .inr (Nat.le_antisymm ?_ ?_)
    · have hshort := (le_midpoint hden hdvd' hdvd hgt hexact).1
      rw [Nat.add_comm nearest, htwice] at hshort
      have hle := add_roundUnits_le fineExponent rest hden hbase hpoint (by omega) hrange
        (by omega)
      omega
    · simpa using (midpoint_le Nat.one_pos hdvd hdvd' hgt hsum).1

end Rounding

end CommaCalc
