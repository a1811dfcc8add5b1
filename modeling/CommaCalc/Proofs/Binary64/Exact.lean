import CommaCalc.Binary64.Bits
import CommaCalc.Binary64.Fraction
import CommaCalc.Proofs.Binary64.Nearest

/-!
# Operations that are exact or rounded once

Multiplying by the factor of a sign is exact, small whole numbers and small powers of
ten are doubles, and so the fraction of few digits is the quotient of two exact
numbers, rounded once.
-/

namespace CommaCalc

open Rounding

attribute [local instance (high)] instPowNat

theorem Magnitude.ext {a b : Magnitude} (hunits : a.units = b.units) : a = b := by
  cases a
  cases b
  cases hunits
  rfl

/-- The magnitude is below a whole number. -/
def Magnitude.Below (m : Magnitude) (bound : Nat) : Prop :=
  m.units < bound * unitsPerOne

/-- The magnitude is a whole number. -/
def Magnitude.IsWhole (m : Magnitude) : Prop :=
  unitsPerOne ∣ m.units

/-- Whole numbers up to 2⁵³ are doubles. -/
theorem spacing_mul_unitsPerOne {whole : Nat} (hwhole : whole ≤ 2 ^ precision) :
    spacing (whole * unitsPerOne) ∣ whole * unitsPerOne := by
  rw [unitsPerOne_eq]
  exact spacing_dvd_mul_two_pow unitExponent hwhole

/-- Below 2⁵³ the whole numbers lie on the grid of the doubles. -/
theorem spacing_dvd_unitsPerOne {units : Nat} (hunits : units < 2 ^ precision * unitsPerOne) :
    spacing units ∣ unitsPerOne := by
  rw [unitsPerOne_eq] at hunits ⊢
  rw [← Nat.pow_add] at hunits
  have hdvd := spacing_dvd_two_pow (precision + unitExponent) hunits
  rwa [Nat.add_sub_cancel_left] at hdvd

/-- From there on every double is a whole number. -/
theorem Magnitude.isWhole_of_le {m : Magnitude} (hm : 2 ^ precision * unitsPerOne ≤ m.units) :
    m.IsWhole := by
  rw [unitsPerOne_eq, ← Nat.pow_add] at hm
  have hspacing := two_pow_dvd_spacing (precision + unitExponent) hm
  rw [Nat.add_assoc, Nat.add_sub_cancel_left] at hspacing
  rw [IsWhole, unitsPerOne_eq]
  exact Nat.dvd_trans (Nat.pow_dvd_pow 2 (Nat.le_add_right unitExponent 1))
    (Nat.dvd_trans hspacing m.spacing_dvd)

instance (m : Magnitude) (bound : Nat) : Decidable (m.Below bound) :=
  inferInstanceAs (Decidable (m.units < bound * unitsPerOne))

instance (m : Magnitude) : Decidable m.IsWhole :=
  inferInstanceAs (Decidable (unitsPerOne ∣ m.units))

namespace Binary64

/-- Finite, and of a magnitude below a whole number. -/
def Below : Binary64 → Nat → Prop
  | .finite _ m, bound => m.Below bound
  | _, _ => False

/-- Finite and whole. -/
def IsWhole : Binary64 → Prop
  | .finite _ m => m.IsWhole
  | _ => False

instance : (v : Binary64) → (bound : Nat) → Decidable (v.Below bound)
  | .nan, _ => .isFalse id
  | .infinite _, _ => .isFalse id
  | .finite _ m, bound => inferInstanceAs (Decidable (m.Below bound))

instance : (v : Binary64) → Decidable v.IsWhole
  | .nan => .isFalse id
  | .infinite _ => .isFalse id
  | .finite _ m => inferInstanceAs (Decidable m.IsWhole)

/-- A ratio that rounds to the units of a magnitude rounds to that double. -/
theorem ofRatio_eq_finite {num den : Nat} {m : Magnitude} (negative : Bool)
    (hround : roundUnits num den = m.units) : ofRatio negative num den = .finite negative m := by
  have hrange : roundUnits num den < overflowUnits := hround ▸ m.inRange
  rw [ofRatio, dif_pos hrange]
  exact congrArg (Binary64.finite negative) (Magnitude.ext hround)

theorem ofRatio_mul_right (negative : Bool) (num den : Nat) {scale : Nat} (hscale : 0 < scale) :
    ofRatio negative (num * scale) (den * scale) = ofRatio negative num den := by
  simp only [ofRatio, roundUnits_mul_right num den hscale]

/-- The units of a double over one unit are that double. -/
theorem ofRatio_units (negative : Bool) (m : Magnitude) :
    ofRatio negative m.units 1 = .finite negative m := by
  apply ofRatio_eq_finite negative
  simpa using roundUnits_mul_self Nat.one_pos m.spacing_dvd

/-- A whole number that is a double converts to that double. -/
theorem ofNat_eq_finite {value : Nat} {m : Magnitude} (hunits : m.units = value * unitsPerOne) :
    ofNat value = .finite false m := by
  rw [ofNat, ← hunits, ofRatio_units]

/-- The double of a whole number with at most 53 bits in front of its zeros. -/
def wholeMagnitude (significand exponent : Nat) (hsignificand : significand < 2 ^ precision)
    (hexponent : exponent ≤ 971) : Magnitude :=
  .ofParts significand (exponent + unitExponent) hsignificand
    (by simp only [unitExponent, precision, overflowExponent]; omega)

theorem wholeMagnitude_units {significand exponent : Nat}
    (hsignificand : significand < 2 ^ precision) (hexponent : exponent ≤ 971) :
    (wholeMagnitude significand exponent hsignificand hexponent).units =
      significand * 2 ^ exponent * unitsPerOne := by
  simp only [wholeMagnitude, Magnitude.ofParts, unitsPerOne_eq, Nat.pow_add, Nat.mul_assoc]

theorem exists_ofNat_of_lt {value : Nat} (hvalue : value < 2 ^ precision) :
    ∃ m : Magnitude, ofNat value = .finite false m ∧ m.units = value * unitsPerOne := by
  have hunits := wholeMagnitude_units hvalue (Nat.zero_le 971)
  rw [Nat.pow_zero, Nat.mul_one] at hunits
  exact ⟨_, ofNat_eq_finite hunits, hunits⟩

theorem exists_ofNat_one : ∃ m : Magnitude, ofNat 1 = .finite false m ∧ m.units = unitsPerOne := by
  have hone : 1 < 2 ^ precision := by decide
  obtain ⟨m, hm, hunits⟩ := exists_ofNat_of_lt hone
  exact ⟨m, hm, by rw [hunits, Nat.one_mul]⟩

/-- A factor of magnitude one only contributes its sign. -/
private theorem finite_one_mul {one : Magnitude} (hone : one.units = unitsPerOne)
    (negative : Bool) (x : Binary64) :
    mul (.finite negative one) x = if negative then x.neg else x := by
  have hpos := unitsPerOne_pos
  cases x with
  | nan => cases negative <;> rfl
  | infinite t =>
    simp only [mul, hone, if_neg (Nat.ne_of_gt hpos)]
    cases negative <;> simp [neg]
  | finite t a =>
    have hround : roundUnits (unitsPerOne * a.units) unitsPerOne = a.units := by
      rw [Nat.mul_comm]
      exact roundUnits_mul_self hpos a.spacing_dvd
    simp only [mul, hone, ofRatio_eq_finite _ hround]
    cases negative <;> simp [neg]

theorem one_mul (x : Binary64) : (ofNat 1).mul x = x := by
  obtain ⟨one, hfinite, hunits⟩ := exists_ofNat_one
  rw [hfinite, finite_one_mul hunits]
  rfl

theorem neg_one_mul (x : Binary64) : (ofNat 1).neg.mul x = x.neg := by
  obtain ⟨one, hfinite, hunits⟩ := exists_ofNat_one
  rw [hfinite, neg, finite_one_mul hunits]
  rfl

theorem zero_add (m : Magnitude) : (ofNat 0).add (.finite false m) = .finite false m := by
  have hfits : 0 < 2 ^ precision := by decide
  obtain ⟨zero, hzero, hunits⟩ := exists_ofNat_of_lt hfits
  rw [Nat.zero_mul] at hunits
  simp only [hzero, add, hunits, Nat.zero_add, ofRatio_units, if_true]

/-- A whole number and a fraction up to 1 are added with one rounding of their sum. -/
theorem ofNat_add_ofRatio {whole num den : Nat} (hwhole : whole < 2 ^ precision) (hden : 0 < den)
    (hnum : num ≤ unitsPerOne * den) :
    (ofNat whole).add (ofRatio false num den) =
      ofRatio false (whole * unitsPerOne + roundUnits num den) 1 := by
  obtain ⟨a, ha, hunits⟩ := exists_ofNat_of_lt hwhole
  have hone : spacing unitsPerOne ∣ unitsPerOne := by
    simpa only [Nat.one_mul] using spacing_mul_unitsPerOne Nat.one_le_two_pow
  have hrange : roundUnits num den < overflowUnits :=
    Nat.lt_of_le_of_lt (roundUnits_le hden hone hnum) (by decide +kernel)
  rw [ha, ofRatio, dif_pos hrange, add, if_pos rfl, hunits]

/-- Powers of ten up to 10²² are exact. -/
theorem tenPower_eq_ofNat {exponent : Nat} (hexponent : exponent ≤ 22) :
    tenPower exponent = ofNat (10 ^ exponent) := by
  have hall : ∀ n : Fin 23, tenPower n = ofNat (10 ^ (n : Nat)) := by decide +kernel
  exact hall ⟨exponent, by omega⟩

theorem exists_tenPower {exponent : Nat} (hexponent : exponent ≤ 22) :
    ∃ m : Magnitude, tenPower exponent = .finite false m ∧
      m.units = 10 ^ exponent * unitsPerOne := by
  have hsignificand : 5 ^ exponent < 2 ^ precision :=
    Nat.lt_of_le_of_lt (Nat.pow_le_pow_right (by decide) hexponent) (by decide)
  have hten : 10 ^ exponent = 5 ^ exponent * 2 ^ exponent := by rw [← Nat.mul_pow]
  have hrange : exponent ≤ 971 := by omega
  have hunits := wholeMagnitude_units hsignificand hrange
  rw [← hten] at hunits
  exact ⟨_, by rw [tenPower_eq_ofNat hexponent, ofNat_eq_finite hunits], hunits⟩

/-- A fraction whose digits are a double, up to 22 of them, is rounded once. -/
theorem ofFraction_of_units {value digits : Nat} {a : Magnitude}
    (ha : a.units = value * unitsPerOne) (hdigits : digits ≤ 22) :
    ofFraction value digits = ofRatio false (value * unitsPerOne) (10 ^ digits) := by
  obtain ⟨b, hb, hbUnits⟩ := exists_tenPower hdigits
  have hmin : min digits maxTenExponent = digits :=
    Nat.min_eq_left (Nat.le_trans hdigits (by decide))
  have hpos : 10 ^ digits * unitsPerOne ≠ 0 :=
    Nat.ne_of_gt (Nat.mul_pos (Nat.pow_pos (by decide)) unitsPerOne_pos)
  rw [ofFraction, hmin, ofNat_eq_finite ha, hb]
  simp only [div, ha, hbUnits, if_neg hpos, bne_self_eq_false,
    ofRatio_mul_right _ _ _ unitsPerOne_pos]

end Binary64

end CommaCalc
