import CommaCalc.Proofs.Literal.DigitRun
import CommaCalc.Proofs.Literal.Short

/-!
# A fraction does not leave its whole part

A fraction is a double from 0 to 1.  It is added to the double of its whole part with one
rounding, and rounding is monotone, so the sum lies between that double and its sum with 1.
-/

namespace CommaCalc

open Rounding

attribute [local instance (high)] instPowNat

namespace Magnitude

variable {m n : Magnitude}

theorem toRat_le_toRat_iff : m.toRat ≤ n.toRat ↔ m.units ≤ n.units := by
  rw [← not_lt, toRat_lt_toRat_iff, Nat.not_lt]

theorem toRat_le_one (hm : m.units ≤ unitsPerOne) : m.toRat ≤ 1 := by
  rw [toRat, div_le_one cast_unitsPerOne_pos, Nat.cast_le]
  exact hm

end Magnitude

namespace Binary64

variable {a f sum : Magnitude} {sign : Bool}

/-- What is added does not make a sum smaller than the other part, which is a double. -/
theorem units_le_of_add (hsum : add (.finite false a) (.finite false f) = .finite sign sum) :
    a.units ≤ sum.units := by
  rw [units_of_add hsum]
  apply le_roundUnits Nat.one_pos a.spacing_dvd
  rw [Nat.mul_one]
  exact Nat.le_add_right a.units f.units

/-- A sum grows with what is added. -/
theorem units_add_mono {f' sum' : Magnitude} {sign' : Bool} (hle : f.units ≤ f'.units)
    (hsum : add (.finite false a) (.finite false f) = .finite sign sum)
    (hsum' : add (.finite false a) (.finite false f') = .finite sign' sum') :
    sum.units ≤ sum'.units := by
  rw [units_of_add hsum, units_of_add hsum']
  exact roundUnits_mono Nat.one_pos (Nat.add_le_add_left hle a.units)

/-- A double up to 2¹²⁸ has a sum with 1, and no fraction takes it past that. -/
theorem exists_add_one {low : Magnitude} (hlow : low.units ≤ numeralLimit * unitsPerOne) :
    ∃ high : Magnitude, add (.finite false low) (ofNat 1) = .finite false high ∧
      low.units ≤ high.units ∧ ∀ f : Magnitude, f.units ≤ unitsPerOne →
        ∃ m : Magnitude, add (.finite false low) (.finite false f) = .finite false m ∧
          low.units ≤ m.units ∧ m.units ≤ high.units := by
  obtain ⟨one, hone, hunits⟩ := exists_ofNat_one
  obtain ⟨high, hhigh, -, -⟩ := exists_finite_add hlow hunits.le
  refine ⟨high, by rw [hone, hhigh], units_le_of_add hhigh, ?_⟩
  intro f hf
  obtain ⟨m, hm, -, -⟩ := exists_finite_add hlow hf
  rw [← hunits] at hf
  exact ⟨m, hm, units_le_of_add hm, units_add_mono hf hm hhigh⟩

end Binary64

/-- Without its sign, a literal is at least its whole part and at most the sum of that and 1. -/
theorem Spelling.exists_magnitude_between (s : Spelling) :
    ∃ low m high : Magnitude, Binary64.ofNat s.whole.value = .finite false low ∧
      (Binary64.ofNat s.whole.value).add (.ofNat 1) = .finite false high ∧
      s.magnitude = .finite false m ∧ low.units ≤ m.units ∧ m.units ≤ high.units := by
  obtain ⟨low, hlow, -, hlimit⟩ := Binary64.exists_ofNat_of_le s.fits.le
  obtain ⟨high, hhigh, hge, hbetween⟩ := Binary64.exists_add_one hlimit
  rw [magnitude, hlow]
  cases s.fraction with
  | none => exact ⟨low, low, high, rfl, hhigh, rfl, Nat.le_refl _, hge⟩
  | some pair =>
    obtain ⟨gap, run⟩ := pair
    obtain ⟨f, hf, hone, -⟩ := run.exists_fraction_near
    obtain ⟨m, hm, hbounds⟩ := hbetween f hone
    exact ⟨low, m, high, rfl, hhigh, by rw [addFraction, hf, hm], hbounds⟩

namespace Literal

/-- A fraction of any number of digits is a double from 0 to 1 without a sign.  So the magnitude
of a number that is read, wherever its cursor stands, lies between the double of its whole part
and the sum of that double and 1. -/
theorem number_between (cursor : Cursor) (hvalid : cursor.Valid) :
    (∀ gap run tail, BeginsWithRun cursor.rest gap run tail → ∃ m : Magnitude,
      fraction.run cursor = .ok (.finite false m)
        ⟨cursor.text, cursor.position + utf8Length (gap.chars ++ run.chars), tail⟩ ∧
      0 ≤ m.toRat ∧ m.toRat ≤ 1) ∧
    ∀ value after, number.run cursor = .ok value after →
      ∃ (gap : Blanks) (s : Spelling) (low m high : Magnitude),
        cursor.rest = gap.chars ++ (s.chars ++ after.rest) ∧
        (∀ (gap' : Blanks) (s' : Spelling),
          cursor.rest = gap'.chars ++ (s'.chars ++ after.rest) → gap' = gap ∧ s' = s) ∧
        Binary64.ofNat s.whole.value = .finite false low ∧
        (Binary64.ofNat s.whole.value).add (.ofNat 1) = .finite false high ∧
        value = .finite s.minus.isSome m ∧ low.toRat ≤ m.toRat ∧ m.toRat ≤ high.toRat := by
  constructor
  · intro gap run tail hbegins
    obtain ⟨m, hm, hone, -⟩ := run.exists_fraction_near
    exact ⟨m, by rw [fraction_of_beginsWithRun hbegins, hm], m.toRat_nonneg,
      Magnitude.toRat_le_one hone⟩
  · intro value after hrun
    obtain ⟨text, position, rest⟩ := cursor
    obtain ⟨gap, s, tail, -, rfl, rfl, rfl⟩ := exists_of_number _ _ hvalid hrun
    obtain ⟨low, m, high, hlow, hhigh, hm, hge, hle⟩ := s.exists_magnitude_between
    refine ⟨gap, s, low, m, high, rfl, ?_, hlow, hhigh, s.value_of_magnitude hm,
      Magnitude.toRat_le_toRat_iff.mpr hge, Magnitude.toRat_le_toRat_iff.mpr hle⟩
    intro gap' s' hrest'
    exact Spelling.gap_append_inj hrest'.symm

/-- Forty-five nines do not exceed 1 where a fraction is due, nor behind a sign and a zero. -/
theorem number_between_nines :
    (∃ (m : Magnitude) (after : Cursor),
      fraction.run (.start (String.ofList (Digits.repeated '9' isDigit_nine 44).chars)) =
        .ok (.finite false m) after ∧ m.toRat ≤ 1) ∧
    ∃ (m : Magnitude) (after : Cursor),
      number.run (.start (String.ofList minusNines.chars)) = .ok (.finite true m) after ∧
      m.toRat ≤ 1 := by
  constructor
  · have hrest : (Cursor.start (String.ofList (Digits.repeated '9' isDigit_nine 44).chars)).rest =
        noBlanks.chars ++ ((Digits.repeated '9' isDigit_nine 44).chars ++ []) := by
      simp [Cursor.start, noBlanks]
    obtain ⟨m, hrun, -, hle⟩ :=
      (number_between _ (Cursor.valid_start _)).1 _ _ _ ⟨hrest, stops_nil⟩
    exact ⟨m, _, hrun, hle⟩
  · have hvalid := Cursor.valid_start (String.ofList minusNines.chars)
    have hrest : (Cursor.start (String.ofList minusNines.chars)).rest =
        noBlanks.chars ++ (minusNines.chars ++ []) := by simp [Cursor.start, noBlanks]
    have hrun := number_spelling hvalid hrest minusNines.endsBefore_nil
    obtain ⟨gap, s, low, m, high, -, hunique, -, hhigh, hvalue, -, hle⟩ :=
      (number_between _ hvalid).2 _ _ hrun
    obtain ⟨rfl, rfl⟩ := hunique noBlanks minusNines
      (by simp [Cursor.advance, Cursor.start, noBlanks])
    obtain ⟨one, hone, hunits⟩ := Binary64.exists_ofNat_one
    have hzero : minusNines.whole.value = 0 := by decide
    rw [hzero, hone, Binary64.zero_add] at hhigh
    cases hhigh
    rw [hvalue] at hrun
    exact ⟨m, _, hrun, hle.trans (Magnitude.toRat_le_one hunits.le)⟩

end Literal

end CommaCalc
