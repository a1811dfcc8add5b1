import CommaCalc.Proofs.Literal.DigitRun

/-!
# Zeros at the end of a fraction

Zeros behind a fraction do not change its exact value, but they are read like any other
digits: they make the whole number and the power of ten that it is divided by larger.  As
long as both are doubles, the quotient of two exact numbers is rounded once and stays what it
was, and so it does for zeros that are dropped because the digits in front of them fill the
numeral.  Otherwise both fractions are within their rounding errors of the same value.
-/

namespace CommaCalc

open Rounding

attribute [local instance (high)] instPowNat

/-- A whole number that is a double with zeros behind it is one without them. -/
theorem Rounding.spacing_dvd_of_mul_ten_pow {units count : Nat}
    (hdvd : spacing (units * 10 ^ count) ∣ units * 10 ^ count) : spacing units ∣ units := by
  rcases Nat.lt_or_ge units (2 ^ precision) with hshort | hlong
  · rw [spacing_eq_one hshort]
    exact Nat.one_dvd units
  have hten : units * 10 ^ count = units * 2 ^ count * 5 ^ count := by
    rw [Nat.mul_assoc, ← Nat.mul_pow]
  have htwo : units * 2 ^ count ≤ units * 10 ^ count :=
    Nat.mul_le_mul_left units (Nat.pow_le_pow_left (by decide) count)
  have hlarge : 2 ^ (precision + count) ≤ units * 10 ^ count := by
    rw [Nat.pow_add]
    exact Nat.le_trans (Nat.mul_le_mul_right _ hlong) htwo
  have hlog : precision + count ≤ (units * 10 ^ count).log2 :=
    (Nat.le_log2 (Nat.ne_of_gt (Nat.lt_of_lt_of_le (Nat.two_pow_pos _) hlarge))).mpr hlarge
  obtain ⟨step, hstep⟩ : ∃ step, (units * 10 ^ count).log2 + 1 - precision = step + count :=
    ⟨(units * 10 ^ count).log2 + 1 - precision - count, by omega⟩
  -- The factors of five do not count towards the step, which is a power of two.
  have hcoprime : Nat.Coprime (2 ^ (step + count)) (5 ^ count) := Nat.Coprime.pow _ _ (by decide)
  rw [spacing, hstep, hten] at hdvd
  have hfactor := hcoprime.dvd_of_dvd_mul_right hdvd
  rw [Nat.pow_add] at hfactor
  refine spacing_dvd_of_two_pow_dvd step (Nat.dvd_of_mul_dvd_mul_right (Nat.two_pow_pos _) hfactor)
    (Nat.le_of_mul_le_mul_right ?_ (Nat.two_pow_pos count))
  calc units * 2 ^ count ≤ 2 ^ ((units * 10 ^ count).log2 + 1) :=
        Nat.le_trans htwo Nat.lt_log2_self.le
    _ = 2 ^ precision * 2 ^ step * 2 ^ count := by
        rw [← Nat.pow_add, ← Nat.pow_add]
        congr 1
        omega

namespace Digits

variable (run : Digits) (zeros : Nat)

/-- The digits with the given number of zeros behind them. -/
def withZeros : Digits where
  chars := run.chars ++ List.replicate zeros '0'
  nonempty := List.append_ne_nil_of_left_ne_nil run.nonempty _
  digit := by
    intro c hc
    rcases List.mem_append.mp hc with hc | hc
    · exact run.digit c hc
    · rw [List.eq_of_mem_replicate hc, isDigit_zero]

theorem withZeros_zero : run.withZeros 0 = run :=
  Digits.ext (List.append_nil _)

theorem withZeros_value : (run.withZeros zeros).value = run.value * 10 ^ zeros := by
  rw [value, withZeros, decimalValue_append, decimalValue_replicate_zero, List.length_replicate,
    Nat.add_zero, Nat.mul_comm, value]

theorem withZeros_length : (run.withZeros zeros).chars.length = run.chars.length + zeros := by
  rw [withZeros, List.length_append, List.length_replicate]

/-- Zeros at the end do not count. -/
theorem exactFraction_withZeros : (run.withZeros zeros).exactFraction = run.exactFraction := by
  rw [exactFraction, exactFraction, withZeros_value, withZeros_length, pow_add]
  push_cast
  exact mul_div_mul_right _ _ (by positivity)

variable {run zeros}

/-- Nothing but zeros is worth nothing, however many there are. -/
theorem fraction_withZeros_of_zeros (hzeros : ∀ c ∈ run.chars, c = '0') :
    (run.withZeros zeros).fraction = run.fraction := by
  have hlonger : ∀ c ∈ (run.withZeros zeros).chars, c = '0' := by
    intro c hc
    exact (List.mem_append.mp hc).elim (hzeros c) List.eq_of_mem_replicate
  have hzero : ∀ r : Digits, (∀ c ∈ r.chars, c = '0') →
      ∃ m : Magnitude, r.fraction = .finite false m ∧ m.units = 0 := by
    intro r hr
    obtain ⟨front, hfront, -⟩ := r.exists_longestFitting
    obtain ⟨m, hm, -, hunits⟩ := exists_fraction hfront
    exact ⟨m, hm, hunits.mpr (.inl hr)⟩
  obtain ⟨m, hm, hunits⟩ := hzero run hzeros
  obtain ⟨m', hm', hunits'⟩ := hzero _ hlonger
  rw [hm, hm', Magnitude.ext (hunits'.trans hunits.symm)]

/-- What is kept of digits that fill the numeral is kept of them with zeros behind. -/
theorem isLongestFitting_withZeros {front : List Char} (hfull : numeralLimit ≤ 10 * run.value)
    (hfront : IsLongestFitting front run.chars) :
    IsLongestFitting front (run.withZeros zeros).chars := by
  obtain ⟨hfrontRun, hfits, hlongest⟩ := hfront
  have hrun : run.chars <+: (run.withZeros zeros).chars := List.prefix_append ..
  refine ⟨hfrontRun.trans hrun, hfits, ?_⟩
  intro other hother hfits'
  rcases Nat.lt_or_ge run.chars.length other.length with hlt | hge
  · -- Something longer holds a zero behind all the digits, which makes it too large.
    obtain ⟨more, rfl⟩ := List.prefix_of_prefix_length_le hrun hother hlt.le
    rw [List.length_append] at hlt
    rw [decimalValue_append] at hfits'
    have hten : 10 ^ 1 ≤ 10 ^ more.length := Nat.pow_le_pow_right (by decide) (by omega)
    have hlarge : 10 * run.value ≤ 10 ^ more.length * decimalValue run.chars :=
      Nat.mul_le_mul_right _ hten
    omega
  · exact hlongest other (List.prefix_of_prefix_length_le hother hrun hge) hfits'

/-- So zeros behind such digits are dropped. -/
theorem fraction_withZeros_of_full (hfull : numeralLimit ≤ 10 * run.value) :
    (run.withZeros zeros).fraction = run.fraction := by
  obtain ⟨front, hfront, hfraction⟩ := run.exists_longestFitting
  obtain ⟨front', hfront', hfraction'⟩ := (run.withZeros zeros).exists_longestFitting
  obtain rfl := (isLongestFitting_withZeros hfull hfront).unique hfront'
  rw [hfraction, hfraction']

/-- Up to 22 digits that are a double with zeros behind them are the same quotient without. -/
theorem fraction_withZeros_of_exact (hlength : run.chars.length + zeros ≤ 22) {b : Magnitude}
    (hb : b.units = run.value * 10 ^ zeros * unitsPerOne) :
    (run.withZeros zeros).fraction = run.fraction := by
  have hdvd := b.spacing_dvd
  rw [hb, Nat.mul_right_comm] at hdvd
  have hle : run.value * unitsPerOne ≤ b.units := by
    rw [hb, Nat.mul_right_comm]
    exact Nat.le_mul_of_pos_right _ (Nat.pow_pos (by decide))
  obtain ⟨a, ha⟩ : ∃ a : Magnitude, a.units = run.value * unitsPerOne :=
    ⟨⟨_, spacing_dvd_of_mul_ten_pow hdvd, Nat.lt_of_le_of_lt hle b.inRange⟩, rfl⟩
  have hb' : b.units = (run.withZeros zeros).value * unitsPerOne := by rw [withZeros_value, hb]
  rw [fraction_of_units ha (by omega), fraction_of_units hb' (by rwa [withZeros_length]),
    withZeros_value, withZeros_length, Nat.mul_right_comm, Nat.pow_add,
    Binary64.ofRatio_mul_right _ _ _ (Nat.pow_pos (by decide))]

/-- In any case the two fractions are close to the same value. -/
theorem fraction_withZeros_near {m m' : Magnitude} (hm : run.fraction = .finite false m)
    (hm' : (run.withZeros zeros).fraction = .finite false m') :
    |m'.toRat - m.toRat| ≤ run.exactFraction / 2 ^ 47 + 1 / 10 ^ 269 := by
  obtain ⟨a, ha, -, hnear⟩ := run.exists_fraction_near
  obtain ⟨b, hb, -, hnear'⟩ := (run.withZeros zeros).exists_fraction_near
  obtain rfl : m = a := by simpa [hm] using ha
  obtain rfl : m' = b := by simpa [hm'] using hb
  have hexact := run.exactFraction_nonneg
  have hslack := two_mul_slack_le
  rw [exactFraction_withZeros] at hnear'
  rw [abs_sub_comm] at hnear
  generalize (1 / 10 ^ 270 : ℚ) = slack at hnear hnear' hslack
  calc |m'.toRat - m.toRat| ≤ |m'.toRat - run.exactFraction| + |run.exactFraction - m.toRat| :=
        abs_sub_le ..
    _ ≤ 48 * unitRoundoff * run.exactFraction + 2 * slack := by linarith
    _ ≤ run.exactFraction / 2 ^ 47 + 1 / 10 ^ 269 := by
        refine add_le_add ?_ hslack
        rw [unitRoundoff]
        linarith

end Digits

namespace Literal

/-- The digits of a fraction in front of a cursor are read in full. -/
theorem fraction_digits {cursor : Cursor} {gap : Blanks} {run : Digits} {tail : List Char}
    (hrest : cursor.rest = gap.chars ++ (run.chars ++ tail)) (htail : Stops Char.isDigit tail) :
    fraction.run cursor = .ok run.fraction (cursor.advance (gap.chars ++ run.chars).length) := by
  have hbegins : BeginsWithRun cursor.rest gap run tail := ⟨hrest, htail⟩
  rw [fraction_of_beginsWithRun hbegins, hbegins.advance_eq]

/-- Zeros behind the digits of a fraction are read with them.  They leave the double that is
read as it is if there are none, if the digits are all zeros, if they are dropped because the
digits in front fill the numeral, or if there are at most 22 digits in all and the whole
number that they make up is a double.  In any case the two doubles are within rounding errors
of each other, as far as 10⁻²⁶⁹ does not count. -/
theorem fraction_withZeros (run : Digits) (zeros : Nat) {cursor cursor' : Cursor}
    {gap gap' : Blanks} {tail tail' : List Char}
    (hrest : cursor.rest = gap.chars ++ (run.chars ++ tail)) (htail : Stops Char.isDigit tail)
    (hrest' : cursor'.rest = gap'.chars ++ (run.chars ++ List.replicate zeros '0' ++ tail'))
    (htail' : Stops Char.isDigit tail') :
    ∃ m m' : Magnitude,
      fraction.run cursor =
        .ok (.finite false m) (cursor.advance (gap.chars ++ run.chars).length) ∧
      fraction.run cursor' = .ok (.finite false m')
        (cursor'.advance (gap'.chars ++ (run.chars ++ List.replicate zeros '0')).length) ∧
      (zeros = 0 ∨ (∀ c ∈ run.chars, c = '0') ∨ numeralLimit ≤ 10 * run.value ∨
        run.chars.length + zeros ≤ 22 ∧ (∃ b : Magnitude, b.toRat = run.value * 10 ^ zeros) →
        m' = m) ∧
      |m'.toRat - m.toRat| ≤ run.exactFraction / 2 ^ 47 + 1 / 10 ^ 269 := by
  obtain ⟨m, hm, -, -⟩ := run.exists_fraction_near
  obtain ⟨m', hm', -, -⟩ := (run.withZeros zeros).exists_fraction_near
  refine ⟨m, m', ?_, ?_, ?_, Digits.fraction_withZeros_near hm hm'⟩
  · rw [fraction_digits hrest htail, hm]
  · rw [← hm']
    exact fraction_digits hrest' htail'
  · intro hcases
    have hsame : (run.withZeros zeros).fraction = run.fraction := by
      rcases hcases with rfl | hzeros | hfull | ⟨hlength, b, hb⟩
      · rw [run.withZeros_zero]
      · exact Digits.fraction_withZeros_of_zeros hzeros
      · exact Digits.fraction_withZeros_of_full hfull
      · refine Digits.fraction_withZeros_of_exact hlength (b := b) ?_
        rw [← Magnitude.toRat_eq_iff, hb]
        push_cast
        rfl
    rw [hm, hm'] at hsame
    cases hsame
    rfl

/-- A five stays a half with 21 zeros behind it, for 5 · 10²¹ is a double. -/
theorem fraction_withZeros_five :
    ∃ (m : Magnitude) (after after' : Cursor),
      fraction.run (.start "5") = .ok (.finite false m) after ∧ after.rest = [] ∧
      fraction.run (.start "5000000000000000000000") = .ok (.finite false m) after' ∧
      after'.rest = [] := by
  have hrest : (Cursor.start "5").rest =
      noBlanks.chars ++ ((Digits.repeated '5' isDigit_five 0).chars ++ []) := by decide +kernel
  have hrest' : (Cursor.start "5000000000000000000000").rest = noBlanks.chars ++
      ((Digits.repeated '5' isDigit_five 0).chars ++ List.replicate 21 '0' ++ []) := by
    decide +kernel
  have hfive : (Digits.repeated '5' isDigit_five 0).value = 5 := by decide
  have hexact : ∃ b : Magnitude,
      b.toRat = (Digits.repeated '5' isDigit_five 0).value * 10 ^ 21 := by
    refine ⟨Binary64.wholeMagnitude (5 ^ 22) 21 (by decide) (by decide), ?_⟩
    rw [Magnitude.toRat_eq_iff.mpr (Binary64.wholeMagnitude_units _ _), hfive]
    norm_num
  obtain ⟨m, m', hrun, hrun', hsame, -⟩ := fraction_withZeros _ 21 hrest stops_nil hrest' stops_nil
  obtain rfl := hsame (.inr (.inr (.inr ⟨by decide, hexact⟩)))
  exact ⟨m', _, _, hrun, by decide +kernel, hrun', by decide +kernel⟩

/-- A three with 22 zeros behind it is read as the neighbour of three tenths, for 10²³ is not
a double. -/
theorem fraction_withZeros_not_same :
    ∃ (x y : Binary64) (after after' : Cursor),
      fraction.run (.start "3") = .ok x after ∧
      fraction.run (.start "30000000000000000000000") = .ok y after' ∧ x ≠ y ∧
      x.decimalText = "0,3" ∧ y.decimalText = "0,30000000000000004" := by
  have hrest : (Cursor.start "3").rest =
      noBlanks.chars ++ ((Digits.repeated '3' isDigit_three 0).chars ++ []) := by decide +kernel
  have hrest' : (Cursor.start "30000000000000000000000").rest = noBlanks.chars ++
      (((Digits.repeated '3' isDigit_three 0).withZeros 22).chars ++ []) := by
    decide +kernel
  refine ⟨_, _, _, _, fraction_digits hrest stops_nil, fraction_digits hrest' stops_nil, ?_, ?_, ?_⟩
  all_goals decide +kernel

end Literal

end CommaCalc
