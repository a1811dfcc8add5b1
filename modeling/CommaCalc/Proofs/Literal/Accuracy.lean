import CommaCalc.Proofs.Binary64.Accuracy
import CommaCalc.Proofs.Literal.Magnitude

/-!
# How accurate a literal is

The digits of a literal, however many, have an exact value.  The double that is read has
the sign of the literal, and its magnitude is within 2⁻⁴⁸ of that value: the digits that are
dropped weigh less than one rounding, and the roundings that are made are fewer than
thirty-two.  Only a fraction that is subnormal or lost adds an absolute error.
-/

namespace CommaCalc

open Rounding

attribute [local instance (high)] instPowNat

/-- The exact value of the digits behind a comma. -/
def Digits.exactFraction (run : Digits) : ℚ :=
  run.value / 10 ^ run.chars.length

/-- The exact value of what stands behind a whole part. -/
def exactFractionOf : Option (Blanks × Digits) → ℚ
  | none => 0
  | some (_, run) => run.exactFraction

/-- The exact value of a literal, its sign left aside. -/
def Spelling.exactMagnitude (s : Spelling) : ℚ :=
  s.whole.value + exactFractionOf s.fraction

theorem Digits.exactFraction_nonneg (run : Digits) : 0 ≤ run.exactFraction := by
  unfold Digits.exactFraction
  positivity

namespace Digits

variable {run : Digits} {front back : List Char}

/-- What is dropped stands behind the digits that are kept. -/
theorem exactFraction_eq (hchars : front ++ back = run.chars) :
    run.exactFraction =
      decimalValue front / 10 ^ front.length + decimalValue back / 10 ^ run.chars.length := by
  rw [exactFraction, value, ← hchars, decimalValue_append, List.length_append, pow_add]
  push_cast
  field_simp

/-- It is below one in the last place that is kept. -/
theorem dropped_lt (hchars : front ++ back = run.chars) :
    (decimalValue back / 10 ^ run.chars.length : ℚ) < 1 / 10 ^ front.length := by
  have hdigit : ∀ c ∈ back, c.isDigit = true := by
    intro c hc
    apply run.digit
    rw [← hchars]
    exact List.mem_append_right front hc
  have hback : (decimalValue back : ℚ) < 10 ^ back.length := by
    exact_mod_cast decimalValue_lt hdigit
  rw [← hchars, List.length_append, pow_add, div_lt_div_iff₀ (by positivity) (by positivity),
    one_mul, mul_comm]
  gcongr

/-- Digits are dropped only when those that are kept are close to the limit. -/
theorem limit_le_of_dropped {c : Char} (h : IsLongestFitting front run.chars)
    (hchars : front ++ c :: back = run.chars) : numeralLimit ≤ 10 * decimalValue front + 9 := by
  obtain ⟨-, -, hlongest⟩ := h
  have hc : ∀ d ∈ [c], d.isDigit = true := by
    rw [List.forall_mem_singleton]
    apply run.digit
    rw [← hchars]
    exact List.mem_append_right front List.mem_cons_self
  have hreach : numeralLimit ≤ decimalValue (front ++ [c]) := by
    by_contra hfits
    have hlonger := hlongest (front ++ [c]) ⟨back, by rw [← hchars]; simp⟩ (Nat.lt_of_not_le hfits)
    simp at hlonger
  have hdigit := decimalValue_lt hc
  rw [decimalValue_append, List.length_singleton, Nat.pow_one] at hreach
  rw [List.length_singleton, Nat.pow_one] at hdigit
  omega

/-- If there are any, the digits that are dropped weigh less than three parts in 10³⁸ of those
that are kept. -/
theorem dropped_lt_kept {c : Char} (h : IsLongestFitting front run.chars)
    (hchars : front ++ c :: back = run.chars) :
    (decimalValue (c :: back) / 10 ^ run.chars.length : ℚ) <
      3 / 10 ^ 38 * (decimalValue front / 10 ^ front.length) := by
  have hlarge : 10 ^ 38 ≤ 3 * decimalValue front := by
    have hlimit := limit_le_of_dropped h hchars
    have hbits : 10 * 10 ^ 38 + 27 ≤ 3 * numeralLimit := by decide
    omega
  have hone : 1 ≤ 3 / 10 ^ 38 * (decimalValue front : ℚ) := by
    have hcast : (10 ^ 38 : ℚ) ≤ 3 * decimalValue front := by exact_mod_cast hlarge
    rw [div_mul_eq_mul_div]
    exact (one_le_div (by positivity)).mpr hcast
  calc (decimalValue (c :: back) / 10 ^ run.chars.length : ℚ) < 1 / 10 ^ front.length :=
        dropped_lt hchars
    _ ≤ 3 / 10 ^ 38 * decimalValue front / 10 ^ front.length := by gcongr
    _ = 3 / 10 ^ 38 * (decimalValue front / 10 ^ front.length) := mul_div_assoc ..

/-- So the digits that are kept come close to all of them from below. -/
theorem exactFraction_sub_kept (h : IsLongestFitting front run.chars) :
    0 ≤ run.exactFraction - decimalValue front / 10 ^ front.length ∧
      run.exactFraction - decimalValue front / 10 ^ front.length < 1 / 10 ^ front.length ∧
      (front ≠ run.chars → run.exactFraction - decimalValue front / 10 ^ front.length <
        3 / 10 ^ 38 * run.exactFraction) := by
  obtain ⟨back, hchars⟩ := h.1
  have hdropped : run.exactFraction - decimalValue front / 10 ^ front.length =
      decimalValue back / 10 ^ run.chars.length := by
    rw [exactFraction_eq hchars, add_sub_cancel_left]
  have hnonneg : (0 : ℚ) ≤ decimalValue back / 10 ^ run.chars.length := by positivity
  rw [hdropped]
  refine ⟨hnonneg, dropped_lt hchars, ?_⟩
  intro hne
  cases back with
  | nil =>
    rw [List.append_nil] at hchars
    exact absurd hchars hne
  | cons c back =>
    apply (dropped_lt_kept h hchars).trans_le
    rw [exactFraction_eq hchars]
    gcongr
    exact le_add_of_nonneg_right hnonneg

/-- In any case they weigh less than one rounding. -/
theorem dropped_le (h : IsLongestFitting front run.chars) (hchars : front ++ back = run.chars) :
    (decimalValue back / 10 ^ run.chars.length : ℚ) ≤
      unitRoundoff * (decimalValue front / 10 ^ front.length) := by
  cases back with
  | nil =>
    have hroundoff := unitRoundoff_nonneg
    have hzero : decimalValue [] = 0 := rfl
    rw [hzero, Nat.cast_zero, zero_div]
    positivity
  | cons c back =>
    have hparts : (3 / 10 ^ 38 : ℚ) ≤ unitRoundoff := by norm_num [unitRoundoff]
    refine (dropped_lt_kept h hchars).le.trans ?_
    gcongr

/-- The fraction that is read is close to all of its digits. -/
theorem exists_fraction_near (run : Digits) :
    ∃ m : Magnitude, run.fraction = .finite false m ∧ m.units ≤ unitsPerOne ∧
      |m.toRat - run.exactFraction| ≤ 24 * unitRoundoff * run.exactFraction + 1 / 10 ^ 270 := by
  obtain ⟨front, hfront, hfraction⟩ := run.exists_longestFitting
  obtain ⟨back, hchars⟩ := hfront.1
  have hdigit : ∀ c ∈ front, c.isDigit = true := fun c hc => run.digit c (hfront.1.mem hc)
  obtain ⟨m, hm, hmOne, hnear⟩ :=
    Binary64.exists_ofFraction_near (decimalValue_lt hdigit) hfront.2.1
  refine ⟨m, by rw [hfraction, hm], hmOne, ?_⟩
  have hdropped := dropped_le hfront hchars
  have hback : (0 : ℚ) ≤ decimalValue back / 10 ^ run.chars.length := by positivity
  rw [exactFraction_eq hchars]
  have hroundoff := mul_nonneg unitRoundoff_nonneg hback
  generalize (decimalValue front / 10 ^ front.length : ℚ) = kept at *
  generalize (decimalValue back / 10 ^ run.chars.length : ℚ) = dropped at *
  generalize (1 / 10 ^ 270 : ℚ) = slack at *
  calc |m.toRat - (kept + dropped)| ≤ |m.toRat - kept| + |kept - (kept + dropped)| :=
        abs_sub_le ..
    _ = |m.toRat - kept| + dropped := by rw [sub_add_cancel_left, abs_neg, abs_of_nonneg hback]
    _ ≤ 23 * unitRoundoff * kept + slack + unitRoundoff * kept := add_le_add hnear hdropped
    _ ≤ 24 * unitRoundoff * (kept + dropped) + slack := by linarith

end Digits

/-! ## The whole literal -/

/-- Twice the absolute error of a fraction. -/
theorem two_mul_slack_le : (2 * (1 / 10 ^ 270) : ℚ) ≤ 1 / 10 ^ 269 := by
  rw [pow_succ (10 : ℚ) 269, mul_one_div, div_le_div_iff₀ (by positivity) (by positivity), one_mul,
    mul_comm]
  gcongr
  norm_num

/-- A whole part and a fraction are added with one more rounding. -/
theorem abs_sum_sub_le {a f sum whole fraction slack : ℚ} (hwhole : 0 ≤ whole)
    (hfraction : 0 ≤ fraction) (hslack : 0 ≤ slack) (ha : |a - whole| ≤ unitRoundoff * whole)
    (hf : |f - fraction| ≤ 24 * unitRoundoff * fraction + slack)
    (hsum : |sum - (a + f)| ≤ unitRoundoff * (a + f)) :
    |sum - (whole + fraction)| ≤ (whole + fraction) / 2 ^ 48 + 2 * slack := by
  have hparts : |a + f - (whole + fraction)| ≤
      (24 : ℕ) * unitRoundoff * (whole + fraction) + slack :=
    calc |a + f - (whole + fraction)| = |a - whole + (f - fraction)| := by rw [add_sub_add_comm]
      _ ≤ |a - whole| + |f - fraction| := abs_add_le ..
      _ ≤ unitRoundoff * whole + (24 * unitRoundoff * fraction + slack) := add_le_add ha hf
      _ ≤ (24 : ℕ) * unitRoundoff * (whole + fraction) + slack := by
        have hroundoff := mul_nonneg unitRoundoff_nonneg hwhole
        push_cast
        linarith
  rw [← add_zero (unitRoundoff * _)] at hsum
  have hrounded := abs_sub_le_of_rounded (add_nonneg hwhole hfraction) hslack
    (by norm_num [unitRoundoff]) hparts hsum
  refine hrounded.trans ?_
  rw [add_zero, unitRoundoff]
  push_cast
  linarith

namespace Spelling

variable (s : Spelling)

/-- Without its sign, a literal is read to within 2⁻⁴⁸ of its digits. -/
theorem exists_magnitude_near :
    ∃ m : Magnitude, s.magnitude = .finite false m ∧
      |m.toRat - s.exactMagnitude| ≤ s.exactMagnitude / 2 ^ 48 + 1 / 10 ^ 269 := by
  obtain ⟨a, ha, haLimit, haNear⟩ := Binary64.exists_ofNat_near s.fits.le
  have hwhole : (0 : ℚ) ≤ s.whole.value := Nat.cast_nonneg _
  have hslack : (0 : ℚ) ≤ 1 / 10 ^ 270 := by positivity
  rw [magnitude, ha, exactMagnitude]
  cases s.fraction with
  | none =>
    -- Without a fraction nothing is added: this is a sum with an exact zero.
    refine ⟨a, rfl, ?_⟩
    rw [exactFractionOf, add_zero]
    refine haNear.trans (le_add_of_le_of_nonneg ?_ (by positivity))
    rw [unitRoundoff, div_mul_eq_mul_div, one_mul]
    gcongr <;> norm_num
  | some pair =>
    obtain ⟨gap, run⟩ := pair
    obtain ⟨f, hf, hfOne, hfNear⟩ := run.exists_fraction_near
    obtain ⟨m, hm, -, -⟩ := Binary64.exists_finite_add haLimit hfOne
    refine ⟨m, by rw [addFraction, hf, hm], ?_⟩
    have hsum := abs_sum_sub_le hwhole run.exactFraction_nonneg hslack haNear hfNear
      (Binary64.abs_add_sub_le hm)
    exact hsum.trans (add_le_add le_rfl two_mul_slack_le)

/-- A minus sign stands in a literal only in front. -/
theorem minus_mem_iff (gap : Blanks) : '-' ∈ gap.chars ++ s.chars ↔ s.minus.isSome = true := by
  have hblank : ∀ gap : Blanks, '-' ∉ gap.chars :=
    fun gap hmem => Bool.noConfusion (gap.blank _ hmem)
  have hdigit : ∀ run : Digits, '-' ∉ run.chars :=
    fun run hmem => Bool.noConfusion (run.digit _ hmem)
  have hfraction : '-' ∉ fractionChars s.fraction := by
    cases s.fraction with
    | none => exact List.not_mem_nil
    | some pair => simp [fractionChars, decimalMark, hblank, hdigit]
  cases hminus : s.minus <;>
    simp [chars, hminus, minusChars, hblank, hdigit, hfraction]

/-- What is read of a text determines its pieces. -/
theorem gap_append_inj {gap gap' : Blanks} {s s' : Spelling} {tail : List Char}
    (heq : gap.chars ++ (s.chars ++ tail) = gap'.chars ++ (s'.chars ++ tail)) :
    gap = gap' ∧ s = s' := by
  rw [← List.append_assoc, ← List.append_assoc] at heq
  have hread := List.append_cancel_right heq
  rw [← List.append_nil s.chars, ← List.append_nil s'.chars] at hread
  obtain ⟨hgap, hchars⟩ := append_stops_inj gap.blank s.stops_isBlank gap'.blank
    s'.stops_isBlank hread
  exact ⟨Blanks.ext hgap, (append_inj s.endsBefore_nil s'.endsBefore_nil hchars).1⟩

end Spelling

/-- One digit and any number of repetitions of it. -/
def Digits.repeated (c : Char) (hc : c.isDigit = true) (more : Nat) : Digits where
  chars := List.replicate (more + 1) c
  nonempty := List.cons_ne_nil _ _
  digit := by
    intro d hd
    rw [List.eq_of_mem_replicate hd, hc]

theorem isDigit_zero : '0'.isDigit = true := by decide

theorem isDigit_one : '1'.isDigit = true := by decide

theorem isDigit_three : '3'.isDigit = true := by decide

theorem isDigit_five : '5'.isDigit = true := by decide

theorem isDigit_six : '6'.isDigit = true := by decide

theorem isDigit_nine : '9'.isDigit = true := by decide

namespace Literal

/-- A number that is read, wherever the cursor stands, has the sign that was read and is
within 2⁻⁴⁸ of the exact value of all the digits that were read, as far as 10⁻²⁶⁹ does not
count. -/
theorem number_accurate (cursor : Cursor) (hvalid : cursor.Valid) {value : Binary64}
    {after : Cursor} (hrun : number.run cursor = .ok value after) :
    ∃ (gap : Blanks) (s : Spelling) (m : Magnitude),
      cursor.rest = gap.chars ++ (s.chars ++ after.rest) ∧
      (∀ (gap' : Blanks) (s' : Spelling),
        cursor.rest = gap'.chars ++ (s'.chars ++ after.rest) → gap' = gap ∧ s' = s) ∧
      value = .finite (decide ('-' ∈ gap.chars ++ s.chars)) m ∧
      |m.toRat - s.exactMagnitude| ≤ s.exactMagnitude / 2 ^ 48 + 1 / 10 ^ 269 := by
  obtain ⟨text, position, rest⟩ := cursor
  obtain ⟨gap, s, tail, -, rfl, rfl, rfl⟩ := exists_of_number _ _ hvalid hrun
  obtain ⟨m, hm, hnear⟩ := s.exists_magnitude_near
  refine ⟨gap, s, m, rfl, ?_, ?_, hnear⟩
  · intro gap' s' hrest'
    exact Spelling.gap_append_inj hrest'.symm
  · rw [s.value_of_magnitude hm, Bool.decide_congr (s.minus_mem_iff gap), Bool.decide_eq_true]

/-- The literal `-0,` with forty-five nines. -/
def minusNines : Spelling where
  minus := some noBlanks
  whole := .repeated '0' isDigit_zero 0
  fits := by decide
  fraction := some (noBlanks, .repeated '9' isDigit_nine 44)

/-- Of forty-five nines behind a comma, seven are dropped. -/
theorem number_accurate_nines :
    ∃ (after : Cursor) (m : Magnitude),
      number.run (.start (String.ofList minusNines.chars)) = .ok (.finite true m) after ∧
      |m.toRat - (1 - 1 / 10 ^ 45)| ≤ (1 - 1 / 10 ^ 45) / 2 ^ 48 + 1 / 10 ^ 269 := by
  have hvalid := Cursor.valid_start (String.ofList minusNines.chars)
  have hstart : Cursor.start (String.ofList minusNines.chars) =
      ⟨String.ofList minusNines.chars, 0, noBlanks.chars ++ (minusNines.chars ++ [])⟩ := by
    simp [Cursor.start, noBlanks]
  rw [hstart] at hvalid ⊢
  have hrun := number_literal _ 0 noBlanks minusNines minusNines.endsBefore_nil hvalid
  obtain ⟨gap, s, m, -, hunique, hvalue, hnear⟩ := number_accurate _ hvalid hrun
  obtain ⟨rfl, rfl⟩ := hunique noBlanks minusNines rfl
  have hexact : minusNines.exactMagnitude = 1 - 1 / 10 ^ 45 := by
    have hwhole : minusNines.whole.value = 0 := by decide
    have hnines : decimalValue (List.replicate 45 '9') = 10 ^ 45 - 1 := by decide +kernel
    rw [Spelling.exactMagnitude, hwhole, minusNines, exactFractionOf, Digits.exactFraction,
      Digits.value, Digits.repeated, hnines, List.length_replicate]
    norm_num
  rw [hexact] at hnear
  have hsign : decide ('-' ∈ noBlanks.chars ++ minusNines.chars) = true := by decide
  rw [hsign] at hvalue
  rw [hvalue] at hrun
  exact ⟨_, m, hrun, hnear⟩

end Literal

end CommaCalc
