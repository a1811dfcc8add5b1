import CommaCalc.Proofs.Decimal.Plain
import CommaCalc.Proofs.Decimal.Short
import CommaCalc.Proofs.Literal.Accuracy

/-!
# Literals of few digits

Up to fifteen digits, a whole part is exact and a fraction is rounded once, so only their sum
can go wrong: it is rounded a second time.  What is read is the double nearest to the literal,
or else the sum lies midway between that double and the one that is read, as it does for
`1,66`.  The digits of the literal are printed again, less the zeros that do not count,
exactly when the nearest double was read.
-/

namespace CommaCalc

open Rounding

attribute [local instance (high)] instPowNat

/-- The digits of a fraction, if there is one. -/
def fractionRun : Option (Blanks × Digits) → List Char
  | none => []
  | some (_, run) => run.chars

theorem isDigit_of_mem_fractionRun {fraction : Option (Blanks × Digits)} :
    ∀ c ∈ fractionRun fraction, c.isDigit = true := by
  cases fraction with
  | none => exact fun c hc => absurd hc List.not_mem_nil
  | some pair => exact pair.2.digit

theorem exactFractionOf_eq (fraction : Option (Blanks × Digits)) :
    exactFractionOf fraction =
      decimalValue (fractionRun fraction) / 10 ^ (fractionRun fraction).length := by
  cases fraction with
  | none => simp [exactFractionOf, fractionRun, decimalValue]
  | some pair => rfl

theorem fractionRun_le (fraction : Option (Blanks × Digits)) :
    decimalValue (fractionRun fraction) * unitsPerOne ≤
      unitsPerOne * 10 ^ (fractionRun fraction).length := by
  rw [Nat.mul_comm]
  exact Nat.mul_le_mul_left _ (decimalValue_lt isDigit_of_mem_fractionRun).le

namespace Spelling

variable (s : Spelling)

/-- The number of digits, zeros in front of the whole part left aside. -/
def digitCount : Nat :=
  (s.whole.chars.dropWhile (· == '0')).length + (fractionRun s.fraction).length

/-- The literal without blanks and without the zeros that do not count. -/
def plainText : String :=
  String.ofList (minusChars (signBlanks s.minus.isSome) ++
    (plainWhole s.whole.chars ++ plainFraction (fractionRun s.fraction)))

/-- All digits of the literal, read as one whole number. -/
def digitsValue : Nat :=
  s.whole.value * 10 ^ (fractionRun s.fraction).length + decimalValue (fractionRun s.fraction)

/-- The exact value of the literal, its sign left aside, in ticks. -/
def exactTicks : Nat :=
  s.whole.value * 10 ^ decimalPlaces +
    decimalValue (fractionRun s.fraction) * 10 ^ (decimalPlaces - (fractionRun s.fraction).length)

theorem exactMagnitude_eq :
    s.exactMagnitude = s.digitsValue / 10 ^ (fractionRun s.fraction).length := by
  rw [exactMagnitude, exactFractionOf_eq, digitsValue]
  push_cast
  field_simp

variable {s}

section Few

variable (hfew : s.digitCount ≤ 15)
include hfew

theorem length_fractionRun_le : (fractionRun s.fraction).length ≤ 15 :=
  Nat.le_trans (Nat.le_add_left ..) hfew

theorem digitsValue_lt : s.digitsValue < 10 ^ 15 := by
  have hdigit : ∀ c ∈ s.whole.chars.dropWhile (· == '0') ++ fractionRun s.fraction,
      c.isDigit = true := by
    intro c hc
    rcases List.mem_append.mp hc with hc | hc
    · exact s.whole.digit c ((List.dropWhile_suffix _).mem hc)
    · exact isDigit_of_mem_fractionRun c hc
  have hlt := decimalValue_lt hdigit
  rw [decimalValue_append, decimalValue_dropWhile_zero, Nat.mul_comm, List.length_append] at hlt
  exact Nat.lt_of_lt_of_le hlt (Nat.pow_le_pow_right (by decide) hfew)

theorem whole_value_lt : s.whole.value < 2 ^ precision := by
  have hle : s.whole.value ≤ s.digitsValue :=
    Nat.le_trans (Nat.le_mul_of_pos_right _ (Nat.pow_pos (by decide))) (Nat.le_add_right ..)
  exact Nat.lt_trans (Nat.lt_of_le_of_lt hle (digitsValue_lt hfew)) (by decide)

theorem exactTicks_eq : s.exactTicks =
    s.digitsValue * 10 ^ (decimalPlaces - (fractionRun s.fraction).length) := by
  have hplaces : (fractionRun s.fraction).length ≤ decimalPlaces :=
    Nat.le_trans (length_fractionRun_le hfew) (by decide)
  rw [exactTicks, digitsValue, Nat.add_mul, Nat.mul_assoc, ← Nat.pow_add,
    Nat.add_sub_cancel' hplaces]

end Few

/-- The value of few digits is rounded twice: the fraction is, and then the sum. -/
theorem magnitude_eq_ofRatio (hfew : s.digitCount ≤ 15) :
    s.magnitude = .ofRatio false (s.whole.value * unitsPerOne +
      roundUnits (decimalValue (fractionRun s.fraction) * unitsPerOne)
        (10 ^ (fractionRun s.fraction).length)) 1 := by
  have hlength := length_fractionRun_le hfew
  have hrest := fractionRun_le s.fraction
  have hwhole := whole_value_lt hfew
  rw [magnitude]
  generalize s.fraction = fraction at hlength hrest ⊢
  cases fraction with
  | none =>
    have hzero : decimalValue (fractionRun none) * unitsPerOne = 0 := Nat.zero_mul _
    rw [hzero, (roundUnits_eq_zero_iff (Nat.pow_pos (by decide)) (.inl rfl)).mpr rfl]
    rfl
  | some pair =>
    have hvalue : pair.2.value < 2 ^ precision := decimalValue_lt_two_pow pair.2.digit hlength
    rw [addFraction, pair.2.fraction_of_lt hvalue (Nat.le_trans hlength (by decide))]
    exact Binary64.ofNat_add_ofRatio hwhole (Nat.pow_pos (by decide)) hrest

/-- What lies up to 2⁵³ is rounded to a double. -/
private theorem exists_rounded {num den : Nat} (hden : 0 < den)
    (hle : num ≤ 2 ^ precision * unitsPerOne * den) :
    ∃ m : Magnitude, Binary64.ofRatio false num den = .finite false m ∧
      roundUnits num den = m.units := by
  obtain ⟨m, hm, hunits, -⟩ := Binary64.exists_ofRatio_le false hden hle (by decide)
  exact ⟨m, hm, hunits.symm⟩

/-- The sum is rounded to the double nearest to the literal, or it lies midway between the
two; and it does not if there is nothing to add. -/
private theorem eq_or_midpoint (hfew : s.digitCount ≤ 15) {part m nearest : Magnitude}
    (hpart : roundUnits (decimalValue (fractionRun s.fraction) * unitsPerOne)
      (10 ^ (fractionRun s.fraction).length) = part.units)
    (hm : roundUnits (s.whole.value * unitsPerOne + part.units) 1 = m.units)
    (hnearest : roundUnits (s.digitsValue * unitsPerOne)
      (10 ^ (fractionRun s.fraction).length) = nearest.units) :
    m = nearest ∨ s.whole.value ≠ 0 ∧ s.fraction ≠ none ∧
      2 * (s.whole.value + part.toRat) = m.toRat + nearest.toRat := by
  have hpos : 0 < 10 ^ (fractionRun s.fraction).length := Nat.pow_pos (by decide)
  rw [digitsValue, Nat.add_mul, Nat.mul_right_comm] at hnearest
  rcases Nat.eq_zero_or_pos s.whole.value with hzero | hwhole
  · rw [hzero, Nat.zero_mul, Nat.zero_add] at hm
    rw [hzero, Nat.zero_mul, Nat.zero_mul, Nat.zero_add, hpart] at hnearest
    have hself := roundUnits_mul_self Nat.one_pos part.spacing_dvd
    rw [Nat.mul_one, hm, hnearest] at hself
    exact .inl (Magnitude.ext hself)
  by_cases hnone : s.fraction = none
  · have hrun : fractionRun s.fraction = [] := by rw [hnone, fractionRun]
    rw [hrun] at hpart hnearest
    have hdigits : decimalValue [] * unitsPerOne = 0 := Nat.zero_mul _
    have hzero : part.units = 0 := by
      rw [← hpart, hdigits]
      exact (roundUnits_eq_zero_iff (Nat.pow_pos (by decide)) (.inl rfl)).mpr rfl
    rw [hzero, Nat.add_zero] at hm
    rw [hdigits, Nat.add_zero, List.length_nil, Nat.pow_zero, Nat.mul_one, hm] at hnearest
    exact .inl (Magnitude.ext hnearest)
  rw [← hpart] at hm
  rcases eq_or_midpoint_of_sum hwhole (whole_value_lt hfew) hpos (fractionRun_le s.fraction) hm
    hnearest with heq | hmid
  · exact .inl (Magnitude.ext heq)
  · refine .inr ⟨hwhole.ne', hnone, ?_⟩
    have hone := cast_unitsPerOne_pos
    have hmid' : (2 * (s.whole.value * unitsPerOne + part.units) : ℚ) = m.units + nearest.units := by
      rw [hpart] at hmid
      exact_mod_cast hmid
    rw [Magnitude.toRat, Magnitude.toRat, Magnitude.toRat, ← add_div, ← hmid']
    field_simp

/-- A literal of few digits is read as the double nearest to the sum of its whole part and
the double nearest to its fraction.  That is the double nearest to the literal, or the sum
lies midway between the two. -/
theorem exists_magnitude_few (hfew : s.digitCount ≤ 15) :
    ∃ part m nearest : Magnitude, s.magnitude = .finite false m ∧
      part.IsNearest (exactFractionOf s.fraction) ∧ m.IsNearest (s.whole.value + part.toRat) ∧
      nearest.IsNearest s.exactMagnitude ∧
      (m = nearest ∨ s.whole.value ≠ 0 ∧ s.fraction ≠ none ∧
        2 * (s.whole.value + part.toRat) = m.toRat + nearest.toRat) := by
  have hrest := fractionRun_le s.fraction
  have hwhole := Nat.mul_le_mul_right unitsPerOne (Nat.succ_le_of_lt (whole_value_lt hfew))
  have hpos : 0 < 10 ^ (fractionRun s.fraction).length := Nat.pow_pos (by decide)
  have hone : unitsPerOne ≤ 2 ^ precision * unitsPerOne :=
    Nat.le_mul_of_pos_left _ (Nat.two_pow_pos _)
  obtain ⟨part, -, hpart⟩ := exists_rounded hpos (hrest.trans (Nat.mul_le_mul_right _ hone))
  have hpartOne : part.units ≤ unitsPerOne :=
    hpart ▸ roundUnits_le hpos spacing_unitsPerOne_dvd hrest
  have hsum : s.whole.value * unitsPerOne + part.units ≤ 2 ^ precision * unitsPerOne * 1 := by
    rw [Nat.succ_mul] at hwhole
    omega
  have hdigits : s.digitsValue * unitsPerOne ≤
      2 ^ precision * unitsPerOne * 10 ^ (fractionRun s.fraction).length :=
    calc s.digitsValue * unitsPerOne ≤ 2 ^ precision * unitsPerOne :=
          Nat.mul_le_mul_right _ (Nat.le_trans (digitsValue_lt hfew).le (by decide))
      _ ≤ 2 ^ precision * unitsPerOne * 10 ^ (fractionRun s.fraction).length :=
          Nat.le_mul_of_pos_right _ hpos
  obtain ⟨m, hm, hmUnits⟩ := exists_rounded Nat.one_pos hsum
  obtain ⟨nearest, -, hnearest⟩ := exists_rounded hpos hdigits
  refine ⟨part, m, nearest, ?_, ?_, Magnitude.isNearest_add hmUnits, ?_,
    eq_or_midpoint hfew hpart hmUnits hnearest⟩
  · rw [magnitude_eq_ofRatio hfew, hpart, hm]
  · rw [exactFractionOf_eq]
    exact_mod_cast Magnitude.isNearest_div hpos hpart
  · rw [exactMagnitude_eq]
    exact_mod_cast Magnitude.isNearest_div hpos hnearest

/-! ## What is printed -/

/-- The exact value, from its ticks. -/
theorem exactMagnitude_eq_ticks (hfew : s.digitCount ≤ 15) :
    s.exactMagnitude = s.exactTicks / (2 * ticksPerHalfUnit : ℕ) / unitsPerOne := by
  have hplaces : (fractionRun s.fraction).length ≤ decimalPlaces :=
    Nat.le_trans (length_fractionRun_le hfew) (by decide)
  have hticks : ((2 * ticksPerHalfUnit : ℕ) * unitsPerOne : ℚ) =
      10 ^ (fractionRun s.fraction).length *
        10 ^ (decimalPlaces - (fractionRun s.fraction).length) := by
    rw [← Nat.cast_mul, ← ten_pow_decimalPlaces, ← pow_add, Nat.add_sub_cancel' hplaces]
    push_cast
    rfl
  rw [exactMagnitude_eq, exactTicks_eq hfew, div_div, hticks]
  push_cast
  exact (mul_div_mul_right _ _ (by positivity)).symm

theorem roundUnits_exactTicks_lt (hfew : s.digitCount ≤ 15) :
    roundUnits s.exactTicks (2 * ticksPerHalfUnit) < overflowUnits := by
  have hle : s.exactTicks ≤ 2 ^ precision * unitsPerOne * (2 * ticksPerHalfUnit) := by
    rw [whole_mul_ticks, exactTicks_eq hfew]
    exact Nat.mul_le_mul (Nat.le_trans (digitsValue_lt hfew).le (by decide))
      (Nat.pow_le_pow_right (by decide) (Nat.sub_le ..))
  obtain ⟨m, -, hunits⟩ := exists_rounded ticksPerUnit_pos hle
  exact hunits ▸ m.inRange

/-- The shortest decimal of a double is the literal exactly if the double is nearest to it. -/
theorem shortestTicks_eq_iff (hfew : s.digitCount ≤ 15) (m : Magnitude) :
    m.shortestTicks = s.exactTicks ↔ m.IsNearest s.exactMagnitude := by
  rw [exactMagnitude_eq_ticks hfew,
    Magnitude.isNearest_iff ticksPerUnit_pos (roundUnits_exactTicks_lt hfew)]
  constructor
  · intro hticks
    rw [← hticks, m.roundUnits_shortestTicks]
  · intro hround
    rw [exactTicks_eq hfew] at hround ⊢
    exact Magnitude.shortestTicks_eq (digitsValue_lt hfew) (length_fractionRun_le hfew) hround

/-- A double with the sign of the literal is printed as its digits, less the zeros that do not
count, exactly if it is nearest to the literal. -/
theorem decimalText_eq_plainText_iff (hfew : s.digitCount ≤ 15) (m : Magnitude) :
    Binary64.decimalText (.finite s.minus.isSome m) = s.plainText ↔
      m.IsNearest s.exactMagnitude := by
  have hplaces : (fractionRun s.fraction).length ≤ decimalPlaces :=
    Nat.le_trans (length_fractionRun_le hfew) (by decide)
  have hfraction : ∀ c ∈ fractionRun s.fraction, c.isDigit = true := isDigit_of_mem_fractionRun
  have hplain := ticksText_decimalValue s.whole.digit s.whole.nonempty hfraction hplaces
  rw [← shortestTicks_eq_iff hfew, Binary64.decimalText, plainText, String.ofList_inj,
    Binary64.decimalChars_finite, List.append_cancel_left_eq, ← hplain]
  exact ⟨ticksText_inj, fun hticks => congrArg ticksText hticks⟩

end Spelling

namespace Literal

/-- A literal in front of a cursor is read in full. -/
theorem number_spelling {cursor : Cursor} (hvalid : cursor.Valid) {gap : Blanks} {s : Spelling}
    {tail : List Char} (hrest : cursor.rest = gap.chars ++ (s.chars ++ tail))
    (hends : s.EndsBefore tail) :
    number.run cursor = .ok s.value (cursor.advance (gap.chars ++ s.chars).length) := by
  obtain ⟨text, position, rest⟩ := cursor
  obtain rfl : rest = gap.chars ++ (s.chars ++ tail) := hrest
  rw [number_literal text position gap s hends hvalid, ← List.append_assoc, Cursor.advance_append,
    utf8Length_append, Nat.add_assoc]

/-- A literal of at most fifteen digits, zeros in front left aside, is read wherever it stands,
whatever does not go on with it stands behind it.  What is read has its sign and is the
double nearest to the sum of its whole part and the double nearest to its fraction.  That is
the double nearest to the literal, always so if the whole part is 0 or there is no fraction,
or else the sum lies midway between the two.  It is printed as the digits of the literal,
less the zeros that do not count, exactly if it is the nearest one. -/
theorem number_few (cursor : Cursor) (hvalid : cursor.Valid) (gap : Blanks) (s : Spelling)
    (tail : List Char) (hrest : cursor.rest = gap.chars ++ (s.chars ++ tail))
    (hends : s.EndsBefore tail) (hfew : s.digitCount ≤ 15) :
    ∃ part m nearest : Magnitude,
      number.run cursor = .ok (.finite s.minus.isSome m)
        (cursor.advance (gap.chars ++ s.chars).length) ∧
      part.IsNearest (exactFractionOf s.fraction) ∧ m.IsNearest (s.whole.value + part.toRat) ∧
      nearest.IsNearest s.exactMagnitude ∧
      (m = nearest ∨ s.whole.value ≠ 0 ∧ s.fraction ≠ none ∧
        2 * (s.whole.value + part.toRat) = m.toRat + nearest.toRat) ∧
      (Binary64.decimalText (.finite s.minus.isSome m) = s.plainText ↔ m = nearest) := by
  obtain ⟨part, m, nearest, hm, hpart, hsum, hnearest, hcases⟩ := Spelling.exists_magnitude_few hfew
  refine ⟨part, m, nearest, ?_, hpart, hsum, hnearest, hcases, ?_⟩
  · rw [number_spelling hvalid hrest hends, s.value_of_magnitude hm]
  · rw [Spelling.decimalText_eq_plainText_iff hfew]
    exact ⟨fun h => h.unique hnearest, fun h => h ▸ hnearest⟩

/-- The literal `-00,5`. -/
def minusHalf : Spelling where
  minus := some noBlanks
  whole := .repeated '0' isDigit_zero 1
  fits := by decide
  fraction := some (noBlanks, .repeated '5' isDigit_five 0)

/-- Between blanks and other text, a half is read exactly and printed with a single zero. -/
theorem number_few_half :
    ∃ (m : Magnitude) (after : Cursor),
      number.run (.start " -00,5 + 1") = .ok (.finite true m) after ∧
      after.rest = " + 1".toList ∧ m.IsNearest (1 / 2) ∧
      Binary64.decimalText (.finite true m) = "-0,5" := by
  have hgap : ∀ c ∈ [' '], isBlank c = true := List.forall_mem_singleton.mpr (by decide)
  have hrest : (Cursor.start " -00,5 + 1").rest =
      [' '] ++ (minusHalf.chars ++ [' ', '+', ' ', '1']) := by decide +kernel
  have hends : minusHalf.EndsBefore [' ', '+', ' ', '1'] :=
    ⟨stops_cons.mpr (by decide), fun hnone => absurd hnone (Option.some_ne_none _)⟩
  obtain ⟨part, m, nearest, hrun, -, -, hnearest, hcases, htext⟩ := number_few _
    (Cursor.valid_start " -00,5 + 1") ⟨[' '], hgap⟩ minusHalf _ hrest hends (by decide)
  have hzero : minusHalf.whole.value = 0 := by decide
  obtain rfl : m = nearest := hcases.resolve_right fun h => h.1 hzero
  have hhalf : minusHalf.exactMagnitude = 1 / 2 := by
    have hfive : decimalValue (List.replicate 1 '5') = 5 := by decide
    rw [Spelling.exactMagnitude, hzero, minusHalf, exactFractionOf, Digits.exactFraction,
      Digits.value, Digits.repeated, hfive, List.length_replicate]
    norm_num
  have hplain : minusHalf.plainText = "-0,5" := by decide +kernel
  have hafter : ((Cursor.start " -00,5 + 1").advance ([' '] ++ minusHalf.chars).length).rest =
      " + 1".toList := by decide +kernel
  exact ⟨m, _, hrun, hafter, hhalf ▸ hnearest, hplain ▸ htext.mpr rfl⟩

/-- The literal `1,66`. -/
def oneSixtySix : Spelling where
  minus := none
  whole := .repeated '1' isDigit_one 0
  fits := by decide
  fraction := some (noBlanks, .repeated '6' isDigit_six 1)

/-- Three digits are enough for a sum that lies midway between two doubles and is rounded to
the one that is farther from the literal. -/
theorem number_few_not_nearest :
    oneSixtySix.chars = "1,66".toList ∧ oneSixtySix.digitCount = 3 ∧
      oneSixtySix.exactMagnitude = 166 / 100 ∧
      ∃ (m : Magnitude) (after : Cursor),
        number.run (.start "1,66") = .ok (.finite false m) after ∧ ¬ m.IsNearest (166 / 100) ∧
        Binary64.decimalText (.finite false m) = "1,6600000000000001" := by
  have hexact : oneSixtySix.exactMagnitude = 166 / 100 := by
    have hwhole : oneSixtySix.whole.value = 1 := by decide
    have hsix : decimalValue (List.replicate 2 '6') = 66 := by decide
    rw [Spelling.exactMagnitude, hwhole, oneSixtySix, exactFractionOf, Digits.exactFraction,
      Digits.value, Digits.repeated, hsix, List.length_replicate]
    norm_num
  have hrest : (Cursor.start "1,66").rest = noBlanks.chars ++ (oneSixtySix.chars ++ []) := by
    decide +kernel
  have hrun := number_spelling (Cursor.valid_start "1,66") hrest oneSixtySix.endsBefore_nil
  have htext : oneSixtySix.value.decimalText = "1,6600000000000001" := by decide +kernel
  obtain ⟨m, hm, -, -⟩ := oneSixtySix.exists_value
  rw [hm] at hrun htext
  refine ⟨by decide +kernel, by decide, hexact, m, _, hrun, ?_, htext⟩
  rw [← hexact, ← Spelling.decimalText_eq_plainText_iff (by decide)]
  have hplain : oneSixtySix.plainText = "1,66" := by decide +kernel
  rw [hplain]
  exact fun h => absurd (htext.symm.trans h) (by decide +kernel)

end Literal

end CommaCalc
