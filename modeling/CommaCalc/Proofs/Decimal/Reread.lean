import CommaCalc.Proofs.Decimal.Spelled

/-!
# Reading back the digits of a double

A literal is worth its whole part plus the quotient of its fraction digits by a power of
ten, so the digits of a double are reread with several roundings where the double itself
was rounded once.  A whole number has no fraction, and below 1 a fraction of few digits
is a single quotient of exact numbers: both come back as they were.  A larger double is
the rounded sum of two parts.  When its last bit is zero, the ends of its interval are
doubles as seen from the whole part, and rounding the fraction first does not pass them.
-/

namespace CommaCalc

open Rounding

attribute [local instance (high)] instPowNat

/-- The double that the printed digits of a magnitude are read as. -/
def Magnitude.reread (m : Magnitude) : Binary64 :=
  addFraction (Binary64.ofNat (m.shortestTicks / 10 ^ decimalPlaces))
    (tickFraction m.shortestTicks)

theorem signFactor_signBlanks_mul (negative : Bool) (x : Binary64) :
    (signFactor (signBlanks negative)).mul x = if negative then x.neg else x := by
  cases negative with
  | false => simp only [signBlanks, Bool.false_eq_true, if_false, signFactor_none,
      Binary64.one_mul]
  | true => simp only [signBlanks, if_true, signFactor_some, Binary64.neg_one_mul]

theorem tickSpelling_value (negative : Bool) (m : Magnitude)
    (hfits : m.shortestTicks / 10 ^ decimalPlaces < numeralLimit) :
    (tickSpelling negative m.shortestTicks hfits).value =
      if negative then m.reread.neg else m.reread := by
  simp only [Spelling.value, Spelling.magnitude, tickSpelling, tickWhole_value,
    signFactor_signBlanks_mul, Magnitude.reread]

/-- The value of the digits over their power of ten is that of the ticks behind the
whole part. -/
theorem roundUnits_tickDigits (ticks : Nat) :
    roundUnits (decimalValue (tickDigits ticks) * unitsPerOne)
        (10 ^ (tickDigits ticks).length) =
      roundUnits (ticks % 10 ^ decimalPlaces) (2 * ticksPerHalfUnit) := by
  obtain ⟨hticks, hlength⟩ := decimalValue_tickDigits ticks
  generalize tickDigits ticks = digits at hticks hlength ⊢
  have hpower : 10 ^ digits.length * 10 ^ (decimalPlaces - digits.length) =
      2 * ticksPerHalfUnit * unitsPerOne := by
    rw [← Nat.pow_add, Nat.add_sub_cancel' hlength, ten_pow_decimalPlaces]
  have hscale : 0 < 10 ^ (decimalPlaces - digits.length) := Nat.pow_pos (by decide)
  rw [← roundUnits_mul_right _ _ hscale, hpower, Nat.mul_right_comm, hticks,
    roundUnits_mul_right _ _ unitsPerOne_pos]

namespace Magnitude

variable {m : Magnitude}

/-- Without digits behind the comma, the whole part is converted, which rounds it once. -/
theorem reread_of_nil (hnil : tickDigits m.shortestTicks = []) : m.reread = .finite false m := by
  have hrest : m.shortestTicks % 10 ^ decimalPlaces = 0 := by
    rw [← (decimalValue_tickDigits m.shortestTicks).1, hnil, decimalValue, Nat.ofDigitChars_nil,
      Nat.zero_mul]
  have hticks := Nat.div_mul_cancel (Nat.dvd_of_mod_eq_zero hrest)
  have hround : roundUnits (m.shortestTicks / 10 ^ decimalPlaces * unitsPerOne) 1 = m.units := by
    rw [← m.roundUnits_shortestTicks, ← roundUnits_mul_right _ 1 ticksPerUnit_pos, Nat.one_mul,
      whole_mul_ticks, hticks]
  rw [reread, tickFraction, dif_pos hnil, addFraction, Binary64.ofNat,
    Binary64.ofRatio_eq_finite false hround]

/-- A whole number is reread as itself. -/
theorem reread_of_isWhole (hwhole : m.IsWhole) : m.reread = .finite false m := by
  apply reread_of_nil
  rw [tickDigits, Nat.mod_eq_zero_of_dvd (m.ten_pow_dvd_shortestTicks hwhole), fractionDigits_zero]

/-- Digits that fit into 53 bits and 22 places are converted with a single rounding. -/
theorem reread_of_fits (hne : tickDigits m.shortestTicks ≠ [])
    (hvalue : decimalValue (tickDigits m.shortestTicks) < 2 ^ precision)
    (hplaces : (tickDigits m.shortestTicks).length ≤ 22) :
    m.reread = (Binary64.ofNat (m.shortestTicks / 10 ^ decimalPlaces)).add
      (.ofRatio false (m.shortestTicks % 10 ^ decimalPlaces) (2 * ticksPerHalfUnit)) := by
  let run : Digits :=
    ⟨tickDigits m.shortestTicks, hne, fun _ => isDigit_of_mem_fractionDigits⟩
  have hfraction : run.fraction = .ofRatio false
      (decimalValue (tickDigits m.shortestTicks) * unitsPerOne)
      (10 ^ (tickDigits m.shortestTicks).length) := run.fraction_of_lt hvalue hplaces
  rw [reread, tickFraction, dif_neg hne, addFraction, hfraction, Binary64.ofRatio,
    Binary64.ofRatio]
  simp only [roundUnits_tickDigits]

/-- Below 1, such digits are reread as the magnitude. -/
theorem reread_of_lt_one (hbelow : m.Below 1)
    (hvalue : decimalValue (tickDigits m.shortestTicks) < 2 ^ precision)
    (hplaces : (tickDigits m.shortestTicks).length ≤ 22) : m.reread = .finite false m := by
  by_cases hnil : tickDigits m.shortestTicks = []
  · exact reread_of_nil hnil
  · have hticks := m.shortestTicks_lt_one hbelow
    rw [reread_of_fits hnil hvalue hplaces, Nat.div_eq_of_lt hticks, Nat.mod_eq_of_lt hticks,
      Binary64.ofRatio_eq_finite false m.roundUnits_shortestTicks, Binary64.zero_add]

/-- A magnitude with a fraction is printed below 2⁵³. -/
theorem whole_lt (hwhole : ¬ m.IsWhole) :
    m.shortestTicks / 10 ^ decimalPlaces < 2 ^ precision := by
  by_contra hge
  have hle := (Nat.le_div_iff_mul_le (Nat.pow_pos (by decide))).mp (Nat.le_of_not_lt hge)
  rw [← whole_mul_ticks] at hle
  have hround :=
    le_roundUnits ticksPerUnit_pos (spacing_mul_unitsPerOne (Nat.le_refl _)) hle
  rw [m.roundUnits_shortestTicks] at hround
  exact hwhole (isWhole_of_le hround)

/-- The next larger double is still not past the whole number above. -/
theorem units_add_spacing_le (hwhole : ¬ m.IsWhole) :
    m.units + spacing m.units ≤ (m.shortestTicks / 10 ^ decimalPlaces + 1) * unitsPerOne := by
  have hsmall : m.units < 2 ^ precision * unitsPerOne :=
    Nat.lt_of_not_le fun hle => hwhole (isWhole_of_le hle)
  have hnext : m.units ≤ (m.shortestTicks / 10 ^ decimalPlaces + 1) * unitsPerOne := by
    rw [← m.roundUnits_shortestTicks]
    apply roundUnits_le ticksPerUnit_pos (spacing_mul_unitsPerOne (whole_lt hwhole))
    rw [whole_mul_ticks]
    exact (Nat.lt_mul_of_div_lt (Nat.lt_succ_self _) (Nat.pow_pos (by decide))).le
  have hne : m.units ≠ (m.shortestTicks / 10 ^ decimalPlaces + 1) * unitsPerOne := by
    intro heq
    apply hwhole
    rw [IsWhole, heq]
    exact Nat.dvd_mul_left ..
  exact add_le_of_dvd m.spacing_dvd
    (Nat.dvd_trans (spacing_dvd_unitsPerOne hsmall) (Nat.dvd_mul_left ..))
    (Nat.lt_of_le_of_ne hnext hne)

/-- Rounding the rest of the shortest decimal first does not change the sum. -/
theorem roundUnits_whole_add_rest (heven : m.isEven = true) (hwhole : ¬ m.IsWhole)
    (hbelow : ¬ m.Below 1) :
    roundUnits (m.shortestTicks / 10 ^ decimalPlaces * unitsPerOne +
      roundUnits (m.shortestTicks % 10 ^ decimalPlaces) (2 * ticksPerHalfUnit)) 1 = m.units := by
  have hparts : m.shortestTicks / 10 ^ decimalPlaces * unitsPerOne * (2 * ticksPerHalfUnit) +
      m.shortestTicks % 10 ^ decimalPlaces = m.shortestTicks := by
    rw [whole_mul_ticks]
    exact Nat.div_add_mod' ..
  obtain ⟨hlow, hhigh⟩ := m.bounds_shortestTicks
  have hnext := units_add_spacing_le hwhole
  have hone : unitsPerOne ≤ m.units - 1 := by
    rw [Below, Nat.one_mul] at hbelow
    have hne : m.units ≠ unitsPerOne := fun heq => hwhole (by rw [IsWhole, heq])
    omega
  have hfine : 2 ^ precision * 2 ^ (unitExponent - precision) = unitsPerOne := by decide +kernel
  refine roundUnits_add_roundUnits (unitExponent - precision) ticksPerUnit_pos m.spacing_dvd
    (by simpa [isEven] using heven) ?_ ?_ ?_ ?_ ?_
  · rw [hparts]
    exact hlow
  · rw [hparts]
    exact hhigh
  · have hgrid : spacing unitsPerOne = 2 * 2 ^ (unitExponent - precision) := by decide +kernel
    rw [← hgrid]
    exact spacing_dvd_spacing hone
  · rw [← hfine]
    exact Nat.dvd_mul_left_of_dvd (Nat.dvd_mul_left ..) _
  · have hspacing := spacing_pos m.units
    rw [Nat.add_one_mul] at hnext
    rw [hfine]
    omega

/-- With few digits behind the comma, a magnitude whose last bit is zero is reread as
itself: the quotient of the digits is rounded, but not out of the interval. -/
theorem reread_of_isEven (heven : m.isEven = true)
    (hlength : (tickDigits m.shortestTicks).length ≤ 15) : m.reread = .finite false m := by
  have hvalue : decimalValue (tickDigits m.shortestTicks) < 2 ^ precision :=
    decimalValue_lt_two_pow (fun _ => isDigit_of_mem_fractionDigits) hlength
  by_cases hnil : tickDigits m.shortestTicks = []
  · exact reread_of_nil hnil
  by_cases hbelow : m.Below 1
  · exact reread_of_lt_one hbelow hvalue (by omega)
  by_cases hwhole : m.IsWhole
  · exact reread_of_isWhole hwhole
  have hsum := roundUnits_whole_add_rest heven hwhole hbelow
  have hrest : m.shortestTicks % 10 ^ decimalPlaces ≤ unitsPerOne * (2 * ticksPerHalfUnit) := by
    rw [Nat.mul_comm, ← ten_pow_decimalPlaces]
    exact (Nat.mod_lt _ (Nat.pow_pos (by decide))).le
  rw [reread_of_fits hnil hvalue (by omega),
    Binary64.ofNat_add_ofRatio (whole_lt hwhole) ticksPerUnit_pos hrest,
    Binary64.ofRatio_eq_finite false hsum]

end Magnitude

/-- The number of digits of a text, zeros at the front left aside. -/
def significantDigits (cs : List Char) : Nat :=
  ((cs.filter Char.isDigit).dropWhile (· == '0')).length

/-- The number of characters behind the comma. -/
def decimalPlacesOf (cs : List Char) : Nat :=
  ((cs.dropWhile (· != decimalMark)).drop 1).length

section Counting

variable {m : Magnitude} (negative : Bool)

/-- The text of a magnitude below 1 has a single zero in front of its digits. -/
theorem decimalChars_of_lt_one (hbelow : m.Below 1) :
    Binary64.decimalChars (.finite negative m) =
      minusChars (signBlanks negative) ++ '0' :: if tickDigits m.shortestTicks = [] then []
        else decimalMark :: tickDigits m.shortestTicks := by
  rw [Binary64.decimalChars_finite, ticksText_eq, fractionChars_tickFraction, tickWhole_chars,
    Nat.div_eq_of_lt (m.shortestTicks_lt_one hbelow), Nat.toDigits_zero, List.singleton_append]

theorem significantDigits_of_lt_one (hbelow : m.Below 1) :
    significantDigits (Binary64.decimalChars (.finite negative m)) =
      ((tickDigits m.shortestTicks).dropWhile (· == '0')).length := by
  have hdigit : ∀ c ∈ tickDigits m.shortestTicks, c.isDigit = true :=
    fun _ => isDigit_of_mem_fractionDigits
  rw [decimalChars_of_lt_one negative hbelow]
  generalize tickDigits m.shortestTicks = digits at hdigit ⊢
  have hminus : (minusChars (signBlanks negative)).filter Char.isDigit = [] := by
    cases negative <;> rfl
  have hself : digits.filter Char.isDigit = digits := List.filter_eq_self.mpr hdigit
  rw [significantDigits, List.filter_append, hminus]
  split
  · next hnil => rw [hnil]; rfl
  · simp [hself, isDigit_decimalMark]

theorem decimalPlacesOf_decimalChars :
    decimalPlacesOf (Binary64.decimalChars (.finite negative m)) =
      (tickDigits m.shortestTicks).length := by
  have hfront : ∀ c ∈ minusChars (signBlanks negative) ++ (tickWhole m.shortestTicks).chars,
      (c != decimalMark) = true := by
    intro c hc
    rw [bne_iff_ne]
    rintro rfl
    rcases List.mem_append.mp hc with hminus | hwhole
    · cases negative with
      | false => exact List.not_mem_nil hminus
      | true => exact absurd (List.mem_singleton.mp hminus) (by decide)
    · have hdigit := (tickWhole m.shortestTicks).digit _ hwhole
      rw [isDigit_decimalMark] at hdigit
      exact Bool.noConfusion hdigit
  rw [Binary64.decimalChars_finite, ticksText_eq, fractionChars_tickFraction, ← List.append_assoc,
    decimalPlacesOf, List.dropWhile_append_of_pos hfront]
  generalize tickDigits m.shortestTicks = digits
  split
  · next hnil => rw [hnil]; rfl
  · simp [decimalMark]

end Counting

/-- At most 15 significant digits in at most 22 places are reread as themselves. -/
theorem Magnitude.reread_of_digits {m : Magnitude} (negative : Bool) (hbelow : m.Below 1)
    (hdigits : significantDigits (Binary64.decimalChars (.finite negative m)) ≤ 15)
    (hplaces : decimalPlacesOf (Binary64.decimalChars (.finite negative m)) ≤ 22) :
    m.reread = .finite false m := by
  rw [significantDigits_of_lt_one negative hbelow] at hdigits
  rw [decimalPlacesOf_decimalChars negative] at hplaces
  refine reread_of_lt_one hbelow ?_ hplaces
  rw [← decimalValue_dropWhile_zero]
  have hdigit : ∀ c ∈ (tickDigits m.shortestTicks).dropWhile (· == '0'), c.isDigit = true :=
    fun c hc => isDigit_of_mem_fractionDigits ((List.dropWhile_suffix _).mem hc)
  exact decimalValue_lt_two_pow hdigit hdigits

namespace Binary64

/-- Finite, with a last bit of zero. -/
def IsEven : Binary64 → Prop
  | .finite _ m => m.isEven = true
  | _ => False

/-- The double that the text of a finite double is read as. -/
def reread : Binary64 → Binary64
  | .finite negative m => if negative then m.reread.neg else m.reread
  | x => x

theorem reread_finite {m : Magnitude} (negative : Bool) (hm : m.reread = .finite false m) :
    reread (.finite negative m) = .finite negative m := by
  rw [reread, hm]
  cases negative <;> rfl

/-- A whole number is reread as itself, and so are a fraction of few digits and, with few
digits behind the comma, a double whose last bit is zero. -/
theorem reread_eq_self (v : Binary64)
    (hv : v.IsWhole ∨ (v.Below 1 ∧ significantDigits v.decimalText.toList ≤ 15 ∧
      decimalPlacesOf v.decimalText.toList ≤ 22) ∨
      (v.IsEven ∧ decimalPlacesOf v.decimalText.toList ≤ 15)) : v.reread = v := by
  cases v with
  | nan => rfl
  | infinite negative => rfl
  | finite negative m =>
    apply reread_finite negative
    rw [decimalText, String.toList_ofList] at hv
    rcases hv with hwhole | ⟨hbelow, hdigits, hplaces⟩ | ⟨heven, hplaces⟩
    · exact Magnitude.reread_of_isWhole hwhole
    · exact Magnitude.reread_of_digits negative hbelow hdigits hplaces
    · rw [decimalPlacesOf_decimalChars] at hplaces
      exact Magnitude.reread_of_isEven heven hplaces

end Binary64

end CommaCalc
