import CommaCalc.Proofs.Decimal.ReadsBack
import CommaCalc.Proofs.Expression.Split

/-!
# The decimal text is a literal

The text of a finite double is the spelling of a literal without blanks, as long as
its whole part stays below 2¹²⁸.  The digits behind the comma are the places that
remain, less the zeros at the end, so they have the value that they stand for.
-/

namespace CommaCalc

open Rounding

attribute [local instance (high)] instPowNat

theorem decimalValue_append (cs ds : List Char) :
    decimalValue (cs ++ ds) = 10 ^ ds.length * decimalValue cs + decimalValue ds := by
  rw [decimalValue, Nat.ofDigitChars_append, Nat.ofDigitChars_eq_ofDigitChars_zero]
  rfl

theorem decimalValue_replicate_zero (count : Nat) :
    decimalValue (List.replicate count '0') = 0 := by
  rw [decimalValue, Nat.ofDigitChars_replicate_zero, Nat.mul_zero]

/-- Zeros at the front do not count. -/
theorem decimalValue_dropWhile_zero (cs : List Char) :
    decimalValue (cs.dropWhile (· == '0')) = decimalValue cs := by
  induction cs with
  | nil => rfl
  | cons c cs ih =>
    rw [List.dropWhile_cons]
    split
    · next hc =>
      rw [ih, beq_iff_eq.mp hc]
      simp [decimalValue, Nat.ofDigitChars_cons]
    · rfl

theorem decimalValue_toDigits (n : Nat) : decimalValue (Nat.toDigits 10 n) = n :=
  Nat.ofDigitChars_ten_toDigits

theorem decimalValue_lt {cs : List Char} (hdigit : ∀ c ∈ cs, c.isDigit = true) :
    decimalValue cs < 10 ^ cs.length := by
  induction cs with
  | nil => decide
  | cons c cs ih =>
    have hrest := ih fun d hd => hdigit d (by simp [hd])
    have hc := Char.isDigit_iff_toNat.mp (hdigit c (by simp))
    have hsplit := decimalValue_append [c] cs
    have hhead : decimalValue [c] = c.toNat - 48 := by simp [decimalValue, Nat.ofDigitChars_cons]
    simp only [Char.reduceToNat] at hc
    rw [List.singleton_append, hhead] at hsplit
    have hmul : 10 ^ cs.length * (c.toNat - 48) ≤ 10 ^ cs.length * 9 :=
      Nat.mul_le_mul_left _ (by omega)
    rw [hsplit, List.length_cons, Nat.pow_succ]
    omega

/-- Fifteen digits fit into 53 bits. -/
theorem decimalValue_lt_two_pow {cs : List Char} (hdigit : ∀ c ∈ cs, c.isDigit = true)
    (hlength : cs.length ≤ 15) : decimalValue cs < 2 ^ precision :=
  calc decimalValue cs < 10 ^ cs.length := decimalValue_lt hdigit
    _ ≤ 10 ^ 15 := Nat.pow_le_pow_right (by decide) hlength
    _ < 2 ^ precision := by decide

/-- Up to 22 digits that form a double are divided by an exact power of ten, which rounds once. -/
theorem Digits.fraction_of_units {run : Digits} {a : Magnitude}
    (ha : a.units = run.value * unitsPerOne) (hlength : run.chars.length ≤ 22) :
    run.fraction = .ofRatio false (run.value * unitsPerOne) (10 ^ run.chars.length) := by
  have hfits : run.value < numeralLimit :=
    calc run.value < 10 ^ run.chars.length := decimalValue_lt run.digit
      _ ≤ 10 ^ 22 := Nat.pow_le_pow_right (by decide) hlength
      _ ≤ numeralLimit := by decide
  have hlongest := Numeral.longest_of_lt run stops_nil hfits
  rw [List.append_nil] at hlongest
  rw [fraction, hlongest]
  exact Binary64.ofFraction_of_units ha hlength

/-- Digits that fit into 53 bits form a double. -/
theorem Digits.fraction_of_lt {run : Digits} (hvalue : run.value < 2 ^ precision)
    (hlength : run.chars.length ≤ 22) :
    run.fraction = .ofRatio false (run.value * unitsPerOne) (10 ^ run.chars.length) := by
  obtain ⟨a, -, ha⟩ := Binary64.exists_ofNat_of_lt hvalue
  exact fraction_of_units ha hlength

/-- The places are padded with zeros in front. -/
theorem decimalValue_leftpad (places value : Nat) :
    decimalValue (List.leftpad places '0' (Nat.toDigits 10 value)) = value := by
  rw [List.leftpad, decimalValue_append, decimalValue_replicate_zero, Nat.mul_zero, Nat.zero_add,
    decimalValue_toDigits]

/-- Taking the zeros off at the end leaves a front with only zeros behind it. -/
private theorem exists_zeros_append (cs : List Char) :
    ∃ count, cs = (cs.reverse.dropWhile (· == '0')).reverse ++ List.replicate count '0' := by
  have hsplit := List.takeWhile_append_dropWhile (p := (· == '0')) (l := cs.reverse)
  have hzeros : cs.reverse.takeWhile (· == '0') =
      List.replicate (cs.reverse.takeWhile (· == '0')).length '0' :=
    List.eq_replicate_of_mem fun c hc => by simpa using of_mem_takeWhile _ hc
  refine ⟨(cs.reverse.takeWhile (· == '0')).length, ?_⟩
  rw [← List.reverse_inj, List.reverse_append, List.reverse_reverse, List.reverse_replicate,
    ← hzeros]
  exact hsplit.symm

/-- The padded places are the digits and the zeros taken off at the end. -/
private theorem exists_zeros (places value : Nat) :
    ∃ count, List.leftpad places '0' (Nat.toDigits 10 value) =
      fractionDigits places value ++ List.replicate count '0' :=
  exists_zeros_append _

theorem length_leftpad {places value : Nat} (hplaces : 0 < places)
    (hvalue : value < 10 ^ places) :
    (List.leftpad places '0' (Nat.toDigits 10 value)).length = places := by
  have hdigits := (Nat.length_toDigits_le_iff (by decide) hplaces).mpr hvalue
  rw [List.leftpad, List.length_append, List.length_replicate]
  omega

theorem isDigit_of_mem_leftpad {places value : Nat} {c : Char}
    (hc : c ∈ List.leftpad places '0' (Nat.toDigits 10 value)) : c.isDigit = true := by
  rw [List.leftpad, List.mem_append] at hc
  rcases hc with hc | hc
  · rw [List.eq_of_mem_replicate hc]
    decide
  · exact Nat.isDigit_of_mem_toDigits (by decide) (by decide) hc

theorem isDigit_of_mem_fractionDigits {places value : Nat} {c : Char}
    (hc : c ∈ fractionDigits places value) : c.isDigit = true := by
  obtain ⟨count, hzeros⟩ := exists_zeros places value
  have hmem : c ∈ List.leftpad places '0' (Nat.toDigits 10 value) := by
    rw [hzeros]
    exact List.mem_append_left _ hc
  exact isDigit_of_mem_leftpad hmem

variable {places value : Nat}

theorem length_fractionDigits_le (hplaces : 0 < places) (hvalue : value < 10 ^ places) :
    (fractionDigits places value).length ≤ places := by
  obtain ⟨count, hzeros⟩ := exists_zeros places value
  have hlength := length_leftpad hplaces hvalue
  rw [hzeros, List.length_append] at hlength
  omega

/-- The digits stand for the value, the last of them in the place that they reach. -/
theorem decimalValue_fractionDigits (hplaces : 0 < places) (hvalue : value < 10 ^ places) :
    decimalValue (fractionDigits places value) *
      10 ^ (places - (fractionDigits places value).length) = value := by
  obtain ⟨count, hzeros⟩ := exists_zeros places value
  have hlength := length_leftpad hplaces hvalue
  rw [hzeros, List.length_append, List.length_replicate] at hlength
  have hcount : places - (fractionDigits places value).length = count := by omega
  have hvalues := congrArg decimalValue hzeros
  rw [decimalValue_leftpad, decimalValue_append, decimalValue_replicate_zero, Nat.add_zero,
    List.length_replicate] at hvalues
  rw [hcount, Nat.mul_comm]
  exact hvalues.symm

theorem fractionDigits_zero (places : Nat) : fractionDigits places 0 = [] := by
  rw [fractionDigits, List.reverse_eq_nil_iff, List.dropWhile_eq_nil_iff]
  intro c hc
  rw [List.mem_reverse, List.leftpad, List.mem_append] at hc
  rcases hc with hc | hc
  · simpa using List.eq_of_mem_replicate hc
  · simpa [Nat.toDigits_zero] using hc

/-- The sign of a double, without blanks. -/
def signBlanks (negative : Bool) : Option Blanks :=
  if negative then some noBlanks else none

/-- The digits of a number of ticks behind the comma. -/
def tickDigits (ticks : Nat) : List Char :=
  fractionDigits decimalPlaces (ticks % 10 ^ decimalPlaces)

/-- The digits behind the comma make up what is left of the ticks. -/
theorem decimalValue_tickDigits (ticks : Nat) :
    decimalValue (tickDigits ticks) * 10 ^ (decimalPlaces - (tickDigits ticks).length) =
        ticks % 10 ^ decimalPlaces ∧
      (tickDigits ticks).length ≤ decimalPlaces := by
  have hrest : ticks % 10 ^ decimalPlaces < 10 ^ decimalPlaces :=
    Nat.mod_lt _ (Nat.pow_pos (by decide))
  exact ⟨decimalValue_fractionDigits (by decide) hrest,
    length_fractionDigits_le (by decide) hrest⟩

/-- The fraction of a number of ticks. -/
def tickFraction (ticks : Nat) : Option (Blanks × Digits) :=
  if hdigits : tickDigits ticks = [] then none
  else some (noBlanks, ⟨tickDigits ticks, hdigits, fun _ => isDigit_of_mem_fractionDigits⟩)

/-- The whole part of a number of ticks. -/
def tickWhole (ticks : Nat) : Digits where
  chars := Nat.toDigits 10 (ticks / 10 ^ decimalPlaces)
  nonempty := Nat.toDigits_ne_nil
  digit _ := Nat.isDigit_of_mem_toDigits (by decide) (by decide)

theorem tickWhole_chars (ticks : Nat) :
    (tickWhole ticks).chars = Nat.toDigits 10 (ticks / 10 ^ decimalPlaces) := rfl

theorem tickWhole_value (ticks : Nat) : (tickWhole ticks).value = ticks / 10 ^ decimalPlaces :=
  decimalValue_toDigits _

theorem fractionChars_tickFraction (ticks : Nat) :
    fractionChars (tickFraction ticks) =
      if tickDigits ticks = [] then [] else decimalMark :: tickDigits ticks := by
  unfold tickFraction
  split <;> rfl

theorem ticksText_eq (ticks : Nat) :
    ticksText ticks = (tickWhole ticks).chars ++ fractionChars (tickFraction ticks) := by
  rw [fractionChars_tickFraction, tickWhole_chars]
  unfold ticksText tickDigits
  cases fractionDigits decimalPlaces (ticks % 10 ^ decimalPlaces) with
  | nil => simp
  | cons c cs => simp

/-- The spelling of a number of ticks under a sign. -/
def tickSpelling (negative : Bool) (ticks : Nat)
    (hfits : ticks / 10 ^ decimalPlaces < numeralLimit) : Spelling where
  minus := signBlanks negative
  whole := tickWhole ticks
  fits := by rwa [tickWhole_value]
  fraction := tickFraction ticks

namespace Binary64

theorem decimalChars_finite (negative : Bool) (m : Magnitude) :
    decimalChars (.finite negative m) =
      minusChars (signBlanks negative) ++ ticksText m.shortestTicks := by
  cases negative <;> rfl

/-- The text of a double whose whole part fits is a literal. -/
theorem decimalChars_eq_chars (negative : Bool) (m : Magnitude)
    (hfits : m.shortestTicks / 10 ^ decimalPlaces < numeralLimit) :
    decimalChars (.finite negative m) = (tickSpelling negative m.shortestTicks hfits).chars := by
  rw [decimalChars_finite, ticksText_eq]
  rfl

end Binary64

end CommaCalc
