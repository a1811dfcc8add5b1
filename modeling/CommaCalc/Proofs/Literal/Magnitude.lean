import CommaCalc.Proofs.Binary64.Fraction
import CommaCalc.Proofs.Decimal.Spelled

/-!
# How large a literal is, and when it is zero

A literal is worth at most 2¹²⁸: its whole part is below that, its fraction does not exceed
1, and next to the largest whole parts a fraction is rounded away.  It is a zero only if its
whole part is and its fraction is, and a fraction is also lost when the digits that are kept
of it, zeros at the front included, are more than a finite power of ten has.
-/

namespace CommaCalc

open Rounding

attribute [local instance (high)] instPowNat

/-- The longest part at the front of a run of digits that has a value below 2¹²⁸. -/
def IsLongestFitting (front cs : List Char) : Prop :=
  front <+: cs ∧ decimalValue front < numeralLimit ∧
    ∀ other, other <+: cs → decimalValue other < numeralLimit → other.length ≤ front.length

theorem IsLongestFitting.unique {front front' cs : List Char} (h : IsLongestFitting front cs)
    (h' : IsLongestFitting front' cs) : front = front' := by
  obtain ⟨hfront, hfits, hlongest⟩ := h
  obtain ⟨hfront', hfits', hlongest'⟩ := h'
  have hlength : front.length = front'.length :=
    Nat.le_antisymm (hlongest' front hfront hfits) (hlongest front' hfront' hfits')
  exact (List.prefix_of_prefix_length_le hfront hfront' hlength.le).eq_of_length hlength

theorem decimalValue_le_append (cs ds : List Char) : decimalValue cs ≤ decimalValue (cs ++ ds) := by
  rw [decimalValue, decimalValue, Nat.ofDigitChars_append]
  exact le_ofDigitChars ds _

/-- A part fits if it is no longer than the longest one that does. -/
theorem IsLongestFitting.fits_iff {front other cs : List Char} (h : IsLongestFitting front cs)
    (hother : other <+: cs) : decimalValue other < numeralLimit ↔ other.length ≤ front.length := by
  obtain ⟨hfront, hfits, hlongest⟩ := h
  constructor
  · exact hlongest other hother
  · intro hlength
    obtain ⟨more, rfl⟩ := List.prefix_of_prefix_length_le hother hfront hlength
    exact Nat.lt_of_le_of_lt (decimalValue_le_append other more) hfits

/-- A part that fits is the longest one if the next digit, should there be one, takes it to the
limit. -/
theorem isLongestFitting_append {front back : List Char} (hfront : decimalValue front < numeralLimit)
    (hback : ∀ c ∈ back.head?, numeralLimit ≤ decimalValue (front ++ [c])) :
    IsLongestFitting front (front ++ back) := by
  refine ⟨List.prefix_append front back, hfront, ?_⟩
  intro other hother hfits
  by_contra hlonger
  -- A longer part goes on with the first digit that did not fit.
  obtain ⟨more, rfl⟩ := List.prefix_of_prefix_length_le (List.prefix_append front back) hother
    (Nat.le_of_not_le hlonger)
  cases more with
  | nil => simp at hlonger
  | cons c more =>
    obtain ⟨rest, rfl⟩ := (List.prefix_append_right_inj front).mp hother
    have hreach := hback c rfl
    have hle := decimalValue_le_append (front ++ [c]) more
    rw [List.append_assoc, List.singleton_append] at hle
    exact Nat.not_lt.mpr (Nat.le_trans hreach hle) hfits

/-- Only zeros have the value 0. -/
theorem decimalValue_eq_zero_iff {cs : List Char} (hdigit : ∀ c ∈ cs, c.isDigit = true) :
    decimalValue cs = 0 ↔ ∀ c ∈ cs, c = '0' := by
  induction cs with
  | nil => simp [decimalValue]
  | cons c cs ih =>
    have hc := Char.isDigit_iff_toNat.mp (hdigit c List.mem_cons_self)
    have hhead : decimalValue [c] = 0 ↔ c = '0' := by
      rw [decimalValue, Nat.ofDigitChars_cons, Nat.ofDigitChars_nil, ← Char.toNat_inj]
      simp only [Char.reduceToNat] at hc ⊢
      omega
    have hpos : 10 ^ cs.length ≠ 0 := (Nat.pow_pos (by decide)).ne'
    rw [← List.singleton_append, decimalValue_append, Nat.add_eq_zero_iff, Nat.mul_eq_zero,
      or_iff_right hpos, hhead, ih fun d hd => hdigit d (List.mem_cons_of_mem c hd),
      List.singleton_append, List.forall_mem_cons]

namespace Digits

variable (run : Digits)

/-- What is kept of a fraction is the longest part that fits. -/
theorem exists_longestFitting :
    ∃ front, IsLongestFitting front run.chars ∧
      run.fraction = Binary64.ofFraction (decimalValue front) front.length := by
  obtain ⟨front, back, hchars, hlongest, hfront, hback⟩ := Numeral.longest_append run stops_nil
  rw [List.append_nil] at hlongest
  refine ⟨front, ?_, by rw [fraction, hlongest]⟩
  rw [hchars]
  exact isLongestFitting_append hfront hback

variable {run}

/-- If all that is kept are zeros, there is nothing else. -/
theorem decimalValue_front_eq_zero_iff {front : List Char} (h : IsLongestFitting front run.chars) :
    decimalValue front = 0 ↔ ∀ c ∈ run.chars, c = '0' := by
  obtain ⟨⟨back, hchars⟩, hfits, hlongest⟩ := h
  have hdigit : ∀ c ∈ front, c.isDigit = true := by
    intro c hc
    apply run.digit
    rw [← hchars]
    exact List.mem_append_left back hc
  rw [decimalValue_eq_zero_iff hdigit]
  constructor
  · intro hzeros
    cases back with
    | nil =>
      rw [List.append_nil] at hchars
      rwa [← hchars]
    | cons c back =>
      have hc : ∀ d ∈ [c], d.isDigit = true := by
        rw [List.forall_mem_singleton]
        apply run.digit
        rw [← hchars]
        exact List.mem_append_right front List.mem_cons_self
      have hmore : decimalValue (front ++ [c]) < numeralLimit := by
        rw [decimalValue_append, (decimalValue_eq_zero_iff hdigit).mpr hzeros, Nat.mul_zero,
          Nat.zero_add]
        exact Nat.lt_trans (decimalValue_lt hc) (by rw [List.length_singleton]; decide)
      have hlonger := hlongest (front ++ [c]) ⟨back, by rw [← hchars]; simp⟩ hmore
      simp at hlonger
  · intro hzeros c hc
    apply hzeros
    rw [← hchars]
    exact List.mem_append_left back hc

/-- A fraction lies between 0 and 1, and is 0 only if its digits are or if too many of
them are kept. -/
theorem exists_fraction {front : List Char} (h : IsLongestFitting front run.chars) :
    ∃ m, run.fraction = .finite false m ∧ m.units ≤ unitsPerOne ∧
      (m.units = 0 ↔ (∀ c ∈ run.chars, c = '0') ∨ 309 ≤ front.length) := by
  obtain ⟨front', h', hfraction⟩ := run.exists_longestFitting
  obtain rfl := h.unique h'
  have hdigit : ∀ c ∈ front, c.isDigit = true := fun c hc => run.digit c (h.1.mem hc)
  obtain ⟨m, hm, hle, hzero⟩ := Binary64.exists_ofFraction (decimalValue_lt hdigit) h.2.1
  exact ⟨m, by rw [hfraction, hm], hle, by rw [hzero, decimalValue_front_eq_zero_iff h]⟩

end Digits

/-- From 2¹²⁸ on the doubles are further apart than two ones. -/
theorem two_mul_unitsPerOne_lt_spacing :
    2 * unitsPerOne < spacing (numeralLimit * unitsPerOne) := by
  have hunits : 2 ^ (numeralBits + unitExponent) ≤ numeralLimit * unitsPerOne := by
    unfold unitsPerOne numeralLimit
    rw [Nat.pow_add]
  have hdvd := two_pow_dvd_spacing (numeralBits + unitExponent) hunits
  refine Nat.lt_of_lt_of_le ?_ (Nat.le_of_dvd (spacing_pos _) hdvd)
  unfold unitsPerOne
  rw [← Nat.pow_succ']
  exact Nat.pow_lt_pow_right (by decide) (by decide)

/-- A fraction does not take a whole part past 2¹²⁸, and the sum is 0 only if both are. -/
theorem Binary64.exists_finite_add {a f : Magnitude} (ha : a.units ≤ numeralLimit * unitsPerOne)
    (hf : f.units ≤ unitsPerOne) :
    ∃ m : Magnitude, add (.finite false a) (.finite false f) = .finite false m ∧
      m.units ≤ numeralLimit * unitsPerOne ∧ (m.units = 0 ↔ a.units = 0 ∧ f.units = 0) := by
  have hle : roundUnits (a.units + f.units) 1 ≤ numeralLimit * unitsPerOne := by
    refine roundUnits_le_of_lt Nat.one_pos (spacing_two_pow_mul_dvd numeralBits) ?_
    have hgap := two_mul_unitsPerOne_lt_spacing
    rw [Nat.mul_one]
    omega
  obtain ⟨m, hm, hunits⟩ := exists_ofRatio false
    (Nat.lt_of_le_of_lt hle (two_pow_mul_unitsPerOne_lt (by decide)))
  refine ⟨m, ?_, hunits ▸ hle, ?_⟩
  · rw [add, if_pos rfl, hm]
  · rw [hunits, roundUnits_eq_zero_iff Nat.one_pos (by omega), Nat.add_eq_zero_iff]

namespace Spelling

/-- The whole part is 0, and a fraction has only zeros or so many digits that are kept that
their power of ten is infinite. -/
def ReadsZero (s : Spelling) : Prop :=
  (∀ c ∈ s.whole.chars, c = '0') ∧ ∀ gap run, s.fraction = some (gap, run) →
    (∀ c ∈ run.chars, c = '0') ∨ ∃ front, IsLongestFitting front run.chars ∧ 309 ≤ front.length

variable (s : Spelling)

/-- Without its sign, a literal is a double from 0 to 2¹²⁸. -/
theorem exists_magnitude :
    ∃ m : Magnitude, s.magnitude = .finite false m ∧ m.units ≤ numeralLimit * unitsPerOne ∧
      (m.units = 0 ↔ s.ReadsZero) := by
  obtain ⟨a, ha, haUnits, haLimit⟩ := Binary64.exists_ofNat_of_le s.fits.le
  have haZero : a.units = 0 ↔ ∀ c ∈ s.whole.chars, c = '0' := by
    rw [haUnits, Binary64.roundUnits_whole_eq_zero_iff, Digits.value,
      decimalValue_eq_zero_iff s.whole.digit]
  rw [magnitude, ha, ReadsZero]
  cases s.fraction with
  | none => exact ⟨a, rfl, haLimit, by simpa using haZero⟩
  | some pair =>
    obtain ⟨gap, run⟩ := pair
    obtain ⟨front, hfront, -⟩ := run.exists_longestFitting
    obtain ⟨f, hf, hfOne, hfZero⟩ := Digits.exists_fraction hfront
    obtain ⟨m, hm, hmLimit, hmZero⟩ := Binary64.exists_finite_add haLimit hfOne
    refine ⟨m, by rw [addFraction, hf, hm], hmLimit, ?_⟩
    rw [hmZero, haZero, hfZero]
    refine and_congr_right fun _ => ⟨?_, ?_⟩
    · rintro hzero gap' run' hfraction
      cases hfraction
      exact hzero.imp_right fun hlength => ⟨front, hfront, hlength⟩
    · intro hzero
      refine (hzero gap run rfl).imp_right ?_
      rintro ⟨front', hfront', hlength⟩
      rwa [hfront.unique hfront']

/-- The factor of the sign only sets the sign. -/
theorem value_of_magnitude {m : Magnitude} (hm : s.magnitude = .finite false m) :
    s.value = .finite s.minus.isSome m := by
  rw [value, hm]
  cases s.minus with
  | none => rw [signFactor_none, Binary64.one_mul]; rfl
  | some gap => rw [signFactor_some, Binary64.neg_one_mul]; rfl

/-- A literal is a double of its sign, of at most 2¹²⁸. -/
theorem exists_value :
    ∃ m : Magnitude, s.value = .finite s.minus.isSome m ∧ m.units ≤ numeralLimit * unitsPerOne ∧
      (m.units = 0 ↔ s.ReadsZero) := by
  obtain ⟨m, hm, hlimit, hzero⟩ := s.exists_magnitude
  exact ⟨m, s.value_of_magnitude hm, hlimit, hzero⟩

end Spelling

end CommaCalc
