import CommaCalc.Proofs.Text.Runs
import CommaCalc.Text.Blank
import CommaCalc.Text.Numeral

/-!
# Blanks, digits and the numeral at the front of a run

The pieces of an expression are runs of blanks and runs of digits.  The classes
are disjoint, so each run stops the other class.

A numeral is the part of a digit run that fits below 2¹²⁸: it is the whole run
exactly when the value of the run fits, and otherwise the next digit is the first
one that does not.
-/

namespace CommaCalc

/-- Characters that are blanks, possibly none. -/
@[ext]
structure Blanks where
  chars : List Char
  blank : ∀ c ∈ chars, isBlank c = true

/-- No blanks. -/
def noBlanks : Blanks := ⟨[], by simp⟩

/-- One or more ASCII digits. -/
@[ext]
structure Digits where
  chars : List Char
  nonempty : chars ≠ []
  digit : ∀ c ∈ chars, c.isDigit = true

section Classes

variable {c : Char} {tail : List Char}

theorem isBlank_eq_false_of_isDigit (hc : c.isDigit = true) : isBlank c = false := by
  have hrange := Char.isDigit_iff_toNat.mp hc
  simp only [Char.reduceToNat] at hrange
  simp only [isBlank, blankRanges, List.any_cons, List.any_nil, Bool.or_false,
    Bool.or_eq_false_iff, Bool.and_eq_false_iff, decide_eq_false_iff_not]
  omega

theorem isDigit_eq_false_of_isBlank (hc : isBlank c = true) : c.isDigit = false := by
  cases hdigit : c.isDigit with
  | false => rfl
  | true =>
    rw [isBlank_eq_false_of_isDigit hdigit] at hc
    exact hc.symm

theorem Blanks.stops_isDigit (gap : Blanks) (htail : Stops Char.isDigit tail) :
    Stops Char.isDigit (gap.chars ++ tail) := by
  cases hchars : gap.chars with
  | nil => exact htail
  | cons c cs =>
    exact stops_cons.mpr (isDigit_eq_false_of_isBlank (gap.blank c (by simp [hchars])))

theorem Digits.exists_cons (run : Digits) : ∃ c cs, run.chars = c :: cs ∧ c.isDigit = true := by
  obtain ⟨c, cs, hchars⟩ := List.exists_cons_of_ne_nil run.nonempty
  exact ⟨c, cs, hchars, run.digit c (by simp [hchars])⟩

theorem Digits.stops_isBlank (run : Digits) : Stops isBlank (run.chars ++ tail) := by
  obtain ⟨c, cs, hchars, hc⟩ := run.exists_cons
  rw [hchars]
  exact stops_cons.mpr (isBlank_eq_false_of_isDigit hc)

/-- A text that goes on with a digit goes on with a maximal run of digits. -/
theorem exists_digits_append (cs : List Char) (hhead : ¬ Stops Char.isDigit cs) :
    ∃ (run : Digits) (tail : List Char), cs = run.chars ++ tail ∧ Stops Char.isDigit tail := by
  refine ⟨⟨cs.takeWhile Char.isDigit, ?_, fun c hc => of_mem_takeWhile cs hc⟩,
    cs.dropWhile Char.isDigit, List.takeWhile_append_dropWhile.symm, stops_dropWhile cs⟩
  intro hnil
  apply hhead
  have hsplit := List.takeWhile_append_dropWhile (p := Char.isDigit) (l := cs)
  rw [hnil, List.nil_append] at hsplit
  rw [← hsplit]
  exact stops_dropWhile cs

/-- Any text is blanks followed by something else. -/
theorem exists_blanks_append (cs : List Char) :
    ∃ (gap : Blanks) (tail : List Char), cs = gap.chars ++ tail ∧ Stops isBlank tail :=
  ⟨⟨cs.takeWhile isBlank, fun _ hc => of_mem_takeWhile cs hc⟩, cs.dropWhile isBlank,
    List.takeWhile_append_dropWhile.symm, stops_dropWhile cs⟩

end Classes

/-- What can stand at the front of a text in which digits are due: behind blanks, a maximal run of
them, or none. -/
inductive DigitFront : List Char → Prop where
  | digits (gap : Blanks) (run : Digits) (tail : List Char) (htail : Stops Char.isDigit tail) :
      DigitFront (gap.chars ++ (run.chars ++ tail))
  | noDigit (gap : Blanks) (tail : List Char) (hblank : Stops isBlank tail)
      (hdigit : Stops Char.isDigit tail) : DigitFront (gap.chars ++ tail)

theorem exists_digitFront (cs : List Char) : DigitFront cs := by
  obtain ⟨gap, tail, rfl, hblank⟩ := exists_blanks_append cs
  by_cases hdigit : Stops Char.isDigit tail
  · exact .noDigit gap tail hblank hdigit
  · obtain ⟨run, tail, rfl, htail⟩ := exists_digits_append tail hdigit
    exact .digits gap run tail htail

/-- The decimal value of characters that are digits. -/
def decimalValue (cs : List Char) : Nat :=
  Nat.ofDigitChars 10 cs 0

/-- The decimal value of a run. -/
def Digits.value (run : Digits) : Nat :=
  decimalValue run.chars

theorem ofDigitChars_append_singleton (cs : List Char) (c : Char) (start : Nat) :
    Nat.ofDigitChars 10 (cs ++ [c]) start =
      10 * Nat.ofDigitChars 10 cs start + digitValue c := by
  rw [Nat.ofDigitChars_append, Nat.ofDigitChars_cons, Nat.ofDigitChars_nil]
  rfl

/-- Further digits only make a value larger. -/
theorem le_ofDigitChars (cs : List Char) (start : Nat) :
    start ≤ Nat.ofDigitChars 10 cs start := by
  induction cs generalizing start with
  | nil => simp
  | cons c cs ih =>
    rw [Nat.ofDigitChars_cons]
    refine Nat.le_trans ?_ (ih _)
    omega

namespace Numeral

/-- Extending a numeral reads the digits up to the first one with which the value
would reach the limit. -/
theorem extend_append (cs tail : List Char) (hdigit : ∀ c ∈ cs, c.isDigit = true)
    (htail : Stops Char.isDigit tail) (numeral : Numeral) (hvalue : numeral.value < numeralLimit) :
    ∃ front back, cs = front ++ back ∧
      extend numeral (cs ++ tail) =
        ⟨Nat.ofDigitChars 10 front numeral.value, numeral.digits + front.length⟩ ∧
      Nat.ofDigitChars 10 front numeral.value < numeralLimit ∧
      ∀ c ∈ back.head?,
        numeralLimit ≤ 10 * Nat.ofDigitChars 10 front numeral.value + digitValue c := by
  induction cs generalizing numeral with
  | nil =>
    refine ⟨[], [], rfl, ?_, by simpa using hvalue, by simp⟩
    cases tail with
    | nil => rfl
    | cons c cs => simp [extend, stops_cons.mp htail]
  | cons c cs ih =>
    have hc : c.isDigit = true := hdigit c (by simp)
    by_cases hfits : 10 * numeral.value + digitValue c < numeralLimit
    · obtain ⟨front, back, rfl, hextend, hfront, hback⟩ :=
        ih (fun d hd => hdigit d (by simp [hd]))
          ⟨10 * numeral.value + digitValue c, numeral.digits + 1⟩ hfits
      have hcons : Nat.ofDigitChars 10 (c :: front) numeral.value =
          Nat.ofDigitChars 10 front (10 * numeral.value + digitValue c) :=
        Nat.ofDigitChars_cons
      refine ⟨c :: front, back, rfl, ?_, ?_, ?_⟩
      · rw [List.cons_append, extend, hc, decide_eq_true hfits, hcons]
        simp only [Bool.and_self, if_true, hextend, List.length_cons]
        congr 1
        omega
      · rw [hcons]
        exact hfront
      · rw [hcons]
        exact hback
    · refine ⟨[], c :: cs, rfl, ?_, by simpa using hvalue, ?_⟩
      · rw [List.cons_append, extend, hc, decide_eq_false hfits]
        simp
      · intro d hd
        simp only [List.head?_cons, Option.mem_def, Option.some.injEq] at hd
        subst hd
        simpa using hfits

variable (run : Digits) {tail : List Char}

/-- The numeral at the front of a digit run: the digits that fit, and the first
one that does not. -/
theorem longest_append (htail : Stops Char.isDigit tail) :
    ∃ front back, run.chars = front ++ back ∧
      longest (run.chars ++ tail) = ⟨decimalValue front, front.length⟩ ∧
      decimalValue front < numeralLimit ∧
      ∀ c ∈ back.head?, numeralLimit ≤ decimalValue (front ++ [c]) := by
  obtain ⟨front, back, hrun, hlongest, hfront, hback⟩ :=
    extend_append run.chars tail run.digit htail ⟨0, 0⟩ (by decide)
  refine ⟨front, back, hrun, by simpa [longest, decimalValue] using hlongest, hfront, ?_⟩
  intro c hc
  rw [decimalValue, ofDigitChars_append_singleton]
  exact hback c hc

/-- A run whose value fits is read in full. -/
theorem longest_of_lt (htail : Stops Char.isDigit tail) (hrun : run.value < numeralLimit) :
    longest (run.chars ++ tail) = ⟨run.value, run.chars.length⟩ := by
  obtain ⟨front, back, hchars, hlongest, -, hback⟩ := longest_append run htail
  cases back with
  | nil =>
    rw [List.append_nil] at hchars
    rw [hlongest, Digits.value, hchars]
  | cons c cs =>
    have hreach := hback c rfl
    have hle := le_ofDigitChars cs (decimalValue (front ++ [c]))
    rw [decimalValue, ← Nat.ofDigitChars_append, List.append_assoc, List.singleton_append,
      ← hchars] at hle
    exact absurd (Nat.lt_of_le_of_lt (Nat.le_trans hreach hle) hrun) (Nat.lt_irrefl _)

/-- A run whose value does not fit is read up to a digit. -/
theorem longest_of_le (htail : Stops Char.isDigit tail) (hrun : numeralLimit ≤ run.value) :
    ∃ front c back, run.chars = front ++ c :: back ∧
      longest (run.chars ++ tail) = ⟨decimalValue front, front.length⟩ ∧
      decimalValue front < numeralLimit ∧ numeralLimit ≤ decimalValue (front ++ [c]) := by
  obtain ⟨front, back, hchars, hlongest, hfront, hback⟩ := longest_append run htail
  cases back with
  | nil =>
    rw [List.append_nil] at hchars
    rw [Digits.value, hchars] at hrun
    exact absurd (Nat.lt_of_le_of_lt hrun hfront) (Nat.lt_irrefl _)
  | cons c cs => exact ⟨front, c, cs, hchars, hlongest, hfront, hback c rfl⟩

end Numeral

end CommaCalc
