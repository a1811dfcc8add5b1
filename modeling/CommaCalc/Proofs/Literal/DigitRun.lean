import CommaCalc.Proofs.Literal.Accuracy

/-!
# How a run of digits is read

A whole part and a fraction begin alike: blanks are skipped, and a digit has to follow.  What
is read then is the maximal run of digits.  A whole part is the value of the run and fails on
the first digit with which that value reaches 2¹²⁸.  A fraction takes a run of any length, keeps
the longest part that fits, and drops less than it could tell apart.
-/

namespace CommaCalc

/-- A text begins with blanks and a maximal run of digits. -/
structure BeginsWithRun (cs : List Char) (gap : Blanks) (run : Digits) (tail : List Char) : Prop where
  chars_eq : cs = gap.chars ++ (run.chars ++ tail)
  stops : Stops Char.isDigit tail

namespace BeginsWithRun

variable {cursor : Cursor} {gap : Blanks} {run : Digits} {tail : List Char}

theorem cursor_eq (hbegins : BeginsWithRun cursor.rest gap run tail) :
    cursor = ⟨cursor.text, cursor.position, gap.chars ++ (run.chars ++ tail)⟩ := by
  rw [← hbegins.chars_eq]

/-- The cursor behind the run. -/
theorem advance_eq (hbegins : BeginsWithRun cursor.rest gap run tail) :
    cursor.advance (gap.chars ++ run.chars).length =
      ⟨cursor.text, cursor.position + utf8Length (gap.chars ++ run.chars), tail⟩ := by
  conv_lhs => rw [hbegins.cursor_eq, ← List.append_assoc]
  exact Cursor.advance_append cursor.text cursor.position

end BeginsWithRun

/-- A text begins so exactly if a digit follows its blanks. -/
theorem exists_beginsWithRun_iff {cs : List Char} :
    (∃ gap run tail, BeginsWithRun cs gap run tail) ↔
      ¬ Stops Char.isDigit (cs.dropWhile isBlank) := by
  constructor
  · rintro ⟨gap, run, tail, rfl, -⟩ hstops
    obtain ⟨c, cs, hcs, hc⟩ := run.exists_cons_append tail
    rw [dropWhile_append_stops gap.blank run.stops_isBlank, hcs, stops_cons, hc] at hstops
    exact Bool.noConfusion hstops
  · intro hdigit
    obtain ⟨gap, run, tail, htail⟩ | ⟨gap, tail, hblank, hstops⟩ := exists_digitFront cs
    · exact ⟨gap, run, tail, rfl, htail⟩
    · rw [dropWhile_append_stops gap.blank hblank] at hdigit
      exact absurd hstops hdigit

/-- Zeros and then the digits of a number. -/
def Digits.padded (zeros n : Nat) : Digits where
  chars := List.replicate zeros '0' ++ Nat.toDigits 10 n
  nonempty := List.append_ne_nil_of_right_ne_nil _ Nat.toDigits_ne_nil
  digit := by
    intro c hc
    rcases List.mem_append.mp hc with hc | hc
    · rw [List.eq_of_mem_replicate hc, isDigit_zero]
    · exact Nat.isDigit_of_mem_toDigits (by decide) (by decide) hc

theorem Digits.padded_value (zeros n : Nat) : (padded zeros n).value = n := by
  rw [value, padded, decimalValue_append, decimalValue_replicate_zero, Nat.mul_zero, Nat.zero_add,
    decimalValue_toDigits]

namespace Literal

section Missing

variable {cursor : Cursor}

/-- The digit is missed behind the blanks, and nothing else is read. -/
theorem expectDigit_missing (hstops : Stops Char.isDigit (cursor.rest.dropWhile isBlank)) :
    expectDigit.run cursor =
      .error (.fault (.missingDigits (cursor.skipWhile isBlank).position
        (cursor.skipWhile isBlank).rest.head?)) (cursor.skipWhile isBlank) := by
  obtain ⟨text, position, rest⟩ := cursor
  obtain ⟨gap, tail, rfl, hblank⟩ := exists_blanks_append rest
  rw [dropWhile_append_stops gap.blank hblank] at hstops
  rw [Cursor.skipWhile_append text position gap.blank hblank]
  exact expectDigit_stops text position gap hblank hstops

theorem wholePart_missing (hstops : Stops Char.isDigit (cursor.rest.dropWhile isBlank)) :
    wholePart.run cursor =
      .error (.fault (.missingDigits (cursor.skipWhile isBlank).position
        (cursor.skipWhile isBlank).rest.head?)) (cursor.skipWhile isBlank) := by
  rw [wholePart, EStateM.run_bind, expectDigit_missing hstops]

theorem fraction_missing (hstops : Stops Char.isDigit (cursor.rest.dropWhile isBlank)) :
    fraction.run cursor =
      .error (.fault (.missingDigits (cursor.skipWhile isBlank).position
        (cursor.skipWhile isBlank).rest.head?)) (cursor.skipWhile isBlank) := by
  rw [fraction, EStateM.run_bind, expectDigit_missing hstops]

end Missing

/-- A digit is found exactly where a run of digits can be read. -/
theorem expectDigit_ok_iff (cursor : Cursor) :
    (∃ position after, expectDigit.run cursor = .ok position after) ↔
      ∃ gap run tail, BeginsWithRun cursor.rest gap run tail := by
  constructor
  · rintro ⟨position, after, hok⟩
    rw [exists_beginsWithRun_iff]
    intro hstops
    rw [expectDigit_missing hstops] at hok
    cases hok
  · rintro ⟨gap, run, tail, hbegins⟩
    rw [hbegins.cursor_eq]
    exact ⟨_, _, expectDigit_digits cursor.text cursor.position gap run⟩

section Run

variable {cursor : Cursor} {gap : Blanks} {run : Digits} {tail : List Char}

theorem wholePart_of_lt (hbegins : BeginsWithRun cursor.rest gap run tail)
    (hfits : run.value < numeralLimit) :
    wholePart.run cursor = .ok run.value
      ⟨cursor.text, cursor.position + utf8Length (gap.chars ++ run.chars), tail⟩ := by
  have hrun := wholePart_ok cursor.text cursor.position gap run hfits hbegins.stops
  rw [← hbegins.cursor_eq, Nat.add_assoc, ← utf8Length_append] at hrun
  exact hrun

/-- The digits that fit are the longest part that does, so the one on which the cursor is left
is the first with which the value reaches the limit. -/
theorem wholePart_of_le (hbegins : BeginsWithRun cursor.rest gap run tail)
    (hlarge : numeralLimit ≤ run.value) :
    ∃ front c back, run.chars = front ++ c :: back ∧ IsLongestFitting front run.chars ∧
      wholePart.run cursor =
        .error (.fault (.integerTooLarge (cursor.position + utf8Length gap.chars)))
          ⟨cursor.text, cursor.position + utf8Length (gap.chars ++ front), c :: back ++ tail⟩ := by
  obtain ⟨front, c, back, hchars, hfront, hreach, hrun⟩ :=
    wholePart_tooLarge cursor.text cursor.position gap run hlarge hbegins.stops
  rw [← hbegins.cursor_eq, Nat.add_assoc, ← utf8Length_append] at hrun
  refine ⟨front, c, back, hchars, ?_, hrun⟩
  rw [hchars]
  apply isLongestFitting_append hfront
  intro d hd
  obtain rfl : c = d := by simpa using hd
  exact hreach

end Run

/-- Behind any blanks, a run of digits whose value is below 2¹²⁸ is read in full as that value,
whatever zeros it begins with.  A larger value is refused with the position of its first digit,
and the cursor is left on the first digit with which the value reaches 2¹²⁸.  Where no digit
follows, digits are missing, and that is exactly where no digit was found before the run: no
empty run is ever read. -/
theorem wholePart_exact (cursor : Cursor) :
    (∀ gap run tail, BeginsWithRun cursor.rest gap run tail →
      (run.value < numeralLimit →
        wholePart.run cursor = .ok run.value
          ⟨cursor.text, cursor.position + utf8Length (gap.chars ++ run.chars), tail⟩) ∧
      (numeralLimit ≤ run.value → ∃ front c back, run.chars = front ++ c :: back ∧
        (∀ part, part <+: run.chars →
          (numeralLimit ≤ decimalValue part ↔ front.length < part.length)) ∧
        wholePart.run cursor =
          .error (.fault (.integerTooLarge (cursor.position + utf8Length gap.chars)))
            ⟨cursor.text, cursor.position + utf8Length (gap.chars ++ front),
              c :: back ++ tail⟩)) ∧
    (Stops Char.isDigit (cursor.rest.dropWhile isBlank) →
      wholePart.run cursor =
        .error (.fault (.missingDigits (cursor.skipWhile isBlank).position
          (cursor.skipWhile isBlank).rest.head?)) (cursor.skipWhile isBlank)) ∧
    ((∃ position after, expectDigit.run cursor = .ok position after) ↔
      ∃ gap run tail, BeginsWithRun cursor.rest gap run tail) := by
  refine ⟨?_, wholePart_missing, expectDigit_ok_iff cursor⟩
  intro gap run tail hbegins
  refine ⟨wholePart_of_lt hbegins, ?_⟩
  intro hlarge
  obtain ⟨front, c, back, hchars, hlongest, hrun⟩ := wholePart_of_le hbegins hlarge
  refine ⟨front, c, back, hchars, ?_, hrun⟩
  intro part hpart
  rw [← Nat.not_lt, hlongest.fits_iff hpart, Nat.not_le]

/-- The largest number that is read, behind blanks and zeros, and the next one, which is refused
at its last digit.  A digit of another script is none. -/
theorem wholePart_exact_limit :
    (∃ after, wholePart.run (.start " 000340282366920938463463374607431768211455,5") =
        .ok (numeralLimit - 1) after ∧ after.rest = ",5".toList) ∧
    (∃ after, wholePart.run (.start "340282366920938463463374607431768211456+1") =
        .error (.fault (.integerTooLarge 0)) after ∧ after.rest = "6+1".toList) ∧
    ∃ after, wholePart.run (.start "٣") = .error (.fault (.missingDigits 0 (some '٣'))) after := by
  have hgap : ∀ c ∈ [' '], isBlank c = true := List.forall_mem_singleton.mpr (by decide)
  have hrest : (Cursor.start " 000340282366920938463463374607431768211455,5").rest =
      [' '] ++ ((Digits.padded 3 (numeralLimit - 1)).chars ++ [',', '5']) := by decide +kernel
  have hfits := (wholePart_exact _).1 ⟨[' '], hgap⟩ _ _ ⟨hrest, stops_cons.mpr (by decide)⟩
  have hread := hfits.1 (by rw [Digits.padded_value]; decide)
  rw [Digits.padded_value] at hread
  have hrest' : (Cursor.start "340282366920938463463374607431768211456+1").rest =
      noBlanks.chars ++ ((Digits.padded 0 numeralLimit).chars ++ ['+', '1']) := by decide +kernel
  obtain ⟨front, c, back, hchars, hreach, hrefused⟩ :=
    ((wholePart_exact _).1 noBlanks _ _ ⟨hrest', stops_cons.mpr (by decide)⟩).2
      (Digits.padded_value 0 numeralLimit).ge
  -- The first 38 digits are below the limit, and all 39 of them are not.
  have hshort := (hreach _ (List.take_prefix 38 _)).not.mp (by decide +kernel)
  have hfull := (hreach _ List.prefix_rfl).mp (Digits.padded_value 0 numeralLimit).ge
  have hcount : (Digits.padded 0 numeralLimit).chars.length = 39 := by decide +kernel
  have hlength : front.length = 38 := by
    rw [List.length_take, hcount] at hshort
    omega
  have hback : c :: back ++ ['+', '1'] = "6+1".toList := by
    have hdrop := congrArg (List.drop 38) hchars
    rw [List.drop_left' hlength] at hdrop
    rw [← hdrop]
    decide +kernel
  have hscript : (Cursor.start "٣").rest.dropWhile isBlank = ['٣'] := by decide +kernel
  have hmissing := (wholePart_exact (.start "٣")).2.1 (by
    rw [hscript]
    exact stops_cons.mpr (by decide))
  have hcomma : [',', '5'] = ",5".toList := by decide +kernel
  exact ⟨⟨_, hread, hcomma⟩, ⟨_, hrefused, hback⟩, _, hmissing⟩

theorem fraction_of_beginsWithRun {cursor : Cursor} {gap : Blanks} {run : Digits}
    {tail : List Char} (hbegins : BeginsWithRun cursor.rest gap run tail) :
    fraction.run cursor = .ok run.fraction
      ⟨cursor.text, cursor.position + utf8Length (gap.chars ++ run.chars), tail⟩ := by
  have hrun := fraction_ok cursor.text cursor.position gap run hbegins.stops
  rw [← hbegins.cursor_eq, Nat.add_assoc, ← utf8Length_append] at hrun
  exact hrun

/-- Behind any blanks, a run of digits of any length is read in full.  The result is that of the
longest part of it whose value is below 2¹²⁸, zeros at the front included in its length.  The
exact value of the run is less than one in the last place above that part, and if any digit is
dropped, less than three parts in 10³⁸ of the run.  Where no run of digits follows, digits are
missing. -/
theorem fraction_keeps_longest (cursor : Cursor) :
    (∀ gap run tail, BeginsWithRun cursor.rest gap run tail →
      ∃ front, IsLongestFitting front run.chars ∧
        fraction.run cursor = .ok (.ofFraction (decimalValue front) front.length)
          ⟨cursor.text, cursor.position + utf8Length (gap.chars ++ run.chars), tail⟩ ∧
        0 ≤ run.exactFraction - decimalValue front / 10 ^ front.length ∧
        run.exactFraction - decimalValue front / 10 ^ front.length < 1 / 10 ^ front.length ∧
        (front ≠ run.chars → run.exactFraction - decimalValue front / 10 ^ front.length <
          3 / 10 ^ 38 * run.exactFraction)) ∧
    ((¬ ∃ gap run tail, BeginsWithRun cursor.rest gap run tail) →
      fraction.run cursor =
        .error (.fault (.missingDigits (cursor.skipWhile isBlank).position
          (cursor.skipWhile isBlank).rest.head?)) (cursor.skipWhile isBlank)) := by
  constructor
  · intro gap run tail hbegins
    obtain ⟨front, hlongest, hvalue⟩ := run.exists_longestFitting
    refine ⟨front, hlongest, ?_, Digits.exactFraction_sub_kept hlongest⟩
    rw [fraction_of_beginsWithRun hbegins, hvalue]
  · rw [exists_beginsWithRun_iff, not_not]
    exact fraction_missing

/-- Two zeros count among the digits that are kept, and the digit with which the value would
reach 2¹²⁸ is dropped. -/
theorem fraction_keeps_longest_zeros :
    (∃ after, fraction.run (.start " 00340282366920938463463374607431768211456 + 1") =
        .ok (.ofFraction 34028236692093846346337460743176821145 40) after ∧
        after.rest = " + 1".toList) ∧
    ∃ after, fraction.run (.start "٣") = .error (.fault (.missingDigits 0 (some '٣'))) after := by
  have hgap : ∀ c ∈ [' '], isBlank c = true := List.forall_mem_singleton.mpr (by decide)
  have hrest : (Cursor.start " 00340282366920938463463374607431768211456 + 1").rest =
      [' '] ++ ((Digits.padded 2 numeralLimit).chars ++ [' ', '+', ' ', '1']) := by
    decide +kernel
  obtain ⟨front, hfront, hrun, -⟩ := (fraction_keeps_longest _).1 ⟨[' '], hgap⟩ _ _
    ⟨hrest, stops_cons.mpr (by decide)⟩
  have hlongest : IsLongestFitting ((Digits.padded 2 numeralLimit).chars.take 40)
      ((Digits.padded 2 numeralLimit).chars.take 40 ++ ['6']) :=
    isLongestFitting_append (by decide +kernel) (by
      intro c hc
      obtain rfl : '6' = c := by simpa using hc
      decide +kernel)
  have hchars : (Digits.padded 2 numeralLimit).chars.take 40 ++ ['6'] =
      (Digits.padded 2 numeralLimit).chars := by decide +kernel
  rw [hchars] at hlongest
  obtain rfl := hfront.unique hlongest
  have hvalue : decimalValue ((Digits.padded 2 numeralLimit).chars.take 40) =
      34028236692093846346337460743176821145 := by decide +kernel
  have hlength : ((Digits.padded 2 numeralLimit).chars.take 40).length = 40 := by decide +kernel
  rw [hvalue, hlength] at hrun
  have htail : [' ', '+', ' ', '1'] = " + 1".toList := by decide +kernel
  have hscript : (Cursor.start "٣").rest.dropWhile isBlank = ['٣'] := by decide +kernel
  have hmissing := (fraction_keeps_longest (.start "٣")).2 (by
    rw [exists_beginsWithRun_iff, hscript, not_not]
    exact stops_cons.mpr (by decide))
  exact ⟨⟨_, hrun, htail⟩, _, hmissing⟩

end Literal

end CommaCalc
