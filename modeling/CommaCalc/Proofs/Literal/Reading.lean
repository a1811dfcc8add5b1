import CommaCalc.Proofs.Literal.Spelling

/-!
# What reading a literal returns

One lemma for each elementary scan and each text it can meet: the result, and the
cursor behind what was read.  `number` follows from them, with one lemma for each
of the four fronts of a text, so its result on any text is known.
-/

namespace CommaCalc

theorem any_head?_eq_false {inClass : Char → Bool} {tail : List Char} :
    tail.head?.any inClass = false ↔ Stops inClass tail := by
  cases tail <;> simp [Stops]

theorem Digits.any_head?_append (run : Digits) (tail : List Char) :
    (run.chars ++ tail).head?.any Char.isDigit = true := by
  obtain ⟨c, cs, hchars, hc⟩ := run.exists_cons
  simp [hchars, hc]

theorem Digits.head?_append_ne_minus (run : Digits) (tail : List Char) :
    (run.chars ++ tail).head? ≠ some '-' := by
  obtain ⟨c, cs, hchars, hc⟩ := run.exists_cons
  rw [hchars]
  intro hhead
  simp only [List.cons_append, List.head?_cons, Option.some.injEq] at hhead
  subst hhead
  exact absurd hc (by decide)

namespace Numeral

theorem extend_append_of_stops (cs : List Char) {tail : List Char}
    (htail : Stops Char.isDigit tail) (numeral : Numeral) :
    extend numeral (cs ++ tail) = extend numeral cs := by
  induction cs generalizing numeral with
  | nil =>
    cases tail with
    | nil => rfl
    | cons c cs => simp [extend, stops_cons.mp htail]
  | cons c cs ih => simp only [List.cons_append, extend, ih]

/-- The numeral at the front of a run does not depend on what stands behind it. -/
theorem longest_append_of_stops (cs : List Char) {tail : List Char}
    (htail : Stops Char.isDigit tail) : longest (cs ++ tail) = longest cs :=
  extend_append_of_stops cs htail ⟨0, 0⟩

end Numeral

namespace Literal

variable (text : String) (position : Nat) (gap : Blanks) {tail : List Char}

theorem run_skipBlanks_append (htail : Stops isBlank tail) :
    Scan.skipBlanks.run ⟨text, position, gap.chars ++ tail⟩ =
      .ok () ⟨text, position + utf8Length gap.chars, tail⟩ := by
  rw [Scan.run_skipBlanks, Cursor.skipWhile_append text position gap.blank htail]

theorem expectDigit_digits (run : Digits) :
    expectDigit.run ⟨text, position, gap.chars ++ (run.chars ++ tail)⟩ =
      .ok (position + utf8Length gap.chars)
        ⟨text, position + utf8Length gap.chars, run.chars ++ tail⟩ := by
  simp only [expectDigit, EStateM.run_bind, run_skipBlanks_append text position gap
    run.stops_isBlank, Scan.run_position, Scan.run_peek, run.any_head?_append, if_true]
  rfl

theorem expectDigit_stops (hblank : Stops isBlank tail) (hdigit : Stops Char.isDigit tail) :
    expectDigit.run ⟨text, position, gap.chars ++ tail⟩ =
      .error (.fault (.missingDigits (position + utf8Length gap.chars) tail.head?))
        ⟨text, position + utf8Length gap.chars, tail⟩ := by
  simp only [expectDigit, EStateM.run_bind, run_skipBlanks_append text position gap hblank,
    Scan.run_position, Scan.run_peek, any_head?_eq_false.mpr hdigit]
  rfl

/-- The blanks between the sign and the whole part. -/
def behindMinus (minus : Option Blanks) : Blanks :=
  minus.getD noBlanks

/-- The bytes of the sign itself. -/
def minusBytes (minus : Option Blanks) : Nat :=
  if minus.isSome then 1 else 0

theorem utf8Length_minusChars (minus : Option Blanks) :
    utf8Length (minusChars minus) = minusBytes minus + utf8Length (behindMinus minus).chars := by
  cases minus <;> rfl

theorem sign_append (minus : Option Blanks) (hbody : Stops isBlank (minusChars minus ++ tail))
    (hnone : minus = none → tail.head? ≠ some '-') :
    sign.run ⟨text, position, minusChars minus ++ tail⟩ =
      .ok (signFactor minus)
        ⟨text, position + minusBytes minus, (behindMinus minus).chars ++ tail⟩ := by
  cases minus with
  | none =>
    simp only [minusChars, List.nil_append] at hbody ⊢
    simp only [sign, EStateM.run_bind, Scan.run_skipBlanks, Scan.run_eat,
      Cursor.skipWhile_of_stops text position hbody, if_neg (hnone rfl), Bool.false_eq_true,
      if_false, EStateM.run_pure, signFactor_none]
    rfl
  | some inner =>
    simp only [minusChars, List.cons_append] at hbody ⊢
    simp only [sign, EStateM.run_bind, Scan.run_skipBlanks, Scan.run_eat,
      Cursor.skipWhile_of_stops text position hbody, List.head?_cons, if_true,
      Cursor.advance_one, EStateM.run_pure, signFactor_some]
    rfl

theorem wholePart_ok (run : Digits) (hrun : run.value < numeralLimit)
    (htail : Stops Char.isDigit tail) :
    wholePart.run ⟨text, position, gap.chars ++ (run.chars ++ tail)⟩ =
      .ok run.value
        ⟨text, position + utf8Length gap.chars + utf8Length run.chars, tail⟩ := by
  simp only [wholePart, EStateM.run_bind, expectDigit_digits, Scan.run_numeral,
    Numeral.longest_of_lt run htail hrun, Cursor.advance_append, Scan.run_peek,
    any_head?_eq_false.mpr htail]
  rfl

theorem wholePart_noDigit (hblank : Stops isBlank tail) (hdigit : Stops Char.isDigit tail) :
    wholePart.run ⟨text, position, gap.chars ++ tail⟩ =
      .error (.fault (.missingDigits (position + utf8Length gap.chars) tail.head?))
        ⟨text, position + utf8Length gap.chars, tail⟩ := by
  simp only [wholePart, EStateM.run_bind, expectDigit_stops text position gap hblank hdigit]

/-- The digits that fit are read before the failure, which tells where the run
begins. -/
theorem wholePart_tooLarge (run : Digits) (hrun : numeralLimit ≤ run.value)
    (htail : Stops Char.isDigit tail) :
    ∃ front c back, run.chars = front ++ c :: back ∧
      decimalValue front < numeralLimit ∧ numeralLimit ≤ decimalValue (front ++ [c]) ∧
      wholePart.run ⟨text, position, gap.chars ++ (run.chars ++ tail)⟩ =
        .error (.fault (.integerTooLarge (position + utf8Length gap.chars)))
          ⟨text, position + utf8Length gap.chars + utf8Length front, c :: back ++ tail⟩ := by
  obtain ⟨front, c, back, hchars, hlongest, hfront, hreach⟩ :=
    Numeral.longest_of_le run htail hrun
  refine ⟨front, c, back, hchars, hfront, hreach, ?_⟩
  have hc : c.isDigit = true := run.digit c (by simp [hchars])
  have hsplit : run.chars ++ tail = front ++ (c :: back ++ tail) := by simp [hchars]
  simp only [wholePart, EStateM.run_bind, expectDigit_digits, Scan.run_numeral, hlongest]
  simp only [hsplit, Cursor.advance_append, Scan.run_peek, List.cons_append, List.head?_cons,
    Option.any_some, hc, if_true]
  rfl

theorem fraction_ok (run : Digits) (htail : Stops Char.isDigit tail) :
    fraction.run ⟨text, position, gap.chars ++ (run.chars ++ tail)⟩ =
      .ok run.fraction
        ⟨text, position + utf8Length gap.chars + utf8Length run.chars, tail⟩ := by
  obtain ⟨front, back, hchars, hlongest, -, -⟩ := Numeral.longest_append run htail
  have hback : ∀ c ∈ back, c.isDigit = true := fun c hc => run.digit c (by simp [hchars, hc])
  have hvalue : run.fraction = Binary64.ofFraction (decimalValue front) front.length := by
    rw [Digits.fraction, ← Numeral.longest_append_of_stops run.chars htail, hlongest]
  have hsplit : run.chars ++ tail = front ++ (back ++ tail) := by simp [hchars]
  simp only [fraction, EStateM.run_bind, expectDigit_digits, Scan.run_numeral, hlongest]
  simp only [hsplit, Cursor.advance_append, Scan.run_skipWhile,
    Cursor.skipWhile_append text _ hback htail]
  rw [hvalue, hchars, utf8Length_append, ← Nat.add_assoc]
  rfl

theorem fraction_noDigit (hblank : Stops isBlank tail) (hdigit : Stops Char.isDigit tail) :
    fraction.run ⟨text, position, gap.chars ++ tail⟩ =
      .error (.fault (.missingDigits (position + utf8Length gap.chars) tail.head?))
        ⟨text, position + utf8Length gap.chars, tail⟩ := by
  simp only [fraction, EStateM.run_bind, expectDigit_stops text position gap hblank hdigit]

/-! ## The whole literal -/

/-- What is read of a literal once its sign is known. -/
def afterSign (factor : Binary64) : Scan Binary64 := do
  let whole ← Scan.within .integerPart wholePart
  if ← Scan.eat decimalMark then
    let part ← Scan.within .fractionPart fraction
    return factor.mul ((Binary64.ofNat whole).add part)
  else
    return factor.mul (Binary64.ofNat whole)

/-- Only blanks are left. -/
theorem number_nothing (hvalid : Cursor.Valid ⟨text, position, gap.chars⟩) :
    number.run ⟨text, position, gap.chars⟩ =
      .error (.fault (.missingOperand (position + utf8Length gap.chars)))
        ⟨text, position + utf8Length gap.chars, []⟩ := by
  have hskip := run_skipBlanks_append text position gap stops_nil
  rw [List.append_nil] at hskip
  have hend : Cursor.isAtEnd ⟨text, position + utf8Length gap.chars, []⟩ = true := by
    rw [← List.append_nil gap.chars] at hvalid
    exact hvalid.read.isAtEnd_eq
  simp only [number, EStateM.run_bind, hskip, Scan.run_isAtEnd, hend, if_true,
    Scan.run_position, Scan.run_fail]

/-- Blanks and a sign are read first. -/
theorem number_sign (minus : Option Blanks)
    (hvalid : Cursor.Valid ⟨text, position, gap.chars ++ (minusChars minus ++ tail)⟩)
    (hbody : Stops isBlank (minusChars minus ++ tail))
    (hnone : minus = none → tail ≠ [] ∧ tail.head? ≠ some '-') :
    number.run ⟨text, position, gap.chars ++ (minusChars minus ++ tail)⟩ =
      (afterSign (signFactor minus)).run
        ⟨text, position + utf8Length gap.chars + minusBytes minus,
          (behindMinus minus).chars ++ tail⟩ := by
  have hend : Cursor.isAtEnd
      ⟨text, position + utf8Length gap.chars, minusChars minus ++ tail⟩ = false := by
    rw [hvalid.read.isAtEnd_eq]
    cases minus with
    | none => simpa [minusChars] using (hnone rfl).1
    | some inner => rfl
  simp only [number, EStateM.run_bind, run_skipBlanks_append text position gap hbody,
    Scan.run_isAtEnd, hend, Bool.false_eq_true, if_false,
    sign_append text _ minus hbody fun h => (hnone h).2]
  rfl

theorem stops_isBlank_minusChars (minus : Option Blanks)
    (hnone : minus = none → Stops isBlank tail) :
    Stops isBlank (minusChars minus ++ tail) := by
  cases minus with
  | none => exact hnone rfl
  | some inner => exact stops_cons.mpr (by decide)

/-- A sign and digits are read up to the digits. -/
theorem number_digits (minus : Option Blanks) (run : Digits)
    (hvalid : Cursor.Valid
      ⟨text, position, gap.chars ++ (minusChars minus ++ (run.chars ++ tail))⟩) :
    number.run ⟨text, position, gap.chars ++ (minusChars minus ++ (run.chars ++ tail))⟩ =
      (afterSign (signFactor minus)).run
        ⟨text, position + utf8Length gap.chars + minusBytes minus,
          (behindMinus minus).chars ++ (run.chars ++ tail)⟩ := by
  refine number_sign text position gap minus hvalid
    (stops_isBlank_minusChars minus fun _ => run.stops_isBlank) ?_
  intro _
  exact ⟨by simp [run.nonempty], run.head?_append_ne_minus tail⟩

/-- A spelling that ends is read in full, and its value is returned. -/
theorem number_literal (s : Spelling) (hends : s.EndsBefore tail)
    (hvalid : Cursor.Valid ⟨text, position, gap.chars ++ (s.chars ++ tail)⟩) :
    number.run ⟨text, position, gap.chars ++ (s.chars ++ tail)⟩ =
      .ok s.value
        ⟨text, position + utf8Length gap.chars + utf8Length s.chars, tail⟩ := by
  obtain ⟨minus, whole, hfits, fraction⟩ := s
  obtain ⟨hdigit, hmark⟩ := hends
  simp only [Spelling.chars, List.append_assoc] at hvalid hmark ⊢
  rw [number_digits text position gap minus whole hvalid]
  cases fraction with
  | none =>
    simp only [afterSign, EStateM.run_bind, Scan.run_within, fractionChars, List.nil_append,
      wholePart_ok text _ _ whole hfits hdigit, Scan.run_eat, if_neg (hmark rfl)]
    simp only [List.append_nil, utf8Length_append, utf8Length_minusChars, ← Nat.add_assoc]
    rfl
  | some pair =>
    obtain ⟨inner, run⟩ := pair
    have hcomma : Stops Char.isDigit (decimalMark :: (inner.chars ++ (run.chars ++ tail))) :=
      stops_cons.mpr (by decide)
    simp only [afterSign, EStateM.run_bind, Scan.run_within, fractionChars, List.cons_append,
      List.append_assoc, wholePart_ok text _ _ whole hfits hcomma, Scan.run_eat,
      List.head?_cons, if_true, Cursor.advance_one,
      fraction_ok text _ inner run hdigit]
    simp only [utf8Length_append, utf8Length_cons, utf8Length_minusChars, ← Nat.add_assoc]
    rfl

/-- A stem without its digit fails where the digit was due. -/
theorem number_noDigit (stem : Stem) (hstops : stem.StopsAt tail)
    (hvalid : Cursor.Valid ⟨text, position, gap.chars ++ (stem.chars ++ tail)⟩) :
    number.run ⟨text, position, gap.chars ++ (stem.chars ++ tail)⟩ =
      .error (.within stem.place (.fault (.missingDigits
          (position + utf8Length gap.chars + utf8Length stem.chars) tail.head?)))
        ⟨text, position + utf8Length gap.chars + utf8Length stem.chars, tail⟩ := by
  obtain ⟨hblank, hdigit, hnone⟩ := hstops
  cases stem with
  | wholePart minus =>
    simp only [Stem.chars] at hvalid ⊢
    rw [number_sign text position gap minus hvalid
      (stops_isBlank_minusChars minus fun _ => hblank) fun h => hnone (by rw [h])]
    simp only [afterSign, EStateM.run_bind, Scan.run_within,
      wholePart_noDigit text _ _ hblank hdigit, utf8Length_minusChars, ← Nat.add_assoc]
    rfl
  | fractionPart minus whole hfits inner =>
    simp only [Stem.chars, List.append_assoc] at hvalid ⊢
    have hcomma : Stops Char.isDigit (decimalMark :: (inner.chars ++ tail)) :=
      stops_cons.mpr (by decide)
    rw [number_digits text position gap minus whole hvalid]
    simp only [afterSign, EStateM.run_bind, Scan.run_within, List.cons_append,
      wholePart_ok text _ _ whole hfits hcomma, Scan.run_eat, List.head?_cons, if_true,
      Cursor.advance_one, fraction_noDigit text _ inner hblank hdigit]
    simp only [utf8Length_append, utf8Length_cons, utf8Length_minusChars, ← Nat.add_assoc]
    rfl

/-- A whole part that is too large fails at the digit with which it reaches the
limit, and names the position of its first digit. -/
theorem number_tooLarge (minus : Option Blanks) (run : Digits)
    (hrun : numeralLimit ≤ run.value) (htail : Stops Char.isDigit tail)
    (hvalid : Cursor.Valid
      ⟨text, position, gap.chars ++ (minusChars minus ++ (run.chars ++ tail))⟩) :
    ∃ front c back, run.chars = front ++ c :: back ∧
      decimalValue front < numeralLimit ∧ numeralLimit ≤ decimalValue (front ++ [c]) ∧
      number.run ⟨text, position, gap.chars ++ (minusChars minus ++ (run.chars ++ tail))⟩ =
        .error (.within .integerPart (.fault (.integerTooLarge
            (position + utf8Length gap.chars + utf8Length (minusChars minus)))))
          ⟨text, position + utf8Length gap.chars + utf8Length (minusChars minus)
            + utf8Length front, c :: back ++ tail⟩ := by
  obtain ⟨front, c, back, hchars, hfront, hreach, hwhole⟩ :=
    wholePart_tooLarge text (position + utf8Length gap.chars + minusBytes minus)
      (behindMinus minus) run hrun htail
  refine ⟨front, c, back, hchars, hfront, hreach, ?_⟩
  rw [number_digits text position gap minus run hvalid]
  simp only [afterSign, EStateM.run_bind, Scan.run_within, hwhole, utf8Length_minusChars,
    ← Nat.add_assoc]

/-- What is read is a literal with blanks in front, and the cursor stands behind it. -/
theorem exists_of_number {rest : List Char} {value : Binary64} {after : Cursor}
    (hvalid : Cursor.Valid ⟨text, position, rest⟩)
    (hrun : number.run ⟨text, position, rest⟩ = .ok value after) :
    ∃ (gap : Blanks) (s : Spelling) (tail : List Char), s.EndsBefore tail ∧
      rest = gap.chars ++ (s.chars ++ tail) ∧ value = s.value ∧
      after = ⟨text, position + utf8Length gap.chars + utf8Length s.chars, tail⟩ := by
  obtain ⟨gap, s, tail, hends⟩ | gap | ⟨gap, stem, tail, hstops⟩ |
    ⟨gap, minus, run, tail, hlarge, htail⟩ := exists_front rest
  · rw [number_literal text position gap s hends hvalid] at hrun
    cases hrun
    exact ⟨gap, s, tail, hends, rfl, rfl, rfl⟩
  · rw [number_nothing text position gap hvalid] at hrun
    cases hrun
  · rw [number_noDigit text position gap stem hstops hvalid] at hrun
    cases hrun
  · obtain ⟨front, c, back, -, -, -, herror⟩ :=
      number_tooLarge text position gap minus run hlarge htail hvalid
    rw [herror] at hrun
    cases hrun

end Literal

end CommaCalc
