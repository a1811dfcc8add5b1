import CommaCalc.Proofs.Expression.Split

/-!
# Texts that are no expression

An `Interruption` is a text with the place where reading it stops and the error
that is reported there.  Every text either has a split or is an interruption, so
the two say together what reading returns.
-/

namespace CommaCalc

/-- What stands in front of an operand: nothing, or an opening. -/
def leadChars : Option Opening → List Char
  | none => []
  | some o => o.chars

/-- The operand behind a lead. -/
def leadPlace : Option Opening → Place
  | none => .leftOperand
  | some _ => .rightOperand

/-- A text that reading stops in, and the error. -/
inductive Interruption : List Char → ReadError → Prop where
  | blank (gap : Blanks) : Interruption gap.chars (.fault .emptyInput)
  | noOperator (gap : Blanks) (left : Spelling) (behind : Blanks) :
      Interruption (gap.chars ++ (left.chars ++ behind.chars))
        (.fault (.missingOperator (utf8Length (gap.chars ++ (left.chars ++ behind.chars)))))
  | badOperator (gap : Blanks) (left : Spelling) (behind : Blanks) (c : Char) (tail : List Char)
      (hblank : isBlank c = false) (hsymbol : Operator.ofSymbol? c = none)
      (hends : left.EndsBefore (behind.chars ++ c :: tail)) :
      Interruption (gap.chars ++ (left.chars ++ (behind.chars ++ c :: tail)))
        (.fault (.invalidOperator c (utf8Length (gap.chars ++ (left.chars ++ behind.chars)))))
  | noOperand (o : Opening) (gap : Blanks) :
      Interruption (o.chars ++ gap.chars)
        (.within .rightOperand (.fault (.missingOperand (utf8Length (o.chars ++ gap.chars)))))
  | noDigit (lead : Option Opening) (gap : Blanks) (stem : Stem) (tail : List Char)
      (hstops : stem.StopsAt tail) :
      Interruption (leadChars lead ++ (gap.chars ++ (stem.chars ++ tail)))
        (.within (leadPlace lead) (.within stem.place (.fault (.missingDigits
          (utf8Length (leadChars lead ++ (gap.chars ++ stem.chars))) tail.head?))))
  | tooLarge (lead : Option Opening) (gap : Blanks) (minus : Option Blanks) (run : Digits)
      (tail : List Char) (hrun : numeralLimit ≤ run.value) (htail : Stops Char.isDigit tail) :
      Interruption (leadChars lead ++ (gap.chars ++ (minusChars minus ++ (run.chars ++ tail))))
        (.within (leadPlace lead) (.within .integerPart (.fault (.integerTooLarge
          (utf8Length (leadChars lead ++ (gap.chars ++ minusChars minus)))))))

theorem Opening.exists_not_blank (o : Opening) : ∃ c ∈ o.chars, isBlank c = false := by
  obtain ⟨c, hc, hblank⟩ := o.left.exists_not_blank
  exact ⟨c, by simp [Opening.chars, hc], hblank⟩

theorem Stem.exists_not_blank (stem : Stem) {tail : List Char} (hstops : stem.StopsAt tail) :
    ∃ c ∈ stem.chars ++ tail, isBlank c = false := by
  obtain ⟨hblank, -, hnone⟩ := hstops
  cases stem with
  | wholePart minus =>
    cases minus with
    | none =>
      obtain ⟨c, cs, rfl⟩ := List.exists_cons_of_ne_nil (hnone rfl).1
      exact ⟨c, by simp, stops_cons.mp hblank⟩
    | some gap => exact ⟨'-', by simp [Stem.chars, minusChars], by decide⟩
  | fractionPart minus whole hfits gap =>
    exact ⟨decimalMark, by simp [Stem.chars], isBlank_decimalMark⟩

section Scan

variable {text : String} {rest : List Char} {e : ReadError} {after : Cursor}

/-- The scanners fail where a literal fails, whichever operand it is. -/
theorem scan_lead_error (lead : Option Opening) (htext : text.toList = leadChars lead ++ rest)
    (hnumber : Literal.number.run ⟨text, utf8Length (leadChars lead), rest⟩ = .error e after) :
    (Expression.scan text).run (.start text) = .error (.within (leadPlace lead) e) after := by
  cases lead with
  | none =>
    have hstart : Cursor.start text = ⟨text, utf8Length (leadChars none), rest⟩ := by
      rw [Cursor.start, htext]
      rfl
    simp only [Expression.scan, EStateM.run_bind, Scan.run_within, hstart, hnumber]
    rfl
  | some o =>
    simp only [leadChars] at htext hnumber
    rw [o.scan_chars htext, Scan.run_within, hnumber]
    rfl

/-- The scanners fail where no operator follows the left literal. -/
theorem scan_operator_error (gap : Blanks) (left : Spelling) (hends : left.EndsBefore rest)
    (htext : text.toList = gap.chars ++ (left.chars ++ rest))
    (hread : Operator.read.run ⟨text, utf8Length gap.chars + utf8Length left.chars, rest⟩ =
      .error e after) :
    (Expression.scan text).run (.start text) = .error e after := by
  have hstart : Cursor.start text = ⟨text, 0, gap.chars ++ (left.chars ++ rest)⟩ := by
    rw [Cursor.start, htext]
  have hvalid := Cursor.valid_start text
  rw [hstart] at hvalid ⊢
  simp only [Expression.scan, EStateM.run_bind, Scan.run_within,
    Literal.number_literal text 0 gap left hends hvalid, Nat.zero_add, hread]

end Scan

/-- The cursor behind a lead is valid. -/
theorem valid_leadChars {text : String} (lead : Option Opening) {rest : List Char}
    (htext : text.toList = leadChars lead ++ rest) :
    Cursor.Valid ⟨text, utf8Length (leadChars lead), rest⟩ :=
  ⟨leadChars lead, htext, rfl⟩

/-- An error of the scanners is the error of reading, unless the text is blank. -/
theorem read_of_scan_error {text : String} {e : ReadError} {after : Cursor}
    (hnot : ∃ c ∈ text.toList, isBlank c = false)
    (hscan : (Expression.scan text).run (.start text) = .error e after) :
    Expression.read text = .error e := by
  obtain ⟨c, hc, hblank⟩ := hnot
  rw [Expression.read_of_not_blank hc hblank, hscan]

/-- An interruption is reported as its error. -/
theorem Interruption.read {cs : List Char} {e : ReadError} (h : Interruption cs e) {text : String}
    (htext : text.toList = cs) : Expression.read text = .error e := by
  cases h with
  | blank gap =>
    have htrim : (trimBlanks text.toList).isEmpty = true := by
      rw [List.isEmpty_iff, trimBlanks_eq_nil_iff, htext]
      exact gap.blank
    rw [Expression.read, htrim]
    rfl
  | noOperator gap left behind =>
    obtain ⟨c, hc, hblank⟩ := left.exists_not_blank
    have hread := read_of_scan_error ⟨c, by simp [htext, hc], hblank⟩
      (scan_operator_error gap left (left.endsBefore_blanks behind) htext
        (Operator.read_nothing text _ behind))
    simpa only [utf8Length_append, ← Nat.add_assoc] using hread
  | badOperator gap left behind c tail hblank hsymbol hends =>
    have hread := read_of_scan_error ⟨c, by simp [htext], hblank⟩
      (scan_operator_error gap left hends htext
        (Operator.read_other text _ behind hblank hsymbol))
    simpa only [utf8Length_append, ← Nat.add_assoc] using hread
  | noOperand o gap =>
    obtain ⟨c, hc, hblank⟩ := o.exists_not_blank
    have hread := read_of_scan_error ⟨c, by simp [htext, hc], hblank⟩
      (scan_lead_error (some o) htext
        (Literal.number_nothing text _ gap (valid_leadChars (some o) htext)))
    simpa only [leadPlace, leadChars, utf8Length_append] using hread
  | noDigit lead gap stem tail hstops =>
    obtain ⟨c, hc, hblank⟩ := stem.exists_not_blank hstops
    have hmem : c ∈ text.toList := by
      rw [htext]
      exact List.mem_append_right _ (List.mem_append_right _ hc)
    have hread := read_of_scan_error ⟨c, hmem, hblank⟩ (scan_lead_error lead htext
      (Literal.number_noDigit text _ gap stem hstops (valid_leadChars lead htext)))
    simpa only [utf8Length_append, ← Nat.add_assoc] using hread
  | tooLarge lead gap minus run tail hrun htail =>
    obtain ⟨c, cs, hchars, hc⟩ := run.exists_cons
    obtain ⟨front, d, back, -, -, -, hnumber⟩ := Literal.number_tooLarge text
      (utf8Length (leadChars lead)) gap minus run hrun htail (valid_leadChars lead htext)
    have hread := read_of_scan_error
      ⟨c, by simp [htext, hchars], isBlank_eq_false_of_isDigit hc⟩
      (scan_lead_error lead htext hnumber)
    simpa only [utf8Length_append, ← Nat.add_assoc] using hread

/-- Behind an opening, a text has a split or is an interruption. -/
private theorem exists_of_opening (o : Opening) (rest : List Char) :
    (∃ s : Split, s.chars = o.chars ++ rest) ∨ ∃ e, Interruption (o.chars ++ rest) e := by
  obtain ⟨gap, s, tail, hends⟩ | gap | ⟨gap, stem, tail, hstops⟩ |
    ⟨gap, minus, run, tail, hrun, htail⟩ := exists_front rest
  · exact .inl ⟨⟨o, gap, s, tail, hends⟩, rfl⟩
  · exact .inr ⟨_, .noOperand o gap⟩
  · exact .inr ⟨_, .noDigit (some o) gap stem tail hstops⟩
  · exact .inr ⟨_, .tooLarge (some o) gap minus run tail hrun htail⟩

/-- Every text has a split or is an interruption. -/
theorem exists_split_or_interruption (cs : List Char) :
    (∃ s : Split, s.chars = cs) ∨ ∃ e, Interruption cs e := by
  obtain ⟨gap, left, tail, hends⟩ | gap | ⟨gap, stem, tail, hstops⟩ |
    ⟨gap, minus, run, tail, hrun, htail⟩ := exists_front cs
  · obtain ⟨behind, rest, rfl, hrest⟩ := exists_blanks_append tail
    cases rest with
    | nil =>
      rw [List.append_nil]
      exact .inr ⟨_, .noOperator gap left behind⟩
    | cons c rest =>
      cases hsymbol : Operator.ofSymbol? c with
      | none =>
        exact .inr ⟨_, .badOperator gap left behind c rest (stops_cons.mp hrest) hsymbol hends⟩
      | some operator =>
        rw [Operator.eq_symbol_of_ofSymbol? hsymbol]
        have hcases := exists_of_opening ⟨gap, left, behind, operator⟩ rest
        rwa [Opening.chars_append] at hcases
  · exact .inr ⟨_, .blank gap⟩
  · exact .inr ⟨_, .noDigit none gap stem tail hstops⟩
  · exact .inr ⟨_, .tooLarge none gap minus run tail hrun htail⟩

namespace Expression

/-- A text is read exactly when it has a split. -/
theorem exists_split_of_read {text : String} {expression : Expression}
    (hread : read text = .ok expression) :
    ∃ s : Split, s.chars = text.toList ∧ s.expression = expression := by
  obtain ⟨s, hs⟩ | ⟨e, he⟩ := exists_split_or_interruption text.toList
  · refine ⟨s, hs, ?_⟩
    rw [s.read_chars hs] at hread
    exact Except.ok.inj hread
  · rw [he.read rfl] at hread
    exact absurd hread (by simp)

/-- Reading fails exactly on an interruption, with its error. -/
theorem read_eq_error_iff {text : String} {e : ReadError} :
    read text = .error e ↔ Interruption text.toList e := by
  constructor
  · intro hread
    obtain ⟨s, hs⟩ | ⟨e', he⟩ := exists_split_or_interruption text.toList
    · rw [s.read_chars hs] at hread
      exact absurd hread (by simp)
    · have heq : read text = .error e' := he.read rfl
      rw [hread, Except.error.injEq] at heq
      rw [heq]
      exact he
  · intro h
    exact h.read rfl

end Expression

end CommaCalc
