import CommaCalc.Proofs.Expression.Interruption

/-!
# Errors are found where they are

A fault is *settled* when the character that causes it has been seen, and then no
further text changes it.  Every other fault is met at the end of the text and can be
mended by going on.  In both cases the text in front of the reported position is the
beginning of an expression: it ends in a stem, and a zero completes any stem.
-/

namespace CommaCalc

/-- Whether the character that causes a fault has been seen. -/
def Fault.isSettled : Fault → Bool
  | .emptyInput => false
  | .missingDigits _ found => found.isSome
  | .missingOperand _ => false
  | .missingOperator _ => false
  | .invalidOperator .. => true
  | .integerTooLarge _ => true

/-- A single zero. -/
def zeroDigit : Digits := ⟨['0'], by simp, List.forall_mem_singleton.mpr (by decide)⟩

/-- The stem with a zero for its next digit. -/
def Stem.complete : Stem → Spelling
  | wholePart minus => ⟨minus, zeroDigit, by decide, none⟩
  | fractionPart minus whole hfits gap => ⟨minus, whole, hfits, some (gap, zeroDigit)⟩

theorem Stem.chars_complete (stem : Stem) : stem.complete.chars = stem.chars ++ ['0'] := by
  cases stem <;>
    simp [complete, Spelling.chars, chars, fractionChars, zeroDigit]

/-- A lead, blanks and a stem are the beginning of an expression. -/
theorem exists_split_stem (lead : Option Opening) (gap : Blanks) (stem : Stem) :
    ∃ (more : List Char) (s : Split),
      s.chars = leadChars lead ++ (gap.chars ++ stem.chars) ++ more := by
  cases lead with
  | none =>
    refine ⟨['0', '+', '0'], ⟨⟨gap, stem.complete, noBlanks, .add⟩, noBlanks,
      (Stem.wholePart none).complete, [], Spelling.endsBefore_nil _⟩, ?_⟩
    simp [Split.chars, Opening.chars, Stem.chars_complete, leadChars, Stem.chars, minusChars,
      noBlanks, Operator.symbol]
  | some o =>
    refine ⟨['0'], ⟨o, gap, stem.complete, [], Spelling.endsBefore_nil _⟩, ?_⟩
    simp [Split.chars, Stem.chars_complete, leadChars]

/-- A lead and blanks are the beginning of an expression. -/
theorem exists_split_blanks (lead : Option Opening) (gap : Blanks) :
    ∃ (more : List Char) (s : Split), s.chars = leadChars lead ++ gap.chars ++ more := by
  obtain ⟨more, s, hs⟩ := exists_split_stem lead gap (.wholePart none)
  exact ⟨more, s, by simpa [Stem.chars, minusChars] using hs⟩

/-- So are blanks, a literal and blanks. -/
theorem exists_split_literal (gap : Blanks) (left : Spelling) (behind : Blanks) :
    ∃ (more : List Char) (s : Split),
      s.chars = gap.chars ++ (left.chars ++ behind.chars) ++ more := by
  obtain ⟨more, s, hs⟩ := exists_split_blanks (some ⟨gap, left, behind, .add⟩) noBlanks
  refine ⟨'+' :: more, s, ?_⟩
  simpa [leadChars, Opening.chars, noBlanks, Operator.symbol] using hs

theorem Stem.StopsAt.append {stem : Stem} {tail : List Char} (hstops : stem.StopsAt tail)
    (htail : tail ≠ []) (more : List Char) : stem.StopsAt (tail ++ more) := by
  obtain ⟨hblank, hdigit, hnone⟩ := hstops
  refine ⟨hblank.append fun h => absurd h htail, hdigit.append fun h => absurd h htail, ?_⟩
  intro hstem
  obtain ⟨c, cs, rfl⟩ := List.exists_cons_of_ne_nil htail
  exact ⟨by simp, (hnone hstem).2⟩

/-- A run that is too large stays too large when the text goes on, with further
digits or without. -/
theorem exists_tooLarge_append (run : Digits) {tail : List Char}
    (hrun : numeralLimit ≤ run.value) (htail : Stops Char.isDigit tail) (more : List Char) :
    ∃ (run' : Digits) (tail' : List Char), run.chars ++ tail ++ more = run'.chars ++ tail' ∧
      numeralLimit ≤ run'.value ∧ Stops Char.isDigit tail' := by
  by_cases hstops : Stops Char.isDigit (tail ++ more)
  · exact ⟨run, tail ++ more, List.append_assoc .., hrun, hstops⟩
  · have hnil : tail = [] := by
      cases tail with
      | nil => rfl
      | cons c cs => exact absurd (stops_cons.mpr (stops_cons.mp htail)) hstops
    subst hnil
    obtain ⟨digits, tail', hmore, htail'⟩ := exists_digits_append more hstops
    have hdigit : ∀ c ∈ run.chars ++ digits.chars, c.isDigit = true := by
      intro c hc
      rcases List.mem_append.mp hc with hc | hc
      · exact run.digit c hc
      · exact digits.digit c hc
    refine ⟨⟨run.chars ++ digits.chars, by simp [run.nonempty], hdigit⟩, tail', ?_, ?_, htail'⟩
    · simp [hmore]
    · rw [Digits.value, decimalValue, Nat.ofDigitChars_append]
      exact Nat.le_trans hrun (le_ofDigitChars _ _)

namespace Interruption

variable {cs : List Char} {e : ReadError}

/-- A settled fault stays the same when the text goes on. -/
theorem append (h : Interruption cs e) (hsettled : e.root.isSettled = true) (more : List Char) :
    Interruption (cs ++ more) e := by
  cases h with
  | blank gap => exact absurd hsettled (by simp [ReadError.root, Fault.isSettled])
  | noOperator gap left behind =>
    exact absurd hsettled (by simp [ReadError.root, Fault.isSettled])
  | noOperand o gap => exact absurd hsettled (by simp [ReadError.root, Fault.isSettled])
  | badOperator gap left behind c tail hblank hsymbol hends =>
    have hends' : left.EndsBefore (behind.chars ++ c :: tail ++ more) :=
      hends.append fun h => absurd h (by simp)
    simp only [List.append_assoc, List.cons_append] at hends' ⊢
    exact .badOperator gap left behind c (tail ++ more) hblank hsymbol hends'
  | noDigit lead gap stem tail hstops =>
    have htail : tail ≠ [] := by
      rintro rfl
      exact absurd hsettled (by simp [ReadError.root, Fault.isSettled])
    have hmore := Interruption.noDigit lead gap stem (tail ++ more) (hstops.append htail more)
    have hhead : (tail ++ more).head? = tail.head? := by
      obtain ⟨c, cs, rfl⟩ := List.exists_cons_of_ne_nil htail
      rfl
    rw [hhead] at hmore
    simpa only [List.append_assoc] using hmore
  | tooLarge lead gap minus run tail hrun htail =>
    obtain ⟨run', tail', happend, hrun', htail'⟩ :=
      exists_tooLarge_append run hrun htail more
    have hmore := Interruption.tooLarge lead gap minus run' tail' hrun' htail'
    rw [← happend] at hmore
    simpa only [List.append_assoc] using hmore

/-- Any other failure is mended by going on. -/
theorem exists_append (h : Interruption cs e) (hsettled : e.root.isSettled = false) :
    ∃ (more : List Char) (s : Split), s.chars = cs ++ more := by
  cases h with
  | blank gap => exact exists_split_blanks none gap
  | noOperator gap left behind => exact exists_split_literal gap left behind
  | noOperand o gap => exact exists_split_blanks (some o) gap
  | badOperator => exact absurd hsettled (by simp [ReadError.root, Fault.isSettled])
  | noDigit lead gap stem tail hstops =>
    have htail : tail = [] := by
      simpa [ReadError.root, Fault.isSettled] using hsettled
    rw [htail, List.append_nil]
    exact exists_split_stem lead gap stem
  | tooLarge => exact absurd hsettled (by simp [ReadError.root, Fault.isSettled])

/-- What stands in front of the reported position is the beginning of an expression. -/
theorem exists_front_append (h : Interruption cs e) {position : Nat}
    (hposition : e.root.position? = some position) :
    ∃ front back, cs = front ++ back ∧ utf8Length front = position ∧
      ∃ (more : List Char) (s : Split), s.chars = front ++ more := by
  cases h with
  | blank gap => exact absurd hposition (by simp [ReadError.root, Fault.position?])
  | noOperator gap left behind =>
    exact ⟨_, [], (List.append_nil _).symm, Option.some.inj hposition,
      exists_split_literal gap left behind⟩
  | badOperator gap left behind c tail =>
    exact ⟨_, c :: tail, by simp only [List.append_assoc], Option.some.inj hposition,
      exists_split_literal gap left behind⟩
  | noOperand o gap =>
    exact ⟨_, [], (List.append_nil _).symm, Option.some.inj hposition,
      exists_split_blanks (some o) gap⟩
  | noDigit lead gap stem tail =>
    exact ⟨_, tail, by simp only [List.append_assoc], Option.some.inj hposition,
      exists_split_stem lead gap stem⟩
  | tooLarge lead gap minus run tail =>
    exact ⟨_, run.chars ++ tail, by simp only [List.append_assoc], Option.some.inj hposition,
      exists_split_stem lead gap (.wholePart minus)⟩

end Interruption

namespace Split

/-- A split text that goes on keeps its pieces, unless the right literal goes on. -/
theorem exists_append (s : Split) (more : List Char)
    (hmore : s.tail = [] → s.right.EndsBefore more) :
    ∃ s' : Split, s'.chars = s.chars ++ more ∧ s'.left = s.left ∧ s'.operator = s.operator ∧
      s'.right = s.right :=
  ⟨⟨s.toOpening, s.gapBehindOperator, s.right, s.tail ++ more, s.ends.append hmore⟩,
    by simp only [chars, List.append_assoc], rfl, rfl, rfl⟩

theorem utf8ByteSize_eq (s : Split) {text : String} (htext : s.chars = text.toList) :
    text.utf8ByteSize = s.rightEnd + utf8Length s.tail := by
  rw [← utf8Length_toList, ← htext, chars, rightEnd]
  simp only [utf8Length_append, Nat.add_assoc]

end Split

namespace Expression

/-- A settled failure is the same whatever follows; every other failure, and only
such a one, is mended by some further text; the text in front of a reported position
begins an expression; and an expression is read the same whatever follows, unless
its right operand goes on. -/
theorem read_error_location (text : String) :
    (∀ e, read text = .error e → e.root.isSettled = true →
      ∀ more, read (text ++ more) = .error e) ∧
    (∀ e, read text = .error e →
      ((∃ more again, read (text ++ more) = .ok again) ↔ e.root.isSettled = false)) ∧
    (∀ e position, read text = .error e → e.root.position? = some position →
      ∃ front back : String, text = front ++ back ∧ front.utf8ByteSize = position ∧
        ∃ more again, read (front ++ more) = .ok again) ∧
    (∀ e, read text = .ok e →
      ∃ after, (scan text).run (.start text) = .ok e after ∧
        ∀ more : String, (after.position < text.utf8ByteSize ∨
            ∀ c ∈ more.toList.head?, c.isDigit = false ∧ c ≠ decimalMark) →
          ∃ again, read (text ++ more) = .ok again ∧ again.left = e.left ∧
            again.operator = e.operator ∧ again.right = e.right) := by
  have hsettled : ∀ e, read text = .error e → e.root.isSettled = true →
      ∀ more, read (text ++ more) = .error e := by
    intro e hread hsettled more
    rw [read_eq_error_iff, String.toList_append]
    exact (read_eq_error_iff.mp hread).append hsettled more.toList
  refine ⟨hsettled, ?_, ?_, ?_⟩
  · intro e hread
    constructor
    · rintro ⟨more, again, hagain⟩
      by_contra hnot
      rw [hsettled e hread (by simpa using hnot) more] at hagain
      simp at hagain
    · intro hopen
      obtain ⟨more, s, hs⟩ := (read_eq_error_iff.mp hread).exists_append hopen
      exact ⟨String.ofList more, s.expression, s.read_chars (by simp [hs])⟩
  · intro e position hread hposition
    obtain ⟨front, back, htext, hfront, more, s, hs⟩ :=
      (read_eq_error_iff.mp hread).exists_front_append hposition
    refine ⟨String.ofList front, String.ofList back, ?_, by simpa using hfront,
      String.ofList more, s.expression, s.read_chars (by simp [hs])⟩
    rw [← String.ofList_append, ← htext, String.ofList_toList]
  · intro e hread
    obtain ⟨s, hs, rfl⟩ := exists_split_of_read hread
    refine ⟨_, s.scan_chars hs, fun more hmore => ?_⟩
    have hsize := s.utf8ByteSize_eq hs
    obtain ⟨s', hs', hleft, hoperator, hright⟩ := s.exists_append more.toList (by
      intro htail
      rcases hmore with hlt | hhead
      · simp only [hsize, htail, utf8Length_nil] at hlt
        omega
      · exact ⟨fun c hc => (hhead c hc).1, fun _ hc => (hhead _ hc).2 rfl⟩)
    refine ⟨s'.expression, s'.read_chars (by simp [hs', hs]), ?_⟩
    simp only [Split.expression, hleft, hoperator, hright, and_self]

/-- An operator that is none stays the error; a sign without digits and a comma
without digits are mended; and a right operand that has ended is kept. -/
theorem read_error_location_cases :
    (∀ more, read ("12 x" ++ more) = .error (.fault (.invalidOperator 'x' 3))) ∧
    (∃ more again, read ("1 * -" ++ more) = .ok again) ∧
    (∃ front back : String, "1,é" = front ++ back ∧ front.utf8ByteSize = 2 ∧
      ∃ more again, read (front ++ more) = .ok again) ∧
    ∃ again, read ("1+2" ++ " 3") = .ok again ∧ again.right = Binary64.ofNat 2 := by
  refine ⟨(read_error_location "12 x").1 _ (by decide +kernel) rfl,
    ((read_error_location "1 * -").2.1 (.within .rightOperand (.within .integerPart
      (.fault (.missingDigits 5 none)))) (by decide +kernel)).mpr rfl,
    (read_error_location "1,é").2.2.1 (.within .leftOperand (.within .fractionPart
      (.fault (.missingDigits 2 (some 'é'))))) 2 (by decide +kernel) rfl, ?_⟩
  obtain ⟨after, -, hmore⟩ := (read_error_location "1+2").2.2.2
    ⟨"1+2", Binary64.ofNat 1, .add, Binary64.ofNat 2⟩ (by decide +kernel)
  have hhead : " 3".toList.head? = some ' ' := by decide +kernel
  obtain ⟨again, hread, -, -, hright⟩ := hmore " 3" (.inr (by
    rw [hhead]
    rintro c ⟨⟩
    decide))
  exact ⟨again, hread, by simpa only using hright⟩

end Expression

end CommaCalc
