import CommaCalc.Proofs.Expression.Interruption

/-!
# The chains of causes that are reported

A `ReadError` can nest places in any order, but reading an expression nests them in
one way only: an operand around a part of its literal around a fault, or fewer.  A
left operand is never missing, because a text of blanks only is empty.  The outermost
place also tells how far reading got: the left operand was read exactly when the error
is neither that of an empty text nor one of the left operand.
-/

namespace CommaCalc

namespace Place

/-- The place of a whole literal. -/
def IsOperand : Place → Prop
  | leftOperand | rightOperand => True
  | integerPart | fractionPart => False

/-- The place of a run of digits in a literal. -/
def IsPart : Place → Prop
  | integerPart | fractionPart => True
  | leftOperand | rightOperand => False

end Place

namespace ReadError

/-- The chains that reading an expression reports. -/
inductive Reported : ReadError → Prop where
  | emptyInput : Reported (.fault .emptyInput)
  | missingOperator (position : Nat) : Reported (.fault (.missingOperator position))
  | invalidOperator (found : Char) (position : Nat) :
      Reported (.fault (.invalidOperator found position))
  | missingOperand (position : Nat) :
      Reported (.within .rightOperand (.fault (.missingOperand position)))
  | missingDigits {operand part : Place} (hoperand : operand.IsOperand) (hpart : part.IsPart)
      (position : Nat) (found : Option Char) :
      Reported (.within operand (.within part (.fault (.missingDigits position found))))
  | integerTooLarge {operand : Place} (hoperand : operand.IsOperand) (position : Nat) :
      Reported (.within operand (.within .integerPart (.fault (.integerTooLarge position))))

/-- The errors of the operator and of the right operand, which are met only behind a
left operand. -/
def IsBehindLeft : ReadError → Prop
  | fault (.missingOperator _) | fault (.invalidOperator _ _) | within .rightOperand _ => True
  | _ => False

namespace Reported

variable {e cause inner : ReadError}

/-- An empty input is no cause of anything. -/
theorem root_ne_emptyInput {place : Place} (h : Reported (.within place cause)) :
    cause.root ≠ .emptyInput := by
  cases h <;> simp [root]

/-- An operand that is missing is the right one. -/
theorem root_ne_missingOperand (h : Reported (.within .leftOperand cause)) (position : Nat) :
    cause.root ≠ .missingOperand position := by
  cases h <;> simp [root]

/-- No fraction has too many digits. -/
theorem root_ne_integerTooLarge (h : Reported e)
    (hinner : .within .fractionPart inner ∈ e :: e.causes) (position : Nat) :
    inner.root ≠ .integerTooLarge position := by
  cases h with
  | missingDigits hoperand hpart =>
    obtain ⟨rfl, -⟩ | ⟨-, rfl⟩ :
        (_ ∧ _) ∨ (_ ∧ inner = .fault _) := by simpa [causes] using hinner
    · exact hoperand.elim
    · simp [root]
  | integerTooLarge hoperand =>
    obtain ⟨rfl, -⟩ : _ ∧ inner = .within .integerPart _ := by simpa [causes] using hinner
    exact hoperand.elim
  | _ => simp [causes] at hinner

end Reported

end ReadError

theorem isOperand_leadPlace (lead : Option Opening) : (leadPlace lead).IsOperand := by
  cases lead <;> exact trivial

theorem Stem.isPart_place (stem : Stem) : stem.place.IsPart := by
  cases stem <;> exact trivial

namespace Literal

/-- A literal at the start of a text is read as far as it ends. -/
theorem number_start {text : String} (gap : Blanks) (s : Spelling) {tail : List Char}
    (hends : s.EndsBefore tail) (htext : text.toList = gap.chars ++ (s.chars ++ tail)) :
    ∃ after, number.run (.start text) = .ok s.value after := by
  have hvalid := Cursor.valid_start text
  rw [Cursor.start, htext] at hvalid ⊢
  exact ⟨_, number_literal text 0 gap s hends hvalid⟩

/-- Behind an opening, the literal at the start of the text has been read. -/
theorem number_start_opening {text : String} (o : Opening) {rest : List Char}
    (htext : text.toList = o.chars ++ rest) :
    ∃ after, number.run (.start text) = .ok o.left.value after := by
  rw [o.chars_append] at htext
  exact number_start o.gap o.left (o.left.endsBefore_symbol o.gapBeforeOperator o.operator) htext

end Literal

namespace Interruption

variable {cs : List Char} {e : ReadError}

theorem reported (h : Interruption cs e) : e.Reported := by
  cases h with
  | blank => exact .emptyInput
  | noOperator => exact .missingOperator _
  | badOperator gap left behind c => exact .invalidOperator c _
  | noOperand => exact .missingOperand _
  | noDigit lead gap stem tail =>
    exact .missingDigits (isOperand_leadPlace lead) stem.isPart_place _ _
  | tooLarge lead => exact .integerTooLarge (isOperand_leadPlace lead) _

/-- An empty input is reported for blanks only. -/
theorem blank_of_emptyInput (h : Interruption cs (.fault .emptyInput)) :
    ∀ c ∈ cs, isBlank c = true := by
  cases h with
  | blank gap => exact gap.blank

/-- The error is that of the operator or of the right operand exactly when the text
begins with a literal. -/
theorem isBehindLeft_iff (h : Interruption cs e) {text : String} (htext : text.toList = cs) :
    e.IsBehindLeft ↔ ∃ value after, Literal.number.run (.start text) = .ok value after := by
  have hvalid := Cursor.valid_start text
  cases h with
  | blank gap =>
    rw [Cursor.start, htext] at hvalid ⊢
    simp [ReadError.IsBehindLeft, Literal.number_nothing text 0 gap hvalid]
  | noOperator gap left behind =>
    exact iff_of_true trivial
      ⟨_, Literal.number_start gap left (left.endsBefore_blanks behind) htext⟩
  | badOperator gap left behind c tail hblank hsymbol hends =>
    exact iff_of_true trivial ⟨_, Literal.number_start gap left hends htext⟩
  | noOperand o gap => exact iff_of_true trivial ⟨_, Literal.number_start_opening o htext⟩
  | noDigit lead gap stem tail hstops =>
    cases lead with
    | some o => exact iff_of_true trivial ⟨_, Literal.number_start_opening o htext⟩
    | none =>
      simp only [leadChars, List.nil_append] at htext
      rw [Cursor.start, htext] at hvalid ⊢
      simp [ReadError.IsBehindLeft, leadPlace, Literal.number_noDigit text 0 gap stem hstops hvalid]
  | tooLarge lead gap minus run tail hrun htail =>
    cases lead with
    | some o => exact iff_of_true trivial ⟨_, Literal.number_start_opening o htext⟩
    | none =>
      simp only [leadChars, List.nil_append] at htext
      rw [Cursor.start, htext] at hvalid ⊢
      obtain ⟨front, d, back, -, -, -, hnumber⟩ :=
        Literal.number_tooLarge text 0 gap minus run hrun htail hvalid
      simp [ReadError.IsBehindLeft, leadPlace, hnumber]

end Interruption

namespace Expression

/-- Reading reports one of the known chains, an empty input exactly for a text of
blanks.  An empty input is never a cause, a missing operand never the left one and a
run that is too large never a fraction; and the error is that of the operator or of the
right operand exactly when the text begins with a literal. -/
theorem read_error_chain (text : String) :
    (∀ e, read text = .error e → e.Reported) ∧
    (read text = .error (.fault .emptyInput) ↔ ∀ c ∈ text.toList, isBlank c = true) ∧
    (∀ place cause, read text = .error (.within place cause) → cause.root ≠ .emptyInput) ∧
    (∀ cause position, read text = .error (.within .leftOperand cause) →
      cause.root ≠ .missingOperand position) ∧
    (∀ e inner position, read text = .error e → .within .fractionPart inner ∈ e :: e.causes →
      inner.root ≠ .integerTooLarge position) ∧
    ∀ e, read text = .error e →
      (e.IsBehindLeft ↔ ∃ value after, Literal.number.run (.start text) = .ok value after) := by
  have hreported : ∀ e, read text = .error e → e.Reported :=
    fun e hread => (read_eq_error_iff.mp hread).reported
  refine ⟨hreported, ⟨?_, ?_⟩, ?_, ?_, ?_, ?_⟩
  · intro hread
    exact (read_eq_error_iff.mp hread).blank_of_emptyInput
  · intro hblank
    exact (Interruption.blank ⟨text.toList, hblank⟩).read rfl
  · intro place cause hread
    exact (hreported _ hread).root_ne_emptyInput
  · intro cause position hread
    exact (hreported _ hread).root_ne_missingOperand position
  · intro e inner position hread hinner
    exact (hreported e hread).root_ne_integerTooLarge hinner position
  · intro e hread
    exact (read_eq_error_iff.mp hread).isBehindLeft_iff rfl

/-- A comma without digits on the right leaves a left operand that was read, and a word
on the left leaves none. -/
theorem read_error_chain_sides :
    (ReadError.within .rightOperand
      (.within .fractionPart (.fault (.missingDigits 6 none)))).Reported ∧
    (ReadError.within .fractionPart (.fault (.missingDigits 6 none))).root ≠ .emptyInput ∧
    (ReadError.fault (.missingDigits 6 none)).root ≠ .integerTooLarge 6 ∧
    (∃ value after, Literal.number.run (.start "1 + 2,") = .ok value after) ∧
    (ReadError.within .integerPart (.fault (.missingDigits 0 (some 'x')))).root ≠
      .missingOperand 0 ∧
    ¬ ∃ value after, Literal.number.run (.start "x + 2") = .ok value after := by
  obtain ⟨hreported, -, hempty, -, hlarge, hbehind⟩ := read_error_chain "1 + 2,"
  obtain ⟨-, -, -, hmissing, -, hfront⟩ := read_error_chain "x + 2"
  have hright : read "1 + 2," = .error (.within .rightOperand (.within .fractionPart
      (.fault (.missingDigits 6 none)))) := by decide +kernel
  have hleft : read "x + 2" = .error (.within .leftOperand (.within .integerPart
      (.fault (.missingDigits 0 (some 'x'))))) := by decide +kernel
  exact ⟨hreported _ hright, hempty _ _ hright, hlarge _ _ 6 hright (by simp [ReadError.causes]),
    (hbehind _ hright).mp trivial, hmissing _ 0 hleft, fun h => (hfront _ hleft).mpr h⟩

end Expression

end CommaCalc
