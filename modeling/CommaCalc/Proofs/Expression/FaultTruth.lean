import CommaCalc.Proofs.Expression.Interruption
import CommaCalc.Proofs.Step.Failing

/-!
# What an error says is true of the text

A fault names a byte position and sometimes a character.  The position is a character
boundary, the character stands there and is none that could have been read, and where
no character is named the text ends.  A run that is called too large is a maximal run of
digits whose value reaches 2¹²⁸.
-/

namespace CommaCalc

/-- What a fault says of the text that it was found in. -/
def Fault.TrueOf (text : String) : Fault → Prop
  | emptyInput => ∀ c ∈ text.toList, isBlank c = true
  | missingDigits position (some c) =>
    ∃ before behind, SplitsAt text position before (c :: behind) ∧
      isBlank c = false ∧ c.isDigit = false
  | missingDigits position none => position = text.utf8ByteSize
  | missingOperand position => position = text.utf8ByteSize
  | missingOperator position => position = text.utf8ByteSize
  | invalidOperator c position =>
    0 < position ∧ ∃ before behind, SplitsAt text position before (c :: behind) ∧
      isBlank c = false ∧ ∀ operator : Operator, c ≠ operator.symbol
  | integerTooLarge position =>
    ∃ before run behind, SplitsAt text position before (Digits.chars run ++ behind) ∧
      (∀ d ∈ before.getLast?, d.isDigit = false) ∧ Stops Char.isDigit behind ∧
      numeralLimit ≤ run.value

/-- Whatever a fault says of a text, its position is a character boundary there. -/
theorem Fault.TrueOf.exists_splitsAt {text : String} {fault : Fault} (h : fault.TrueOf text)
    {position : Nat} (hposition : fault.position? = some position) :
    ∃ before behind, SplitsAt text position before behind := by
  have hend : position = text.utf8ByteSize →
      ∃ before behind, SplitsAt text position before behind :=
    fun hsize => ⟨text.toList, [], (List.append_nil _).symm, by rw [utf8Length_toList, hsize]⟩
  cases fault with
  | emptyInput => cases hposition
  | missingOperand => cases hposition; exact hend h
  | missingOperator => cases hposition; exact hend h
  | missingDigits position found =>
    cases hposition
    cases found with
    | none => exact hend h
    | some c =>
      obtain ⟨before, behind, hsplit, -⟩ := h
      exact ⟨_, _, hsplit⟩
  | invalidOperator =>
    cases hposition
    obtain ⟨-, before, behind, hsplit, -⟩ := h
    exact ⟨_, _, hsplit⟩
  | integerTooLarge =>
    cases hposition
    obtain ⟨before, run, behind, hsplit, -⟩ := h
    exact ⟨_, _, hsplit⟩

theorem Opening.getLast?_chars (o : Opening) : o.chars.getLast? = some o.operator.symbol := by
  rw [Opening.chars, ← List.append_assoc, ← List.append_assoc, List.getLast?_concat]

/-- Blanks do not put a digit at the end. -/
theorem Blanks.isDigit_getLast? (gap : Blanks) {cs : List Char}
    (hcs : ∀ d ∈ cs.getLast?, d.isDigit = false) :
    ∀ d ∈ (cs ++ gap.chars).getLast?, d.isDigit = false := by
  intro d hd
  rw [List.getLast?_append] at hd
  cases hgap : gap.chars.getLast? with
  | none =>
    rw [hgap] at hd
    exact hcs d hd
  | some c =>
    rw [hgap] at hd
    cases hd
    exact isDigit_eq_false_of_isBlank (gap.blank d (List.mem_of_getLast? hgap))

/-- In front of a whole part stand blanks, a sign, an operator or nothing. -/
theorem isDigit_getLast?_lead (lead : Option Opening) (gap : Blanks) (minus : Option Blanks) :
    ∀ d ∈ (leadChars lead ++ (gap.chars ++ minusChars minus)).getLast?, d.isDigit = false := by
  have hlead : ∀ d ∈ (leadChars lead).getLast?, d.isDigit = false := by
    cases lead with
    | none => simp [leadChars]
    | some o =>
      intro d hd
      rw [leadChars, o.getLast?_chars] at hd
      cases hd
      exact o.operator.isDigit_symbol
  rw [← List.append_assoc]
  cases minus with
  | none =>
    rw [minusChars, List.append_nil]
    exact gap.isDigit_getLast? hlead
  | some inner =>
    rw [minusChars, ← List.singleton_append, ← List.append_assoc]
    refine inner.isDigit_getLast? ?_
    intro d hd
    rw [List.getLast?_concat] at hd
    cases hd
    decide

/-- The fault of an interruption is true of the text. -/
theorem Interruption.trueOf {cs : List Char} {e : ReadError} (h : Interruption cs e)
    {text : String} (htext : text.toList = cs) : e.root.TrueOf text := by
  cases h with
  | blank gap =>
    rw [ReadError.root, Fault.TrueOf, htext]
    exact gap.blank
  | noOperator gap left behind =>
    rw [ReadError.root, Fault.TrueOf, ← utf8Length_toList, htext]
  | badOperator gap left behind c tail hblank hsymbol =>
    refine ⟨?_, gap.chars ++ (left.chars ++ behind.chars), tail, ⟨?_, rfl⟩, hblank, ?_⟩
    · obtain ⟨d, hd, -⟩ := left.exists_not_blank
      have hne : gap.chars ++ (left.chars ++ behind.chars) ≠ [] :=
        List.ne_nil_of_mem (List.mem_append_right _ (List.mem_append_left _ hd))
      exact Nat.pos_of_ne_zero (mt utf8Length_eq_zero.mp hne)
    · simp only [htext, List.append_assoc]
    · rintro operator rfl
      simp at hsymbol
  | noOperand o gap =>
    rw [ReadError.root, ReadError.root, Fault.TrueOf, ← utf8Length_toList, htext]
  | noDigit lead gap stem tail hstops =>
    obtain ⟨hblank, hdigit, -⟩ := hstops
    cases tail with
    | nil =>
      rw [List.append_nil] at htext
      rw [ReadError.root, ReadError.root, ReadError.root, List.head?_nil, Fault.TrueOf,
        ← utf8Length_toList, htext]
    | cons c tail =>
      refine ⟨leadChars lead ++ (gap.chars ++ stem.chars), tail, ⟨?_, rfl⟩,
        stops_cons.mp hblank, stops_cons.mp hdigit⟩
      simp only [htext, List.append_assoc]
  | tooLarge lead gap minus run tail hrun htail =>
    refine ⟨leadChars lead ++ (gap.chars ++ minusChars minus), run, tail, ⟨?_, rfl⟩,
      isDigit_getLast?_lead lead gap minus, htail, hrun⟩
    simp only [htext, List.append_assoc]

namespace Expression

/-- The fault that reading reports is true of the text, and its position is a character
boundary of it.  A step that fails, on any cursor over any text, leaves the cursor on a
character boundary where the fault says: at the position of what is missing, directly
behind an invalid operator, and on the first digit with which a run reaches 2¹²⁸. -/
theorem read_fault_trueOf :
    (∀ text e, read text = .error e → e.root.TrueOf text ∧
      ∀ position, e.root.position? = some position →
        (String.Pos.Raw.mk position).IsValid text ∧ position ≤ text.utf8ByteSize) ∧
    ∀ (cursor : Cursor), cursor.Valid → ∀ (step : Step) (e : ReadError) (after : Cursor),
      step.take cursor = (.error e, after) →
        after.text = cursor.text ∧ after.Valid ∧ e.root.LeavesAt after := by
  constructor
  · intro text e hread
    have htrue := (read_eq_error_iff.mp hread).trueOf rfl
    refine ⟨htrue, fun position hposition => ?_⟩
    obtain ⟨before, behind, hsplit⟩ := htrue.exists_splitsAt hposition
    exact ⟨hsplit.isValid, hsplit.le_size⟩
  · intro cursor hvalid step e after htake
    have hfails := Step.take_failsAt hvalid htake
    exact ⟨hfails.text_eq, hfails.valid, hfails.leavesAt⟩

/-- An operator of two bytes is read over, and of the least run that is too large all but
the last digit. -/
theorem read_fault_trueOf_cases :
    (Fault.invalidOperator '×' 2).TrueOf "5 × 2" ∧ (String.Pos.Raw.mk 2).IsValid "5 × 2" ∧
    (Fault.invalidOperator '×' 2).LeavesAt ⟨"5 × 2", 4, [' ', '2']⟩ ∧
    (Fault.integerTooLarge 0).LeavesAt
      ⟨"340282366920938463463374607431768211456", 38, ['6']⟩ := by
  obtain ⟨htrue, hleaves⟩ := read_fault_trueOf
  have hread : read "5 × 2" = .error (.fault (.invalidOperator '×' 2)) := by decide +kernel
  have hoperator : Step.operator.take ((Cursor.start "5 × 2").advance 1) =
      (.error (.fault (.invalidOperator '×' 2)), ⟨"5 × 2", 4, [' ', '2']⟩) := by rfl
  have hwhole : Step.wholePart.take
      (.start "340282366920938463463374607431768211456") =
      (.error (.fault (.integerTooLarge 0)),
        ⟨"340282366920938463463374607431768211456", 38, ['6']⟩) := by rfl
  exact ⟨(htrue _ _ hread).1, ((htrue _ _ hread).2 2 rfl).1,
    (hleaves _ ((Cursor.valid_start _).advance 1) _ _ _ hoperator).2.2,
    (hleaves _ (Cursor.valid_start _) _ _ _ hwhole).2.2⟩

end Expression

end CommaCalc
