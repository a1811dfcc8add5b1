import CommaCalc.Proofs.Calculation.Signs
import CommaCalc.Proofs.Expression.NormalForm

/-!
# Running calculations

A running calculation puts an operator and a literal behind the text of each result.  The
text of a result can be read again if the result is finite and below 2¹²⁸, and then the
operation is made on what its digits are reread as, which is not always the result itself.
The text of any other finite result, and the words for infinity and NaN, end the calculation,
and so does a division by zero.
-/

namespace CommaCalc

/-- The text of a double that fits is a literal. -/
theorem Literal.ofText?_decimalText {v : Binary64} (hbelow : v.Below numeralLimit) :
    ofText? v.decimalText = some v.reread := by
  obtain ⟨s, hchars, hvalue⟩ := Binary64.exists_spelling hbelow
  have htext : v.decimalText.toList = noBlanks.chars ++ s.chars := by
    rw [Binary64.decimalText, String.toList_ofList, hchars]
    rfl
  rw [ofText?_of_chars htext, hvalue]

/-- What a result is read as when its text stands in front of an operator. -/
def Binary64.fedBack (v : Binary64) : Except Failure Binary64 :=
  if v.Below numeralLimit then
    .ok v.reread
  else
    .error (.reading (.within .leftOperand (.within .integerPart (.fault (v.textFault 0)))))

/-- A result is fed back as itself exactly if it reads back. -/
theorem Binary64.fedBack_eq_self_iff {v : Binary64} : v.fedBack = .ok v ↔ v.ReadsBack := by
  rw [fedBack, ReadsBack]
  split
  · next hbelow => simp [hbelow]
  · next hbelow => simp [hbelow]

/-- An operator and the literal behind it. -/
structure Continuation where
  operator : Operator
  operand : String
  value : Binary64
  operand_value : Literal.ofText? operand = some value

namespace Continuation

variable (k : Continuation)

/-- What is put behind a result. -/
def text : String :=
  String.singleton k.operator.symbol ++ k.operand

/-- The operation with the literal on the right. -/
def apply (left : Binary64) : Except Failure Binary64 :=
  if k.operator = .divide ∧ k.value.isZero then
    .error (.evaluation (.divisionByZero left))
  else
    .ok (k.operator.apply left k.value)

/-- The outcomes of operations, the first on what stands on its left and each other one on
what the result before it is fed back as.  The first failure ends them. -/
def outcomes (left : Except Failure Binary64) : List Continuation → List (Except Failure Binary64)
  | [] => []
  | k :: later =>
    match left.bind k.apply with
    | .ok result => .ok result :: outcomes result.fedBack later
    | .error failure => [.error failure]

theorem toList_append_text (front : String) :
    (front ++ k.text).toList = front.toList ++ k.operator.symbol :: k.operand.toList := by
  simp [text]

/-- Behind a literal, the operation is made on its value. -/
theorem calculate_append {front : String} {x : Binary64}
    (hfront : Literal.ofText? front = some x) : calculate (front ++ k.text) = k.apply x := by
  have hread := Expression.read_between hfront k.operand_value (k.toList_append_text front)
  rw [apply]
  split
  · next hzero => exact calculate_of_dividesByZero hread hzero
  · next hzero => exact calculate_of_not_dividesByZero hread hzero

/-- Behind the text of a double that does not fit, that text is the error. -/
theorem calculate_append_error {v : Binary64} (hbelow : ¬ v.Below numeralLimit) :
    calculate (v.decimalText ++ k.text) = .error (.reading
      (.within .leftOperand (.within .integerPart (.fault (v.textFault 0))))) := by
  have htext : (v.decimalText ++ k.text).toList =
      v.decimalChars ++ k.operator.symbol :: k.operand.toList := by
    rw [k.toList_append_text, Binary64.decimalText, String.toList_ofList]
  have hsymbol : ∃ c ∈ (v.decimalText ++ k.text).toList, isBlank c = false :=
    ⟨k.operator.symbol, by simp [k.toList_append_text], k.operator.isBlank_symbol⟩
  have hread := Expression.read_decimalChars_error hbelow htext
    (stops_cons.mpr k.operator.isDigit_symbol) hsymbol
  rw [calculate, hread]

/-- One step: behind the text of a result, the operation is made on what it is fed back as. -/
theorem calculate_decimalText_append (v : Binary64) :
    calculate (v.decimalText ++ k.text) = v.fedBack.bind k.apply := by
  rw [Binary64.fedBack]
  split
  · next hbelow => exact k.calculate_append (Literal.ofText?_decimalText hbelow)
  · next hbelow => exact k.calculate_append_error hbelow

/-- A run does what its steps do, once the first step is known. -/
theorem runningCalculation_eq (steps : List Continuation) {start : String}
    {left : Except Failure Binary64}
    (hstart : ∀ k : Continuation, calculate (start ++ k.text) = left.bind k.apply) :
    runningCalculation start (steps.map text) = outcomes left steps := by
  induction steps generalizing start left with
  | nil => rfl
  | cons k later ih =>
    rw [List.map_cons, runningCalculation, outcomes, hstart k]
    cases left.bind k.apply with
    | error failure => rfl
    | ok result =>
      have hlater := ih fun k => k.calculate_decimalText_append result
      exact congrArg (.ok result :: ·) hlater

end Continuation

/-- A running calculation that starts with a literal makes its operations one after the other,
each on what the result before it is fed back as, up to the first failure. -/
theorem runningCalculation_eq_outcomes {start : String} {x : Binary64}
    (hstart : Literal.ofText? start = some x) (steps : List Continuation) :
    runningCalculation start (steps.map Continuation.text) = Continuation.outcomes (.ok x) steps :=
  Continuation.runningCalculation_eq steps fun k => k.calculate_append hstart

/-- The division by zero is the last outcome. -/
example : runningCalculation "-7" ["+1", "/ 0", "* 2"] =
    [.ok (Binary64.ofNat 6).neg,
      .error (.evaluation (.divisionByZero (Binary64.ofNat 6).neg))] := by
  decide +kernel

end CommaCalc
