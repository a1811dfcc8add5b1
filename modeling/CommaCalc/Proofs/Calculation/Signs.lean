import CommaCalc.Proofs.Binary64.Sign
import CommaCalc.Proofs.Calculation.Range

/-!
# The minus sign and the minus operator

One character is both an operator and the sign of a literal, and nothing has to stand
between the two.  So a minus in front of an unsigned literal can be read in either role,
and the calculation comes to the same: subtracting a literal is adding its negative, the
operands of a sum or a product can be exchanged, and a sign on the left of a product or a
quotient moves to the result, or to the dividend of a division by zero.
-/

namespace CommaCalc

namespace Literal

/-- The value of a text that is one literal up to its end, with or without a sign. -/
def ofText? (text : String) : Option Binary64 :=
  match number.run (.start text) with
  | .ok value after => if after.isAtEnd then some value else none
  | .error _ _ => none

/-- The text is one literal up to its end, and has no sign. -/
def IsUnsigned (text : String) : Prop :=
  (ofText? text).isSome ∧ '-' ∉ text.toList

instance (text : String) : Decidable (IsUnsigned text) :=
  inferInstanceAs (Decidable (_ ∧ _))

variable {text : String} {value : Binary64}

theorem ofText?_of_chars {gap : Blanks} {s : Spelling}
    (htext : text.toList = gap.chars ++ s.chars) :
    ofText? text = some s.value := by
  have hvalid := Cursor.valid_start text
  rw [Cursor.start, htext, ← List.append_nil s.chars] at hvalid
  have hend := hvalid.read.read.isAtEnd_eq
  rw [ofText?, Cursor.start, htext, ← List.append_nil s.chars,
    number_literal text 0 gap s s.endsBefore_nil hvalid]
  simp only [hend, List.isEmpty_nil, if_true]

/-- A text that is one literal is blanks and the spelling of its value. -/
theorem exists_spelling_of_ofText? (hvalue : ofText? text = some value) :
    ∃ (gap : Blanks) (s : Spelling), text.toList = gap.chars ++ s.chars ∧ value = s.value := by
  rw [ofText?] at hvalue
  cases hrun : number.run (.start text) with
  | error error after =>
    rw [hrun] at hvalue
    exact absurd hvalue (by simp)
  | ok found after =>
    obtain ⟨gap, s, tail, -, htext, rfl, rfl⟩ :=
      exists_of_number text 0 (Cursor.valid_start text) hrun
    have hvalid := Cursor.valid_start text
    rw [Cursor.start, htext] at hvalid
    have hend := hvalid.read.read.isAtEnd_eq
    simp only [hrun, hend, List.isEmpty_iff, Option.ite_none_right_eq_some,
      Option.some.injEq] at hvalue
    obtain ⟨rfl, rfl⟩ := hvalue
    exact ⟨gap, s, by rw [htext, List.append_nil], rfl⟩

/-- A minus in front of an unsigned literal is its sign, and negates the value. -/
theorem ofText?_minus (hvalue : ofText? text = some value) (hunsigned : '-' ∉ text.toList) :
    ofText? ("-" ++ text) = some value.neg := by
  obtain ⟨gap, s, htext, rfl⟩ := exists_spelling_of_ofText? hvalue
  have hminus : s.minus = none := by
    cases hminus : s.minus with
    | none => rfl
    | some inner =>
      refine absurd ?_ hunsigned
      simp [htext, Spelling.chars, hminus, minusChars]
  have hsigned : ("-" ++ text).toList =
      noBlanks.chars ++ Spelling.chars { s with minus := some gap } := by
    simp [htext, Spelling.chars, hminus, minusChars, noBlanks]
  rw [ofText?_of_chars hsigned, Spelling.value, Spelling.value, hminus, signFactor_some,
    signFactor_none, Binary64.neg_one_mul, Binary64.one_mul]
  rfl

end Literal

variable {a b l r text text' : String} {x y : Binary64} {operator : Operator}

/-- Two literals with an operator between them are read as written. -/
theorem Expression.read_between (ha : Literal.ofText? a = some x) (hb : Literal.ofText? b = some y)
    (htext : text.toList = a.toList ++ operator.symbol :: b.toList) :
    read text = .ok ⟨text, x, operator, y⟩ := by
  obtain ⟨gap, left, hleft, rfl⟩ := Literal.exists_spelling_of_ofText? ha
  obtain ⟨behind, right, hright, rfl⟩ := Literal.exists_spelling_of_ofText? hb
  let split : Split :=
    { gap, left, gapBeforeOperator := noBlanks, operator, gapBehindOperator := behind, right,
      tail := [], ends := right.endsBefore_nil }
  have hsplit : split.chars = text.toList := by
    rw [Split.chars, Opening.chars_append, htext, hleft, hright]
    simp [split, noBlanks]
  rw [split.read_chars hsplit, Split.expression, hsplit, String.ofList_toList]

/-- Two texts have one result, which is a number or infinite. -/
def SameResult (text text' : String) : Prop :=
  ∃ result, result ≠ .nan ∧ calculate text = .ok result ∧ calculate text' = .ok result

/-- The results of two texts differ in their sign alone, or both texts divide by zero and the
dividends do. -/
def OppositeOutcome (text text' : String) : Prop :=
  (∃ result, result ≠ .nan ∧ calculate text = .ok result ∧ calculate text' = .ok result.neg) ∨
    ∃ dividend, dividend ≠ .nan ∧
      calculate text = .error (.evaluation (.divisionByZero dividend)) ∧
      calculate text' = .error (.evaluation (.divisionByZero dividend.neg))

namespace Expression

variable {e e' : Expression}

/-- No operation on the operands of an expression that was read comes to NaN. -/
theorem apply_ne_nan (hread : read text = .ok e) (hzero : ¬ e.DividesByZero) :
    e.operator.apply e.left e.right ≠ .nan := by
  obtain ⟨hleft, hright⟩ := atMost_of_read hread
  by_cases hdivide : e.operator = .divide
  · exact (quotient_range hleft hright hdivide hzero).1
  · intro hnan
    have hle := atMost_apply hleft hright hdivide
    rw [hnan] at hle
    exact hle

theorem left_ne_nan (hread : read text = .ok e) : e.left ≠ .nan := by
  intro hnan
  have hle := (atMost_of_read hread).1
  rw [hnan] at hle
  exact hle

end Expression

variable {a' b' : String} {x' y' : Binary64}

/-- Expressions other than quotients have one result if their operations do. -/
theorem sameResult_between (operator operator' : Operator)
    (ha : Literal.ofText? a = some x) (hb : Literal.ofText? b = some y)
    (ha' : Literal.ofText? a' = some x') (hb' : Literal.ofText? b' = some y')
    (htext : text.toList = a.toList ++ operator.symbol :: b.toList)
    (htext' : text'.toList = a'.toList ++ operator'.symbol :: b'.toList)
    (hdivide : operator ≠ .divide) (hdivide' : operator' ≠ .divide)
    (happly : operator.apply x y = operator'.apply x' y') : SameResult text text' := by
  have hread := Expression.read_between ha hb htext
  have hread' := Expression.read_between ha' hb' htext'
  have hzero : ¬ Expression.DividesByZero ⟨text, x, operator, y⟩ := fun h => hdivide h.1
  have hzero' : ¬ Expression.DividesByZero ⟨text', x', operator', y'⟩ := fun h => hdivide' h.1
  refine ⟨operator.apply x y, Expression.apply_ne_nan hread hzero,
    calculate_of_not_dividesByZero hread hzero, ?_⟩
  rw [happly]
  exact calculate_of_not_dividesByZero hread' hzero'

/-- A sign in front of the left literal negates the outcome if it negates the operation. -/
theorem oppositeOutcome_between (operator : Operator)
    (hl : Literal.IsUnsigned l) (hr : Literal.ofText? r = some y)
    (htext : text.toList = l.toList ++ operator.symbol :: r.toList)
    (htext' : text'.toList = '-' :: text.toList)
    (happly : ∀ x : Binary64, operator.apply x.neg y = (operator.apply x y).neg) :
    OppositeOutcome text text' := by
  obtain ⟨x, hx⟩ := Option.isSome_iff_exists.mp hl.1
  have hread := Expression.read_between hx hr htext
  have hread' : Expression.read text' = .ok ⟨text', x.neg, operator, y⟩ :=
    Expression.read_between (Literal.ofText?_minus hx hl.2) hr (by simp [htext', htext])
  by_cases hzero : operator = .divide ∧ y.isZero = true
  · right
    exact ⟨x, Expression.left_ne_nan hread, calculate_of_dividesByZero hread hzero,
      calculate_of_dividesByZero hread' hzero⟩
  · left
    refine ⟨operator.apply x y, Expression.apply_ne_nan hread hzero,
      calculate_of_not_dividesByZero hread hzero, ?_⟩
    rw [← happly]
    exact calculate_of_not_dividesByZero hread' hzero

/-- Let `a` and `b` be literals with or without a sign, and `l` and `r` literals without one.
A minus operator in front of `r` is a plus operator in front of its negative, and two minuses
are a plus.  The operands of sums and of products can be exchanged.  A sign in front of `l`
changes the sign of a product and of a quotient, or of the dividend if `r` is a zero. -/
theorem calculate_signs {a b l r : String} (ha : (Literal.ofText? a).isSome)
    (hb : (Literal.ofText? b).isSome) (hl : Literal.IsUnsigned l) (hr : Literal.IsUnsigned r) :
    SameResult (a ++ "-" ++ r) (a ++ "+-" ++ r) ∧
      SameResult (a ++ "--" ++ r) (a ++ "+" ++ r) ∧
      SameResult (a ++ "+" ++ b) (b ++ "+" ++ a) ∧
      SameResult (a ++ "*" ++ b) (b ++ "*" ++ a) ∧
      OppositeOutcome (l ++ "*" ++ r) ("-" ++ l ++ "*" ++ r) ∧
      OppositeOutcome (l ++ "/" ++ r) ("-" ++ l ++ "/" ++ r) := by
  obtain ⟨x, hx⟩ := Option.isSome_iff_exists.mp ha
  obtain ⟨y, hy⟩ := Option.isSome_iff_exists.mp hb
  obtain ⟨z, hz⟩ := Option.isSome_iff_exists.mp hr.1
  have hnegative := Literal.ofText?_minus hz hr.2
  refine ⟨?_, ?_, ?_, ?_, ?_, ?_⟩
  · apply sameResult_between .subtract .add hx hz hx hnegative
      (by simp [Operator.symbol]) (by simp [Operator.symbol]) (by decide) (by decide)
    rfl
  · apply sameResult_between .subtract .add hx hnegative hx hz
      (by simp [Operator.symbol]) (by simp [Operator.symbol]) (by decide) (by decide)
    exact Binary64.sub_neg x z
  · apply sameResult_between .add .add hx hy hy hx
      (by simp [Operator.symbol]) (by simp [Operator.symbol]) (by decide) (by decide)
    exact Binary64.add_comm x y
  · apply sameResult_between .multiply .multiply hx hy hy hx
      (by simp [Operator.symbol]) (by simp [Operator.symbol]) (by decide) (by decide)
    exact Binary64.mul_comm x y
  · apply oppositeOutcome_between .multiply hl hz (by simp [Operator.symbol]) (by simp)
    exact fun v => Binary64.neg_mul v z
  · apply oppositeOutcome_between .divide hl hz (by simp [Operator.symbol]) (by simp)
    exact fun v => Binary64.neg_div v z

/-- Signed zeros are told apart, and the divisor is a zero. -/
theorem calculate_signs_zeros :
    ((Literal.ofText? "-2,5").isSome ∧ (Literal.ofText? "- 0").isSome ∧
      Literal.IsUnsigned "0,1" ∧ Literal.IsUnsigned " 0,00") ∧
      SameResult "-2,5- 0,00" "-2,5+- 0,00" ∧ SameResult "-2,5-- 0,00" "-2,5+ 0,00" ∧
      SameResult "-2,5+- 0" "- 0+-2,5" ∧ SameResult "-2,5*- 0" "- 0*-2,5" ∧
      OppositeOutcome "0,1* 0,00" "-0,1* 0,00" ∧ OppositeOutcome "0,1/ 0,00" "-0,1/ 0,00" := by
  have ha : (Literal.ofText? "-2,5").isSome := by decide +kernel
  have hb : (Literal.ofText? "- 0").isSome := by decide +kernel
  have hl : Literal.IsUnsigned "0,1" := by decide +kernel
  have hr : Literal.IsUnsigned " 0,00" := by decide +kernel
  exact ⟨⟨ha, hb, hl, hr⟩, by simpa using calculate_signs ha hb hl hr⟩

end CommaCalc
