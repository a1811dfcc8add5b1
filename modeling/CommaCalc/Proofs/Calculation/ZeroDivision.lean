import CommaCalc.Calculation
import CommaCalc.Proofs.Expression.Interruption
import CommaCalc.Proofs.Literal.Magnitude

/-!
# When a calculation divides by zero

Once its expression is read, a calculation has one way to fail: the operator is a
division and the divisor is a zero.  Whether it is a zero is seen from how it is spelled,
since a literal is a zero only if its whole part is and its fraction is, has only zeros, or
is lost.
-/

namespace CommaCalc

variable {text : String} {e : Expression}

namespace Expression

/-- A division with a divisor that is a zero of either sign. -/
def DividesByZero (e : Expression) : Prop :=
  e.operator = .divide ∧ e.right.isZero = true

theorem evaluate_of_dividesByZero (hzero : e.DividesByZero) :
    e.evaluate = .error (.divisionByZero e.left) :=
  if_pos hzero

theorem evaluate_of_not_dividesByZero (hzero : ¬ e.DividesByZero) :
    e.evaluate = .ok (e.operator.apply e.left e.right) :=
  if_neg hzero

end Expression

theorem calculate_of_dividesByZero (hread : Expression.read text = .ok e)
    (hzero : e.DividesByZero) :
    calculate text = .error (.evaluation (.divisionByZero e.left)) := by
  rw [calculate, hread]
  dsimp only
  rw [Expression.evaluate_of_dividesByZero hzero]

theorem calculate_of_not_dividesByZero (hread : Expression.read text = .ok e)
    (hzero : ¬ e.DividesByZero) : calculate text = .ok (e.operator.apply e.left e.right) := by
  rw [calculate, hread]
  dsimp only
  rw [Expression.evaluate_of_not_dividesByZero hzero]

/-- A result is that of the operation, and not of a division by zero. -/
theorem exists_read_of_calculate {r : Binary64} (hcalculate : calculate text = .ok r) :
    ∃ e, Expression.read text = .ok e ∧ ¬ e.DividesByZero ∧
      r = e.operator.apply e.left e.right := by
  cases hread : Expression.read text with
  | error error =>
    rw [calculate, hread] at hcalculate
    exact absurd hcalculate (by simp)
  | ok e =>
    refine ⟨e, rfl, ?_⟩
    by_cases hzero : e.DividesByZero
    · rw [calculate_of_dividesByZero hread hzero] at hcalculate
      exact absurd hcalculate (by simp)
    · rw [calculate_of_not_dividesByZero hread hzero] at hcalculate
      exact ⟨hzero, (Except.ok.inj hcalculate).symm⟩

/-- A calculation that fails while its text is read fails with the error of reading. -/
theorem read_eq_error_of_calculate {error : ReadError}
    (hcalculate : calculate text = .error (.reading error)) :
    Expression.read text = .error error := by
  cases hread : Expression.read text with
  | error error' =>
    rw [calculate, hread] at hcalculate
    cases hcalculate
    rfl
  | ok e =>
    by_cases hzero : e.DividesByZero
    · rw [calculate_of_dividesByZero hread hzero] at hcalculate
      exact absurd hcalculate (by simp)
    · rw [calculate_of_not_dividesByZero hread hzero] at hcalculate
      exact absurd hcalculate (by simp)

theorem Binary64.isZero_finite {negative : Bool} {m : Magnitude} :
    isZero (.finite negative m) = true ↔ m.units = 0 := by
  rw [isZero, zero, numEq, Bool.and_eq_true, Bool.or_eq_true, beq_iff_eq, beq_iff_eq]
  exact and_iff_left_of_imp .inr

theorem Spelling.isZero_value_iff (s : Spelling) : s.value.isZero = true ↔ s.ReadsZero := by
  obtain ⟨m, hm, -, hzero⟩ := s.exists_value
  rw [hm, Binary64.isZero_finite, hzero]

theorem Split.read_ofList_chars (s : Split) :
    Expression.read (String.ofList s.chars) = .ok s.expression :=
  s.read_chars String.toList_ofList.symm

/-- A text that is read fails in the evaluation exactly if it is a division whose divisor
has the whole part 0 and no fraction, a fraction of zeros, or one of which at least 309
digits are kept; the failure tells the left operand.  Every other text that is read has a
result. -/
theorem calculate_eq_divisionByZero_iff (hread : Expression.read text = .ok e) :
    ∃ s : Split, s.chars = text.toList ∧ (∀ s' : Split, s'.chars = text.toList → s' = s) ∧
      (∀ dividend, calculate text = .error (.evaluation (.divisionByZero dividend)) ↔
        (s.operator = .divide ∧ s.right.ReadsZero) ∧ dividend = e.left) ∧
      ((∃ r, calculate text = .ok r) ↔ ¬ (s.operator = .divide ∧ s.right.ReadsZero)) := by
  obtain ⟨s, hs, rfl⟩ := Expression.exists_split_of_read hread
  refine ⟨s, hs, fun s' hs' => Split.chars_injective (hs'.trans hs.symm), ?_⟩
  rw [← s.right.isZero_value_iff]
  by_cases hzero : s.expression.DividesByZero
  · rw [calculate_of_dividesByZero hread hzero]
    refine ⟨fun dividend => ⟨?_, ?_⟩, iff_of_false (by simp) (not_not_intro hzero)⟩
    · intro heq
      cases heq
      exact ⟨hzero, rfl⟩
    · rintro ⟨-, rfl⟩
      rfl
  · rw [calculate_of_not_dividesByZero hread hzero]
    exact ⟨fun dividend => iff_of_false (by simp) fun h => hzero h.1,
      iff_of_true ⟨_, rfl⟩ hzero⟩

/-- A number of zeros and one more digit. -/
def Digits.zerosThen (zeros : Nat) (last : Char) (hlast : last.isDigit = true) : Digits where
  chars := List.replicate zeros '0' ++ [last]
  nonempty := by simp
  digit := by
    intro c hc
    rw [List.mem_append, List.mem_replicate, List.mem_singleton] at hc
    obtain ⟨-, rfl⟩ | rfl := hc
    · decide
    · exact hlast

/-- A literal divided by a fraction of zeros and a one. -/
def Spelling.overFraction (left : Spelling) (zeros : Nat) : Split where
  gap := noBlanks
  left := left
  gapBeforeOperator := noBlanks
  operator := .divide
  gapBehindOperator := noBlanks
  right := ⟨none, .zerosThen 0 '0' (by decide), by decide,
    some (noBlanks, .zerosThen zeros '1' (by decide))⟩
  tail := []
  ends := Spelling.endsBefore_nil _

/-- The literal `-0` divided by such a fraction. -/
def zeroOver (zeros : Nat) : Split :=
  Spelling.overFraction ⟨some noBlanks, .zerosThen 0 '0' (by decide), by decide, none⟩ zeros

/-- Behind 308 zeros the one is lost, and the sign of the dividend is kept; behind 307 it
is not lost. -/
theorem calculate_eq_divisionByZero_iff_lost :
    calculate (String.ofList (zeroOver 308).chars) =
        .error (.evaluation (.divisionByZero (.zero true))) ∧
      (zeroOver 308).right.ReadsZero ∧
      calculate (String.ofList (zeroOver 307).chars) = .ok (.zero true) ∧
      ¬ (zeroOver 307).right.ReadsZero := by
  have hread := fun zeros => (zeroOver zeros).read_ofList_chars
  have hdividend : (zeroOver 308).expression.left = .zero true := by decide +kernel
  have hlost : (zeroOver 308).expression.DividesByZero := ⟨rfl, by decide +kernel⟩
  have hkept : (zeroOver 307).expression.right.isZero = false := by decide +kernel
  have hquotient : (zeroOver 307).expression.operator.apply (zeroOver 307).expression.left
      (zeroOver 307).expression.right = .zero true := by decide +kernel
  have herror := calculate_of_dividesByZero (hread 308) hlost
  have hresult := calculate_of_not_dividesByZero (hread 307) fun hzero =>
    Bool.noConfusion (hkept.symm.trans hzero.2)
  rw [hdividend] at herror
  rw [hquotient] at hresult
  obtain ⟨s, -, hs, hzero, -⟩ := calculate_eq_divisionByZero_iff (hread 308)
  obtain ⟨s', -, hs', -, hok⟩ := calculate_eq_divisionByZero_iff (hread 307)
  obtain rfl := hs _ String.toList_ofList.symm
  obtain rfl := hs' _ String.toList_ofList.symm
  exact ⟨herror, ((hzero _).mp herror).1.2, hresult,
    fun hreads => hok.mp ⟨_, hresult⟩ ⟨rfl, hreads⟩⟩

end CommaCalc
