import CommaCalc.Proofs.Calculation.ZeroDivision
import CommaCalc.Proofs.Decimal.Whole
import CommaCalc.Proofs.Literal.DigitRun

/-!
# Calculating with integers

An integer literal is digits, zeros in front included, with or without a minus sign directly
before them.  Up to 2⁵³ everything about it is exact: what is read, what is calculated, if the
exact result is such an integer again, and what is printed.  Only the sign of a zero is not seen
from the exact result; it follows from how the two literals are written.
-/

namespace CommaCalc

open Rounding

attribute [local instance (high)] instPowNat

namespace Binary64

variable {x : Binary64}

theorem IsInteger.isZero_iff {negative : Bool} {n : Nat} (hx : x.IsInteger negative n) :
    x.isZero = true ↔ n = 0 := by
  obtain ⟨m, rfl, hm⟩ := hx
  rw [isZero_finite, hm, Nat.mul_eq_zero, or_iff_left unitsPerOne_pos.ne']

theorem Represents.exists_toRat {c : Int} {zeroSign : Bool} (hx : x.Represents c zeroSign) :
    ∃ negative m, x = .finite negative m ∧ (if negative then -m.toRat else m.toRat) = c := by
  obtain ⟨negative, ⟨m, rfl, hm⟩, hsigned, -⟩ := hx
  refine ⟨negative, m, rfl, ?_⟩
  rw [← Magnitude.toRat_eq_iff] at hm
  rw [hm, ← hsigned, natAbs_signedValue, signedValue]
  split <;> simp

end Binary64

/-- A literal without blanks and without a comma. -/
structure IntegerLiteral where
  negative : Bool
  digits : Digits

namespace IntegerLiteral

variable (a : IntegerLiteral)

/-- The literal as it is written. -/
def chars : List Char :=
  if a.negative then '-' :: a.digits.chars else a.digits.chars

/-- Its text. -/
def text : String :=
  String.ofList a.chars

/-- The integer that the literal stands for. -/
def value : Int :=
  signedValue a.negative a.digits.value

/-- A zero with a sign. -/
def isSignedZero : Bool :=
  a.negative && decide (a.value = 0)

/-- A zero without a sign. -/
def isUnsignedZero : Bool :=
  !a.negative && decide (a.value = 0)

variable {a}

theorem value_eq_zero_iff : a.value = 0 ↔ a.digits.value = 0 := by
  rw [← Int.natAbs_eq_zero, value, natAbs_signedValue]

theorem value_nonpos (hnegative : a.negative = true) : a.value ≤ 0 := by
  rw [value, hnegative, signedValue, if_pos rfl]
  exact Int.neg_nonpos_of_nonneg (Int.natCast_nonneg _)

theorem value_nonneg (hnegative : a.negative = false) : 0 ≤ a.value := by
  rw [value, hnegative, signedValue]
  exact Int.natCast_nonneg _

theorem digits_value_le (ha : a.value.natAbs ≤ 2 ^ precision) :
    a.digits.value ≤ 2 ^ precision := by
  rwa [value, natAbs_signedValue] at ha

/-- The pieces of a literal up to 2⁵³. -/
def spelling (ha : a.value.natAbs ≤ 2 ^ precision) : Spelling where
  minus := signBlanks a.negative
  whole := a.digits
  fits := Nat.lt_of_le_of_lt (digits_value_le ha) (by decide)
  fraction := none

theorem spelling_chars (ha : a.value.natAbs ≤ 2 ^ precision) : (spelling ha).chars = a.chars := by
  have hfraction : fractionChars none = [] := rfl
  rw [Spelling.chars, spelling, chars, hfraction, List.append_nil]
  cases a.negative <;> rfl

/-- It is read as its integer, under its sign. -/
theorem isInteger_spelling (ha : a.value.natAbs ≤ 2 ^ precision) :
    (spelling ha).value.IsInteger a.negative a.digits.value := by
  obtain ⟨m, hm, hunits⟩ := Binary64.isInteger_ofNat (digits_value_le ha)
  refine ⟨m, ?_, hunits⟩
  rw [(spelling ha).value_of_magnitude hm, spelling]
  cases a.negative <;> rfl

end IntegerLiteral

namespace Operator

/-- Whether a result of the operator that is zero is printed with a sign. -/
def givesMinusZero : Operator → IntegerLiteral → IntegerLiteral → Bool
  | add, a, b => a.isSignedZero && b.isSignedZero
  | subtract, a, b => a.isSignedZero && b.isUnsignedZero
  | multiply, a, b => a.negative != b.negative
  | divide, a, b => a.negative != b.negative

variable {operator : Operator} {a b : IntegerLiteral}

/-- What follows from two signs need not be tested. -/
private theorem and_decide_eq {s t : Bool} {p q : Prop} [Decidable p] [Decidable q]
    (h : s = true → t = true → p ∧ q) : (s && decide p && (t && decide q)) = (s && t) := by
  cases s with
  | false => rfl
  | true =>
    cases t with
    | false => simp
    | true =>
      obtain ⟨hp, hq⟩ := h rfl rfl
      simp [hp, hq]

/-- If a sum of two signed literals is zero, or the difference of a signed and an unsigned one,
both are zeros. -/
theorem givesMinusZero_eq (hzero : operator.Exactly a.value b.value 0) :
    operator.givesMinusZero a b = operator.zeroSign a.negative b.negative := by
  cases operator with
  | add =>
    have hsum : a.value + b.value = 0 := hzero
    refine and_decide_eq fun ha hb => ?_
    have haLe := IntegerLiteral.value_nonpos ha
    have hbLe := IntegerLiteral.value_nonpos hb
    omega
  | subtract =>
    have hdifference : a.value - b.value = 0 := hzero
    refine and_decide_eq fun ha hb => ?_
    have haLe := IntegerLiteral.value_nonpos ha
    have hunsigned : b.negative = false := by simpa using hb
    have hbGe := IntegerLiteral.value_nonneg hunsigned
    omega
  | multiply => rfl
  | divide => rfl

end Operator

/-- Two literals with an operator between them. -/
def Spelling.joined (left : Spelling) (operator : Operator) (right : Spelling) : Split where
  gap := noBlanks
  left := left
  gapBeforeOperator := noBlanks
  operator := operator
  gapBehindOperator := noBlanks
  right := right
  tail := []
  ends := right.endsBefore_nil

theorem Spelling.joined_chars (left : Spelling) (operator : Operator) (right : Spelling) :
    (left.joined operator right).chars = left.chars ++ operator.symbol :: right.chars := by
  rw [Split.chars, Opening.chars_append]
  simp [joined, noBlanks]

variable {a b : IntegerLiteral} {operator : Operator}

/-- The calculation is the operation on the doubles that are read. -/
theorem calculate_integerLiterals (ha : a.value.natAbs ≤ 2 ^ precision)
    (hb : b.value.natAbs ≤ 2 ^ precision) (hdivisor : operator = .divide → b.value ≠ 0) :
    calculate (a.text ++ String.singleton operator.symbol ++ b.text) =
      .ok (operator.apply (IntegerLiteral.spelling ha).value (IntegerLiteral.spelling hb).value) := by
  have hchars : ((IntegerLiteral.spelling ha).joined operator (IntegerLiteral.spelling hb)).chars =
      (a.text ++ String.singleton operator.symbol ++ b.text).toList := by
    rw [Spelling.joined_chars, IntegerLiteral.spelling_chars, IntegerLiteral.spelling_chars]
    simp [IntegerLiteral.text]
  refine calculate_of_not_dividesByZero (Split.read_chars _ hchars) ?_
  rintro ⟨hdivide, hzero⟩
  apply hdivisor hdivide
  rw [IntegerLiteral.value_eq_zero_iff]
  exact (IntegerLiteral.isInteger_spelling hb).isZero_iff.mp hzero

/-- Two integer literals with an operator between them, up to 2⁵³, are calculated exactly if the
exact result is an integer up to 2⁵³, and the result is printed as that integer.  A zero is
printed with a sign for a product or a quotient of which one literal is signed and the other one
is not, for a sum of two signed zeros, and for an unsigned zero subtracted from a signed one. -/
theorem calculate_integers (a b : IntegerLiteral) (operator : Operator) (c : Int)
    (ha : a.value.natAbs ≤ 2 ^ 53) (hb : b.value.natAbs ≤ 2 ^ 53) (hc : c.natAbs ≤ 2 ^ 53)
    (hexact : operator.Exactly a.value b.value c) :
    ∃ (negative : Bool) (m : Magnitude),
      calculate (a.text ++ String.singleton operator.symbol ++ b.text) =
        .ok (.finite negative m) ∧
      (if negative then -m.toRat else m.toRat) = c ∧
      Binary64.decimalText (.finite negative m) =
        if c = 0 ∧ operator.givesMinusZero a b = true then "-0" else toString c := by
  have hresult := operator.apply_represents (IntegerLiteral.isInteger_spelling ha)
    (IntegerLiteral.isInteger_spelling hb) hexact hc
  obtain ⟨negative, m, hfinite, hvalue⟩ := hresult.exists_toRat
  refine ⟨negative, m, ?_, hvalue, ?_⟩
  · rw [calculate_integerLiterals ha hb, hfinite]
    rintro rfl
    exact hexact.1
  · have hsign : c = 0 ∧ operator.zeroSign a.negative b.negative = true ↔
        c = 0 ∧ operator.givesMinusZero a b = true := by
      refine and_congr_right fun hzero => ?_
      rw [hzero] at hexact
      rw [Operator.givesMinusZero_eq hexact]
    rw [← hfinite, hresult.decimalText_eq hc]
    simp only [hsign]

/-- At 2⁵³ a sum and a quotient are exact, and the sign of a zero is printed for a product. -/
theorem calculate_integers_limit :
    (∃ r, calculate "9007199254740991+1" = .ok r ∧ r.decimalText = "9007199254740992") ∧
    (∃ r, calculate "-009007199254740992/4503599627370496" = .ok r ∧ r.decimalText = "-2") ∧
    ∃ r, calculate "-0*5" = .ok r ∧ r.decimalText = "-0" := by
  obtain ⟨_, _, hsum, -, hsumText⟩ := calculate_integers ⟨false, .padded 0 9007199254740991⟩
    ⟨false, .padded 0 1⟩ .add 9007199254740992 (by decide +kernel) (by decide +kernel)
    (by decide) (by decide +kernel)
  obtain ⟨_, _, hquotient, -, hquotientText⟩ := calculate_integers
    ⟨true, .padded 2 9007199254740992⟩ ⟨false, .padded 0 4503599627370496⟩ .divide (-2)
    (by decide +kernel) (by decide +kernel) (by decide) (by decide +kernel)
  obtain ⟨_, _, hproduct, -, hproductText⟩ := calculate_integers ⟨true, .padded 0 0⟩
    ⟨false, .padded 0 5⟩ .multiply 0 (by decide +kernel) (by decide +kernel) (by decide)
    (by decide +kernel)
  have hsumChars : (IntegerLiteral.mk false (.padded 0 9007199254740991)).text ++
      String.singleton Operator.add.symbol ++ (IntegerLiteral.mk false (.padded 0 1)).text =
        "9007199254740991+1" := by decide +kernel
  have hquotientChars : (IntegerLiteral.mk true (.padded 2 9007199254740992)).text ++
      String.singleton Operator.divide.symbol ++
        (IntegerLiteral.mk false (.padded 0 4503599627370496)).text =
          "-009007199254740992/4503599627370496" := by decide +kernel
  have hproductChars : (IntegerLiteral.mk true (.padded 0 0)).text ++
      String.singleton Operator.multiply.symbol ++ (IntegerLiteral.mk false (.padded 0 5)).text =
        "-0*5" := by decide +kernel
  rw [hsumChars] at hsum
  rw [hquotientChars] at hquotient
  rw [hproductChars] at hproduct
  exact ⟨⟨_, hsum, hsumText⟩, ⟨_, hquotient, hquotientText⟩, _, hproduct, hproductText⟩

end CommaCalc
