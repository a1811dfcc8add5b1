import CommaCalc.Proofs.Calculation.ZeroDivision

/-!
# How large a result is

The operands that are read are at most 2¹²⁸.  Sums, differences and products of such
operands stay at most 2²⁵⁶, so they are finite, and a quotient overflows only if its divisor
is below 2⁻⁸⁹⁵.  Nothing that could come to NaN is left: the operands are finite, and a
division by zero is an error.
-/

namespace CommaCalc

open Rounding

attribute [local instance (high)] instPowNat

/-- The magnitude is below 1 over a power of two. -/
def Magnitude.BelowInverse (m : Magnitude) (exponent : Nat) : Prop :=
  m.units * 2 ^ exponent < unitsPerOne

namespace Binary64

/-- Finite, and of a magnitude up to a whole number. -/
def AtMost : Binary64 → Nat → Prop
  | .finite _ m, bound => m.units ≤ bound * unitsPerOne
  | _, _ => False

theorem atMost_ofRatio (negative : Bool) {num den exponent : Nat} (hden : 0 < den)
    (hle : num ≤ 2 ^ exponent * unitsPerOne * den) (hexponent : exponent < 1024) :
    (ofRatio negative num den).AtMost (2 ^ exponent) := by
  obtain ⟨m, hm, -, hunits⟩ := exists_ofRatio_le negative hden hle hexponent
  rw [hm]
  exact hunits

namespace AtMost

variable {x y : Binary64} {bound j k : Nat}

theorem exists_finite (hx : x.AtMost bound) :
    ∃ negative m, x = .finite negative m ∧ m.units ≤ bound * unitsPerOne := by
  cases x with
  | nan => exact hx.elim
  | infinite negative => exact hx.elim
  | finite negative m => exact ⟨negative, m, rfl, hx⟩

theorem mono {bound' : Nat} (hx : x.AtMost bound) (hle : bound ≤ bound') : x.AtMost bound' := by
  obtain ⟨negative, m, rfl, hm⟩ := hx.exists_finite
  exact Nat.le_trans hm (Nat.mul_le_mul_right unitsPerOne hle)

theorem neg (hx : x.AtMost bound) : x.neg.AtMost bound := by
  obtain ⟨negative, m, rfl, hm⟩ := hx.exists_finite
  exact hm

/-- Of a sum, and of a difference of magnitudes, at most the sum of the magnitudes is
rounded. -/
theorem add (hx : x.AtMost (2 ^ k)) (hy : y.AtMost (2 ^ k)) (hexponent : k + 1 < 1024) :
    (x.add y).AtMost (2 ^ (k + 1)) := by
  obtain ⟨s, a, rfl, ha⟩ := hx.exists_finite
  obtain ⟨t, b, rfl, hb⟩ := hy.exists_finite
  have hsum : ∀ (negative : Bool) {units : Nat}, units ≤ a.units + b.units →
      (ofRatio negative units 1).AtMost (2 ^ (k + 1)) := by
    intro negative units hunits
    refine atMost_ofRatio negative Nat.one_pos ?_ hexponent
    rw [Nat.pow_succ, Nat.mul_one, Nat.mul_two, Nat.add_mul]
    omega
  rw [Binary64.add]
  split
  · exact hsum s (Nat.le_refl _)
  · split
    · exact hsum s (by omega)
    · split
      · exact hsum t (by omega)
      · exact Nat.zero_le _

theorem sub (hx : x.AtMost (2 ^ k)) (hy : y.AtMost (2 ^ k)) (hexponent : k + 1 < 1024) :
    (x.sub y).AtMost (2 ^ (k + 1)) :=
  hx.add hy.neg hexponent

theorem mul (hx : x.AtMost (2 ^ j)) (hy : y.AtMost (2 ^ k)) (hexponent : j + k < 1024) :
    (x.mul y).AtMost (2 ^ (j + k)) := by
  obtain ⟨s, a, rfl, ha⟩ := hx.exists_finite
  obtain ⟨t, b, rfl, hb⟩ := hy.exists_finite
  refine atMost_ofRatio _ unitsPerOne_pos ?_ hexponent
  calc a.units * b.units ≤ 2 ^ j * unitsPerOne * (2 ^ k * unitsPerOne) := Nat.mul_le_mul ha hb
    _ = 2 ^ (j + k) * unitsPerOne * unitsPerOne := by rw [Nat.pow_add]; ring

/-- A quotient by a divisor that is not a zero is not NaN, and infinite only if the
divisor is too small. -/
theorem div (hx : x.AtMost (2 ^ j)) (hexponent : j + k < 1024) (negative : Bool) {b : Magnitude}
    (hb : b.units ≠ 0) :
    x.div (.finite negative b) ≠ .nan ∧
      ∀ t, x.div (.finite negative b) = .infinite t → b.BelowInverse k := by
  obtain ⟨s, a, rfl, ha⟩ := hx.exists_finite
  rw [Binary64.div, if_neg hb]
  by_cases hsmall : b.BelowInverse k
  · refine ⟨?_, fun _ _ => hsmall⟩
    rw [ofRatio]
    split <;> simp
  · rw [Magnitude.BelowInverse, Nat.not_lt] at hsmall
    have hquotient : a.units * unitsPerOne ≤ 2 ^ (j + k) * unitsPerOne * b.units :=
      calc a.units * unitsPerOne ≤ 2 ^ j * unitsPerOne * (b.units * 2 ^ k) :=
            Nat.mul_le_mul ha hsmall
        _ = 2 ^ (j + k) * unitsPerOne * b.units := by rw [Nat.pow_add]; ring
    have hfinite := atMost_ofRatio (s != negative) (Nat.pos_of_ne_zero hb) hquotient hexponent
    obtain ⟨t, m, hm, -⟩ := hfinite.exists_finite
    rw [hm]
    exact ⟨by simp, by simp⟩

end AtMost

end Binary64

theorem Spelling.atMost_value (s : Spelling) : s.value.AtMost numeralLimit := by
  obtain ⟨m, hm, hle, -⟩ := s.exists_value
  rw [hm]
  exact hle

namespace Expression

variable {text : String} {e : Expression}

theorem atMost_of_read (hread : read text = .ok e) :
    e.left.AtMost (2 ^ 128) ∧ e.right.AtMost (2 ^ 128) := by
  obtain ⟨s, -, rfl⟩ := exists_split_of_read hread
  exact ⟨s.left.atMost_value, s.right.atMost_value⟩

theorem atMost_apply (hleft : e.left.AtMost (2 ^ 128)) (hright : e.right.AtMost (2 ^ 128))
    (hdivide : e.operator ≠ .divide) : (e.operator.apply e.left e.right).AtMost (2 ^ 256) := by
  cases hoperator : e.operator with
  | add => exact (hleft.add hright (by decide)).mono (by decide)
  | subtract => exact (hleft.sub hright (by decide)).mono (by decide)
  | multiply => exact hleft.mul hright (by decide)
  | divide => exact absurd hoperator hdivide

/-- A quotient of such operands, if it is one at all, overflows only by a divisor below
2⁻⁸⁹⁵. -/
theorem quotient_range (hleft : e.left.AtMost (2 ^ 128)) (hright : e.right.AtMost (2 ^ 128))
    (hdivide : e.operator = .divide) (hzero : ¬ e.DividesByZero) :
    e.operator.apply e.left e.right ≠ .nan ∧
      ∀ negative, e.operator.apply e.left e.right = .infinite negative →
        ∃ s m, e.right = .finite s m ∧ 0 < m.units ∧ m.BelowInverse 895 := by
  obtain ⟨s, m, hm, -⟩ := hright.exists_finite
  have hunits : m.units ≠ 0 := fun hunits =>
    hzero ⟨hdivide, by rwa [hm, Binary64.isZero_finite]⟩
  obtain ⟨hnan, hinfinite⟩ := hleft.div (k := 895) (by decide) s hunits
  rw [hdivide, Operator.apply, hm]
  exact ⟨hnan, fun negative h => ⟨s, m, rfl, Nat.pos_of_ne_zero hunits, hinfinite negative h⟩⟩

end Expression

/-- The operands that are read are finite and at most 2¹²⁸.  A sum, a difference or a
product has a result, of at most 2²⁵⁶; no result is NaN, and one that is infinite is a
quotient by a nonzero divisor below 2⁻⁸⁹⁵. -/
theorem calculate_range (text : String) :
    (∀ e, Expression.read text = .ok e →
      e.left.AtMost (2 ^ 128) ∧ e.right.AtMost (2 ^ 128) ∧
      (e.operator ≠ .divide → ∃ r, calculate text = .ok r ∧ r.AtMost (2 ^ 256))) ∧
    ∀ r, calculate text = .ok r → r ≠ .nan ∧
      ∀ negative, r = .infinite negative → ∃ e s m, Expression.read text = .ok e ∧
        e.operator = .divide ∧ e.right = .finite s m ∧ 0 < m.units ∧ m.BelowInverse 895 := by
  constructor
  · intro e hread
    obtain ⟨hleft, hright⟩ := Expression.atMost_of_read hread
    refine ⟨hleft, hright, fun hdivide => ⟨_, ?_, Expression.atMost_apply hleft hright hdivide⟩⟩
    exact calculate_of_not_dividesByZero hread fun hzero => hdivide hzero.1
  · intro r hcalculate
    obtain ⟨e, hread, hzero, rfl⟩ := exists_read_of_calculate hcalculate
    obtain ⟨hleft, hright⟩ := Expression.atMost_of_read hread
    by_cases hdivide : e.operator = .divide
    · obtain ⟨hnan, hinfinite⟩ := Expression.quotient_range hleft hright hdivide hzero
      refine ⟨hnan, fun negative h => ?_⟩
      obtain ⟨s, m, hm⟩ := hinfinite negative h
      exact ⟨e, s, m, hread, hdivide, hm⟩
    · obtain ⟨s, m, hm, -⟩ := (Expression.atMost_apply hleft hright hdivide).exists_finite
      rw [hm]
      exact ⟨by simp, by simp⟩

/-- The literal `9`. -/
def Spelling.nine : Spelling := ⟨none, .zerosThen 0 '9' (by decide), by decide, none⟩

/-- The product of the largest number that is read and its negative. -/
def largestProduct : String :=
  "340282366920938463463374607431768211455*-340282366920938463463374607431768211455"

/-- 9 over 10⁻³⁰⁸ is infinite, and the largest operands are rounded to 2¹²⁸. -/
theorem calculate_range_infinite :
    calculate (String.ofList (Spelling.nine.overFraction 307).chars) = .ok (.infinite false) ∧
    (∃ e s m, Expression.read (String.ofList (Spelling.nine.overFraction 307).chars) = .ok e ∧
      e.operator = .divide ∧ e.right = .finite s m ∧ 0 < m.units ∧ m.BelowInverse 895) ∧
    (Binary64.ofNat numeralLimit).AtMost (2 ^ 128) ∧
    ∃ r, calculate largestProduct = .ok r ∧ r ≠ .nan ∧ r.AtMost (2 ^ 256) := by
  have hread := (Spelling.nine.overFraction 307).read_ofList_chars
  have hzero : (Spelling.nine.overFraction 307).expression.right.isZero = false := by
    decide +kernel
  have hquotient : (Spelling.nine.overFraction 307).expression.operator.apply
      (Spelling.nine.overFraction 307).expression.left
      (Spelling.nine.overFraction 307).expression.right = .infinite false := by decide +kernel
  have hinfinite := calculate_of_not_dividesByZero hread fun h =>
    Bool.noConfusion (hzero.symm.trans h.2)
  rw [hquotient] at hinfinite
  have hproduct : Expression.read largestProduct = .ok ⟨largestProduct,
      .ofNat numeralLimit, .multiply, (Binary64.ofNat numeralLimit).neg⟩ := by decide +kernel
  obtain ⟨hleft, -, hresult⟩ := (calculate_range largestProduct).1 _ hproduct
  obtain ⟨r, hr, hle⟩ := hresult (by simp)
  exact ⟨hinfinite, ((calculate_range _).2 _ hinfinite).2 _ rfl, hleft, r, hr,
    ((calculate_range _).2 _ hr).1, hle⟩

end CommaCalc
