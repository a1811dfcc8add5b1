import CommaCalc.Binary64.Arithmetic

/-!
# The sign and the order of operands

Rounding does not look at the sign, so a sign moves out of a product or a quotient,
and sums and products do not depend on the order of their operands.  Each of these
laws holds for every double, the zeros and the infinities included, and as equality
of doubles, which tells the two zeros apart.
-/

namespace CommaCalc.Binary64

variable (x y : Binary64)

@[simp]
theorem neg_nan : neg .nan = .nan := rfl

@[simp]
theorem neg_infinite (s : Bool) : neg (.infinite s) = .infinite (!s) := rfl

@[simp]
theorem neg_finite (s : Bool) (a : Magnitude) : neg (.finite s a) = .finite (!s) a := rfl

/-- The sign of a ratio has no part in its rounding. -/
theorem neg_ofRatio (negative : Bool) (num den : Nat) :
    (ofRatio negative num den).neg = ofRatio (!negative) num den := by
  rw [ofRatio, ofRatio]
  split <;> rfl

@[simp]
theorem neg_neg : x.neg.neg = x := by
  cases x <;> simp

theorem sub_neg : x.sub y.neg = x.add y := by
  rw [sub, neg_neg]

/-- Of opposite signs, the magnitudes are compared, which the order does not change. -/
private theorem add_finite_comm (s t : Bool) (a b : Magnitude) :
    add (.finite s a) (.finite t b) = add (.finite t b) (.finite s a) := by
  by_cases hst : s = t
  · subst hst
    simp only [add, if_true, Nat.add_comm]
  · rcases Nat.lt_trichotomy a.units b.units with hlt | heq | hgt
    · simp only [add, if_neg hst, if_neg (Ne.symm hst), if_neg (Nat.lt_asymm hlt), if_pos hlt]
    · simp only [add, if_neg hst, if_neg (Ne.symm hst), heq, Nat.lt_irrefl, if_false]
    · simp only [add, if_neg hst, if_neg (Ne.symm hst), if_neg (Nat.lt_asymm hgt), if_pos hgt]

theorem add_comm : x.add y = y.add x := by
  cases x with
  | nan => cases y <;> rfl
  | infinite s =>
    cases y with
    | nan => rfl
    | infinite t => cases s <;> cases t <;> rfl
    | finite t b => rfl
  | finite s a =>
    cases y with
    | nan => rfl
    | infinite t => rfl
    | finite t b => exact add_finite_comm s t a b

theorem mul_comm : x.mul y = y.mul x := by
  have hsign : ∀ s t : Bool, (s != t) = (t != s) := by decide
  cases x with
  | nan => cases y <;> rfl
  | infinite s =>
    cases y with
    | nan => rfl
    | infinite t => simp only [mul, hsign s t]
    | finite t b => simp only [mul, hsign s t]
  | finite s a =>
    cases y with
    | nan => rfl
    | infinite t => simp only [mul, hsign s t]
    | finite t b => simp only [mul, hsign s t, Nat.mul_comm a.units]

private theorem not_bne (s t : Bool) : ((!s) != t) = !(s != t) := by
  cases s <;> cases t <;> rfl

theorem neg_mul : x.neg.mul y = (x.mul y).neg := by
  cases x with
  | nan => rfl
  | infinite s =>
    cases y with
    | nan => rfl
    | infinite t => simp only [neg_infinite, mul, not_bne]
    | finite t b =>
      simp only [neg_infinite, mul, not_bne]
      split <;> rfl
  | finite s a =>
    cases y with
    | nan => rfl
    | infinite t =>
      simp only [neg_finite, mul, not_bne]
      split <;> rfl
    | finite t b => simp only [neg_finite, mul, not_bne, neg_ofRatio]

theorem neg_div : x.neg.div y = (x.div y).neg := by
  cases x with
  | nan => rfl
  | infinite s =>
    cases y with
    | nan => rfl
    | infinite t => rfl
    | finite t b => simp only [neg_infinite, div, not_bne]
  | finite s a =>
    cases y with
    | nan => rfl
    | infinite t => simp only [neg_finite, div, zero, not_bne]
    | finite t b =>
      simp only [neg_finite, div, not_bne]
      split
      · split <;> rfl
      · rw [neg_ofRatio]

end CommaCalc.Binary64
