import CommaCalc.Operator
import CommaCalc.Proofs.Binary64.Exact

/-!
# Arithmetic on whole numbers

The whole numbers up to 2⁵³ are doubles, so an operation on them whose exact result is such a
number again does not round.  Only a zero has two doubles.  Which of them a zero result is
follows from the signs of the operands, and is different for each kind of operation.
-/

namespace CommaCalc

open Rounding

attribute [local instance (high)] instPowNat

/-- The integer with a sign and an absolute value. -/
def signedValue (negative : Bool) (n : Nat) : Int :=
  if negative then -n else n

section Signed

variable (s t : Bool) (a b : Nat)

theorem natAbs_signedValue : (signedValue s a).natAbs = a := by
  cases s <;> simp [signedValue]

theorem neg_signedValue : -signedValue s a = signedValue (!s) a := by
  cases s <;> simp [signedValue]

theorem signedValue_add_same : signedValue s a + signedValue s b = signedValue s (a + b) := by
  cases s <;> simp [signedValue]
  omega

theorem signedValue_mul : signedValue s a * signedValue t b = signedValue (s != t) (a * b) := by
  cases s <;> cases t <;> simp [signedValue]

variable {s t a b}

/-- Of opposite signs, that of the larger absolute value is kept. -/
theorem signedValue_add_of_lt (hst : s ≠ t) (hlt : b < a) :
    signedValue s a + signedValue t b = signedValue s (a - b) := by
  cases s <;> cases t <;> simp [signedValue] at hst ⊢ <;> omega

theorem signedValue_add_cancel (hst : s ≠ t) : signedValue s a + signedValue t a = 0 := by
  cases s <;> cases t <;> simp [signedValue] at hst ⊢

end Signed

namespace Binary64

/-- A double that is a whole number under a sign. -/
def IsInteger (x : Binary64) (negative : Bool) (n : Nat) : Prop :=
  ∃ m : Magnitude, x = .finite negative m ∧ m.units = n * unitsPerOne

/-- A double of an integer; if that is zero, the zero of the given sign. -/
def Represents (x : Binary64) (c : Int) (zeroSign : Bool) : Prop :=
  ∃ negative, x.IsInteger negative c.natAbs ∧ signedValue negative c.natAbs = c ∧
    (c = 0 → negative = zeroSign)

variable {x y : Binary64} {s t : Bool} {a b n : Nat}

theorem IsInteger.represents {c : Int} {zeroSign : Bool} (hx : x.IsInteger s n)
    (hc : c = signedValue s n) (hzero : c = 0 → s = zeroSign) : x.Represents c zeroSign := by
  have hn : c.natAbs = n := by rw [hc, natAbs_signedValue]
  exact ⟨s, hn ▸ hx, by rw [hn, hc], hzero⟩

/-- A whole number up to 2⁵³ is not rounded. -/
theorem isInteger_ofRatio (negative : Bool) {num den : Nat} (hn : n ≤ 2 ^ precision)
    (hden : 0 < den) (hnum : num = n * unitsPerOne * den) :
    (ofRatio negative num den).IsInteger negative n := by
  have hrange : n * unitsPerOne < overflowUnits :=
    calc n * unitsPerOne ≤ 2 ^ precision * unitsPerOne := Nat.mul_le_mul_right _ hn
      _ < overflowUnits := by decide +kernel
  refine ⟨⟨n * unitsPerOne, spacing_mul_unitsPerOne hn, hrange⟩, ?_, rfl⟩
  apply ofRatio_eq_finite
  rw [hnum]
  exact roundUnits_mul_self hden (spacing_mul_unitsPerOne hn)

theorem isInteger_ofNat (hn : n ≤ 2 ^ precision) : (ofNat n).IsInteger false n :=
  isInteger_ofRatio false hn Nat.one_pos (Nat.mul_one _).symm

namespace IsInteger

theorem neg (hx : x.IsInteger s a) : x.neg.IsInteger (!s) a := by
  obtain ⟨m, rfl, hm⟩ := hx
  exact ⟨m, rfl, hm⟩

theorem add_same (hx : x.IsInteger s a) (hy : y.IsInteger s b) (hle : a + b ≤ 2 ^ precision) :
    (x.add y).IsInteger s (a + b) := by
  obtain ⟨m, rfl, hm⟩ := hx
  obtain ⟨k, rfl, hk⟩ := hy
  rw [Binary64.add, if_pos rfl, hm, hk]
  apply isInteger_ofRatio s hle Nat.one_pos
  rw [Nat.mul_one, Nat.add_mul]

/-- Of opposite signs, the difference of the absolute values is left. -/
theorem add_of_lt (hx : x.IsInteger s a) (hy : y.IsInteger t b) (hst : s ≠ t) (hlt : b < a)
    (hle : a - b ≤ 2 ^ precision) :
    (x.add y).IsInteger s (a - b) ∧ (y.add x).IsInteger s (a - b) := by
  obtain ⟨m, rfl, hm⟩ := hx
  obtain ⟨k, rfl, hk⟩ := hy
  have hunits : k.units < m.units := by
    rw [hm, hk]
    exact Nat.mul_lt_mul_of_pos_right hlt unitsPerOne_pos
  rw [Binary64.add, Binary64.add, if_neg hst, if_neg hst.symm, if_pos hunits,
    if_neg hunits.asymm, if_pos hunits, and_self, hm, hk]
  apply isInteger_ofRatio s hle Nat.one_pos
  rw [Nat.mul_one, Nat.sub_mul]

theorem add_cancel (hx : x.IsInteger s a) (hy : y.IsInteger t a) (hst : s ≠ t) :
    (x.add y).IsInteger false 0 := by
  obtain ⟨m, rfl, hm⟩ := hx
  obtain ⟨k, rfl, hk⟩ := hy
  have hunits : ¬ m.units < m.units := Nat.lt_irrefl _
  rw [Binary64.add, if_neg hst, hk.trans hm.symm, if_neg hunits, if_neg hunits]
  exact ⟨_, rfl, (Nat.zero_mul _).symm⟩

/-- A sum that is zero is a negative zero only if both operands are. -/
theorem add (hx : x.IsInteger s a) (hy : y.IsInteger t b)
    (hle : (signedValue s a + signedValue t b).natAbs ≤ 2 ^ precision) :
    (x.add y).Represents (signedValue s a + signedValue t b) (s && t) := by
  by_cases hst : s = t
  · subst hst
    rw [signedValue_add_same] at hle ⊢
    rw [natAbs_signedValue] at hle
    rw [Bool.and_self]
    exact (hx.add_same hy hle).represents rfl fun _ => rfl
  · rcases Nat.lt_trichotomy a b with hab | rfl | hba
    · rw [Int.add_comm, signedValue_add_of_lt (Ne.symm hst) hab] at hle ⊢
      rw [natAbs_signedValue] at hle
      refine (hy.add_of_lt hx (Ne.symm hst) hab hle).2.represents rfl fun hzero => ?_
      rw [← Int.natAbs_eq_zero, natAbs_signedValue] at hzero
      omega
    · rw [signedValue_add_cancel hst]
      refine (hx.add_cancel hy hst).represents rfl fun _ => ?_
      cases s <;> cases t <;> simp at hst ⊢
    · rw [signedValue_add_of_lt hst hba] at hle ⊢
      rw [natAbs_signedValue] at hle
      refine (hx.add_of_lt hy hst hba hle).1.represents rfl fun hzero => ?_
      rw [← Int.natAbs_eq_zero, natAbs_signedValue] at hzero
      omega

theorem sub (hx : x.IsInteger s a) (hy : y.IsInteger t b)
    (hle : (signedValue s a - signedValue t b).natAbs ≤ 2 ^ precision) :
    (x.sub y).Represents (signedValue s a - signedValue t b) (s && !t) := by
  rw [Int.sub_eq_add_neg, neg_signedValue] at hle ⊢
  exact hx.add hy.neg hle

theorem mul (hx : x.IsInteger s a) (hy : y.IsInteger t b) (hle : a * b ≤ 2 ^ precision) :
    (x.mul y).IsInteger (s != t) (a * b) := by
  obtain ⟨m, rfl, hm⟩ := hx
  obtain ⟨k, rfl, hk⟩ := hy
  rw [Binary64.mul, hm, hk]
  apply isInteger_ofRatio _ hle unitsPerOne_pos
  ring

/-- A quotient by a divisor that divides. -/
theorem div (hx : x.IsInteger s (n * b)) (hy : y.IsInteger t b) (hb : b ≠ 0)
    (hle : n ≤ 2 ^ precision) : (x.div y).IsInteger (s != t) n := by
  obtain ⟨m, rfl, hm⟩ := hx
  obtain ⟨k, rfl, hk⟩ := hy
  have hpos : 0 < b * unitsPerOne := Nat.mul_pos (Nat.pos_of_ne_zero hb) unitsPerOne_pos
  rw [Binary64.div, hm, hk, if_neg hpos.ne']
  apply isInteger_ofRatio _ hle hpos
  ring

end IsInteger

end Binary64

namespace Operator

/-- The exact result of an operator on two integers is a third one. -/
def Exactly : Operator → Int → Int → Int → Prop
  | add, a, b, c => a + b = c
  | subtract, a, b, c => a - b = c
  | multiply, a, b, c => a * b = c
  | divide, a, b, c => b ≠ 0 ∧ c * b = a

instance : (operator : Operator) → (a b c : Int) → Decidable (operator.Exactly a b c)
  | add, a, b, c => inferInstanceAs (Decidable (a + b = c))
  | subtract, a, b, c => inferInstanceAs (Decidable (a - b = c))
  | multiply, a, b, c => inferInstanceAs (Decidable (a * b = c))
  | divide, a, b, c => inferInstanceAs (Decidable (b ≠ 0 ∧ c * b = a))

/-- The sign of a result that is zero, from the signs of the operands. -/
def zeroSign : Operator → Bool → Bool → Bool
  | add, s, t => s && t
  | subtract, s, t => s && !t
  | multiply, s, t => s != t
  | divide, s, t => s != t

variable {x y : Binary64} {s t : Bool} {a b : Nat} {c : Int}

/-- An exact quotient has the quotient of the absolute values, and the sign of a product. -/
theorem eq_signedValue_of_divide (hexact : divide.Exactly (signedValue s a) (signedValue t b) c) :
    b ≠ 0 ∧ a = c.natAbs * b ∧ c = signedValue (s != t) c.natAbs := by
  obtain ⟨hb, hc⟩ := hexact
  have hquotient : c.natAbs * b = a := by
    rw [← natAbs_signedValue s a, ← hc, Int.natAbs_mul, natAbs_signedValue]
  have hsigned : signedValue (s != t) c.natAbs * signedValue t b = c * signedValue t b := by
    rw [signedValue_mul, hquotient, hc]
    cases s <;> cases t <;> rfl
  refine ⟨?_, hquotient.symm, (Int.eq_of_mul_eq_mul_right hb hsigned).symm⟩
  rintro rfl
  cases t <;> exact hb rfl

/-- On whole numbers, an operator whose exact result is a whole number up to 2⁵³ returns its
double. -/
theorem apply_represents (operator : Operator) (hx : x.IsInteger s a) (hy : y.IsInteger t b)
    (hexact : operator.Exactly (signedValue s a) (signedValue t b) c)
    (hc : c.natAbs ≤ 2 ^ precision) :
    (operator.apply x y).Represents c (operator.zeroSign s t) := by
  cases operator with
  | add =>
    obtain rfl : _ = c := hexact
    exact hx.add hy hc
  | subtract =>
    obtain rfl : _ = c := hexact
    exact hx.sub hy hc
  | multiply =>
    obtain rfl : _ = c := hexact
    rw [signedValue_mul, natAbs_signedValue] at hc
    exact (hx.mul hy hc).represents (signedValue_mul s t a b) fun _ => rfl
  | divide =>
    obtain ⟨hb, rfl, hsigned⟩ := eq_signedValue_of_divide hexact
    exact (hx.div hy hb hc).represents hsigned fun _ => rfl

end Operator

end CommaCalc
