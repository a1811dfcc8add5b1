import CommaCalc.Proofs.Binary64.Error
import Mathlib.Data.Nat.Bits

/-!
# Powers of ten

A power of ten is multiplied together from squares, and each product is rounded.  Up to
10¹⁵ all of it is exact, and so is the square 10¹⁶; from there on the power that has the
exponent `n` is rounded once for each full sixteen in `n`.  So few roundings stay far from
the gap between 10³⁰⁸ and 10³⁰⁹ in which the finite doubles end: the power is finite exactly
up to the exponent 308.
-/

namespace CommaCalc

open Rounding

attribute [local instance (high)] instPowNat

theorem unitsPerOne_lt_overflowUnits : unitsPerOne < overflowUnits := by
  unfold unitsPerOne overflowUnits
  exact Nat.pow_lt_pow_right (by decide) (by decide)

/-- Already a double of 1 has all its 53 leading bits. -/
theorem two_pow_le_unitsPerOne : 2 ^ (precision - 1) ≤ unitsPerOne := by
  unfold unitsPerOne
  exact Nat.pow_le_pow_right (by decide) (by decide)

theorem spacing_unitsPerOne_dvd : spacing unitsPerOne ∣ unitsPerOne := by
  simpa only [Nat.one_mul] using spacing_mul_unitsPerOne Nat.one_le_two_pow

/-- The exact value of a magnitude. -/
def Magnitude.toRat (m : Magnitude) : ℚ :=
  m.units / unitsPerOne

theorem cast_unitsPerOne_pos : (0 : ℚ) < unitsPerOne :=
  Nat.cast_pos.mpr unitsPerOne_pos

theorem Magnitude.toRat_eq_iff {m : Magnitude} {value : Nat} :
    m.toRat = value ↔ m.units = value * unitsPerOne := by
  rw [toRat, div_eq_iff cast_unitsPerOne_pos.ne', ← Nat.cast_mul, Nat.cast_inj]

theorem Magnitude.toRat_nonneg (m : Magnitude) : 0 ≤ m.toRat :=
  div_nonneg (Nat.cast_nonneg _) (Nat.cast_nonneg _)

/-- A product of counts of units, with one factor divided out, is the product of the exact
values in units. -/
theorem Magnitude.units_mul_units_div (m n : Magnitude) :
    ((m.units * n.units : ℕ) / unitsPerOne : ℚ) = m.toRat * n.toRat * unitsPerOne := by
  have hne := cast_unitsPerOne_pos.ne'
  rw [toRat, toRat]
  push_cast
  field_simp

namespace Binary64

/-- What a number of roundings can make of an exact value: a double that is not below 1,
off by the factors of the roundings, or infinity, if the factors can take the value to
2¹⁰²⁴. -/
def Approximates : Binary64 → ℚ → ℕ → Prop
  | .finite false m, exact, roundings =>
    unitsPerOne ≤ m.units ∧ exact * (1 - unitRoundoff) ^ roundings ≤ m.toRat ∧
      m.toRat ≤ exact * (1 + unitRoundoff) ^ roundings
  | .infinite false, exact, roundings =>
    (overflowUnits : ℚ) ≤ exact * (1 + unitRoundoff) ^ roundings * unitsPerOne
  | _, _, _ => False

namespace Approximates

variable {x y : Binary64} {a b : ℚ} {i j : ℕ}

theorem eq_finite_or_infinite (hx : x.Approximates a i) :
    (∃ m, x = .finite false m) ∨ x = .infinite false := by
  match x, hx with
  | .finite false m, _ => exact .inl ⟨m, rfl⟩
  | .infinite false, _ => exact .inr rfl

theorem one_le (hx : x.Approximates a i) : 1 ≤ a * (1 + unitRoundoff) ^ i := by
  obtain ⟨m, rfl⟩ | rfl := hx.eq_finite_or_infinite
  · obtain ⟨hone, -, hhigh⟩ := hx
    refine le_trans ?_ hhigh
    rw [Magnitude.toRat, one_le_div cast_unitsPerOne_pos]
    exact Nat.cast_le.mpr hone
  · have hunits : (unitsPerOne : ℚ) ≤ overflowUnits :=
      Nat.cast_le.mpr unitsPerOne_lt_overflowUnits.le
    exact (le_mul_iff_one_le_left cast_unitsPerOne_pos).mp (hunits.trans hx)

theorem pos (hx : x.Approximates a i) : 0 < a :=
  pos_of_mul_pos_left (zero_lt_one.trans_le hx.one_le)
    (pow_nonneg (zero_le_one.trans one_le_one_add_unitRoundoff) i)

/-- A factor that is not below 1 does not undo an overflow. -/
private theorem overflow_mul (ha : (overflowUnits : ℚ) ≤ a * (1 + unitRoundoff) ^ i * unitsPerOne)
    (hb : 1 ≤ b * (1 + unitRoundoff) ^ j) :
    (overflowUnits : ℚ) ≤ a * b * (1 + unitRoundoff) ^ (i + j + 1) * unitsPerOne := by
  have hfactor : 1 ≤ b * (1 + unitRoundoff) ^ j * (1 + unitRoundoff) :=
    one_le_mul_of_one_le_of_one_le hb one_le_one_add_unitRoundoff
  calc (overflowUnits : ℚ) ≤ a * (1 + unitRoundoff) ^ i * unitsPerOne := ha
    _ ≤ a * (1 + unitRoundoff) ^ i * unitsPerOne *
        (b * (1 + unitRoundoff) ^ j * (1 + unitRoundoff)) :=
      le_mul_of_one_le_right ((Nat.cast_nonneg _).trans ha) hfactor
    _ = a * b * (1 + unitRoundoff) ^ (i + j + 1) * unitsPerOne := by ring

/-- The factors of the roundings multiply. -/
private theorem roundings_mul_le {x y : ℚ} (ha : 0 < a) (hb : 0 < b)
    (hx : a * (1 - unitRoundoff) ^ i ≤ x) (hy : b * (1 - unitRoundoff) ^ j ≤ y) :
    a * b * (1 - unitRoundoff) ^ (i + j + 1) ≤ x * y * (1 - unitRoundoff) := by
  have hnonneg := one_sub_unitRoundoff_nonneg
  have hxNonneg : 0 ≤ x := le_trans (by positivity) hx
  calc a * b * (1 - unitRoundoff) ^ (i + j + 1)
      = a * (1 - unitRoundoff) ^ i * (b * (1 - unitRoundoff) ^ j) * (1 - unitRoundoff) := by ring
    _ ≤ x * y * (1 - unitRoundoff) := by gcongr

private theorem le_roundings_mul {x y : ℚ} (ha : 0 < a) (hy : 0 ≤ y)
    (hx : x ≤ a * (1 + unitRoundoff) ^ i) (hyHigh : y ≤ b * (1 + unitRoundoff) ^ j) :
    x * y * (1 + unitRoundoff) ≤ a * b * (1 + unitRoundoff) ^ (i + j + 1) := by
  have hnonneg := unitRoundoff_nonneg
  calc x * y * (1 + unitRoundoff)
      ≤ a * (1 + unitRoundoff) ^ i * (b * (1 + unitRoundoff) ^ j) * (1 + unitRoundoff) := by gcongr
    _ = a * b * (1 + unitRoundoff) ^ (i + j + 1) := by ring

/-- A product of two finite doubles is rounded once more. -/
private theorem finite_mul {m n : Magnitude} (hx : Approximates (.finite false m) a i)
    (hy : Approximates (.finite false n) b j) :
    Approximates (ofRatio false (m.units * n.units) unitsPerOne) (a * b) (i + j + 1) := by
  have ha := hx.pos
  have hb := hy.pos
  obtain ⟨hm, hmLow, hmHigh⟩ := hx
  obtain ⟨hn, hnLow, hnHigh⟩ := hy
  have hunits : unitsPerOne * unitsPerOne ≤ m.units * n.units := Nat.mul_le_mul hm hn
  have hnormal : 2 ^ (precision - 1) * unitsPerOne ≤ m.units * n.units :=
    Nat.le_trans (Nat.mul_le_mul_right _ two_pow_le_unitsPerOne) hunits
  obtain ⟨hlow, hhigh⟩ := roundUnits_relative unitsPerOne_pos hnormal
  rw [m.units_mul_units_div, mul_right_comm] at hlow hhigh
  replace hlow := (mul_le_mul_of_nonneg_right (roundings_mul_le ha hb hmLow hnLow)
    cast_unitsPerOne_pos.le).trans hlow
  replace hhigh := hhigh.trans (mul_le_mul_of_nonneg_right
    (le_roundings_mul ha n.toRat_nonneg hmHigh hnHigh) cast_unitsPerOne_pos.le)
  rw [ofRatio]
  split
  · refine ⟨?_, (le_div_iff₀ cast_unitsPerOne_pos).mpr hlow,
      (div_le_iff₀ cast_unitsPerOne_pos).mpr hhigh⟩
    exact le_roundUnits unitsPerOne_pos spacing_unitsPerOne_dvd hunits
  · next hrange => exact (Nat.cast_le.mpr (Nat.le_of_not_lt hrange)).trans hhigh

/-- A product is rounded as often as its factors together, and once more. -/
theorem mul (hx : x.Approximates a i) (hy : y.Approximates b j) :
    (x.mul y).Approximates (a * b) (i + j + 1) := by
  have hpos : ∀ {m : Magnitude}, unitsPerOne ≤ m.units → m.units ≠ 0 :=
    fun hm => (Nat.lt_of_lt_of_le unitsPerOne_pos hm).ne'
  match x, y, hx, hy with
  | .finite false m, .finite false n, hx, hy => exact finite_mul hx hy
  | .infinite false, .infinite false, hx, hy => exact overflow_mul hx hy.one_le
  | .infinite false, .finite false n, hx, hy =>
    rw [Binary64.mul, if_neg (hpos hy.1)]
    exact overflow_mul hx hy.one_le
  | .finite false m, .infinite false, hx, hy =>
    rw [Binary64.mul, if_neg (hpos hx.1), mul_comm a, Nat.add_comm i]
    exact overflow_mul hy hx.one_le

end Approximates

/-- Small powers of ten are not rounded at all. -/
theorem approximates_ofNat {exponent : Nat} (hexponent : exponent ≤ 22) :
    (ofNat (10 ^ exponent)).Approximates (10 ^ exponent) 0 := by
  obtain ⟨m, hm, hunits⟩ := exists_tenPower hexponent
  have hexact : m.toRat = 10 ^ exponent := by
    have hcast := Magnitude.toRat_eq_iff.mpr hunits
    push_cast at hcast
    exact hcast
  rw [← tenPower_eq_ofNat hexponent, hm]
  refine ⟨?_, ?_, ?_⟩
  · rw [hunits]
    exact Nat.le_mul_of_pos_left _ (Nat.pow_pos (by decide))
  · rw [hexact, pow_zero, mul_one]
  · rw [hexact, pow_zero, mul_one]

/-- From 10¹⁶ on each square is rounded. -/
theorem tenSquaredTimes_approximates (times : Nat) :
    (tenSquaredTimes (4 + times)).Approximates (10 ^ 2 ^ (4 + times)) (2 ^ times - 1) := by
  induction times with
  | zero =>
    have hexact : tenSquaredTimes 4 = ofNat (10 ^ 16) := by decide +kernel
    rw [hexact]
    exact approximates_ofNat (by decide)
  | succ times ih =>
    have hsquare := ih.mul ih
    rw [← pow_add, ← Nat.two_mul, ← Nat.pow_succ'] at hsquare
    have hroundings : 2 ^ times - 1 + (2 ^ times - 1) + 1 = 2 ^ (times + 1) - 1 := by
      have hpos := Nat.two_pow_pos times
      rw [Nat.pow_succ]
      omega
    rw [hroundings] at hsquare
    exact hsquare

/-- The product of the squares that the lowest binary digits of an exponent ask for. -/
def lowPower (exponent bits : Nat) : Binary64 :=
  (List.range bits).foldl
    (fun product i => if exponent.testBit i then product.mul (tenSquaredTimes i) else product)
    (ofNat 1)

theorem lowPower_succ (exponent bits : Nat) :
    lowPower exponent (bits + 1) =
      if exponent.testBit bits then (lowPower exponent bits).mul (tenSquaredTimes bits)
      else lowPower exponent bits := by
  rw [lowPower, List.range_succ, List.foldl_append]
  rfl

/-- The product reads no further digits. -/
theorem lowPower_mod (exponent : Nat) {bits width : Nat} (hbits : bits ≤ width) :
    lowPower (exponent % 2 ^ width) bits = lowPower exponent bits := by
  induction bits with
  | zero => rfl
  | succ bits ih =>
    have hdigit : (exponent % 2 ^ width).testBit bits = exponent.testBit bits := by
      rw [Nat.testBit_mod_two_pow, decide_eq_true (Nat.lt_of_succ_le hbits), Bool.true_and]
    rw [lowPower_succ, lowPower_succ, ih (Nat.le_of_succ_le hbits), hdigit]

/-- Four binary digits give an exact power. -/
theorem lowPower_four (exponent : Nat) : lowPower exponent 4 = ofNat (10 ^ (exponent % 16)) := by
  have hall : ∀ r : Fin 16, lowPower r 4 = ofNat (10 ^ (r : Nat)) := by decide +kernel
  rw [← lowPower_mod exponent (Nat.le_refl 4)]
  exact hall ⟨exponent % 16, Nat.mod_lt _ (by decide)⟩

/-- Each full sixteen in the exponent costs one rounding. -/
theorem lowPower_approximates (exponent bits : Nat) :
    (lowPower exponent (4 + bits)).Approximates (10 ^ (exponent % 2 ^ (4 + bits)))
      (exponent % 2 ^ (4 + bits) / 16) := by
  induction bits with
  | zero =>
    have hlow : exponent % 16 < 16 := Nat.mod_lt _ (by decide)
    rw [lowPower_four, Nat.add_zero, Nat.div_eq_of_lt hlow]
    exact approximates_ofNat (by omega)
  | succ bits ih =>
    rw [← Nat.add_assoc, lowPower_succ, Nat.mod_pow_succ, ← Nat.toNat_testBit]
    cases exponent.testBit (4 + bits) with
    | false => simpa using ih
    | true =>
      have hroundings : exponent % 2 ^ (4 + bits) / 16 + (2 ^ bits - 1) + 1 =
          (exponent % 2 ^ (4 + bits) + 2 ^ (4 + bits)) / 16 := by
        have hpos := Nat.two_pow_pos bits
        rw [Nat.pow_add]
        omega
      have hproduct := ih.mul (tenSquaredTimes_approximates bits)
      rw [hroundings, ← pow_add] at hproduct
      simpa using hproduct

/-- 10 to the power `n` is rounded once for each full sixteen in `n`. -/
theorem tenPower_approximates (exponent : Nat) :
    (tenPower exponent).Approximates (10 ^ exponent) (exponent / 16) := by
  rcases Nat.lt_or_ge exponent 16 with hlt | hge
  · rw [tenPower_eq_ofNat (by omega), Nat.div_eq_of_lt hlt]
    exact approximates_ofNat (by omega)
  · have hlog : 4 ≤ exponent.log2 := (Nat.le_log2 (by omega)).mpr hge
    obtain ⟨bits, hbits⟩ : ∃ bits, exponent.log2 + 1 = 4 + bits := ⟨exponent.log2 - 3, by omega⟩
    have hlow := lowPower_approximates exponent bits
    have hself : exponent < 2 ^ (exponent.log2 + 1) := Nat.lt_log2_self
    rw [← hbits, Nat.mod_eq_of_lt hself] at hlow
    exact hlow

/-! ## Where the powers end -/

private theorem ten_pow_lt {exponent : Nat} (hexponent : exponent ≤ 308) :
    10 ^ exponent * 3 * unitsPerOne < overflowUnits * 2 := by
  obtain ⟨largest, hlargest⟩ : ∃ largest, largest = 308 := ⟨_, rfl⟩
  have hlt : 10 ^ largest * 3 * unitsPerOne < overflowUnits * 2 := by
    subst hlargest
    decide +kernel
  rw [← hlargest] at hexponent
  refine Nat.lt_of_le_of_lt (Nat.mul_le_mul_right _ (Nat.mul_le_mul_right 3 ?_)) hlt
  exact Nat.pow_le_pow_right (by decide) hexponent

/-- Up to 10³⁰⁸ a power is finite. -/
theorem exists_tenPower_of_le {exponent : Nat} (hexponent : exponent ≤ 308) :
    ∃ m, tenPower exponent = .finite false m ∧
      Approximates (.finite false m) (10 ^ exponent) (exponent / 16) := by
  have happrox := tenPower_approximates exponent
  obtain ⟨m, hpower⟩ | hpower := happrox.eq_finite_or_infinite
  · rw [hpower] at happrox
    exact ⟨m, hpower, happrox⟩
  · rw [hpower] at happrox
    have hroundings : (1 + unitRoundoff) ^ (exponent / 16) ≤ 3 / 2 :=
      calc (1 + unitRoundoff) ^ (exponent / 16) ≤ (1 + unitRoundoff) ^ 19 :=
            pow_le_pow_right₀ one_le_one_add_unitRoundoff (by omega)
        _ ≤ 3 / 2 := by norm_num [unitRoundoff]
    have hlt : (10 ^ exponent * 3 * unitsPerOne : ℚ) < overflowUnits * 2 := by
      exact_mod_cast ten_pow_lt hexponent
    have hle : (overflowUnits : ℚ) ≤ 10 ^ exponent * (3 / 2) * unitsPerOne :=
      happrox.trans (by gcongr)
    linarith

private theorem le_nines_pow {exponent : Nat} (hexponent : 309 ≤ exponent) :
    overflowUnits * 100 ^ exponent ≤ 999 ^ exponent * unitsPerOne := by
  obtain ⟨least, hleast⟩ : ∃ least, least = 309 := ⟨_, rfl⟩
  have hle : overflowUnits * 100 ^ least ≤ 999 ^ least * unitsPerOne := by
    subst hleast
    decide +kernel
  rw [← hleast] at hexponent
  obtain ⟨more, rfl⟩ := Nat.exists_eq_add_of_le hexponent
  have hmore : 100 ^ more ≤ 999 ^ more := Nat.pow_le_pow_left (by decide) more
  rw [Nat.pow_add, Nat.pow_add, ← Nat.mul_assoc, Nat.mul_right_comm (999 ^ least)]
  exact Nat.mul_le_mul hle hmore

/-- From 10³⁰⁹ on it is infinite. -/
theorem tenPower_of_ge {exponent : Nat} (hexponent : 309 ≤ exponent) :
    tenPower exponent = .infinite false := by
  have happrox := tenPower_approximates exponent
  obtain ⟨m, hpower⟩ | hpower := happrox.eq_finite_or_infinite
  · rw [hpower] at happrox
    have hroundings : (1 - unitRoundoff) ^ exponent ≤ (1 - unitRoundoff) ^ (exponent / 16) :=
      pow_le_pow_of_le_one one_sub_unitRoundoff_nonneg
        (sub_le_self 1 unitRoundoff_nonneg) (Nat.div_le_self ..)
    have hnines : (999 / 100 : ℚ) ^ exponent ≤ m.toRat :=
      calc (999 / 100 : ℚ) ^ exponent ≤ (10 * (1 - unitRoundoff)) ^ exponent :=
            pow_le_pow_left₀ (by norm_num) (by norm_num [unitRoundoff]) exponent
        _ = 10 ^ exponent * (1 - unitRoundoff) ^ exponent := mul_pow ..
        _ ≤ 10 ^ exponent * (1 - unitRoundoff) ^ (exponent / 16) :=
            mul_le_mul_of_nonneg_left hroundings (by positivity)
        _ ≤ m.toRat := happrox.2.1
    have hlarge : (overflowUnits * 100 ^ exponent : ℚ) ≤ 999 ^ exponent * unitsPerOne := by
      exact_mod_cast le_nines_pow hexponent
    have hunits : (overflowUnits : ℚ) ≤ m.units :=
      calc (overflowUnits : ℚ) ≤ (999 / 100) ^ exponent * unitsPerOne := by
            rw [div_pow, div_mul_eq_mul_div, le_div_iff₀ (by positivity)]
            exact hlarge
        _ ≤ m.units := by
            rwa [Magnitude.toRat, le_div_iff₀ cast_unitsPerOne_pos] at hnines
    exact absurd m.inRange (Nat.not_lt.mpr (Nat.cast_le.mp hunits))
  · exact hpower

end Binary64

end CommaCalc
