import CommaCalc.Binary64.Bits
import CommaCalc.Proofs.Binary64.Exact

/-!
# Doubles and their bits

A magnitude has one exponent and one significand: the significand has its leading bit, or
the exponent is the least one.  Both can be read off the bits, whose exponent field counts
the leading bit as one more.  So a double is determined by its bits, and bits that are no
pattern of NaN are those of the double they stand for.
-/

namespace CommaCalc

open Rounding

attribute [local instance (high)] instPowNat

/-- A significand that is shifted has its leading bit. -/
def IsNormalized (significand exponent : Nat) : Prop :=
  exponent = 0 ∨ Binary64.exponentBit ≤ significand

variable {significand exponent : Nat}

/-- The grid of a magnitude has its exponent. -/
theorem IsNormalized.log2_eq (hnormalized : IsNormalized significand exponent)
    (hsignificand : significand < 2 ^ precision) :
    (significand * 2 ^ exponent).log2 + 1 - precision = exponent := by
  have hpow := Nat.two_pow_pos exponent
  obtain rfl | hlead := hnormalized
  · rw [Nat.pow_zero, Nat.mul_one]
    rcases Nat.eq_zero_or_pos significand with rfl | hpos
    · rfl
    · have hlog : significand.log2 < precision := (Nat.log2_lt (by omega)).mpr hsignificand
      omega
  · have hlow : 2 ^ (52 + exponent) ≤ significand * 2 ^ exponent := by
      rw [Nat.pow_add]
      exact Nat.mul_le_mul_right _ hlead
    have hhigh : significand * 2 ^ exponent < 2 ^ (52 + exponent + 1) := by
      rw [Nat.add_right_comm, Nat.pow_add]
      exact Nat.mul_lt_mul_of_pos_right hsignificand hpow
    have hlog : (significand * 2 ^ exponent).log2 = 52 + exponent := by
      refine (Nat.log2_eq_iff ?_).mpr ⟨hlow, hhigh⟩
      have hpos := Nat.two_pow_pos (52 + exponent)
      omega
    rw [hlog, precision]
    omega

/-- Every magnitude has a significand and an exponent. -/
theorem Magnitude.exists_ofParts (m : Magnitude) :
    ∃ (significand exponent : Nat) (hsignificand : significand < 2 ^ precision)
      (hexponent : exponent + precision ≤ overflowExponent),
      IsNormalized significand exponent ∧
        m = .ofParts significand exponent hsignificand hexponent := by
  have hlimit : precision ≤ overflowExponent := by decide
  have hrange : m.units < 2 ^ overflowExponent := overflowUnits_eq ▸ m.inRange
  have hexponent : m.units.log2 + 1 - precision + precision ≤ overflowExponent := by
    rcases Nat.eq_zero_or_pos m.units with hzero | hpos
    · rw [hzero]
      exact hlimit
    · have hlog := (Nat.log2_lt (by omega)).mpr hrange
      omega
  refine ⟨m.units / spacing m.units, _, div_spacing_lt m.units, hexponent, ?_,
    Magnitude.ext (Nat.div_mul_cancel m.spacing_dvd).symm⟩
  rcases Nat.lt_or_ge m.units.log2 precision with hlog | hlog
  · left
    omega
  · right
    have hunits : m.units ≠ 0 := by
      intro hzero
      rw [hzero] at hlog
      exact absurd hlog (by decide)
    have hself : 2 ^ m.units.log2 ≤ m.units := Nat.log2_self_le hunits
    have hbits : 52 + (m.units.log2 + 1 - precision) = m.units.log2 := by
      rw [precision] at hlog ⊢
      omega
    rw [Nat.le_div_iff_mul_le (spacing_pos _)]
    calc Binary64.exponentBit * spacing m.units
        = 2 ^ (52 + (m.units.log2 + 1 - precision)) := by rw [Nat.pow_add]; rfl
      _ ≤ m.units := by rwa [hbits]

namespace Binary64

@[simp]
theorem signPattern_false : signPattern false = 0 := rfl

@[simp]
theorem signPattern_true : signPattern true = signBit := rfl

/-- The sign, the exponent field and the fraction of some bits. -/
structure HasFields (bits : UInt64) (negative : Bool) (field fraction : Nat) : Prop where
  field_lt : field < 2048
  fraction_lt : fraction < exponentBit
  toNat_eq : bits.toNat = signPattern negative + field * exponentBit + fraction

variable {bits bits' : UInt64} {negative : Bool} {field fraction : Nat}

theorem exists_hasFields (bits : UInt64) :
    ∃ negative field fraction, HasFields bits negative field fraction := by
  have hsize := bits.toNat_lt
  refine ⟨decide (signBit ≤ bits.toNat), bits.toNat / exponentBit % 2048,
    bits.toNat % exponentBit, Nat.mod_lt _ (by decide), Nat.mod_lt _ (by decide), ?_⟩
  by_cases hsign : signBit ≤ bits.toNat
  · rw [decide_eq_true hsign, signPattern_true]
    simp only [signBit, exponentBit] at hsign ⊢
    omega
  · rw [decide_eq_false hsign, signPattern_false]
    simp only [signBit, exponentBit] at hsign ⊢
    omega

namespace HasFields

/-- Bits are determined by their fields. -/
theorem unique (h : HasFields bits negative field fraction)
    (h' : HasFields bits' negative field fraction) : bits = bits' := by
  rw [← UInt64.toNat_inj, h.toNat_eq, h'.toNat_eq]

/-- There are bits with any fields. -/
theorem of_fields (negative : Bool) (hfield : field < 2048) (hfraction : fraction < exponentBit) :
    HasFields (UInt64.ofNat (signPattern negative + field * exponentBit + fraction)) negative
      field fraction := by
  have hsign : signPattern negative ≤ signBit := by cases negative <;> decide
  refine ⟨hfield, hfraction, UInt64.toNat_ofNat_of_lt ?_⟩
  simp only [exponentBit, signBit, UInt64.size] at hfraction hsign ⊢
  omega

section Fields

variable (h : HasFields bits negative field fraction)

include h

theorem negative_eq : decide (signBit ≤ bits.toNat) = negative := by
  obtain ⟨hfield, hfraction, hbits⟩ := h
  cases negative with
  | false =>
    refine decide_eq_false ?_
    rw [hbits, signPattern_false]
    simp only [exponentBit, signBit] at hfraction ⊢
    omega
  | true =>
    refine decide_eq_true ?_
    rw [hbits, signPattern_true, Nat.add_assoc]
    exact Nat.le_add_right _ _

theorem field_eq : bits.toNat / exponentBit % 2048 = field := by
  obtain ⟨hfield, hfraction, hbits⟩ := h
  rw [hbits]
  cases negative <;>
    simp only [signPattern_false, signPattern_true, exponentBit, signBit] at hfraction ⊢ <;> omega

theorem fraction_eq : bits.toNat % exponentBit = fraction := by
  obtain ⟨hfield, hfraction, hbits⟩ := h
  rw [hbits]
  cases negative <;>
    simp only [signPattern_false, signPattern_true, exponentBit, signBit] at hfraction ⊢ <;> omega

end Fields

/-- With all bits of the exponent field set, the bits are those of an infinity or of NaN. -/
theorem ofBits_special (h : HasFields bits negative 2047 fraction) :
    ofBits bits = if fraction = 0 then .infinite negative else .nan := by
  rw [ofBits]
  simp only [h.negative_eq, h.field_eq, h.fraction_eq, dif_pos]

/-- Without any, they are those of a double with the least exponent. -/
theorem ofBits_least (h : HasFields bits negative 0 fraction)
    (hsignificand : fraction < 2 ^ precision) (hexponent : 0 + precision ≤ overflowExponent) :
    ofBits bits = .finite negative (.ofParts fraction 0 hsignificand hexponent) := by
  rw [ofBits]
  simp only [h.negative_eq, h.field_eq, h.fraction_eq]
  rfl

/-- Otherwise the exponent is one less, and the significand has its leading bit. -/
theorem ofBits_leading (h : HasFields bits negative (exponent + 1) fraction)
    (hsignificand : exponentBit + fraction < 2 ^ precision)
    (hexponent : exponent + precision ≤ overflowExponent) :
    ofBits bits =
      .finite negative (.ofParts (exponentBit + fraction) exponent hsignificand hexponent) := by
  have hspecial : exponent + 1 ≠ 2047 := by
    simp only [precision, overflowExponent] at hexponent
    omega
  rw [ofBits]
  simp only [h.negative_eq, h.field_eq, h.fraction_eq, dif_neg hspecial, Nat.add_sub_cancel]
  rfl

end HasFields

/-- The bits of a finite double with the given significand and exponent. -/
theorem toBits_ofParts (negative : Bool) (hsignificand : significand < 2 ^ precision)
    (hexponent : exponent + precision ≤ overflowExponent)
    (hnormalized : IsNormalized significand exponent) :
    toBits (.finite negative (.ofParts significand exponent hsignificand hexponent)) =
      UInt64.ofNat (signPattern negative + exponent * exponentBit + significand) := by
  have hlog := hnormalized.log2_eq hsignificand
  simp only [toBits, Magnitude.ofParts, hlog, Nat.mul_div_cancel _ (Nat.two_pow_pos exponent)]

theorem hasFields_infinite (negative : Bool) :
    HasFields (toBits (.infinite negative)) negative 2047 0 := by
  have hbits : infinityBits = 2047 * exponentBit := by decide
  have hfields : HasFields _ negative 2047 0 := .of_fields negative (by decide) (by decide)
  rwa [← hbits, Nat.add_zero] at hfields

theorem hasFields_nan : HasFields (toBits .nan) false 2047 (exponentBit / 2) := by
  have hbits : nanBits = signPattern false + 2047 * exponentBit + exponentBit / 2 := by decide
  rw [toBits, hbits]
  exact .of_fields false (by decide) (by decide)

theorem hasFields_least (negative : Bool) (hfraction : fraction < exponentBit)
    (hsignificand : fraction < 2 ^ precision) (hexponent : 0 + precision ≤ overflowExponent) :
    HasFields (toBits (.finite negative (.ofParts fraction 0 hsignificand hexponent))) negative
      0 fraction := by
  rw [toBits_ofParts negative hsignificand hexponent (.inl rfl)]
  exact .of_fields negative (by decide) hfraction

theorem hasFields_leading (negative : Bool) (hfraction : fraction < exponentBit)
    (hsignificand : exponentBit + fraction < 2 ^ precision)
    (hexponent : exponent + precision ≤ overflowExponent) :
    HasFields (toBits (.finite negative
      (.ofParts (exponentBit + fraction) exponent hsignificand hexponent)))
      negative (exponent + 1) fraction := by
  have hfield : exponent + 1 < 2048 := by
    simp only [precision, overflowExponent] at hexponent
    omega
  have hfields := HasFields.of_fields negative hfield hfraction
  rwa [Nat.succ_mul, ← Nat.add_assoc, Nat.add_assoc _ exponentBit fraction,
    ← toBits_ofParts negative hsignificand hexponent (.inr (Nat.le_add_right ..))] at hfields

/-- A double is read back from its bits. -/
theorem ofBits_toBits (x : Binary64) : ofBits x.toBits = x := by
  cases x with
  | nan => rw [hasFields_nan.ofBits_special, if_neg (by decide)]
  | infinite negative => rw [(hasFields_infinite negative).ofBits_special, if_pos rfl]
  | finite negative m =>
    obtain ⟨significand, exponent, hsignificand, hexponent, hnormalized, rfl⟩ := m.exists_ofParts
    rcases Nat.lt_or_ge significand exponentBit with hlt | hge
    · obtain rfl := hnormalized.resolve_right (Nat.not_le.mpr hlt)
      exact (hasFields_least negative hlt hsignificand hexponent).ofBits_least _ _
    · obtain ⟨fraction, rfl⟩ := Nat.exists_eq_add_of_le hge
      have hfraction : fraction < exponentBit := by
        simp only [precision, exponentBit] at hsignificand ⊢
        omega
      exact (hasFields_leading negative hfraction hsignificand hexponent).ofBits_leading _ _

/-- Bits that are no pattern of NaN are those of the double that is read from them. -/
theorem toBits_ofBits (hnan : ofBits bits ≠ .nan) : (ofBits bits).toBits = bits := by
  obtain ⟨negative, field, fraction, h⟩ := exists_hasFields bits
  have hfraction := h.fraction_lt
  by_cases hspecial : field = 2047
  · subst hspecial
    rw [h.ofBits_special] at hnan ⊢
    split at hnan
    · next hzero =>
      subst hzero
      rw [if_pos rfl]
      exact (hasFields_infinite negative).unique h
    · exact absurd rfl hnan
  · cases field with
    | zero =>
      have hsignificand : fraction < 2 ^ precision := Nat.lt_trans hfraction (by decide)
      rw [h.ofBits_least hsignificand (by decide)]
      exact (hasFields_least negative hfraction hsignificand (by decide)).unique h
    | succ exponent =>
      have hfield := h.field_lt
      have hsignificand : exponentBit + fraction < 2 ^ precision := by
        simp only [precision, exponentBit] at hfraction ⊢
        omega
      have hexponent : exponent + precision ≤ overflowExponent := by
        simp only [precision, overflowExponent]
        omega
      rw [h.ofBits_leading hsignificand hexponent]
      exact (hasFields_leading negative hfraction hsignificand hexponent).unique h

end Binary64

end CommaCalc
