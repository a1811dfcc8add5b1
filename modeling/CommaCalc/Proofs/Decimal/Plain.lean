import CommaCalc.Proofs.Decimal.Spelled
import Mathlib.Data.List.DropRight

/-!
# Digits without the zeros that do not count

A number of ticks is written without zeros in front, except for a single zero, and without
zeros at the end of its fraction.  Digits of one length and one value are the same, so the
digits that are written for the value of some digits are those digits, less such zeros, and
different numbers of ticks are written differently.  So are different doubles.
-/

namespace CommaCalc

open Rounding

attribute [local instance (high)] instPowNat

/-- Digits are determined by their number and their value. -/
theorem eq_of_decimalValue_eq {cs ds : List Char} (hcs : ∀ c ∈ cs, c.isDigit = true)
    (hds : ∀ d ∈ ds, d.isDigit = true) (hlength : cs.length = ds.length)
    (hvalue : decimalValue cs = decimalValue ds) : cs = ds := by
  induction cs generalizing ds with
  | nil => exact (List.length_eq_zero_iff.mp hlength.symm).symm
  | cons c cs ih =>
    obtain ⟨d, ds, rfl⟩ := List.exists_cons_of_length_eq_add_one hlength.symm
    rw [List.length_cons, List.length_cons, Nat.succ_inj] at hlength
    obtain ⟨hc, hcs⟩ := List.forall_mem_cons.mp hcs
    obtain ⟨hd, hds⟩ := List.forall_mem_cons.mp hds
    have hhead : ∀ e : Char, decimalValue [e] = e.toNat - 48 := fun e => by
      simp [decimalValue, Nat.ofDigitChars_cons]
    have hcsLt := decimalValue_lt hcs
    have hdsLt := decimalValue_lt hds
    rw [← List.singleton_append, ← List.singleton_append (l := ds), decimalValue_append,
      decimalValue_append, hhead, hhead, hlength] at hvalue
    rw [hlength] at hcsLt
    have hpos : 0 < 10 ^ ds.length := Nat.pow_pos (by decide)
    have hdigit := congrArg (· / 10 ^ ds.length) hvalue
    simp only [Nat.mul_add_div hpos, Nat.div_eq_of_lt hcsLt, Nat.div_eq_of_lt hdsLt] at hdigit
    have hrest := congrArg (· % 10 ^ ds.length) hvalue
    simp only [Nat.mul_add_mod, Nat.mod_eq_of_lt hcsLt, Nat.mod_eq_of_lt hdsLt] at hrest
    rw [Char.isDigit_iff_toNat] at hc hd
    simp only [Char.reduceToNat] at hc hd
    have hchar : c = d := Char.toNat_inj.mp (by omega)
    rw [hchar, ih hcs hds hlength hrest]

/-- Digits are their value, filled up with zeros in front. -/
theorem leftpad_toDigits_decimalValue {cs : List Char} (hcs : ∀ c ∈ cs, c.isDigit = true)
    (hne : cs ≠ []) : List.leftpad cs.length '0' (Nat.toDigits 10 (decimalValue cs)) = cs :=
  eq_of_decimalValue_eq (fun _ => isDigit_of_mem_leftpad) hcs
    (length_leftpad (List.length_pos_iff.mpr hne) (decimalValue_lt hcs)) (decimalValue_leftpad _ _)

/-- A number other than 0 is written without a zero in front. -/
theorem dropWhile_zero_toDigits {n : Nat} (hn : n ≠ 0) :
    (Nat.toDigits 10 n).dropWhile (· == '0') = Nat.toDigits 10 n := by
  have hvalue := decimalValue_dropWhile_zero (Nat.toDigits 10 n)
  rw [decimalValue_toDigits] at hvalue
  have hsuffix := List.dropWhile_suffix (l := Nat.toDigits 10 n) (· == '0')
  refine hsuffix.eq_of_length_le ?_
  have hdigit : ∀ c ∈ (Nat.toDigits 10 n).dropWhile (· == '0'), c.isDigit = true :=
    fun c hc => Nat.isDigit_of_mem_toDigits (by decide) (by decide) (hsuffix.mem hc)
  generalize (Nat.toDigits 10 n).dropWhile (· == '0') = rest at hvalue hdigit ⊢
  have hne : rest ≠ [] := by
    rintro rfl
    exact hn hvalue.symm
  rw [Nat.length_toDigits_le_iff (by decide) (List.length_pos_iff.mpr hne), ← hvalue]
  exact decimalValue_lt hdigit

/-- The digits of a whole part without the zeros in front, but at least a zero. -/
def plainWhole (cs : List Char) : List Char :=
  if cs.dropWhile (· == '0') = [] then ['0'] else cs.dropWhile (· == '0')

/-- The digits of a fraction behind their comma, without the zeros at the end. -/
def plainFraction (cs : List Char) : List Char :=
  if cs.rdropWhile (· == '0') = [] then [] else decimalMark :: cs.rdropWhile (· == '0')

/-- The value of digits is written as the plain digits. -/
theorem toDigits_decimalValue {cs : List Char} (hcs : ∀ c ∈ cs, c.isDigit = true)
    (hne : cs ≠ []) : Nat.toDigits 10 (decimalValue cs) = plainWhole cs := by
  have hdrop : cs.dropWhile (· == '0') =
      (Nat.toDigits 10 (decimalValue cs)).dropWhile (· == '0') := by
    conv_lhs => rw [← leftpad_toDigits_decimalValue hcs hne, List.leftpad]
    exact List.dropWhile_append_of_pos fun c hc => by simpa using List.eq_of_mem_replicate hc
  rw [plainWhole, hdrop]
  rcases Nat.eq_zero_or_pos (decimalValue cs) with hzero | hpos
  · rw [hzero, Nat.toDigits_zero]
    rfl
  · rw [dropWhile_zero_toDigits hpos.ne', if_neg Nat.toDigits_ne_nil]

/-- So are the places of a fraction. -/
theorem fractionDigits_decimalValue {cs : List Char} {places : Nat}
    (hcs : ∀ c ∈ cs, c.isDigit = true) (hplaces : 0 < places) (hlength : cs.length ≤ places) :
    fractionDigits places (decimalValue cs * 10 ^ (places - cs.length)) =
      cs.rdropWhile (· == '0') := by
  have hvalue : decimalValue (cs ++ List.replicate (places - cs.length) '0') =
      decimalValue cs * 10 ^ (places - cs.length) := by
    rw [decimalValue_append, decimalValue_replicate_zero, Nat.add_zero, List.length_replicate,
      Nat.mul_comm]
  have hdigit : ∀ c ∈ cs ++ List.replicate (places - cs.length) '0', c.isDigit = true := by
    intro c hc
    rcases List.mem_append.mp hc with hc | hc
    · exact hcs c hc
    · rw [List.eq_of_mem_replicate hc]
      decide
  have hpadded : (cs ++ List.replicate (places - cs.length) '0').length = places := by
    rw [List.length_append, List.length_replicate, Nat.add_sub_cancel' hlength]
  have hne : cs ++ List.replicate (places - cs.length) '0' ≠ [] := by
    rw [← List.length_pos_iff, hpadded]
    exact hplaces
  have hsame := leftpad_toDigits_decimalValue hdigit hne
  rw [hpadded, hvalue] at hsame
  rw [fractionDigits, hsame, List.rdropWhile, List.reverse_append, List.reverse_replicate,
    List.dropWhile_append_of_pos fun c hc => by simpa using List.eq_of_mem_replicate hc]

/-- Digits in front of and behind a comma, in ticks, are written as the plain digits. -/
theorem ticksText_decimalValue {whole fraction : List Char}
    (hwhole : ∀ c ∈ whole, c.isDigit = true) (hne : whole ≠ [])
    (hfraction : ∀ c ∈ fraction, c.isDigit = true) (hlength : fraction.length ≤ decimalPlaces) :
    ticksText (decimalValue whole * 10 ^ decimalPlaces +
        decimalValue fraction * 10 ^ (decimalPlaces - fraction.length)) =
      plainWhole whole ++ plainFraction fraction := by
  have hpos : 0 < 10 ^ decimalPlaces := Nat.pow_pos (by decide)
  have hrest : decimalValue fraction * 10 ^ (decimalPlaces - fraction.length) <
      10 ^ decimalPlaces :=
    calc decimalValue fraction * 10 ^ (decimalPlaces - fraction.length)
        < 10 ^ fraction.length * 10 ^ (decimalPlaces - fraction.length) :=
          Nat.mul_lt_mul_of_pos_right (decimalValue_lt hfraction) (Nat.pow_pos (by decide))
      _ = 10 ^ decimalPlaces := by rw [← Nat.pow_add, Nat.add_sub_cancel' hlength]
  rw [ticksText_eq, tickWhole_chars, fractionChars_tickFraction, tickDigits,
    Nat.mul_comm (decimalValue whole), Nat.mul_add_div hpos, Nat.div_eq_of_lt hrest, Nat.add_zero,
    Nat.mul_add_mod, Nat.mod_eq_of_lt hrest, toDigits_decimalValue hwhole hne,
    fractionDigits_decimalValue hfraction (by decide) hlength, plainFraction]

/-- Different numbers of ticks are written differently. -/
theorem ticksText_inj {a b : Nat} (htext : ticksText a = ticksText b) : a = b := by
  have hstops : ∀ ticks, Stops Char.isDigit (fractionChars (tickFraction ticks)) := by
    intro ticks
    rw [← List.append_nil (fractionChars _)]
    exact Spelling.stops_isDigit_fractionChars fun _ => stops_nil
  rw [ticksText_eq, ticksText_eq] at htext
  obtain ⟨hwhole, hfraction⟩ := append_stops_inj (tickWhole a).digit (hstops a) (tickWhole b).digit
    (hstops b) htext
  have hdigits : tickDigits a = tickDigits b := by
    have htail : ∀ digits : List Char,
        (if digits = [] then [] else decimalMark :: digits).tail = digits := by
      intro digits
      split <;> simp_all
    rw [fractionChars_tickFraction, fractionChars_tickFraction] at hfraction
    rw [← htail (tickDigits a), hfraction, htail]
  have hdiv : a / 10 ^ decimalPlaces = b / 10 ^ decimalPlaces := by
    rw [← tickWhole_value, ← tickWhole_value, Digits.value, hwhole, Digits.value]
  have hmod : a % 10 ^ decimalPlaces = b % 10 ^ decimalPlaces := by
    rw [← (decimalValue_tickDigits a).1, hdigits, (decimalValue_tickDigits b).1]
  rw [← Nat.div_add_mod a (10 ^ decimalPlaces), hdiv, hmod, Nat.div_add_mod]

/-- A number of ticks begins with a digit. -/
theorem ticksText_ne_cons {c : Char} {cs : List Char} (hc : c.isDigit = false) (ticks : Nat) :
    ticksText ticks ≠ c :: cs := by
  intro htext
  rw [ticksText_eq] at htext
  obtain ⟨d, ds, hdigits, hd⟩ := (tickWhole ticks).exists_cons_append _
  rw [hdigits] at htext
  rw [(List.cons.inj htext).1, hc] at hd
  exact Bool.noConfusion hd

namespace Binary64

/-- Whether a text has a sign. -/
def hasMinus : Binary64 → Bool
  | .nan => false
  | .infinite s => s
  | .finite s _ => s

/-- The text behind the sign. -/
def unsignedChars : Binary64 → List Char
  | .nan => ['N', 'a', 'N']
  | .infinite _ => ['i', 'n', 'f']
  | .finite _ m => ticksText m.shortestTicks

theorem decimalChars_eq (x : Binary64) :
    x.decimalChars = minusChars (signBlanks x.hasMinus) ++ x.unsignedChars := by
  cases x with
  | nan => rfl
  | infinite s => cases s <;> rfl
  | finite s m => exact decimalChars_finite s m

theorem head?_unsignedChars_ne_minus (x : Binary64) : x.unsignedChars.head? ≠ some '-' := by
  cases x with
  | nan => simp [unsignedChars]
  | infinite s => simp [unsignedChars]
  | finite s m =>
    intro hhead
    obtain ⟨tail, htail⟩ := List.head?_eq_some_iff.mp hhead
    exact ticksText_ne_cons (by decide) m.shortestTicks htail

/-- A sign is recognised in front of texts that begin with none. -/
theorem sign_append_inj {s t : Bool} {cs ds : List Char} (hcs : cs.head? ≠ some '-')
    (hds : ds.head? ≠ some '-')
    (heq : minusChars (signBlanks s) ++ cs = minusChars (signBlanks t) ++ ds) :
    s = t ∧ cs = ds := by
  cases s with
  | false =>
    cases t with
    | false => exact ⟨rfl, heq⟩
    | true =>
      rw [show cs = '-' :: ds from heq] at hcs
      exact absurd rfl hcs
  | true =>
    cases t with
    | false =>
      rw [show ds = '-' :: cs from heq.symm] at hds
      exact absurd rfl hds
    | true => exact ⟨rfl, (List.cons.inj heq).2⟩

/-- Different doubles are written differently, the two zeros included. -/
theorem decimalText_injective : Function.Injective decimalText := by
  intro x y htext
  have hdecimal := String.ofList_injective htext
  rw [decimalChars_eq, decimalChars_eq] at hdecimal
  obtain ⟨hsign, hchars⟩ := sign_append_inj x.head?_unsignedChars_ne_minus
    y.head?_unsignedChars_ne_minus hdecimal
  cases x with
  | nan =>
    cases y with
    | nan => rfl
    | infinite t => exact absurd hchars (by simp [unsignedChars])
    | finite t k => exact absurd hchars.symm (ticksText_ne_cons (by decide) k.shortestTicks)
  | infinite s =>
    cases y with
    | nan => exact absurd hchars (by simp [unsignedChars])
    | infinite t => exact congrArg Binary64.infinite hsign
    | finite t k => exact absurd hchars.symm (ticksText_ne_cons (by decide) k.shortestTicks)
  | finite s m =>
    cases y with
    | nan => exact absurd hchars (ticksText_ne_cons (by decide) m.shortestTicks)
    | infinite t => exact absurd hchars (ticksText_ne_cons (by decide) m.shortestTicks)
    | finite t k =>
      have hticks : m.shortestTicks = k.shortestTicks := ticksText_inj hchars
      have hunits : m.units = k.units := by
        rw [← m.roundUnits_shortestTicks, hticks, k.roundUnits_shortestTicks]
      rw [show s = t from hsign, Magnitude.ext hunits]

end Binary64

end CommaCalc
