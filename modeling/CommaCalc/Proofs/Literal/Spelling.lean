import CommaCalc.Literal
import CommaCalc.Proofs.Text.Digits

/-!
# How a number literal is spelled

A `Spelling` holds the pieces of a literal: an optional minus sign with the blanks
behind it, the digits of the whole part, and an optional fraction with the blanks
behind its comma.  The text in front of a scanner is exactly one of four things:
blanks and a spelling that ends there, blanks alone, the stem of a literal whose
next digit is missing, or a whole part that is too large.  `exists_front` is that
case distinction; every statement about reading a literal starts from it.
-/

namespace CommaCalc

/-- A minus sign with the blanks behind it, or nothing. -/
def minusChars : Option Blanks → List Char
  | none => []
  | some gap => '-' :: gap.chars

/-- A comma, the blanks behind it and the digits of a fraction, or nothing. -/
def fractionChars : Option (Blanks × Digits) → List Char
  | none => []
  | some (gap, run) => decimalMark :: (gap.chars ++ run.chars)

/-- The factor that a sign stands for. -/
def signFactor (minus : Option Blanks) : Binary64 :=
  if minus.isSome then (Binary64.ofNat 1).neg else Binary64.ofNat 1

@[simp]
theorem signFactor_none : signFactor none = Binary64.ofNat 1 := if_neg (by simp)

@[simp]
theorem signFactor_some (gap : Blanks) : signFactor (some gap) = (Binary64.ofNat 1).neg :=
  if_pos rfl

/-- The value of the digits behind a comma: those that fit, over a power of ten. -/
def Digits.fraction (run : Digits) : Binary64 :=
  Binary64.ofFraction (Numeral.longest run.chars).value (Numeral.longest run.chars).digits

/-- A whole part with the value of its fraction added. -/
def addFraction (whole : Binary64) : Option (Blanks × Digits) → Binary64
  | none => whole
  | some (_, run) => whole.add run.fraction

/-- The pieces of a number literal. -/
@[ext]
structure Spelling where
  minus : Option Blanks
  whole : Digits
  fits : whole.value < numeralLimit
  fraction : Option (Blanks × Digits)

namespace Spelling

/-- The literal as it is written. -/
def chars (s : Spelling) : List Char :=
  minusChars s.minus ++ (s.whole.chars ++ fractionChars s.fraction)

/-- The value without the sign. -/
def magnitude (s : Spelling) : Binary64 :=
  addFraction (Binary64.ofNat s.whole.value) s.fraction

/-- The value of the literal. -/
def value (s : Spelling) : Binary64 :=
  (signFactor s.minus).mul s.magnitude

/-- The text behind the literal does not go on with it: no further digit, and no
comma behind a whole part alone. -/
def EndsBefore (s : Spelling) (tail : List Char) : Prop :=
  Stops Char.isDigit tail ∧ (s.fraction = none → tail.head? ≠ some decimalMark)

end Spelling

/-- The start of a literal, up to where a digit has to follow. -/
inductive Stem where
  | wholePart (minus : Option Blanks)
  | fractionPart (minus : Option Blanks) (whole : Digits) (fits : whole.value < numeralLimit)
      (gap : Blanks)

namespace Stem

/-- The stem as it is written. -/
def chars : Stem → List Char
  | wholePart minus => minusChars minus
  | fractionPart minus whole _ gap =>
    minusChars minus ++ (whole.chars ++ decimalMark :: gap.chars)

/-- The part of the literal that the missing digit belongs to. -/
def place : Stem → Place
  | wholePart _ => .integerPart
  | fractionPart .. => .fractionPart

/-- The text behind the stem begins with neither a digit nor anything else that the
stem could go on with. -/
def StopsAt (stem : Stem) (tail : List Char) : Prop :=
  Stops isBlank tail ∧ Stops Char.isDigit tail ∧
    (stem = wholePart none → tail ≠ [] ∧ tail.head? ≠ some '-')

end Stem

/-- What can stand at the front of a text that is read for a literal. -/
inductive Front : List Char → Prop where
  | literal (gap : Blanks) (s : Spelling) (tail : List Char) (hends : s.EndsBefore tail) :
      Front (gap.chars ++ (s.chars ++ tail))
  | nothing (gap : Blanks) : Front gap.chars
  | noDigit (gap : Blanks) (stem : Stem) (tail : List Char) (hstops : stem.StopsAt tail) :
      Front (gap.chars ++ (stem.chars ++ tail))
  | tooLarge (gap : Blanks) (minus : Option Blanks) (run : Digits) (tail : List Char)
      (hrun : numeralLimit ≤ run.value) (htail : Stops Char.isDigit tail) :
      Front (gap.chars ++ (minusChars minus ++ (run.chars ++ tail)))

/-- A text without leading blanks is a sign or none, followed by what no sign can
go on with. -/
private theorem exists_minus_append {cs : List Char} (hcs : Stops isBlank cs) :
    ∃ (minus : Option Blanks) (tail : List Char), cs = minusChars minus ++ tail ∧
      Stops isBlank tail ∧ (minus = none → tail = cs ∧ tail.head? ≠ some '-') := by
  by_cases hminus : cs.head? = some '-'
  · obtain ⟨rest, rfl⟩ := List.head?_eq_some_iff.mp hminus
    obtain ⟨gap, tail, rfl, htail⟩ := exists_blanks_append rest
    exact ⟨some gap, tail, rfl, htail, by simp⟩
  · exact ⟨none, cs, rfl, hcs, fun _ => ⟨rfl, hminus⟩⟩

/-- What stands behind the whole part: a fraction, the end of the literal, or a
comma without digits. -/
private theorem front_of_whole (gap : Blanks) (minus : Option Blanks) (whole : Digits)
    (hfits : whole.value < numeralLimit) {cs : List Char} (hcs : Stops Char.isDigit cs) :
    Front (gap.chars ++ (minusChars minus ++ (whole.chars ++ cs))) := by
  by_cases hmark : cs.head? = some decimalMark
  · obtain ⟨rest, rfl⟩ := List.head?_eq_some_iff.mp hmark
    obtain ⟨inner, run, tail, htail⟩ | ⟨inner, tail, hblank, hdigit⟩ := exists_digitFront rest
    · have hfront := Front.literal gap ⟨minus, whole, hfits, some (inner, run)⟩ tail
        ⟨htail, by simp⟩
      simpa only [Spelling.chars, fractionChars, List.append_assoc, List.cons_append]
        using hfront
    · have hfront := Front.noDigit gap (.fractionPart minus whole hfits inner) tail
        ⟨hblank, hdigit, by simp⟩
      simpa only [Stem.chars, List.append_assoc, List.cons_append] using hfront
  · have hfront := Front.literal gap ⟨minus, whole, hfits, none⟩ cs ⟨hcs, fun _ => hmark⟩
    simpa only [Spelling.chars, fractionChars, List.append_assoc, List.nil_append] using hfront

/-- Every text is one of the four. -/
theorem exists_front (cs : List Char) : Front cs := by
  obtain ⟨gap, body, rfl, hbody⟩ := exists_blanks_append cs
  obtain ⟨minus, body', rfl, hbody', hnone⟩ := exists_minus_append hbody
  by_cases hdigit : Stops Char.isDigit body'
  · by_cases hnothing : minus = none ∧ body' = []
    · obtain ⟨rfl, rfl⟩ := hnothing
      simpa only [minusChars, List.append_nil] using Front.nothing gap
    · refine Front.noDigit gap (.wholePart minus) body' ⟨hbody', hdigit, ?_⟩
      intro hstem
      have hminus : minus = none := by simpa using hstem
      exact ⟨fun hnil => hnothing ⟨hminus, hnil⟩, (hnone hminus).2⟩
  · obtain ⟨run, tail, rfl, htail⟩ := exists_digits_append body' hdigit
    by_cases hfits : run.value < numeralLimit
    · exact front_of_whole gap minus run hfits htail
    · exact Front.tooLarge gap minus run tail (Nat.le_of_not_lt hfits) htail

end CommaCalc
