import CommaCalc.Decimal.Shortest

/-!
# The decimal text of a double

Numbers are written in full, never with an exponent: the shortest digits that
read back, filled up with zeros to the units place, and a comma before the
places that remain.  A whole number has no comma.
-/

namespace CommaCalc

attribute [local instance (high)] instPowNat

/-- The comma between the whole part and the fraction. -/
def decimalMark : Char := ','

/-- The digits after the comma: the given number in `places` digits, less the
zeros at the end. -/
def fractionDigits (places value : Nat) : List Char :=
  let padded := List.leftpad places '0' (Nat.toDigits 10 value)
  (padded.reverse.dropWhile (· == '0')).reverse

/-- The text of a number of ticks of 10⁻¹⁰⁷⁵. -/
def ticksText (ticks : Nat) : List Char :=
  let whole := Nat.toDigits 10 (ticks / 10 ^ decimalPlaces)
  match fractionDigits decimalPlaces (ticks % 10 ^ decimalPlaces) with
  | [] => whole
  | fraction => whole ++ decimalMark :: fraction

private def signText (negative : Bool) : List Char :=
  if negative then ['-'] else []

/-- The decimal text as characters. -/
def Binary64.decimalChars : Binary64 → List Char
  | .nan => ['N', 'a', 'N']
  | .infinite s => signText s ++ ['i', 'n', 'f']
  | .finite s a => signText s ++ ticksText a.shortestTicks

/-- The decimal text of a double: `-0,5`, `100`, `-0`, `inf`, `NaN`. -/
def Binary64.decimalText (x : Binary64) : String :=
  String.ofList x.decimalChars

end CommaCalc
