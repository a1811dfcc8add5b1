import CommaCalc.Binary64.Fraction
import CommaCalc.Decimal.Text
import CommaCalc.Scan

/-!
# Number literals

A literal is an optional minus sign, a run of digits and, directly after it, an
optional comma with a second run of digits.  Blanks may stand before the sign
and before either run, but not before the comma.

The whole part has to stay below 2¹²⁸.  The fraction may be of any length: it
keeps the digits that fit and reads over the others.
-/

namespace CommaCalc.Literal

/-- Reads blanks and makes sure that a digit follows, whose position is returned. -/
def expectDigit : Scan Nat := do
  Scan.skipBlanks
  let position ← Scan.position
  let found ← Scan.peek
  if found.any Char.isDigit then
    return position
  else
    Scan.fail (.missingDigits position found)

/-- Reads an optional sign, as the factor that it stands for. -/
def sign : Scan Binary64 := do
  Scan.skipBlanks
  if ← Scan.eat '-' then
    return (Binary64.ofNat 1).neg
  else
    return Binary64.ofNat 1

/-- Reads the whole part.  A run that reaches 2¹²⁸ is too large; the cursor then
stands on the first digit that did not fit. -/
def wholePart : Scan Nat := do
  let start ← expectDigit
  let numeral ← Scan.numeral
  if (← Scan.peek).any Char.isDigit then
    Scan.fail (.integerTooLarge start)
  else
    return numeral.value

/-- Reads the digits after a comma. -/
def fraction : Scan Binary64 := do
  let _ ← expectDigit
  let numeral ← Scan.numeral
  Scan.skipWhile Char.isDigit
  return Binary64.ofFraction numeral.value numeral.digits

/-- Reads a literal. -/
def number : Scan Binary64 := do
  Scan.skipBlanks
  if ← Scan.isAtEnd then
    Scan.fail (.missingOperand (← Scan.position))
  else
    let factor ← sign
    let whole ← Scan.within .integerPart wholePart
    if ← Scan.eat decimalMark then
      let part ← Scan.within .fractionPart fraction
      return factor.mul ((Binary64.ofNat whole).add part)
    else
      return factor.mul (Binary64.ofNat whole)

end CommaCalc.Literal
