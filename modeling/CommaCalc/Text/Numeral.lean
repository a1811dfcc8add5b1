/-!
# Runs of digits

Only the ASCII digits count as digits.  A run is read into a whole number as far
as the number stays below 2¹²⁸; leading zeros never fill it, so they are read
without limit.
-/

namespace CommaCalc

attribute [local instance (high)] instPowNat

/-- The number of bits that the value of a run may take. -/
def numeralBits : Nat := 128

/-- What the whole numbers that are read stay below. -/
def numeralLimit : Nat := 2 ^ numeralBits

/-- The number that a digit stands for. -/
def digitValue (c : Char) : Nat :=
  c.toNat - '0'.toNat

/-- A number read from a run of digits, and how many digits it took. -/
structure Numeral where
  value : Nat
  digits : Nat
  deriving DecidableEq

namespace Numeral

/-- Extends a numeral by the digits at the front, up to the first one that would
take its value to the limit. -/
def extend (numeral : Numeral) : List Char → Numeral
  | [] => numeral
  | c :: rest =>
    let value := 10 * numeral.value + digitValue c
    if c.isDigit && decide (value < numeralLimit) then
      extend ⟨value, numeral.digits + 1⟩ rest
    else
      numeral

/-- The longest numeral at the front of a text. -/
def longest (cs : List Char) : Numeral :=
  extend ⟨0, 0⟩ cs

end Numeral

end CommaCalc
