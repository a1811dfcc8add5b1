import CommaCalc.Binary64.Arithmetic

/-!
# The value of a decimal fraction

The digits after a comma are a whole number divided by a power of ten.  The
power is built by repeated squaring in doubles, each product rounded, so it is
exact up to 10²² and infinite from 10³⁰⁹ on.
-/

namespace CommaCalc.Binary64

/-- 10 squared the given number of times. -/
def tenSquaredTimes : Nat → Binary64
  | 0 => ofNat 10
  | times + 1 => let root := tenSquaredTimes times; root.mul root

/-- 10 to the power `exponent`: the squarings that the binary digits of the
exponent ask for, multiplied from the lowest digit up. -/
def tenPower (exponent : Nat) : Binary64 :=
  (List.range (exponent.log2 + 1)).foldl
    (fun product i => if exponent.testBit i then product.mul (tenSquaredTimes i) else product)
    (ofNat 1)

/-- The largest exponent of ten that is told apart, 2³¹ − 1; by then the power
has long been infinite. -/
def maxTenExponent : Nat := 2147483647

/-- The fraction whose `digits` digits after the comma read `value` as a whole
number: `value` divided by the power of ten. -/
def ofFraction (value digits : Nat) : Binary64 :=
  (ofNat value).div (tenPower (min digits maxTenExponent))

end CommaCalc.Binary64
