import CommaCalc.Binary64.Basic

/-!
# Arithmetic on doubles

Each operation forms the exact result as a ratio of units and rounds it once, to
nearest with ties to even.  The special cases are those of IEEE 754: a sum of
opposite infinities, a product of zero and infinity, and the quotients 0/0 and
∞/∞ are NaN; an exact cancellation is +0; products and quotients take the sign
rule for zeros and infinities too.
-/

namespace CommaCalc.Binary64

/-- The number with its sign flipped, zeros and infinities included. -/
def neg : Binary64 → Binary64
  | .nan => .nan
  | .infinite s => .infinite (!s)
  | .finite s a => .finite (!s) a

/-- The rounded sum.  Operands of one sign add their magnitudes, which keeps
the sign of two negative zeros; opposite signs leave the difference of the
magnitudes under the sign of the larger one, and +0 if there is none. -/
def add : Binary64 → Binary64 → Binary64
  | .nan, _ => .nan
  | _, .nan => .nan
  | .infinite s, .infinite t => if s = t then .infinite s else .nan
  | .infinite s, .finite _ _ => .infinite s
  | .finite _ _, .infinite t => .infinite t
  | .finite s a, .finite t b =>
    if s = t then ofRatio s (a.units + b.units) 1
    else if b.units < a.units then ofRatio s (a.units - b.units) 1
    else if a.units < b.units then ofRatio t (b.units - a.units) 1
    else zero false

/-- The rounded difference: the sum with the sign of the second operand flipped. -/
def sub (x y : Binary64) : Binary64 :=
  x.add y.neg

/-- The rounded product.  Two counts of units multiply to a count of squared
units, so one factor `unitsPerOne` is divided out. -/
def mul : Binary64 → Binary64 → Binary64
  | .nan, _ => .nan
  | _, .nan => .nan
  | .infinite s, .infinite t => .infinite (s != t)
  | .infinite s, .finite t b => if b.units = 0 then .nan else .infinite (s != t)
  | .finite s a, .infinite t => if a.units = 0 then .nan else .infinite (s != t)
  | .finite s a, .finite t b => ofRatio (s != t) (a.units * b.units) unitsPerOne

/-- The rounded quotient.  A nonzero number divided by zero is infinite. -/
def div : Binary64 → Binary64 → Binary64
  | .nan, _ => .nan
  | _, .nan => .nan
  | .infinite _, .infinite _ => .nan
  | .infinite s, .finite t _ => .infinite (s != t)
  | .finite s _, .infinite t => zero (s != t)
  | .finite s a, .finite t b =>
    if b.units = 0 then
      if a.units = 0 then .nan else .infinite (s != t)
    else
      ofRatio (s != t) (a.units * unitsPerOne) b.units

end CommaCalc.Binary64
