import CommaCalc.Literal
import CommaCalc.Operator

/-!
# Expressions

An expression is one operator between two literals.  It remembers the text that
it was read from; its display is the normal form, with single blanks and the
shortest digits of each operand.
-/

namespace CommaCalc

/-- An operator between two numbers. -/
structure Expression where
  /-- The text it was read from. -/
  sourceText : String
  left : Binary64
  operator : Operator
  right : Binary64
  deriving DecidableEq

/-- An expression that can be read but has no value. -/
inductive EvalError where
  | divisionByZero (dividend : Binary64)
  deriving DecidableEq

namespace Expression

/-- Reads the two literals and the operator between them; what follows the right
literal is not looked at. -/
def scan (text : String) : Scan Expression := do
  let left ← Scan.within .leftOperand Literal.number
  let operator ← Operator.read
  let right ← Scan.within .rightOperand Literal.number
  return ⟨text, left, operator, right⟩

/-- Reads an expression from a text.  A text of blanks only is empty, rather
than one whose left operand is missing. -/
def read (text : String) : Except ReadError Expression :=
  if (trimBlanks text.toList).isEmpty then
    .error (.fault .emptyInput)
  else
    match (scan text).run (.start text) with
    | .ok expression _ => .ok expression
    | .error error _ => .error error

/-- The normal form. -/
def display (e : Expression) : String :=
  e.left.decimalText ++ " " ++ String.singleton e.operator.symbol ++ " " ++ e.right.decimalText

/-- Equality with the operands compared as numbers: an expression with a NaN is
not equal to itself, and the sign of a zero does not matter. -/
def numEq (a b : Expression) : Bool :=
  a.sourceText == b.sourceText && a.left.numEq b.left && decide (a.operator = b.operator)
    && a.right.numEq b.right

/-- The value.  Division by a zero of either sign is an error; everything else
is the rounded operation. -/
def evaluate (e : Expression) : Except EvalError Binary64 :=
  if e.operator = .divide ∧ e.right.isZero then
    .error (.divisionByZero e.left)
  else
    .ok (e.operator.apply e.left e.right)

end Expression

end CommaCalc
