import CommaCalc.Binary64.Arithmetic
import CommaCalc.Scan

/-!
# The four operators

Each operator is one character.  The minus sign is one of them: whether a minus
is an operator or the sign of a literal depends only on where it stands.
-/

namespace CommaCalc

/-- What is done with the two operands. -/
inductive Operator where
  | add
  | subtract
  | multiply
  | divide
  deriving DecidableEq

namespace Operator

/-- The character an operator is written as. -/
def symbol : Operator → Char
  | add => '+'
  | subtract => '-'
  | multiply => '*'
  | divide => '/'

/-- The operator that a character stands for. -/
def ofSymbol? (c : Char) : Option Operator :=
  [add, subtract, multiply, divide].find? (·.symbol == c)

/-- The operation on doubles. -/
def apply : Operator → Binary64 → Binary64 → Binary64
  | add => Binary64.add
  | subtract => Binary64.sub
  | multiply => Binary64.mul
  | divide => Binary64.div

/-- Reads an operator.  A character that is none is read as well, and the error
tells where it stood. -/
def read : Scan Operator := do
  Scan.skipBlanks
  let position ← Scan.position
  match ← Scan.next with
  | none => Scan.fail (.missingOperator position)
  | some found =>
    match ofSymbol? found with
    | some operator => return operator
    | none => Scan.fail (.invalidOperator found position)

end Operator

end CommaCalc
