import CommaCalc.Failure

/-!
# Calculations

A calculation reads a text and evaluates it.  A running calculation feeds each
result back as the start of the next text.
-/

namespace CommaCalc

/-- The value of the expression in a text. -/
def calculate (text : String) : Except Failure Binary64 :=
  match Expression.read text with
  | .error e => .error (.reading e)
  | .ok expression =>
    match expression.evaluate with
    | .error e => .error (.evaluation e)
    | .ok result => .ok result

/-- The outcomes of a running calculation.  Each suffix is put behind the decimal
text of the result so far, beginning with `start`; the first failure ends it. -/
def runningCalculation (start : String) : List String → List (Except Failure Binary64)
  | [] => []
  | suffix :: rest =>
    match calculate (start ++ suffix) with
    | .ok result => .ok result :: runningCalculation result.decimalText rest
    | .error e => [.error e]

end CommaCalc
