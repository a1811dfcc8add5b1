import CommaCalc.Expression

/-!
# Failures and their reports

A calculation fails while its expression is read or while it is evaluated.  The
report of a failure is its message and, on a numbered line each, the messages of
its causes; saying at which stage the failure arose adds no line.
-/

namespace CommaCalc

/-- Why a calculation has no result. -/
inductive Failure where
  | reading (error : ReadError)
  | evaluation (error : EvalError)
  deriving DecidableEq

/-- The numbered lines below a message, counted from `first`. -/
def causeLines (first : Nat) : List String → List String
  | [] => []
  | cause :: rest =>
    ("  " ++ toString first ++ ". Caused by: " ++ cause) :: causeLines (first + 1) rest

/-- A message and its causes, one on each line. -/
def reportText (message : String) (causes : List String) : String :=
  String.intercalate "\n" (message :: causeLines 1 causes)

/-- The report of an error that has the given message and the given source. -/
def reportFrom (message : String) (source? : Option ReadError) : String :=
  reportText message ((ReadError.sources source?).map ReadError.message)

namespace ReadError

/-- The report of an error on its own. -/
def report (e : ReadError) : String :=
  reportFrom e.message e.source?

end ReadError

namespace EvalError

/-- What is said of the error. -/
def message : EvalError → String
  | divisionByZero dividend =>
    "Division by zero: " ++ dividend.decimalText ++ " cannot be divided by 0."

/-- No error is behind a division by zero. -/
def source? : EvalError → Option ReadError
  | divisionByZero _ => none

/-- The report of an error on its own. -/
def report (e : EvalError) : String :=
  reportFrom e.message e.source?

/-- Equality with the dividends compared as numbers. -/
def numEq : EvalError → EvalError → Bool
  | divisionByZero a, divisionByZero b => a.numEq b

end EvalError

namespace Failure

/-- The message is that of the stage at which the failure arose. -/
def message : Failure → String
  | reading e => e.message
  | evaluation e => e.message

/-- The source is that of the stage at which the failure arose, not the stage itself. -/
def source? : Failure → Option ReadError
  | reading e => e.source?
  | evaluation e => e.source?

/-- The report of a failure. -/
def report (failure : Failure) : String :=
  reportFrom failure.message failure.source?

/-- Equality with the dividends compared as numbers. -/
def numEq : Failure → Failure → Bool
  | reading a, reading b => decide (a = b)
  | evaluation a, evaluation b => a.numEq b
  | _, _ => false

end Failure

end CommaCalc
