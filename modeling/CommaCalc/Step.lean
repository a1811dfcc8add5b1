import CommaCalc.Literal
import CommaCalc.Operator

/-!
# Step-by-step reading

The operations on a cursor as data, so that any sequence of them can be run on
one cursor.  A step that fails does not end the sequence: the next one goes on
from where the failure left the cursor.
-/

namespace CommaCalc

/-- An operation on a cursor. -/
inductive Step where
  | peek
  | next
  | eat (expected : Char)
  | rest
  | skipBlanks
  | isAtEnd
  | sign
  | wholePart
  | fraction
  | number
  | operator
  deriving DecidableEq

/-- What a step returns. -/
inductive StepResult where
  | nothing
  | character (found : Option Char)
  | flag (answer : Bool)
  | text (content : String)
  | natural (value : Nat)
  | double (value : Binary64)
  | symbol (operator : Operator)
  deriving DecidableEq

namespace Step

/-- The reading that a step stands for. -/
def scan : Step → Scan StepResult
  | peek => return .character (← Scan.peek)
  | next => return .character (← Scan.next)
  | eat expected => return .flag (← Scan.eat expected)
  | rest => return .text (String.ofList (← get).rest)
  | skipBlanks => do Scan.skipBlanks; return .nothing
  | isAtEnd => return .flag (← Scan.isAtEnd)
  | sign => return .double (← Literal.sign)
  | wholePart => return .natural (← Literal.wholePart)
  | fraction => return .double (← Literal.fraction)
  | number => return .double (← Literal.number)
  | operator => return .symbol (← Operator.read)

/-- Takes a step: its result or error, and the cursor after it. -/
def take (step : Step) (c : Cursor) : Except ReadError StepResult × Cursor :=
  match step.scan.run c with
  | .ok result after => (.ok result, after)
  | .error error after => (.error error, after)

/-- Takes steps one after the other, and returns each result with the cursor
after it. -/
def takeAll : List Step → Cursor → List (Except ReadError StepResult × Cursor)
  | [], _ => []
  | step :: later, c =>
    let taken := step.take c
    taken :: takeAll later taken.2

end Step

end CommaCalc
