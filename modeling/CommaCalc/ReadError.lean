/-!
# Why an expression cannot be read

A `Fault` is the mistake found in the text, with its byte position where it has
one.  A `ReadError` is a fault under the parts of the expression in which it was
found, from the outermost part inwards; the same list of parts gives the chain
of causes, the root and the messages.  A report does not follow the causes but the
source that each error names.
-/

namespace CommaCalc

/-- The mistake itself. -/
inductive Fault where
  | emptyInput
  | missingDigits (position : Nat) (found : Option Char)
  | missingOperand (position : Nat)
  | missingOperator (position : Nat)
  | invalidOperator (found : Char) (position : Nat)
  | integerTooLarge (position : Nat)
  deriving DecidableEq

/-- A part of an expression in which a mistake can be located. -/
inductive Place where
  | leftOperand
  | rightOperand
  | integerPart
  | fractionPart
  deriving DecidableEq

/-- A fault, inside any number of places. -/
inductive ReadError where
  | fault (fault : Fault)
  | within (place : Place) (cause : ReadError)
  deriving DecidableEq

namespace Fault

/-- What stood where a digit was expected. -/
private def foundText : Option Char → String
  | some c => ", found '" ++ String.singleton c ++ "'."
  | none => ", but the expression ended."

/-- What is said of a fault. -/
def message : Fault → String
  | emptyInput => "The expression is empty."
  | missingDigits position found =>
    "Expected a digit at position " ++ toString position ++ foundText found
  | missingOperand position =>
    "Expected a number at position " ++ toString position ++ foundText none
  | missingOperator position =>
    "Expected an operator at position " ++ toString position ++ foundText none
  | invalidOperator found position =>
    "Invalid operator '" ++ String.singleton found ++ "' at position " ++ toString position
      ++ ". Expected one of + - * /."
  | integerTooLarge position =>
    "The digits starting at position " ++ toString position ++ " form a number that is too large."

/-- The byte position of the mistake; an empty input has none. -/
def position? : Fault → Option Nat
  | emptyInput => none
  | missingDigits position _ => some position
  | missingOperand position => some position
  | missingOperator position => some position
  | invalidOperator _ position => some position
  | integerTooLarge position => some position

end Fault

/-- What is said of a place with a mistake in it. -/
def Place.message : Place → String
  | leftOperand => "The left operand is invalid."
  | rightOperand => "The right operand is invalid."
  | integerPart => "The integer part of the number is invalid."
  | fractionPart => "The fractional part of the number is invalid."

namespace ReadError

/-- The outermost message. -/
def message : ReadError → String
  | fault f => f.message
  | within place _ => place.message

/-- The error directly inside. -/
def cause? : ReadError → Option ReadError
  | fault _ => none
  | within _ cause => some cause

/-- The errors inside, from the outermost to the fault. -/
def causes : ReadError → List ReadError
  | fault _ => []
  | within _ cause => cause :: cause.causes

/-- The error that an error names as its source: at each place, the one that it holds. -/
def source? : ReadError → Option ReadError
  | within .leftOperand cause => some cause
  | within .rightOperand cause => some cause
  | within .integerPart cause => some cause
  | within .fractionPart cause => some cause
  | fault _ => none

/-- At every place the source is the error directly inside. -/
theorem source?_eq_cause? (e : ReadError) : e.source? = e.cause? := by
  cases e with
  | fault f => rfl
  | within place cause => cases place <;> rfl

theorem sizeOf_source?_lt (e : ReadError) : sizeOf e.source? < sizeOf (some e) := by
  rw [source?_eq_cause?]
  cases e with
  | fault f =>
    simp only [cause?, Option.none.sizeOf_spec, Option.some.sizeOf_spec, fault.sizeOf_spec]
    omega
  | within place cause =>
    simp only [cause?, Option.some.sizeOf_spec, within.sizeOf_spec]
    omega

/-- An error, if there is one, and those behind it, each the source of the one before. -/
def sources : Option ReadError → List ReadError
  | none => []
  | some e => e :: sources e.source?
termination_by first => sizeOf first
decreasing_by exact e.sizeOf_source?_lt

/-- Going from source to source passes the errors inside. -/
theorem sources_source? (e : ReadError) : sources e.source? = e.causes := by
  induction e with
  | fault f => rw [source?, sources, causes]
  | within place cause ih => rw [source?_eq_cause?, cause?, sources, ih, causes]

/-- The fault at the end of the chain. -/
def root : ReadError → Fault
  | fault f => f
  | within _ cause => cause.root

end ReadError

end CommaCalc
