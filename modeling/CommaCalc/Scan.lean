import CommaCalc.ReadError
import CommaCalc.Text.Blank
import CommaCalc.Text.Cursor
import CommaCalc.Text.Numeral

/-!
# Reading a text from left to right

A `Scan` reads from a cursor and may fail.  A scan that fails leaves the cursor
where the failure was noticed, so that an error never rewinds what was read.
The lemmas below say what each elementary scan returns and where it leaves the
cursor.
-/

namespace CommaCalc

/-- A reading step: its result or error, and where it left the cursor. -/
abbrev Scan := EStateM ReadError Cursor

namespace Scan

/-- The next character, without reading it. -/
def peek : Scan (Option Char) := do
  return (← get).rest.head?

/-- Reads the next character, if there is one. -/
def next : Scan (Option Char) := do
  let found ← peek
  modify (·.advance 1)
  return found

/-- Reads the next character if it is the given one. -/
def eat (expected : Char) : Scan Bool := do
  if (← peek) = some expected then
    modify (·.advance 1)
    return true
  else
    return false

/-- Reads over the characters of a class. -/
def skipWhile (inClass : Char → Bool) : Scan Unit :=
  modify (·.skipWhile inClass)

/-- Reads over blanks. -/
def skipBlanks : Scan Unit :=
  skipWhile isBlank

/-- The byte position reached. -/
def position : Scan Nat := do
  return (← get).position

/-- Whether the end of the text is reached. -/
def isAtEnd : Scan Bool := do
  return (← get).isAtEnd

/-- Reads the longest numeral that stays below the limit. -/
def numeral : Scan Numeral := do
  let found := Numeral.longest (← get).rest
  modify (·.advance found.digits)
  return found

/-- Fails with a fault. -/
def fail {α : Type} (fault : Fault) : Scan α :=
  throw (.fault fault)

/-- Locates the errors of a scan in a place. -/
def within {α : Type} (place : Place) (scan : Scan α) : Scan α :=
  EStateM.adaptExcept (ReadError.within place) scan

@[simp]
theorem run_peek (c : Cursor) : peek.run c = .ok c.rest.head? c := rfl

@[simp]
theorem run_next (c : Cursor) : next.run c = .ok c.rest.head? (c.advance 1) := rfl

@[simp]
theorem run_eat (expected : Char) (c : Cursor) :
    (eat expected).run c =
      if c.rest.head? = some expected then .ok true (c.advance 1) else .ok false c := by
  simp only [eat, EStateM.run_bind, run_peek]
  split <;> rfl

@[simp]
theorem run_skipWhile (inClass : Char → Bool) (c : Cursor) :
    (skipWhile inClass).run c = .ok () (c.skipWhile inClass) := rfl

@[simp]
theorem run_skipBlanks (c : Cursor) : skipBlanks.run c = .ok () (c.skipWhile isBlank) := rfl

@[simp]
theorem run_position (c : Cursor) : position.run c = .ok c.position c := rfl

@[simp]
theorem run_isAtEnd (c : Cursor) : isAtEnd.run c = .ok c.isAtEnd c := rfl

@[simp]
theorem run_numeral (c : Cursor) :
    numeral.run c =
      .ok (Numeral.longest c.rest) (c.advance (Numeral.longest c.rest).digits) := rfl

@[simp]
theorem run_fail {α : Type} (fault : Fault) (c : Cursor) :
    (fail fault : Scan α).run c = .error (.fault fault) c := rfl

/-- Locating errors changes neither results nor the cursor. -/
theorem run_within {α : Type} (place : Place) (scan : Scan α) (c : Cursor) :
    (within place scan).run c =
      match scan.run c with
      | .ok result after => .ok result after
      | .error error after => .error (.within place error) after := by
  simp only [within, EStateM.run_adaptExcept]
  cases scan.run c <;> rfl

end Scan

end CommaCalc
