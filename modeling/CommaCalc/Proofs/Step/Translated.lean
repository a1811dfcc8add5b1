import CommaCalc.Proofs.Text.Runs
import CommaCalc.Step

/-!
# Reading behind a front

A scan looks at the unread characters only, and a position is a count of bytes that is
passed on.  So a cursor that stands behind the front of a longer text reads what a new
cursor over the rest of the text reads, step by step: the same results, the same faults
in the same places, and every position larger by the bytes of the front.
-/

namespace CommaCalc

/-- The same fault, found further on by the given number of bytes. -/
def Fault.shift (bytes : Nat) : Fault → Fault
  | emptyInput => emptyInput
  | missingDigits position found => missingDigits (bytes + position) found
  | missingOperand position => missingOperand (bytes + position)
  | missingOperator position => missingOperator (bytes + position)
  | invalidOperator found position => invalidOperator found (bytes + position)
  | integerTooLarge position => integerTooLarge (bytes + position)

/-- The same error, found further on by the given number of bytes. -/
def ReadError.shift (bytes : Nat) : ReadError → ReadError
  | fault f => .fault (f.shift bytes)
  | within place cause => .within place (cause.shift bytes)

namespace Cursor

/-- The cursor at the same place of a text with a front put before it. -/
def behind (front : String) (c : Cursor) : Cursor :=
  ⟨front ++ c.text, front.utf8ByteSize + c.position, c.rest⟩

theorem behind_advance (front : String) (c : Cursor) (count : Nat) :
    (c.advance count).behind front = (c.behind front).advance count := by
  simp only [behind, advance, Nat.add_assoc]

theorem behind_skipWhile (front : String) (c : Cursor) (inClass : Char → Bool) :
    (c.skipWhile inClass).behind front = (c.behind front).skipWhile inClass :=
  c.behind_advance front _

theorem isAtEnd_behind (front : String) (c : Cursor) : (c.behind front).isAtEnd = c.isAtEnd := by
  rw [isAtEnd, isAtEnd, behind, String.utf8ByteSize_append]
  exact decide_eq_decide.mpr Nat.add_le_add_iff_left

end Cursor

namespace Scan

variable {α β : Type} {front : String}

/-- The outcome of a reading, seen behind a front: its result with the positions in it
moved on, its error moved on, and the cursor behind the front. -/
def outcomeBehind (front : String) (move : α → α) :
    EStateM.Result ReadError Cursor α → EStateM.Result ReadError Cursor α
  | .ok result after => .ok (move result) (after.behind front)
  | .error error after => .error (error.shift front.utf8ByteSize) (after.behind front)

/-- Wherever the first scan reads, the second one reads the same behind a front. -/
def Translates (front : String) (move : α → α) (scan scan' : Scan α) : Prop :=
  ∀ c : Cursor, scan'.run (c.behind front) = outcomeBehind front move (scan.run c)

namespace Translates

variable {move : α → α} {move' : β → β} {scan scan' other other' : Scan α}
  {later later' : α → Scan β}

theorem pure (result : α) :
    Translates front move (Pure.pure result) (Pure.pure (move result)) :=
  fun _ => rfl

/-- A result without positions is returned as it is. -/
theorem same (result : α) : Translates front id (Pure.pure result) (Pure.pure result) :=
  fun _ => rfl

theorem fail (fault : Fault) :
    Translates front move (Scan.fail fault) (Scan.fail (fault.shift front.utf8ByteSize)) :=
  fun _ => rfl

/-- What follows sees the result with its positions moved on. -/
theorem bind (hscan : Translates front move scan scan')
    (hlater : ∀ result, Translates front move' (later result) (later' (move result))) :
    Translates front move' (scan >>= later) (scan' >>= later') := by
  intro c
  rw [EStateM.run_bind, EStateM.run_bind, hscan c]
  cases scan.run c with
  | ok result after => exact hlater result after
  | error error after => rfl

theorem within (place : Place) (hscan : Translates front move scan scan') :
    Translates front move (Scan.within place scan) (Scan.within place scan') := by
  intro c
  rw [run_within, run_within, hscan c]
  cases scan.run c <;> rfl

theorem ite (condition : Prop) [Decidable condition] (hscan : Translates front move scan scan')
    (hother : Translates front move other other') :
    Translates front move (if condition then scan else other)
      (if condition then scan' else other') := by
  split
  · exact hscan
  · exact hother

theorem peek : Translates front id Scan.peek Scan.peek :=
  fun _ => rfl

theorem position : Translates front (front.utf8ByteSize + ·) Scan.position Scan.position :=
  fun _ => rfl

theorem isAtEnd : Translates front id Scan.isAtEnd Scan.isAtEnd := by
  intro c
  rw [run_isAtEnd, run_isAtEnd, c.isAtEnd_behind]
  rfl

theorem next : Translates front id Scan.next Scan.next := by
  intro c
  rw [run_next, run_next, ← c.behind_advance]
  rfl

theorem skipWhile (inClass : Char → Bool) :
    Translates front id (Scan.skipWhile inClass) (Scan.skipWhile inClass) := by
  intro c
  rw [run_skipWhile, run_skipWhile, ← c.behind_skipWhile]
  rfl

theorem skipBlanks : Translates front id Scan.skipBlanks Scan.skipBlanks :=
  skipWhile isBlank

theorem numeral : Translates front id Scan.numeral Scan.numeral := by
  intro c
  rw [run_numeral, run_numeral, ← c.behind_advance]
  rfl

theorem eat (expected : Char) : Translates front id (Scan.eat expected) (Scan.eat expected) := by
  intro c
  have hrest : (c.behind front).rest = c.rest := rfl
  rw [run_eat, run_eat, ← c.behind_advance, hrest]
  split <;> rfl

end Translates

end Scan

open Scan (Translates)

section Scanners

variable (front : String)

namespace Literal

/-- The position of the first digit is one that is moved on. -/
theorem expectDigit_translates :
    Translates front (front.utf8ByteSize + ·) expectDigit expectDigit :=
  .bind .skipBlanks fun _ => .bind .position fun position => .bind .peek fun _ =>
    .ite _ (.pure position) (.fail _)

theorem sign_translates : Translates front id sign sign :=
  .bind .skipBlanks fun _ => .bind (.eat '-') fun _ => .ite _ (.same _) (.same _)

theorem wholePart_translates : Translates front id wholePart wholePart :=
  .bind (expectDigit_translates front) fun start => .bind .numeral fun _ => .bind .peek fun _ =>
    .ite _ (.fail (.integerTooLarge start)) (.same _)

theorem fraction_translates : Translates front id fraction fraction :=
  .bind (expectDigit_translates front) fun _ => .bind .numeral fun _ =>
    .bind (.skipWhile Char.isDigit) fun _ => .same _

theorem number_translates : Translates front id number number :=
  .bind .skipBlanks fun _ => .bind .isAtEnd fun _ => .ite _
    (.bind .position fun position => .fail (.missingOperand position))
    (.bind (sign_translates front) fun _ =>
      .bind (.within .integerPart (wholePart_translates front)) fun _ =>
      .bind (.eat decimalMark) fun _ => .ite _
        (.bind (.within .fractionPart (fraction_translates front)) fun _ => .same _)
        (.same _))

end Literal

theorem Operator.read_translates : Translates front id read read := by
  refine .bind .skipBlanks fun _ => .bind .position fun position => .bind .next fun found => ?_
  cases found with
  | none => exact .fail (.missingOperator position)
  | some c =>
    dsimp only [id]
    cases ofSymbol? c with
    | none => exact .fail (.invalidOperator c position)
    | some operator => exact .same _

namespace Step

/-- Every step reads the same behind a front. -/
theorem scan_translates (step : Step) : Translates front id step.scan step.scan := by
  cases step with
  | peek => exact .bind .peek fun _ => .same _
  | next => exact .bind .next fun _ => .same _
  | eat expected => exact .bind (.eat expected) fun _ => .same _
  | rest => exact fun _ => rfl
  | skipBlanks => exact .bind .skipBlanks fun _ => .same _
  | isAtEnd => exact .bind .isAtEnd fun _ => .same _
  | sign => exact .bind (Literal.sign_translates front) fun _ => .same _
  | wholePart => exact .bind (Literal.wholePart_translates front) fun _ => .same _
  | fraction => exact .bind (Literal.fraction_translates front) fun _ => .same _
  | number => exact .bind (Literal.number_translates front) fun _ => .same _
  | operator => exact .bind (Operator.read_translates front) fun _ => .same _

/-- What a step returns and leaves, seen behind a front. -/
def takenBehind (taken : Except ReadError StepResult × Cursor) :
    Except ReadError StepResult × Cursor :=
  (taken.1.mapError (·.shift front.utf8ByteSize), taken.2.behind front)

theorem take_behind (step : Step) (c : Cursor) :
    step.take (c.behind front) = takenBehind front (step.take c) := by
  rw [take, take, step.scan_translates front c]
  cases step.scan.run c <;> rfl

/-- A run reads the same behind a front, step by step. -/
theorem takeAll_behind (steps : List Step) (c : Cursor) :
    takeAll steps (c.behind front) = (takeAll steps c).map (takenBehind front) := by
  induction steps generalizing c with
  | nil => rfl
  | cons step steps ih =>
    rw [takeAll, takeAll, List.map_cons, take_behind]
    exact congrArg _ (ih _)

end Step

end Scanners

end CommaCalc
