import CommaCalc.Proofs.Expression.Split
import CommaCalc.Step

/-!
# Where a failed step leaves the cursor

A step that fails never rewinds.  A character that is missing leaves the cursor in front
of whatever stands there instead, a character that is no operator is read over, and a
run that is too large leaves the cursor on the first digit that did not fit.  Every
failure stays on a character boundary of the same text.
-/

namespace CommaCalc

/-- A text splits at a byte position, which then is a character boundary. -/
def SplitsAt (text : String) (position : Nat) (before behind : List Char) : Prop :=
  text.toList = before ++ behind ∧ position = utf8Length before

namespace SplitsAt

variable {text : String} {position : Nat} {before behind : List Char}

theorem isValid (h : SplitsAt text position before behind) :
    (String.Pos.Raw.mk position).IsValid text := by
  obtain ⟨htext, rfl⟩ := h
  rw [String.Pos.Raw.isValid_iff_exists_append]
  refine ⟨String.ofList before, String.ofList behind, ?_, ?_⟩
  · rw [← String.ofList_append, ← htext, String.ofList_toList]
  · rw [String.Pos.Raw.ext_iff, String.byteIdx_rawEndPos, utf8ByteSize_ofList]

theorem le_size (h : SplitsAt text position before behind) : position ≤ text.utf8ByteSize := by
  obtain ⟨htext, rfl⟩ := h
  rw [← utf8Length_toList, htext, utf8Length_append]
  exact Nat.le_add_right ..

end SplitsAt

/-- Where a scan that failed with a fault leaves the cursor. -/
def Fault.LeavesAt : Fault → Cursor → Prop
  | emptyInput, _ => False
  | missingDigits position found, after => after.position = position ∧ after.rest.head? = found
  | missingOperand position, after => after.position = position ∧ after.rest = []
  | missingOperator position, after => after.position = position ∧ after.rest = []
  | invalidOperator found position, after =>
    after.position = position + found.utf8Size ∧
      ∃ before, SplitsAt after.text position before (found :: after.rest)
  | integerTooLarge position, after =>
    ∃ before front c back, SplitsAt after.text position before (front ++ c :: back) ∧
      after.rest = c :: back ∧ after.position = position + utf8Length front ∧
      (∀ d ∈ front ++ [c], d.isDigit = true) ∧
      decimalValue front < numeralLimit ∧ numeralLimit ≤ decimalValue (front ++ [c])

/-- A failed scan stays on the text, on a character boundary, where its fault says. -/
structure FailsAt (text : String) (fault : Fault) (after : Cursor) : Prop where
  text_eq : after.text = text
  valid : after.Valid
  leavesAt : fault.LeavesAt after

section Scanners

variable {text : String} {position : Nat} {rest : List Char} {e : ReadError} {after : Cursor}

/-- A digit is missing behind what has been read. -/
theorem failsAt_missingDigits (hvalid : Cursor.Valid ⟨text, position, rest⟩) :
    FailsAt text (.missingDigits position rest.head?) ⟨text, position, rest⟩ :=
  ⟨rfl, hvalid, rfl, rfl⟩

/-- A run does not fit from some digit on. -/
theorem failsAt_integerTooLarge {front back : List Char} {c : Char}
    (hvalid : Cursor.Valid ⟨text, position, front ++ c :: back⟩)
    (hdigit : ∀ d ∈ front ++ [c], d.isDigit = true) (hfront : decimalValue front < numeralLimit)
    (hreach : numeralLimit ≤ decimalValue (front ++ [c])) :
    FailsAt text (.integerTooLarge position)
      ⟨text, position + utf8Length front, c :: back⟩ := by
  obtain ⟨before, hbefore⟩ := hvalid
  exact ⟨rfl, Cursor.Valid.read ⟨before, hbefore⟩,
    before, front, c, back, hbefore, rfl, rfl, hdigit, hfront, hreach⟩

/-- The same for the digits of a run with a tail. -/
theorem failsAt_run {run : Digits} {front back tail : List Char} {c : Char}
    (hvalid : Cursor.Valid ⟨text, position, run.chars ++ tail⟩)
    (hchars : run.chars = front ++ c :: back) (hfront : decimalValue front < numeralLimit)
    (hreach : numeralLimit ≤ decimalValue (front ++ [c])) :
    FailsAt text (.integerTooLarge position)
      ⟨text, position + utf8Length front, c :: back ++ tail⟩ := by
  have hdigit : ∀ d ∈ front ++ [c], d.isDigit = true := by
    intro d hd
    apply run.digit
    rw [hchars]
    rcases List.mem_append.mp hd with hd | hd
    · exact List.mem_append_left _ hd
    · rw [List.mem_singleton.mp hd]
      exact List.mem_append_right _ List.mem_cons_self
  rw [hchars, List.append_assoc, List.cons_append] at hvalid
  exact failsAt_integerTooLarge hvalid hdigit hfront hreach

namespace Literal

theorem wholePart_failsAt (hvalid : Cursor.Valid ⟨text, position, rest⟩)
    (hrun : wholePart.run ⟨text, position, rest⟩ = .error e after) :
    FailsAt text e.root after := by
  obtain ⟨gap, run, tail, htail⟩ | ⟨gap, tail, hblank, hdigit⟩ := exists_digitFront rest
  · by_cases hfits : run.value < numeralLimit
    · rw [wholePart_ok text position gap run hfits htail] at hrun
      cases hrun
    · obtain ⟨front, c, back, hchars, hfront, hreach, herror⟩ :=
        wholePart_tooLarge text position gap run (Nat.le_of_not_lt hfits) htail
      rw [herror] at hrun
      cases hrun
      exact failsAt_run hvalid.read hchars hfront hreach
  · rw [wholePart_noDigit text position gap hblank hdigit] at hrun
    cases hrun
    exact failsAt_missingDigits hvalid.read

theorem fraction_failsAt (hvalid : Cursor.Valid ⟨text, position, rest⟩)
    (hrun : fraction.run ⟨text, position, rest⟩ = .error e after) :
    FailsAt text e.root after := by
  obtain ⟨gap, run, tail, htail⟩ | ⟨gap, tail, hblank, hdigit⟩ := exists_digitFront rest
  · rw [fraction_ok text position gap run htail] at hrun
    cases hrun
  · rw [fraction_noDigit text position gap hblank hdigit] at hrun
    cases hrun
    exact failsAt_missingDigits hvalid.read

theorem number_failsAt (hvalid : Cursor.Valid ⟨text, position, rest⟩)
    (hrun : number.run ⟨text, position, rest⟩ = .error e after) : FailsAt text e.root after := by
  obtain ⟨gap, s, tail, hends⟩ | gap | ⟨gap, stem, tail, hstops⟩ |
    ⟨gap, minus, run, tail, hlarge, htail⟩ := exists_front rest
  · rw [number_literal text position gap s hends hvalid] at hrun
    cases hrun
  · rw [number_nothing text position gap hvalid] at hrun
    rw [← List.append_nil gap.chars] at hvalid
    cases hrun
    exact ⟨rfl, hvalid.read, rfl, rfl⟩
  · rw [number_noDigit text position gap stem hstops hvalid] at hrun
    cases hrun
    exact failsAt_missingDigits hvalid.read.read
  · obtain ⟨front, c, back, hchars, hfront, hreach, herror⟩ :=
      number_tooLarge text position gap minus run hlarge htail hvalid
    rw [herror] at hrun
    cases hrun
    exact failsAt_run hvalid.read.read hchars hfront hreach

theorem sign_run_ne_error {c : Cursor} : sign.run c ≠ .error e after := by
  intro hrun
  simp only [sign, EStateM.run_bind, Scan.run_skipBlanks, Scan.run_eat] at hrun
  by_cases hminus : (c.skipWhile isBlank).rest.head? = some '-'
  · rw [if_pos hminus] at hrun
    cases hrun
  · rw [if_neg hminus] at hrun
    cases hrun

end Literal

theorem Operator.read_failsAt (hvalid : Cursor.Valid ⟨text, position, rest⟩)
    (hrun : Operator.read.run ⟨text, position, rest⟩ = .error e after) :
    FailsAt text e.root after := by
  obtain ⟨gap, tail, rfl, hblank⟩ := exists_blanks_append rest
  cases tail with
  | nil =>
    have hread := hvalid.read
    rw [List.append_nil, Operator.read_nothing text position gap] at hrun
    cases hrun
    exact ⟨rfl, hread, rfl, rfl⟩
  | cons c tail =>
    cases hsymbol : Operator.ofSymbol? c with
    | none =>
      rw [Operator.read_other text position gap (stops_cons.mp hblank) hsymbol] at hrun
      cases hrun
      have hread : Cursor.Valid ⟨text, position + utf8Length gap.chars, [c] ++ tail⟩ := hvalid.read
      obtain ⟨before, hbefore⟩ := hread
      exact ⟨rfl, Cursor.Valid.read ⟨before, hbefore⟩, rfl, before, hbefore⟩
    | some operator =>
      rw [Operator.eq_symbol_of_ofSymbol? hsymbol, Operator.read_symbol text position gap] at hrun
      cases hrun

end Scanners

namespace Step

variable {step : Step} {c after : Cursor} {e : ReadError}

/-- Naming a result does not make a scan fail. -/
theorem run_error_of_bind_pure {α β : Type} {scan : Scan α} {name : α → β}
    (hrun : (do return name (← scan) : Scan β).run c = .error e after) :
    scan.run c = .error e after := by
  rw [EStateM.run_bind] at hrun
  cases hscan : scan.run c with
  | ok result stop =>
    rw [hscan] at hrun
    cases hrun
  | error failure stop =>
    rw [hscan] at hrun
    cases hrun
    rfl

/-- A step on a valid cursor that fails leaves the cursor where its fault says.  Only the
four scanners can fail. -/
theorem take_failsAt (hvalid : c.Valid) (htake : step.take c = (.error e, after)) :
    FailsAt c.text e.root after := by
  have hrun : step.scan.run c = .error e after := by
    rw [take] at htake
    cases hscan : step.scan.run c with
    | ok result stop =>
      rw [hscan] at htake
      cases htake
    | error failure stop =>
      rw [hscan] at htake
      cases htake
      rfl
  cases step with
  | wholePart => exact Literal.wholePart_failsAt hvalid (run_error_of_bind_pure hrun)
  | fraction => exact Literal.fraction_failsAt hvalid (run_error_of_bind_pure hrun)
  | number => exact Literal.number_failsAt hvalid (run_error_of_bind_pure hrun)
  | operator => exact Operator.read_failsAt hvalid (run_error_of_bind_pure hrun)
  | sign => exact absurd (run_error_of_bind_pure hrun) Literal.sign_run_ne_error
  | eat expected =>
    have heat := run_error_of_bind_pure hrun
    rw [Scan.run_eat] at heat
    split at heat <;> cases heat
  | _ => cases hrun

end Step

end CommaCalc
