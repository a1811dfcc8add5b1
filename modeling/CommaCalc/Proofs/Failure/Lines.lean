import CommaCalc.Proofs.Calculation.ZeroDivision
import CommaCalc.Proofs.Expression.CauseChain
import CommaCalc.Proofs.Expression.FaultTruth

/-!
# The lines of a report

A report joins its lines by line feeds, so they can be told apart again only if no message
holds a line feed.  A message may hold any character that was found in the text, and it is
put there as it is; but no scanner fails at a blank, and every line feed is a blank.  The
only blanks in the report of a calculation are therefore its own spaces, and it has one
line for each error in the chain.
-/

namespace CommaCalc

/-- The blanks at which a line ends. -/
def lineSeparators : List Char :=
  ['\n', '\x0b', '\x0c', '\r', '\u0085', '\u2028', '\u2029']

/-- The only blanks in a text are spaces. -/
def IsPlain (text : String) : Prop :=
  ∀ c ∈ text.toList, isBlank c = true → c = ' '

namespace IsPlain

variable {front back text : String}

theorem append (hfront : IsPlain front) (hback : IsPlain back) : IsPlain (front ++ back) := by
  intro c hc
  rw [String.toList_append, List.mem_append] at hc
  exact hc.elim (hfront c) (hback c)

theorem of_not_blank (h : ∀ c ∈ text.toList, isBlank c = false) : IsPlain text := by
  intro c hc hblank
  rw [h c hc] at hblank
  exact Bool.noConfusion hblank

/-- A text is plain if the check of its characters says so. -/
theorem of_all (h : text.toList.all (fun c => !isBlank c || c == ' ') = true) : IsPlain text := by
  intro c hc hblank
  have hcheck := List.all_eq_true.mp h c hc
  rw [hblank, Bool.not_true, Bool.false_or] at hcheck
  exact beq_iff_eq.mp hcheck

theorem singleton {c : Char} (hc : isBlank c = false) : IsPlain (String.singleton c) := by
  refine of_not_blank fun d hd => ?_
  rw [String.toList_singleton, List.mem_singleton] at hd
  rw [hd, hc]

theorem toString_nat (n : Nat) : IsPlain (toString n) := by
  refine of_not_blank fun c hc => ?_
  have hdigits : (toString n).toList = Nat.toDigits 10 n := by simp
  rw [hdigits] at hc
  exact isBlank_eq_false_of_isDigit (Nat.isDigit_of_mem_toDigits (by decide) (by decide) hc)

/-- No line ends inside a plain text. -/
theorem not_mem_lineSeparators (h : IsPlain text) {c : Char} (hc : c ∈ text.toList) :
    c ∉ lineSeparators := by
  intro hseparator
  have hspace := h c hc
  simp only [lineSeparators, List.mem_cons, List.not_mem_nil, or_false] at hseparator
  rcases hseparator with rfl | rfl | rfl | rfl | rfl | rfl | rfl <;>
    exact absurd (hspace (by decide)) (by decide)

end IsPlain

/-- The character that a fault names. -/
def Fault.found? : Fault → Option Char
  | missingDigits _ found => found
  | invalidOperator found _ => some found
  | _ => none

/-- No fault that is true of a text names a blank. -/
theorem Fault.TrueOf.isBlank_found {text : String} {fault : Fault} (h : fault.TrueOf text) {c : Char}
    (hc : fault.found? = some c) : isBlank c = false := by
  cases fault with
  | missingDigits position found =>
    cases hc
    obtain ⟨before, behind, -, hblank, -⟩ := h
    exact hblank
  | invalidOperator found position =>
    cases hc
    obtain ⟨-, before, behind, -, hblank, -⟩ := h
    exact hblank
  | _ => cases hc

/-- A fault that names no blank has a plain message. -/
theorem Fault.isPlain_message {fault : Fault}
    (hfound : ∀ c, fault.found? = some c → isBlank c = false) : IsPlain fault.message := by
  cases fault with
  | emptyInput => exact .of_all rfl
  | missingDigits position found =>
    refine .append (.append (.of_all rfl) (.toString_nat position)) ?_
    cases found with
    | none => exact .of_all rfl
    | some c =>
      exact .append (.append (.of_all rfl) (.singleton (hfound c rfl)))
        (.of_all rfl)
  | missingOperand position =>
    exact .append (.append (.of_all rfl) (.toString_nat position))
      (.of_all rfl)
  | missingOperator position =>
    exact .append (.append (.of_all rfl) (.toString_nat position))
      (.of_all rfl)
  | invalidOperator found position =>
    exact .append (.append (.append (.append (.of_all rfl)
      (.singleton (hfound found rfl))) (.of_all rfl)) (.toString_nat position))
      (.of_all rfl)
  | integerTooLarge position =>
    exact .append (.append (.of_all rfl) (.toString_nat position))
      (.of_all rfl)

theorem Place.isPlain_message (place : Place) : IsPlain place.message := by
  cases place <;> exact .of_all rfl

/-- If the root has a plain message, so has every error around it. -/
theorem ReadError.isPlain_message {e : ReadError} (hroot : IsPlain e.root.message) :
    ∀ error ∈ e :: e.causes, IsPlain error.message := by
  induction e with
  | fault f =>
    rw [causes, List.forall_mem_singleton]
    exact hroot
  | within place cause ih =>
    rw [causes, List.forall_mem_cons]
    exact ⟨place.isPlain_message, ih hroot⟩

theorem Binary64.isPlain_decimalText (x : Binary64) : IsPlain x.decimalText := by
  cases x with
  | nan => exact .of_all rfl
  | infinite negative => cases negative <;> exact .of_all rfl
  | finite negative m =>
    refine .of_not_blank fun c hc => ?_
    rw [decimalText, String.toList_ofList, decimalChars_finite, ticksText_eq,
      fractionChars_tickFraction, List.mem_append, List.mem_append] at hc
    obtain hsign | hwhole | hfraction := hc
    · cases negative with
      | false => cases hsign
      | true =>
        obtain rfl := List.mem_singleton.mp hsign
        decide
    · exact isBlank_eq_false_of_isDigit ((tickWhole _).digit c hwhole)
    · split at hfraction
      · cases hfraction
      · obtain rfl | hdigit := List.mem_cons.mp hfraction
        · exact isBlank_decimalMark
        · exact isBlank_eq_false_of_isDigit (isDigit_of_mem_fractionDigits hdigit)

namespace Failure

/-- The messages of a failure and of everything that caused it, from the outermost to the
root.  The stage at which it arose has no message of its own. -/
def messages : Failure → List String
  | reading e => (e :: e.causes).map ReadError.message
  | evaluation e => [e.message]

/-- What stands between the line feeds of a report. -/
def reportLines (failure : Failure) : List String :=
  (failure.report.toList.splitOn '\n').map String.ofList

/-- No message of the chain has a blank other than a space. -/
def HasPlainMessages (failure : Failure) : Prop :=
  ∀ message ∈ failure.messages, IsPlain message

/-- The failures of calculations name no blanks, and their chains are short. -/
theorem of_calculate {text : String} {failure : Failure}
    (hcalculate : calculate text = .error failure) :
    failure.HasPlainMessages ∧ 1 ≤ failure.messages.length ∧ failure.messages.length ≤ 3 := by
  cases failure with
  | reading e =>
    have hinterrupted := Expression.read_eq_error_iff.mp (read_eq_error_of_calculate hcalculate)
    have hroot : IsPlain e.root.message :=
      Fault.isPlain_message fun _ => (hinterrupted.trueOf rfl).isBlank_found
    refine ⟨List.forall_mem_map.mpr (ReadError.isPlain_message hroot), ?_⟩
    cases hinterrupted.reported <;> simp [messages, ReadError.causes]
  | evaluation e =>
    obtain ⟨dividend⟩ := e
    refine ⟨?_, by simp [messages]⟩
    rw [HasPlainMessages, messages, List.forall_mem_singleton]
    exact .append (.append (.of_all rfl) dividend.isPlain_decimalText) (.of_all rfl)

end Failure

theorem getElem?_causeLines (first i : Nat) (causes : List String) :
    (causeLines first causes)[i]? =
      causes[i]?.map fun cause => "  " ++ toString (first + i) ++ ". Caused by: " ++ cause := by
  induction causes generalizing first i with
  | nil => simp [causeLines]
  | cons cause causes ih =>
    cases i with
    | zero => simp [causeLines]
    | succ i =>
      rw [causeLines, List.getElem?_cons_succ, List.getElem?_cons_succ, ih,
        Nat.add_right_comm, Nat.add_assoc]

theorem length_causeLines (first : Nat) (causes : List String) :
    (causeLines first causes).length = causes.length := by
  induction causes generalizing first with
  | nil => rfl
  | cons cause causes ih => rw [causeLines, List.length_cons, List.length_cons, ih]

theorem isPlain_of_mem_causeLines {causes : List String} (hcauses : ∀ cause ∈ causes, IsPlain cause)
    (first : Nat) : ∀ line ∈ causeLines first causes, IsPlain line := by
  induction causes generalizing first with
  | nil => exact fun line hline => absurd hline List.not_mem_nil
  | cons cause causes ih =>
    obtain ⟨hcause, hcauses⟩ := List.forall_mem_cons.mp hcauses
    rw [causeLines, List.forall_mem_cons]
    exact ⟨.append (.append (.append (.of_all rfl) (.toString_nat first)) (.of_all rfl)) hcause,
      ih hcauses (first + 1)⟩

/-- What is joined by line feeds can be split there again, unless a line feed was in it. -/
theorem splitOn_intercalate_lines {lines : List String} (hlines : ∀ line ∈ lines, IsPlain line)
    (hne : lines ≠ []) :
    ((String.intercalate "\n" lines).toList.splitOn '\n').map String.ofList = lines := by
  have hfeed : ∀ line ∈ lines.map String.toList, '\n' ∉ line := by
    rw [List.forall_mem_map]
    intro line hline hfeed
    exact (hlines line hline).not_mem_lineSeparators hfeed (by decide)
  have hseparator : "\n".toList = ['\n'] := by decide +kernel
  rw [String.toList_intercalate, hseparator,
    List.splitOn_intercalate '\n' hfeed (by simpa using hne), List.map_map]
  simp [Function.comp_def]

namespace Failure

/-- The report is that of the chain of messages. -/
theorem exists_messages (failure : Failure) :
    ∃ causes, failure.messages = failure.message :: causes ∧
      failure.report = reportText failure.message causes := by
  refine ⟨_, ?_, rfl⟩
  cases failure with
  | reading e => rw [messages, source?, ReadError.sources_source?, List.map_cons, message]
  | evaluation e =>
    obtain ⟨dividend⟩ := e
    rw [messages, source?, EvalError.source?, ReadError.sources, List.map_nil, message]

/-- If no message holds a line feed, a report is the message and the numbered causes, one on
each line. -/
theorem HasPlainMessages.exists_reportLines {failure : Failure} (hplain : failure.HasPlainMessages) :
    ∃ causes, failure.messages = failure.message :: causes ∧
      failure.reportLines = failure.message :: causeLines 1 causes ∧
      ∀ line ∈ failure.reportLines, IsPlain line := by
  obtain ⟨causes, hmessages, hreport⟩ := failure.exists_messages
  rw [HasPlainMessages, hmessages, List.forall_mem_cons] at hplain
  have hlines : ∀ line ∈ failure.message :: causeLines 1 causes, IsPlain line :=
    List.forall_mem_cons.mpr ⟨hplain.1, isPlain_of_mem_causeLines hplain.2 1⟩
  have hsplit : failure.reportLines = failure.message :: causeLines 1 causes := by
    rw [reportLines, hreport, reportText, splitOn_intercalate_lines hlines (List.cons_ne_nil _ _)]
  exact ⟨causes, hmessages, hsplit, hsplit ▸ hlines⟩

/-- The report of a calculation that fails has one line for each error of its chain, from one
to three: first its own message, then its causes, numbered from one.  The only blanks in its
lines are spaces, so no line holds another line separator. -/
theorem reportLines_of_calculate {text : String} {failure : Failure}
    (hcalculate : calculate text = .error failure) :
    failure.reportLines.length = failure.messages.length ∧
      (1 ≤ failure.messages.length ∧ failure.messages.length ≤ 3) ∧
      (failure.messages[0]? = some failure.message ∧
        failure.reportLines[0]? = some failure.message) ∧
      (∀ i, failure.reportLines[i + 1]? = failure.messages[i + 1]?.map fun cause =>
        "  " ++ toString (i + 1) ++ ". Caused by: " ++ cause) ∧
      ∀ line ∈ failure.reportLines, ∀ c ∈ line.toList,
        (isBlank c = true → c = ' ') ∧ c ∉ lineSeparators := by
  obtain ⟨hplain, hshortest, hlongest⟩ := of_calculate hcalculate
  obtain ⟨causes, hmessages, hlines, hlinesPlain⟩ := hplain.exists_reportLines
  refine ⟨?_, ⟨hshortest, hlongest⟩, ⟨?_, ?_⟩, ?_, ?_⟩
  · rw [hlines, hmessages, List.length_cons, List.length_cons, length_causeLines]
  · rw [hmessages, List.getElem?_cons_zero]
  · rw [hlines, List.getElem?_cons_zero]
  · intro i
    rw [hlines, hmessages, List.getElem?_cons_succ, List.getElem?_cons_succ,
      getElem?_causeLines, Nat.add_comm 1 i]
  · exact fun line hline c hc => ⟨hlinesPlain line hline c hc,
      (hlinesPlain line hline).not_mem_lineSeparators hc⟩

/-- A letter on the right is reported in three lines, and a division by zero in one. -/
theorem reportLines_of_calculate_sides :
    (∃ failure, calculate "1 + x" = .error failure ∧ failure.reportLines.length = 3 ∧
      failure.reportLines[0]? = some "The right operand is invalid." ∧
      failure.reportLines[2]? = some "  2. Caused by: Expected a digit at position 4, found 'x'.") ∧
    ∃ failure, calculate "-7 / 0,0" = .error failure ∧ failure.reportLines.length = 1 ∧
      failure.reportLines[0]? = some "Division by zero: -7 cannot be divided by 0." := by
  have hletter : calculate "1 + x" = .error (.reading (.within .rightOperand
      (.within .integerPart (.fault (.missingDigits 4 (some 'x')))))) := by decide +kernel
  have hzero : calculate "-7 / 0,0" =
      .error (.evaluation (.divisionByZero (.neg (.ofNat 7)))) := by decide +kernel
  obtain ⟨hlength, -, ⟨-, hmessage⟩, hcauses, -⟩ := reportLines_of_calculate hletter
  obtain ⟨hone, -, ⟨-, honly⟩, -, -⟩ := reportLines_of_calculate hzero
  refine ⟨⟨_, hletter, hlength, hmessage, ?_⟩, _, hzero, hone, ?_⟩
  · rw [hcauses 1]
    decide +kernel
  · rw [honly]
    decide +kernel

end Failure

end CommaCalc
