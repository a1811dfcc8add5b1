import CommaCalc.Failure
import Mathlib.Tactic.ByContra

/-!
# What a report begins with

A report begins with the message of its error, and the message of an empty text is one
that no other message begins with or is the beginning of.  So the report of an empty
text is that of no other failure.
-/

namespace CommaCalc

/-- A text is not the beginning of another if its own front is not. -/
theorem not_prefix_append {front back text : String} (hfront : ¬ front.toList <+: text.toList) :
    ¬ (front ++ back).toList <+: text.toList := by
  intro hprefix
  rw [String.toList_append] at hprefix
  exact hfront ((List.prefix_append _ _).trans hprefix)

theorem exists_reportText (message : String) (causes : List String) :
    ∃ below, reportText message causes = message ++ below := by
  cases causes with
  | nil => exact ⟨"", by rw [String.append_empty, reportText, causeLines,
      String.intercalate_singleton]⟩
  | cons cause causes => exact ⟨_, by rw [reportText, causeLines, String.intercalate_cons_cons,
      String.append_assoc]⟩

/-- No message of another fault could be the beginning of that of an empty text. -/
theorem Fault.not_message_prefix {f : Fault} (hf : f ≠ .emptyInput) :
    ¬ f.message.toList <+: emptyInput.message.toList := by
  cases f with
  | emptyInput => exact absurd rfl hf
  | missingDigits => exact not_prefix_append (not_prefix_append (by decide +kernel))
  | missingOperand => exact not_prefix_append (not_prefix_append (by decide +kernel))
  | missingOperator => exact not_prefix_append (not_prefix_append (by decide +kernel))
  | invalidOperator =>
    exact not_prefix_append (not_prefix_append (not_prefix_append (not_prefix_append
      (by decide +kernel))))
  | integerTooLarge => exact not_prefix_append (not_prefix_append (by decide +kernel))

theorem Place.not_message_prefix (place : Place) :
    ¬ place.message.toList <+: Fault.emptyInput.message.toList := by
  cases place <;> decide +kernel

namespace Failure

/-- The failure of a text without an expression. -/
def empty : Failure :=
  .reading (.fault .emptyInput)

theorem report_empty : empty.report = Fault.emptyInput.message := by
  rw [report, reportFrom, empty, source?, ReadError.sources_source?, ReadError.causes, reportText]
  exact String.intercalate_singleton

theorem not_message_prefix {failure : Failure} (hempty : failure ≠ empty) :
    ¬ failure.message.toList <+: Fault.emptyInput.message.toList := by
  cases failure with
  | reading e =>
    cases e with
    | fault f => exact Fault.not_message_prefix fun hf => hempty (by rw [hf, empty])
    | within place cause => exact place.not_message_prefix
  | evaluation e =>
    cases e with
    | divisionByZero dividend =>
      exact not_prefix_append (not_prefix_append (by decide +kernel))

theorem exists_report (failure : Failure) : ∃ below, failure.report = failure.message ++ below :=
  exists_reportText _ _

/-- Only an empty text has the report of an empty text. -/
theorem report_eq_report_empty_iff {failure : Failure} :
    failure.report = empty.report ↔ failure = empty := by
  constructor
  · intro hreport
    by_contra hempty
    obtain ⟨below, hbelow⟩ := failure.exists_report
    apply not_message_prefix hempty
    rw [← report_empty, ← hreport, hbelow, String.toList_append]
    exact List.prefix_append _ _
  · rintro rfl
    rfl

end Failure

end CommaCalc
