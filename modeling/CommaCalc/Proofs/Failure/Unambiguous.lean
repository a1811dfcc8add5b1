import CommaCalc.Proofs.Decimal.Plain
import CommaCalc.Proofs.Failure.Chain

/-!
# What a report tells apart

Every message begins with words of its own, and no other message begins with them.  So the
kind of an error is seen from the front of its message, whatever character was found and
however the report goes on.  Behind the front stand the position, which ends at a character
that is no digit, and the character that was found, which takes exactly one place.  A report
is read from its front, cause by cause, and determines the failure.
-/

namespace CommaCalc

/-- What the messages begin with, up to where they depend on more than the kind of the error. -/
def leads : List String :=
  ["The expression is empty.", "Expected a digit at position ", "Expected a number at position ",
    "Expected an operator at position ", "Invalid operator '", "The digits starting at position ",
    "The left operand is invalid.", "The right operand is invalid.",
    "The integer part of the number is invalid.", "The fractional part of the number is invalid.",
    "Division by zero: "]

/-- None of them is the beginning of another one. -/
theorem leads_prefix_free {lead lead' : String} (hlead : lead ∈ leads) (hlead' : lead' ∈ leads)
    (hbegins : lead.toList <+: lead'.toList) : lead = lead' := by
  have hall : leads.all (fun a => leads.all fun b =>
      !a.toList.isPrefixOf b.toList || a == b) = true := by decide +kernel
  have hpair := List.all_eq_true.mp (List.all_eq_true.mp hall lead hlead) lead' hlead'
  rw [List.isPrefixOf_iff_prefix.mpr hbegins, Bool.not_true, Bool.false_or] at hpair
  exact beq_iff_eq.mp hpair

/-- Which one a text begins with does not depend on what stands behind it. -/
theorem leads_append_inj {lead lead' back back' : String} (hlead : lead ∈ leads)
    (hlead' : lead' ∈ leads) (heq : lead ++ back = lead' ++ back') :
    lead = lead' ∧ back = back' := by
  have hlist := congrArg String.toList heq
  rw [String.toList_append, String.toList_append] at hlist
  have hfront : lead.toList <+: lead'.toList ++ back'.toList := hlist ▸ List.prefix_append _ _
  have hsame : lead = lead' := by
    obtain hle | hge := List.prefix_or_prefix_of_prefix hfront (List.prefix_append _ _)
    · exact leads_prefix_free hlead hlead' hle
    · exact (leads_prefix_free hlead' hlead hge).symm
  rw [hsame, String.append_right_inj] at heq
  exact ⟨hsame, heq⟩

theorem toList_toString_nat (n : Nat) : (toString n).toList = Nat.toDigits 10 n := by
  simp

theorem toDigits_injective : Function.Injective (Nat.toDigits 10) :=
  Function.LeftInverse.injective decimalValue_toDigits

theorem toString_nat_inj {n n' : Nat} (heq : toString n = toString n') : n = n' := by
  apply toDigits_injective
  rw [← toList_toString_nat, heq, toList_toString_nat]

/-- A position ends where the digits do. -/
theorem position_append_inj {position position' : Nat} {back back' : String}
    (hback : Stops Char.isDigit back.toList) (hback' : Stops Char.isDigit back'.toList)
    (heq : toString position ++ back = toString position' ++ back') :
    position = position' ∧ back = back' := by
  have hlist := congrArg String.toList heq
  rw [String.toList_append, String.toList_append, toList_toString_nat, toList_toString_nat] at hlist
  have hdigit : ∀ n, ∀ c ∈ Nat.toDigits 10 n, c.isDigit = true := fun n c hc =>
    Nat.isDigit_of_mem_toDigits (by decide) (by decide) hc
  obtain ⟨hposition, hrest⟩ :=
    append_stops_inj (hdigit position) hback (hdigit position') hback' hlist
  exact ⟨toDigits_injective hposition, String.toList_inj.mp hrest⟩

/-- A found character takes one place, whichever it is. -/
theorem singleton_append_inj {c c' : Char} {back back' : String}
    (heq : String.singleton c ++ back = String.singleton c' ++ back') : c = c' ∧ back = back' := by
  have hlist := congrArg String.toList heq
  rw [String.toList_append, String.toList_append, String.toList_singleton,
    String.toList_singleton] at hlist
  obtain ⟨hc, hrest⟩ := List.cons.inj hlist
  exact ⟨hc, String.toList_inj.mp hrest⟩

/-- What stood where a digit was expected, behind the position. -/
def foundWords : Option Char → String
  | some found => ", found '" ++ (String.singleton found ++ "'.")
  | none => ", but the expression ended."

theorem stops_foundWords (found : Option Char) : Stops Char.isDigit (foundWords found).toList := by
  cases found with
  | none =>
    have hcomma : (foundWords none).toList.head? = some ',' := by decide +kernel
    simp [Stops, hcomma]
  | some c => simp [foundWords, Stops]

theorem foundWords_injective : Function.Injective foundWords := by
  intro found found' heq
  cases found with
  | none =>
    cases found' with
    | none => rfl
    | some c' =>
      have hlist := congrArg String.toList heq
      simp [foundWords] at hlist
  | some c =>
    cases found' with
    | none =>
      have hlist := congrArg String.toList heq
      simp [foundWords] at hlist
    | some c' => rw [(singleton_append_inj ((String.append_right_inj _).mp heq)).1]

namespace Fault

/-- What the message of a fault begins with. -/
def lead : Fault → String
  | emptyInput => "The expression is empty."
  | missingDigits .. => "Expected a digit at position "
  | missingOperand _ => "Expected a number at position "
  | missingOperator _ => "Expected an operator at position "
  | invalidOperator .. => "Invalid operator '"
  | integerTooLarge _ => "The digits starting at position "

/-- What stands behind it. -/
def details : Fault → String
  | emptyInput => ""
  | missingDigits position found => toString position ++ foundWords found
  | missingOperand position => toString position ++ foundWords none
  | missingOperator position => toString position ++ foundWords none
  | invalidOperator found position =>
    String.singleton found ++ ("' at position " ++ (toString position ++
      ". Expected one of + - * /."))
  | integerTooLarge position => toString position ++ " form a number that is too large."

theorem lead_mem (f : Fault) : f.lead ∈ leads := by
  cases f <;> simp [lead, leads]

theorem message_eq (f : Fault) : f.message = f.lead ++ f.details := by
  have hassoc : ∀ a b c : String, a ++ b ++ c = a ++ (b ++ c) := fun a b c => String.append_assoc
  cases f with
  | emptyInput => rfl
  | missingDigits position found =>
    cases found with
    | none => exact hassoc "Expected a digit at position " (toString position) (foundWords none)
    | some c =>
      change "Expected a digit at position " ++ toString position ++
        (", found '" ++ String.singleton c ++ "'.") = _
      rw [hassoc, hassoc]
      rfl
  | missingOperand position =>
    exact hassoc "Expected a number at position " (toString position) (foundWords none)
  | missingOperator position =>
    exact hassoc "Expected an operator at position " (toString position) (foundWords none)
  | invalidOperator found position =>
    change "Invalid operator '" ++ String.singleton found ++ "' at position " ++
      toString position ++ ". Expected one of + - * /." = _
    rw [hassoc, hassoc, hassoc]
    rfl
  | integerTooLarge position =>
    exact hassoc "The digits starting at position " (toString position)
      " form a number that is too large."

/-- The message of a fault determines it. -/
theorem message_injective : Function.Injective message := by
  intro f f' heq
  rw [message_eq, message_eq] at heq
  obtain ⟨hlead, hdetails⟩ := leads_append_inj f.lead_mem f'.lead_mem heq
  cases f with
  | emptyInput =>
    cases f' with
    | emptyInput => rfl
    | _ => simp [lead] at hlead
  | missingDigits position found =>
    cases f' with
    | missingDigits position' found' =>
      obtain ⟨hposition, hfound⟩ := position_append_inj (stops_foundWords found)
        (stops_foundWords found') hdetails
      rw [hposition, foundWords_injective hfound]
    | _ => simp [lead] at hlead
  | missingOperand position =>
    cases f' with
    | missingOperand position' =>
      rw [toString_nat_inj ((String.append_left_inj _).mp hdetails)]
    | _ => simp [lead] at hlead
  | missingOperator position =>
    cases f' with
    | missingOperator position' =>
      rw [toString_nat_inj ((String.append_left_inj _).mp hdetails)]
    | _ => simp [lead] at hlead
  | invalidOperator found position =>
    cases f' with
    | invalidOperator found' position' =>
      obtain ⟨hfound, hrest⟩ := singleton_append_inj hdetails
      have hposition := (String.append_left_inj _).mp ((String.append_right_inj _).mp hrest)
      rw [hfound, toString_nat_inj hposition]
    | _ => simp [lead] at hlead
  | integerTooLarge position =>
    cases f' with
    | integerTooLarge position' =>
      rw [toString_nat_inj ((String.append_left_inj _).mp hdetails)]
    | _ => simp [lead] at hlead

theorem lead_ne_place (f : Fault) (place : Place) : f.lead ≠ place.message := by
  cases f <;> cases place <;> simp [lead, Place.message]

theorem lead_ne_division (f : Fault) : f.lead ≠ "Division by zero: " := by
  cases f <;> simp [lead]

end Fault

namespace Place

theorem message_mem (place : Place) : place.message ∈ leads := by
  cases place <;> simp [message, leads]

theorem message_injective : Function.Injective message := by
  intro place place' heq
  cases place <;> cases place' <;> simp [message] at heq ⊢

theorem message_ne_division (place : Place) : place.message ≠ "Division by zero: " := by
  cases place <;> simp [message]

end Place

/-! ## The reports -/

namespace ReadError

theorem text_fault (first : Nat) (f : Fault) :
    (fault f).text first = f.lead ++ f.details := by
  rw [← f.message_eq]
  exact String.append_empty

/-- The causes are read back one after the other, from the outermost inwards. -/
theorem text_injective (first : Nat) : Function.Injective (text first) := by
  intro e e' heq
  induction e generalizing e' first with
  | fault f =>
    cases e' with
    | fault f' =>
      rw [text_fault, text_fault, ← f.message_eq, ← f'.message_eq] at heq
      rw [f.message_injective heq]
    | within place' cause' =>
      rw [text_fault, text_within] at heq
      exact absurd (leads_append_inj f.lead_mem place'.message_mem heq).1 (f.lead_ne_place place')
  | within place cause ih =>
    cases e' with
    | fault f' =>
      rw [text_fault, text_within] at heq
      exact absurd (leads_append_inj f'.lead_mem place.message_mem heq.symm).1
        (f'.lead_ne_place place)
    | within place' cause' =>
      rw [text_within, text_within] at heq
      obtain ⟨hplace, hbelow⟩ := leads_append_inj place.message_mem place'.message_mem heq
      rw [String.append_right_inj] at hbelow
      rw [Place.message_injective hplace, ih (first + 1) hbelow]

/-- No report of an error in the text begins like that of a division by zero. -/
theorem report_ne_division (e : ReadError) (back : String) :
    e.report ≠ "Division by zero: " ++ back := by
  intro heq
  have hdivision : "Division by zero: " ∈ leads := by simp [leads]
  rw [report_eq] at heq
  cases e with
  | fault f =>
    rw [text_fault] at heq
    exact f.lead_ne_division (leads_append_inj f.lead_mem hdivision heq).1
  | within place cause =>
    rw [text_within] at heq
    exact place.message_ne_division (leads_append_inj place.message_mem hdivision heq).1

end ReadError

namespace EvalError

theorem report_divisionByZero (dividend : Binary64) :
    (divisionByZero dividend).report =
      "Division by zero: " ++ (dividend.decimalText ++ " cannot be divided by 0.") := by
  rw [report, reportFrom, source?, ReadError.sources, List.map_nil, reportText, causeLines,
    String.intercalate_singleton]
  change "Division by zero: " ++ dividend.decimalText ++ " cannot be divided by 0." = _
  rw [String.append_assoc]

theorem exists_report (error : EvalError) :
    ∃ back, error.report = "Division by zero: " ++ back := by
  obtain ⟨dividend⟩ := error
  exact ⟨_, report_divisionByZero dividend⟩

theorem report_injective : Function.Injective report := by
  rintro ⟨dividend⟩ ⟨dividend'⟩ heq
  rw [report_divisionByZero, report_divisionByZero, String.append_right_inj,
    String.append_left_inj] at heq
  rw [Binary64.decimalText_injective heq]

end EvalError

namespace Failure

/-- Failures with one report are the same failure: they arose at the same stage, in the same
places, with the same fault at the same position and the same character found, whichever it is,
or with the same dividend, the sign of a zero included. -/
theorem report_identifies : Function.Injective report := by
  intro failure failure' heq
  cases failure with
  | reading e =>
    cases failure' with
    | reading e' =>
      have htext : e.text 1 = e'.text 1 := by
        rw [← ReadError.report_eq, ← ReadError.report_eq]
        exact heq
      rw [ReadError.text_injective 1 htext]
    | evaluation error' =>
      obtain ⟨back, hback⟩ := error'.exists_report
      exact absurd (heq.trans hback) (e.report_ne_division back)
  | evaluation error =>
    cases failure' with
    | reading e' =>
      obtain ⟨back, hback⟩ := error.exists_report
      exact absurd (heq.symm.trans hback) (e'.report_ne_division back)
    | evaluation error' => rw [EvalError.report_injective heq]

end Failure

end CommaCalc
