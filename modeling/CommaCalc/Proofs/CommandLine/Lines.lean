import CommaCalc.Proofs.CommandLine.Argument
import CommaCalc.Proofs.Expression.CauseChain
import CommaCalc.Proofs.Expression.Trim
import CommaCalc.Proofs.Failure.Report

/-!
# The lines of a file

The lines of a file are calculated one by one: what a line adds to the output depends on
the line alone, and the outputs are joined in order.  A line is trimmed before it is
read, and blank lines and comments are passed over; neither changes or hides a result,
since a trimmed expression has the same value and no expression is blank or begins with
`#`.
-/

namespace CommaCalc.CommandLine

/-- What stands between the line feeds of a file. -/
def rawLines (content : String) : List String :=
  (content.toList.splitOn '\n').map String.ofList

/-- Whether a line has no expression to calculate: it is blank or a comment. -/
def IsPassedOver (line : String) : Prop :=
  trim line = "" ∨ (trim line).toList.head? = some '#'

instance (line : String) : Decidable (IsPassedOver line) :=
  inferInstanceAs (Decidable (_ ∨ _))

/-- The failure of a line that is not passed over, if it fails. -/
def rejection? (line : String) : Option Failure :=
  if IsPassedOver line then none
  else
    match calculate (trim line) with
    | .error failure => some failure
    | .ok _ => none

/-- The normal form of the expression in a text that can be read. -/
def normalForm (text : String) : String :=
  match Expression.read text with
  | .ok expression => expression.display
  | .error _ => ""

/-- What a line adds to the standard output: its value, if it has one. -/
def printed? (verbose : Bool) (line : String) : Option String :=
  (calculate line).toOption.map fun r =>
    (if verbose then normalForm line ++ " = " else "") ++ (r.decimalText ++ "\n")

/-- What a line adds to the standard error: the report of its failure, if it is rejected. -/
def reported? (line : String) : Option String :=
  (rejection? line).map fun failure => failure.report ++ "\n"

/-- The whole output of one line. -/
def lineOutput (verbose : Bool) (line : String) : Output :=
  ⟨(rejection? line).isSome, (printed? verbose line).getD "", (reported? line).getD ""⟩

theorem lines_eq_splitOn (content : List Char) : lines content = content.splitOn '\n' := by
  induction content with
  | nil => rfl
  | cons c cs ih =>
    have hlines : lines (c :: cs) = pushToLines c (lines cs) := rfl
    obtain ⟨line, later, hsplit⟩ := List.exists_cons_of_ne_nil (List.splitOn_ne_nil '\n' cs)
    rw [hlines, ih, List.splitOn_cons_eq_if_modifyHead, hsplit]
    simp only [pushToLines, beq_iff_eq, List.modifyHead_cons]

/-- A line feed between two contents separates their lines. -/
theorem rawLines_append (front back : String) :
    rawLines (front ++ "\n" ++ back) = rawLines front ++ rawLines back := by
  have hchars : (front ++ "\n" ++ back).toList = front.toList ++ '\n' :: back.toList := by
    simp only [String.toList_append, List.append_assoc]
    rfl
  rw [rawLines, hchars, List.splitOn_append_cons_self, List.map_append]
  rfl

section Line

variable {line : String}

/-- No expression is passed over. -/
theorem not_isPassedOver_of_calculate {r : Binary64} (hcalculate : calculate line = .ok r) :
    ¬ IsPassedOver line := by
  obtain ⟨e, hread, -, -⟩ := exists_read_of_calculate (calculate_trim_eq_ok_iff.mpr hcalculate)
  obtain ⟨s, hs, -⟩ := Expression.exists_split_of_read hread
  obtain ⟨c, tail, hchars, hc⟩ := s.exists_cons
  rw [hs] at hchars
  rintro (hempty | hcomment)
  · rw [hempty] at hchars
    exact absurd hchars (by simp)
  · rw [hchars, List.head?_cons, Option.some.injEq] at hcomment
    rw [hcomment] at hc
    exact absurd hc (by decide)

/-- A line fails if the trimmed line does, although it may fail elsewhere. -/
theorem exists_calculate_eq_error {failure : Failure}
    (htrim : calculate (trim line) = .error failure) :
    ∃ failure', calculate line = .error failure' := by
  cases hcalculate : calculate line with
  | error failure' => exact ⟨failure', rfl⟩
  | ok r =>
    rw [calculate_trim_eq_ok_iff.mpr hcalculate] at htrim
    exact absurd htrim (by simp)

theorem rejection?_of_isPassedOver (hpassed : IsPassedOver line) : rejection? line = none :=
  if_pos hpassed

theorem rejection?_of_ok {r : Binary64} (htrim : calculate (trim line) = .ok r) :
    rejection? line = none := by
  rw [rejection?, htrim]
  exact ite_self none

theorem rejection?_eq_some_iff {failure : Failure} :
    rejection? line = some failure ↔
      ¬ IsPassedOver line ∧ calculate (trim line) = .error failure := by
  by_cases hpassed : IsPassedOver line
  · simp [rejection?_of_isPassedOver hpassed, hpassed]
  · rw [rejection?, if_neg hpassed]
    cases calculate (trim line) <;> simp [hpassed]

/-- What is left of a line that is not passed over has characters that are no blanks. -/
theorem rejection?_ne_empty {failure : Failure} (hrejection : rejection? line = some failure) :
    failure ≠ .empty := by
  rintro rfl
  obtain ⟨hpassed, hcalculate⟩ := rejection?_eq_some_iff.mp hrejection
  have hblank := (Expression.read_eq_error_iff.mp
    (read_eq_error_of_calculate hcalculate)).blank_of_emptyInput
  rw [toList_trim] at hblank
  have hnil : trimBlanks line.toList ≠ [] := fun hnil => hpassed (.inl (by rw [trim, hnil]))
  obtain ⟨c, hc, hnot⟩ := exists_not_blank_trimBlanks hnil
  rw [hblank c hc] at hnot
  exact Bool.noConfusion hnot

theorem lineExpression?_of_isPassedOver (hpassed : IsPassedOver line) :
    lineExpression? line.toList = none := by
  obtain hempty | hcomment := hpassed
  · have hnil : trimBlanks line.toList = [] := by rw [← toList_trim, hempty]; rfl
    rw [lineExpression?, hnil]
  · rw [toList_trim] at hcomment
    obtain ⟨tail, htail⟩ := List.head?_eq_some_iff.mp hcomment
    rw [lineExpression?, htail]
    rfl

theorem lineExpression?_of_not_isPassedOver (hpassed : ¬ IsPassedOver line) :
    lineExpression? line.toList = some (trim line) := by
  rw [lineExpression?]
  split
  · next hnil => exact absurd (.inl (by rw [trim, hnil])) hpassed
  · next tail htail => exact absurd (.inr (by rw [toList_trim, htail]; rfl)) hpassed
  · rfl

/-- When verbose, the line of a result only begins with something more. -/
theorem resultLine_eq (verbose : Bool) (e : Expression) (r : Binary64) :
    resultLine verbose e r =
      (if verbose then e.display ++ " = " else "") ++ (r.decimalText ++ "\n") := by
  cases verbose with
  | false => simp [resultLine]
  | true => simp [resultLine, String.append_assoc]

/-- A line that is not passed over adds what its trimmed text comes to. -/
theorem runText_trim (verbose : Bool) (hpassed : ¬ IsPassedOver line) :
    runText verbose (trim line) = lineOutput verbose line := by
  cases htrim : calculate (trim line) with
  | error failure =>
    obtain ⟨failure', hcalculate⟩ := exists_calculate_eq_error htrim
    have hrejection := rejection?_eq_some_iff.mpr ⟨hpassed, htrim⟩
    rw [runText_of_error verbose htrim, lineOutput, printed?, reported?, hrejection, hcalculate]
    rfl
  | ok r =>
    obtain ⟨e, hread, -, -⟩ := exists_read_of_calculate htrim
    have hcalculate := calculate_trim_eq_ok_iff.mp htrim
    have hnormal : normalForm line = e.display := by
      rw [normalForm, Expression.read_of_read_trim hread]
      rfl
    rw [runText_of_ok verbose hread htrim, lineOutput, printed?, reported?, rejection?_of_ok htrim,
      hcalculate, resultLine_eq, ← hnormal]
    rfl

/-- A line that is passed over adds nothing. -/
theorem lineOutput_of_isPassedOver (verbose : Bool) (hpassed : IsPassedOver line) :
    lineOutput verbose line = ⟨false, "", ""⟩ := by
  cases hcalculate : calculate line with
  | error failure =>
    rw [lineOutput, printed?, reported?, rejection?_of_isPassedOver hpassed, hcalculate]
    rfl
  | ok r => exact absurd hpassed (not_isPassedOver_of_calculate hcalculate)

end Line

namespace Output

/-- One output and then another; the whole fails if either does. -/
def followedBy (first last : Output) : Output :=
  ⟨first.failed || last.failed, first.stdout ++ last.stdout, first.stderr ++ last.stderr⟩

theorem concat_cons (output : Output) (outputs : List Output) :
    concat (output :: outputs) = output.followedBy (concat outputs) := by
  simp only [concat, followedBy, List.any_cons, List.map_cons, String.join_cons]

theorem concat_append (first last : List Output) :
    concat (first ++ last) = (concat first).followedBy (concat last) := by
  simp only [concat, followedBy, List.any_append, List.map_append, String.join_append]

theorem empty_followedBy (output : Output) :
    (⟨false, "", ""⟩ : Output).followedBy output = output := by
  simp only [followedBy, Bool.false_or, String.empty_append]

/-- Of two exit codes the worse remains. -/
theorem code_followedBy (first last : Output) :
    (Outcome.finished (first.followedBy last)).code =
      max (Outcome.finished first).code (Outcome.finished last).code := by
  obtain ⟨failed, stdout, stderr⟩ := first
  obtain ⟨failed', stdout', stderr'⟩ := last
  cases failed <;> cases failed' <;> rfl

end Output

/-- The lines of a file add their outputs in order. -/
theorem runLines_eq (verbose : Bool) (content : String) :
    runLines verbose content = .concat ((rawLines content).map (lineOutput verbose)) := by
  rw [runLines, lines_eq_splitOn, rawLines]
  induction content.toList.splitOn '\n' with
  | nil => rfl
  | cons line later ih =>
    by_cases hpassed : IsPassedOver (String.ofList line)
    · have hnone := lineExpression?_of_isPassedOver hpassed
      rw [String.toList_ofList] at hnone
      rw [List.filterMap_cons_none hnone, List.map_cons, List.map_cons, Output.concat_cons,
        lineOutput_of_isPassedOver verbose hpassed, Output.empty_followedBy, ih]
    · have hsome := lineExpression?_of_not_isPassedOver hpassed
      rw [String.toList_ofList] at hsome
      rw [List.filterMap_cons_some hsome, List.map_cons, List.map_cons, List.map_cons,
        Output.concat_cons, Output.concat_cons, runText_trim verbose hpassed, ih]

theorem join_map_getD (f : String → Option String) (texts : List String) :
    String.join (texts.map fun text => (f text).getD "") = String.join (texts.filterMap f) := by
  induction texts with
  | nil => rfl
  | cons text texts ih =>
    cases hf : f text with
    | none => simp [hf, ih]
    | some line => simp [hf, ih]

section Run

variable (verbose : Bool)

theorem stdout_runLines (content : String) : (runLines verbose content).stdout =
    String.join ((rawLines content).filterMap (printed? verbose)) := by
  rw [runLines_eq, ← join_map_getD]
  simp only [Output.concat, List.map_map]
  rfl

theorem stderr_runLines (content : String) : (runLines verbose content).stderr =
    String.join ((rawLines content).filterMap reported?) := by
  rw [runLines_eq, ← join_map_getD]
  simp only [Output.concat, List.map_map]
  rfl

theorem failed_runLines (content : String) : (runLines verbose content).failed = true ↔
    ∃ line ∈ rawLines content, (rejection? line).isSome = true := by
  rw [runLines_eq]
  simp only [Output.concat, List.any_map, List.any_eq_true]
  rfl

/-- Two files with a line feed between them are run one after the other. -/
theorem runLines_append (front back : String) : runLines verbose (front ++ "\n" ++ back) =
    (runLines verbose front).followedBy (runLines verbose back) := by
  rw [runLines_eq, rawLines_append, List.map_append, Output.concat_append, ← runLines_eq,
    ← runLines_eq]

end Run

/-! ## A call with a file -/

theorem fromUTF8?_toUTF8 (content : String) : String.fromUTF8? content.toUTF8 = some content := by
  rw [String.fromUTF8?]
  exact dif_pos content.isValidUTF8

section Call

variable {arguments : List String} {readFile : String → Option ByteArray} {verbose : Bool}
  {path content : String}

theorem call_of_file (hoptions : Options.ofArguments? arguments = some ⟨true, verbose, path⟩)
    (hfile : readFile path = some content.toUTF8) :
    call arguments readFile = .finished (runLines verbose content) := by
  simp only [call, hoptions, run, if_true, hfile, Option.bind_some, fromUTF8?_toUTF8]

/-- A call with a file prints the value of each of its lines that has one, as it stands,
and reports each line that fails once it is trimmed, unless that leaves nothing or a
comment; so no report is that of an empty text.  The call fails if a line does.  Being
verbose only puts the normal form in front of a value.  Two files with a line feed between
them add their outputs, and the worse of their exit codes remains. -/
theorem call_file (hoptions : Options.ofArguments? arguments = some ⟨true, verbose, path⟩)
    (hfile : readFile path = some content.toUTF8) :
    ∃ output, call arguments readFile = .finished output ∧
      output.stdout = String.join ((rawLines content).filterMap (printed? verbose)) ∧
      output.stderr = String.join ((rawLines content).filterMap reported?) ∧
      (∀ line failure, rejection? line = some failure →
        failure.report ≠ (Failure.reading (.fault .emptyInput)).report) ∧
      (Outcome.finished output).code =
        (if ∃ line ∈ rawLines content, (rejection? line).isSome = true then 1 else 0) ∧
      ∀ front back readFront readBack, content = front ++ "\n" ++ back →
        readFront path = some front.toUTF8 → readBack path = some back.toUTF8 →
        ∃ first last, call arguments readFront = .finished first ∧
          call arguments readBack = .finished last ∧
          output.stdout = first.stdout ++ last.stdout ∧
          output.stderr = first.stderr ++ last.stderr ∧
          (Outcome.finished output).code =
            max (Outcome.finished first).code (Outcome.finished last).code := by
  refine ⟨_, call_of_file hoptions hfile, stdout_runLines verbose content,
    stderr_runLines verbose content, ?_, ?_, ?_⟩
  · intro line failure hrejection hreport
    exact rejection?_ne_empty hrejection (Failure.report_eq_report_empty_iff.mp hreport)
  · rw [Outcome.code]
    exact if_congr (failed_runLines verbose content) rfl rfl
  · rintro front back readFront readBack rfl hfront hback
    rw [runLines_append]
    exact ⟨_, _, call_of_file hoptions hfront, call_of_file hoptions hback, rfl, rfl,
      Output.code_followedBy _ _⟩

end Call

/-- A line with a value, a comment, a blank line and a division by zero. -/
def sums : String := "1+2 \n# sums\n\n\t4 / 0\r"

/-- The comment and the blank line leave nothing between the value and the report. -/
theorem call_file_sums :
    ∃ output, call ["-vf", "sums"] (fun _ => some sums.toUTF8) = .finished output ∧
      output.stdout = "1 + 2 = 3\n" ∧
      output.stderr = "Division by zero: 4 cannot be divided by 0.\n" ∧
      (Outcome.finished output).code = 1 ∧
      (Failure.evaluation (.divisionByZero (Binary64.ofNat 4))).report ≠
        (Failure.reading (.fault .emptyInput)).report ∧
      ∃ first last,
        call ["-vf", "sums"] (fun _ => some "1+2 \n# sums\n".toUTF8) = .finished first ∧
        call ["-vf", "sums"] (fun _ => some "\t4 / 0\r".toUTF8) = .finished last ∧
        output.stdout = first.stdout ++ last.stdout ∧
        output.stderr = first.stderr ++ last.stderr := by
  have hoptions : Options.ofArguments? ["-vf", "sums"] = some ⟨true, true, "sums"⟩ := by
    decide +kernel
  let readFile : String → Option ByteArray := fun _ => some sums.toUTF8
  have hfile : readFile "sums" = some sums.toUTF8 := rfl
  obtain ⟨output, hcall, hstdout, hstderr, hreport, hcode, happend⟩ := call_file hoptions hfile
  have hsums : sums = "1+2 \n# sums\n" ++ "\n" ++ "\t4 / 0\r" := by decide +kernel
  obtain ⟨first, last, hfirst, hlast, hout, herr, -⟩ :=
    happend _ _ (fun _ => some "1+2 \n# sums\n".toUTF8) (fun _ => some "\t4 / 0\r".toUTF8) hsums
      rfl rfl
  have hrejection : rejection? "\t4 / 0\r" =
      some (.evaluation (.divisionByZero (Binary64.ofNat 4))) := by decide +kernel
  refine ⟨output, hcall, ?_, ?_, ?_, hreport _ _ hrejection, first, last, hfirst, hlast, hout, herr⟩
  · rw [hstdout]
    decide +kernel
  · rw [hstderr]
    decide +kernel
  · rw [hcode]
    decide +kernel

end CommaCalc.CommandLine
