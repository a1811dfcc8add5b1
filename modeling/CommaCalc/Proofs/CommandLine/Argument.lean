import CommaCalc.CommandLine.Run
import CommaCalc.Proofs.Calculation.ZeroDivision

/-!
# An expression as the argument

A call with one expression writes what its calculation comes to.  An argument that
starts with a minus sign holds flags, though, so an expression that starts with one is
refused unless `--` stands in front of it.  A blank in front of the sign is enough to
make it positional.
-/

namespace CommaCalc.CommandLine

section Text

variable {text : String} (verbose : Bool)

theorem runText_of_error {failure : Failure} (hcalculate : calculate text = .error failure) :
    runText verbose text = ⟨true, "", failure.report ++ "\n"⟩ := by
  rw [calculate] at hcalculate
  rw [runText]
  cases hread : Expression.read text with
  | error e =>
    rw [hread] at hcalculate
    cases hcalculate
    rfl
  | ok expression =>
    rw [hread] at hcalculate
    cases hevaluate : expression.evaluate with
    | error e =>
      simp only [hevaluate] at hcalculate
      cases hcalculate
      simp only [hevaluate]
    | ok result =>
      simp only [hevaluate] at hcalculate
      exact absurd hcalculate (by simp)

theorem runText_of_ok {expression : Expression} {result : Binary64}
    (hread : Expression.read text = .ok expression) (hcalculate : calculate text = .ok result) :
    runText verbose text = ⟨false, resultLine verbose expression result, ""⟩ := by
  obtain ⟨e, he, hzero, rfl⟩ := exists_read_of_calculate hcalculate
  cases Except.ok.inj (hread.symm.trans he)
  simp only [runText, hread, Expression.evaluate_of_not_dividesByZero hzero]

end Text

section Sorting

variable {text : String} {c : Char} {tail : List Char}

theorem Options.ofArguments?_behind_dashes (text : String) :
    ofArguments? ["--", text] = some ⟨false, false, text⟩ := by
  simp [ofArguments?, sortArguments?]

theorem Options.ofArguments?_of_head?_ne (htext : text.toList.head? ≠ some '-') :
    ofArguments? [text] = some ⟨false, false, text⟩ := by
  have hdashes : text ≠ "--" := by
    rintro rfl
    exact htext rfl
  have hsort : sortArguments? [text] = some ⟨[], [text]⟩ := by
    rw [sortArguments?, if_neg hdashes]
    split
    · next htoList => simp [htoList] at htext
    · rfl
  simp [ofArguments?, hsort]

theorem Flag.ofLetter?_eq_none (hf : c ≠ 'f') (hv : c ≠ 'v') : ofLetter? c = none := by
  unfold ofLetter?
  split
  · exact absurd rfl hf
  · exact absurd rfl hv
  · rfl

/-- What can follow the minus sign of a literal is neither a flag nor a second dash. -/
theorem flagsOfTail?_eq_none (hc : isBlank c = true ∨ c.isDigit = true) :
    flagsOfTail? (c :: tail) = none := by
  have hother : ∀ d, ¬ (isBlank d = true ∨ d.isDigit = true) → c ≠ d := by
    rintro d hd rfl
    exact hd hc
  have hletter : Flag.ofLetter? c = none :=
    Flag.ofLetter?_eq_none (hother 'f' (by decide)) (hother 'v' (by decide))
  rw [flagsOfTail?]
  · simp [hletter]
  · intro name hdash
    exact hother '-' (by decide) (List.cons.inj hdash).1

theorem Options.ofArguments?_of_minus (htext : text.toList = '-' :: c :: tail)
    (hc : isBlank c = true ∨ c.isDigit = true) : ofArguments? [text] = none := by
  have hdashes : text ≠ "--" := by
    rintro rfl
    cases htext
    exact absurd hc (by decide)
  have hsort : sortArguments? [text] = none := by
    rw [sortArguments?, if_neg hdashes, htext]
    simp [flagsOfTail?_eq_none hc]
  simp [ofArguments?, hsort]

end Sorting

variable {text : String} {r : Binary64}

/-- What a call has written once a text turned out to be its argument. -/
theorem call_of_ofArguments? {arguments : List String}
    (readFile : String → Option ByteArray) (hcalculate : calculate text = .ok r)
    (hoptions : Options.ofArguments? arguments = some ⟨false, false, text⟩) :
    call arguments readFile = .finished ⟨false, r.decimalText ++ "\n", ""⟩ := by
  obtain ⟨e, hread, -, -⟩ := exists_read_of_calculate hcalculate
  simp only [call, hoptions, run, Bool.false_eq_true, if_false,
    runText_of_ok false hread hcalculate, resultLine]

/-- An expression behind `--` is calculated as it is.  Alone, it is calculated unless it
starts with a minus sign, and then it is refused: the sign makes it flags, and no
character that can follow the sign in an expression is a flag. -/
theorem call_expression (readFile : String → Option ByteArray)
    (hcalculate : calculate text = .ok r) :
    call ["--", text] readFile = .finished ⟨false, r.decimalText ++ "\n", ""⟩ ∧
    call [text] readFile =
      if text.toList.head? = some '-' then .refused
      else .finished ⟨false, r.decimalText ++ "\n", ""⟩ := by
  refine ⟨call_of_ofArguments? readFile hcalculate (Options.ofArguments?_behind_dashes text), ?_⟩
  split
  · next hhead =>
    obtain ⟨e, hread, -, -⟩ := exists_read_of_calculate hcalculate
    obtain ⟨s, hs, -⟩ := Expression.exists_split_of_read hread
    obtain ⟨c, tail, hchars, hc⟩ := s.exists_behind_minus (by rw [hs, hhead])
    rw [hs] at hchars
    rw [call, Options.ofArguments?_of_minus hchars hc]
  · next hhead =>
    exact call_of_ofArguments? readFile hcalculate (Options.ofArguments?_of_head?_ne hhead)

/-- A blank is enough to keep the sign from making flags. -/
theorem call_expression_signs :
    call ["--", "-3,5 * 2"] (fun _ => none) = .finished ⟨false, "-7\n", ""⟩ ∧
    call ["-3,5 * 2"] (fun _ => none) = .refused ∧
    call [" -3,5 * 2"] (fun _ => none) = .finished ⟨false, "-7\n", ""⟩ := by
  have hsign : calculate "-3,5 * 2" = .ok (Binary64.ofNat 7).neg := by decide +kernel
  have hblank : calculate " -3,5 * 2" = .ok (Binary64.ofNat 7).neg := by decide +kernel
  have htext : (Binary64.ofNat 7).neg.decimalText ++ "\n" = "-7\n" := by decide +kernel
  obtain ⟨hbehind, halone⟩ := call_expression (fun _ => none) hsign
  obtain ⟨-, hspaced⟩ := call_expression (fun _ => none) hblank
  rw [htext] at hbehind
  rw [if_pos (by decide)] at halone
  rw [if_neg (by decide), htext] at hspaced
  exact ⟨hbehind, halone, hspaced⟩

/-- Not every expression is calculated when it is the only argument. -/
theorem call_expression_refused :
    ¬ ∀ (text : String) (r : Binary64) (readFile : String → Option ByteArray),
      calculate text = .ok r →
      call [text] readFile = .finished ⟨false, r.decimalText ++ "\n", ""⟩ := by
  intro hall
  have hcalculate : calculate "-3,5 * 2" = .ok (Binary64.ofNat 7).neg := by decide +kernel
  have hrefused : call ["-3,5 * 2"] (fun _ => none) = .refused := by decide +kernel
  have hcall := hall _ _ (fun _ => none) hcalculate
  rw [hrefused] at hcall
  exact absurd hcall (by simp)

end CommaCalc.CommandLine
