import CommaCalc.Proofs.Calculation.ZeroDivision
import Mathlib.Data.List.DropRight

/-!
# Blanks around an expression

A text may begin and end with blanks: those in front are passed over, and those at the
end are not looked at, like anything else behind the right operand.  So a text and the
trimmed text denote the same expression or none, although the positions in their errors
may differ.
-/

namespace CommaCalc

/-- Any text is something else followed by blanks. -/
theorem exists_append_blanks (cs : List Char) :
    ∃ (body : List Char) (gap : Blanks), cs = body ++ gap.chars ∧ Stops isBlank body.reverse := by
  refine ⟨cs.rdropWhile isBlank, ⟨cs.rtakeWhile isBlank, fun _ hc => List.mem_rtakeWhile_imp hc⟩,
    List.rdropWhile_append_rtakeWhile.symm, ?_⟩
  rw [List.rdropWhile, List.reverse_reverse]
  exact stops_dropWhile cs.reverse

/-- Trimming takes blanks away from either end. -/
theorem exists_blanks_trimBlanks (cs : List Char) :
    ∃ front back : Blanks, cs = front.chars ++ (trimBlanks cs ++ back.chars) := by
  obtain ⟨front, body, hfront, hbody⟩ := exists_blanks_append cs
  have hdrop : cs.dropWhile isBlank = body := by
    rw [hfront, dropWhile_append_stops front.blank hbody]
  refine ⟨front, ⟨body.rtakeWhile isBlank, fun _ hc => List.mem_rtakeWhile_imp hc⟩, ?_⟩
  rw [trimBlanks, hdrop]
  exact hfront.trans (congrArg _ List.rdropWhile_append_rtakeWhile.symm)

/-- A body with no blank at either end is what trimming leaves of it. -/
theorem trimBlanks_append (front back : Blanks) {body : List Char} (hnil : body ≠ [])
    (hfirst : Stops isBlank body) (hlast : Stops isBlank body.reverse) :
    trimBlanks (front.chars ++ (body ++ back.chars)) = body := by
  have hstops : Stops isBlank (body ++ back.chars) := hfirst.append fun h => absurd h hnil
  have hback : ∀ c ∈ back.chars.reverse, isBlank c = true :=
    fun c hc => back.blank c (List.mem_reverse.mp hc)
  rw [trimBlanks, dropWhile_append_stops front.blank hstops, List.reverse_append,
    dropWhile_append_stops hback hlast, List.reverse_reverse]

/-- A trimmed text is empty or has a character that is no blank. -/
theorem exists_not_blank_trimBlanks {cs : List Char} (hnil : trimBlanks cs ≠ []) :
    ∃ c ∈ trimBlanks cs, isBlank c = false := by
  by_contra hall
  simp only [not_exists, not_and, Bool.not_eq_false] at hall
  obtain ⟨front, back, hcs⟩ := exists_blanks_trimBlanks cs
  apply hnil
  rw [trimBlanks_eq_nil_iff, hcs]
  intro c hc
  simp only [List.mem_append] at hc
  obtain hc | hc | hc := hc
  · exact front.blank c hc
  · exact hall c hc
  · exact back.blank c hc

theorem Digits.stops_isBlank_reverse (run : Digits) {tail : List Char} :
    Stops isBlank (run.chars.reverse ++ tail) := by
  obtain ⟨c, cs, hreverse⟩ := List.exists_cons_of_ne_nil (List.reverse_ne_nil_iff.mpr run.nonempty)
  rw [hreverse]
  have hc : c ∈ run.chars := List.mem_reverse.mp (by simp [hreverse])
  exact stops_cons.mpr (isBlank_eq_false_of_isDigit (run.digit c hc))

/-- A literal ends in a digit. -/
theorem Spelling.stops_isBlank_reverse (s : Spelling) {tail : List Char} :
    Stops isBlank (s.chars.reverse ++ tail) := by
  obtain ⟨minus, whole, hfits, fraction⟩ := s
  cases fraction with
  | none =>
    simp only [chars, fractionChars, List.append_nil, List.reverse_append, List.append_assoc]
    exact whole.stops_isBlank_reverse
  | some pair =>
    simp only [chars, fractionChars, List.reverse_append, List.reverse_cons, List.append_assoc]
    exact pair.2.stops_isBlank_reverse

namespace Split

/-- Whether two splits differ in the blanks and the tail only. -/
def Agrees (s s' : Split) : Prop :=
  s.left = s'.left ∧ s.operator = s'.operator ∧ s.right = s'.right

/-- Splits that agree denote the same expression, but for the text it was read from. -/
theorem Agrees.expression_eq {s s' : Split} (hagrees : s.Agrees s') :
    s'.expression = { s.expression with sourceText := String.ofList s'.chars } := by
  obtain ⟨hleft, hoperator, hright⟩ := hagrees
  simp only [expression, hleft, hoperator, hright]

/-- Blanks can be put around an expression. -/
theorem exists_surrounded (s : Split) (front back : Blanks) :
    ∃ s' : Split, s'.chars = front.chars ++ (s.chars ++ back.chars) ∧ s.Agrees s' := by
  have hgap : ∀ c ∈ front.chars ++ s.gap.chars, isBlank c = true := by
    intro c hc
    obtain hc | hc := List.mem_append.mp hc
    · exact front.blank c hc
    · exact s.gap.blank c hc
  have hends : s.right.EndsBefore (s.tail ++ back.chars) :=
    s.ends.append fun _ => s.right.endsBefore_blanks back
  refine ⟨⟨⟨⟨_, hgap⟩, s.left, s.gapBeforeOperator, s.operator⟩, s.gapBehindOperator, s.right,
    _, hends⟩, ?_, rfl, rfl, rfl⟩
  simp only [chars, Opening.chars, List.append_assoc]

/-- The blanks around an expression can be taken away. -/
theorem exists_trimmed (s : Split) :
    ∃ s' : Split, s'.chars = trimBlanks s.chars ∧ s.Agrees s' := by
  obtain ⟨rest, back, htail, hrest⟩ := exists_append_blanks s.tail
  have hends : s.right.EndsBefore rest := by
    have hends := s.ends
    rw [htail] at hends
    cases rest with
    | nil => exact s.right.endsBefore_nil
    | cons c cs => exact ⟨stops_cons.mpr (stops_cons.mp hends.1), hends.2⟩
  let s' : Split := ⟨⟨noBlanks, s.left, s.gapBeforeOperator, s.operator⟩, s.gapBehindOperator,
    s.right, rest, hends⟩
  have hfirst : Stops isBlank s'.chars := by
    rw [Split.chars, Opening.chars_append]
    exact s.left.stops_isBlank
  have hlast : Stops isBlank s'.chars.reverse := by
    simp only [Split.chars, List.reverse_append, List.append_assoc]
    exact hrest.append fun hnil => s.right.stops_isBlank_reverse
  have hnil : s'.chars ≠ [] := by
    obtain ⟨c, hc, -⟩ := s.left.exists_not_blank
    rw [Split.chars, Opening.chars_append]
    exact List.ne_nil_of_mem (List.mem_append_right _ (List.mem_append_left _ hc))
  have hchars : s.chars = s.gap.chars ++ (s'.chars ++ back.chars) := by
    simp only [s', Split.chars, Opening.chars, noBlanks, htail, List.append_assoc,
      List.nil_append]
  refine ⟨s', ?_, rfl, rfl, rfl⟩
  rw [hchars, trimBlanks_append s.gap back hnil hfirst hlast]

end Split

/-- A text without the blanks at either end. -/
def trim (text : String) : String :=
  String.ofList (trimBlanks text.toList)

@[simp]
theorem toList_trim (text : String) : (trim text).toList = trimBlanks text.toList :=
  String.toList_ofList

namespace Expression

variable {text : String} {e : Expression}

theorem read_trim (hread : read text = .ok e) :
    read (trim text) = .ok { e with sourceText := trim text } := by
  obtain ⟨s, hs, rfl⟩ := exists_split_of_read hread
  obtain ⟨s', hs', hagrees⟩ := s.exists_trimmed
  rw [hs] at hs'
  rw [s'.read_chars (hs'.trans (toList_trim text).symm), hagrees.expression_eq, hs', trim]

theorem read_of_read_trim (hread : read (trim text) = .ok e) :
    read text = .ok { e with sourceText := text } := by
  obtain ⟨s, hs, rfl⟩ := exists_split_of_read hread
  obtain ⟨front, back, htext⟩ := exists_blanks_trimBlanks text.toList
  obtain ⟨s', hs', hagrees⟩ := s.exists_surrounded front back
  rw [hs, toList_trim, ← htext] at hs'
  rw [s'.read_chars hs', hagrees.expression_eq, hs', String.ofList_toList]

end Expression

/-- The value of an expression does not depend on the text it was read from. -/
theorem calculate_ok_of_read_ok {text text' : String} {r : Binary64}
    (hread : ∀ e, Expression.read text = .ok e →
      Expression.read text' = .ok { e with sourceText := text' })
    (hcalculate : calculate text = .ok r) : calculate text' = .ok r := by
  obtain ⟨e, he, hzero, rfl⟩ := exists_read_of_calculate hcalculate
  rw [calculate_of_not_dividesByZero (hread e he) hzero]

/-- A trimmed text has the value of the text, and no other. -/
theorem calculate_trim_eq_ok_iff {text : String} {r : Binary64} :
    calculate (trim text) = .ok r ↔ calculate text = .ok r :=
  ⟨calculate_ok_of_read_ok fun _ => Expression.read_of_read_trim,
    calculate_ok_of_read_ok fun _ => Expression.read_trim⟩

example : trim "\t 1 + 2 \r" = "1 + 2" := by decide +kernel

end CommaCalc
