import CommaCalc.Expression
import CommaCalc.Proofs.Literal.Reading
import Mathlib.Data.List.TakeWhile

/-!
# The split of a text into operands and operator

A `Split` is an expression as it is written: two literals with an operator between
them, blanks in front of each of the three, and a tail that is not looked at.  The
literal on the right is as long as it can be, so a text has at most one split.
-/

namespace CommaCalc

namespace Operator

variable (text : String) (position : Nat) (gap : Blanks) {tail : List Char}

@[simp]
theorem ofSymbol?_symbol (operator : Operator) : ofSymbol? operator.symbol = some operator := by
  cases operator <;> rfl

theorem eq_symbol_of_ofSymbol? {c : Char} {operator : Operator}
    (hc : ofSymbol? c = some operator) : c = operator.symbol := by
  have hfound := List.find?_some hc
  simpa using (beq_iff_eq.mp hfound).symm

theorem isBlank_symbol (operator : Operator) : isBlank operator.symbol = false := by
  cases operator <;> decide

theorem isDigit_symbol (operator : Operator) : operator.symbol.isDigit = false := by
  cases operator <;> decide

theorem symbol_ne_decimalMark (operator : Operator) : operator.symbol ≠ decimalMark := by
  cases operator <;> decide

theorem utf8Size_symbol (operator : Operator) : operator.symbol.utf8Size = 1 := by
  cases operator <;> rfl

/-- The operator behind blanks is read. -/
theorem read_symbol (operator : Operator) :
    read.run ⟨text, position, gap.chars ++ operator.symbol :: tail⟩ =
      .ok operator ⟨text, position + utf8Length gap.chars + 1, tail⟩ := by
  have hstops : Stops isBlank (operator.symbol :: tail) :=
    stops_cons.mpr operator.isBlank_symbol
  have hskip := Literal.run_skipBlanks_append text position gap hstops
  simp only [read, EStateM.run_bind, hskip, Scan.run_position, Scan.run_next, List.head?_cons,
    Cursor.advance_one, ofSymbol?_symbol, utf8Size_symbol]
  rfl

/-- Only blanks are left. -/
theorem read_nothing :
    read.run ⟨text, position, gap.chars⟩ =
      .error (.fault (.missingOperator (position + utf8Length gap.chars)))
        ⟨text, position + utf8Length gap.chars, []⟩ := by
  have hskip := Literal.run_skipBlanks_append text position gap stops_nil
  rw [List.append_nil] at hskip
  simp only [read, EStateM.run_bind, hskip, Scan.run_position, Scan.run_next, List.head?_nil]
  rfl

/-- A character that is no operator is read as well. -/
theorem read_other {c : Char} (hblank : isBlank c = false) (hsymbol : ofSymbol? c = none) :
    read.run ⟨text, position, gap.chars ++ c :: tail⟩ =
      .error (.fault (.invalidOperator c (position + utf8Length gap.chars)))
        ⟨text, position + utf8Length gap.chars + c.utf8Size, tail⟩ := by
  have hstops : Stops isBlank (c :: tail) := stops_cons.mpr hblank
  have hskip := Literal.run_skipBlanks_append text position gap hstops
  simp only [read, EStateM.run_bind, hskip, Scan.run_position, Scan.run_next, List.head?_cons,
    Cursor.advance_one, hsymbol]
  rfl

end Operator

theorem isBlank_decimalMark : isBlank decimalMark = false := by decide

theorem isDigit_decimalMark : decimalMark.isDigit = false := by decide

theorem Blanks.head?_append_ne_decimalMark (gap : Blanks) {tail : List Char}
    (htail : tail.head? ≠ some decimalMark) :
    (gap.chars ++ tail).head? ≠ some decimalMark := by
  cases hchars : gap.chars with
  | nil => exact htail
  | cons c cs =>
    intro hhead
    have hc := gap.blank c (by simp [hchars])
    simp only [List.cons_append, List.head?_cons, Option.some.injEq] at hhead
    rw [hhead, isBlank_decimalMark] at hc
    exact Bool.noConfusion hc

namespace Spelling

variable (s : Spelling) {tail tail' : List Char}

/-- Blanks and an operator, or blanks and the end of the text, end any literal. -/
theorem endsBefore_gap (gap : Blanks) (hdigit : Stops Char.isDigit tail)
    (hmark : tail.head? ≠ some decimalMark) : s.EndsBefore (gap.chars ++ tail) :=
  ⟨gap.stops_isDigit hdigit, fun _ => gap.head?_append_ne_decimalMark hmark⟩

theorem endsBefore_symbol (gap : Blanks) (operator : Operator) :
    s.EndsBefore (gap.chars ++ operator.symbol :: tail) := by
  apply s.endsBefore_gap gap (stops_cons.mpr operator.isDigit_symbol)
  simpa using operator.symbol_ne_decimalMark

theorem endsBefore_blanks (gap : Blanks) : s.EndsBefore gap.chars := by
  have hends := s.endsBefore_gap gap stops_nil (by simp)
  rwa [List.append_nil] at hends

theorem endsBefore_nil : s.EndsBefore [] :=
  ⟨stops_nil, fun _ => by simp⟩

/-- Whether a literal ends is seen from the next character alone. -/
theorem EndsBefore.append {s : Spelling} (hends : s.EndsBefore tail)
    (hmore : tail = [] → s.EndsBefore tail') : s.EndsBefore (tail ++ tail') := by
  cases tail with
  | nil => exact hmore rfl
  | cons c cs => exact ⟨stops_cons.mpr (stops_cons.mp hends.1), hends.2⟩

theorem stops_isBlank (s : Spelling) : Stops isBlank (s.chars ++ tail) := by
  rw [chars, List.append_assoc, List.append_assoc]
  exact Literal.stops_isBlank_minusChars s.minus fun _ => s.whole.stops_isBlank

/-- The sign and the text behind it are told apart by the first character. -/
private theorem minusChars_append_inj {minus minus' : Option Blanks} {run run' : Digits}
    (heq : minusChars minus ++ (run.chars ++ tail) = minusChars minus' ++ (run'.chars ++ tail')) :
    minus = minus' ∧ run.chars ++ tail = run'.chars ++ tail' := by
  cases minus with
  | none =>
    cases minus' with
    | none => exact ⟨rfl, heq⟩
    | some gap' =>
      refine absurd ?_ (run.head?_append_ne_minus tail)
      rw [show run.chars ++ tail = _ from heq]
      rfl
  | some gap =>
    cases minus' with
    | none =>
      refine absurd ?_ (run'.head?_append_ne_minus tail')
      rw [show run'.chars ++ tail' = _ from heq.symm]
      rfl
    | some gap' =>
      obtain ⟨hgap, hrest⟩ := append_stops_inj gap.blank run.stops_isBlank gap'.blank
        run'.stops_isBlank (List.cons.inj heq).2
      exact ⟨congrArg some (Blanks.ext hgap), hrest⟩

theorem stops_isDigit_fractionChars {fraction : Option (Blanks × Digits)}
    (hnone : fraction = none → Stops Char.isDigit tail) :
    Stops Char.isDigit (fractionChars fraction ++ tail) := by
  cases fraction with
  | none => exact hnone rfl
  | some pair => exact stops_cons.mpr isDigit_decimalMark

/-- So are a fraction and a text that ends the literal. -/
private theorem fractionChars_append_inj {fraction fraction' : Option (Blanks × Digits)}
    (hdigit : Stops Char.isDigit tail) (hdigit' : Stops Char.isDigit tail')
    (hmark : fraction = none → tail.head? ≠ some decimalMark)
    (hmark' : fraction' = none → tail'.head? ≠ some decimalMark)
    (heq : fractionChars fraction ++ tail = fractionChars fraction' ++ tail') :
    fraction = fraction' ∧ tail = tail' := by
  cases fraction with
  | none =>
    cases fraction' with
    | none => exact ⟨rfl, heq⟩
    | some pair' =>
      refine absurd ?_ (hmark rfl)
      rw [show tail = _ from heq]
      rfl
  | some pair =>
    cases fraction' with
    | none =>
      refine absurd ?_ (hmark' rfl)
      rw [show tail' = _ from heq.symm]
      rfl
    | some pair' =>
      obtain ⟨gap, run⟩ := pair
      obtain ⟨gap', run'⟩ := pair'
      simp only [fractionChars, List.cons_append, List.append_assoc, List.cons.injEq,
        true_and] at heq
      obtain ⟨hgap, hrun⟩ := append_stops_inj gap.blank run.stops_isBlank gap'.blank
        run'.stops_isBlank heq
      obtain ⟨hrun, htail⟩ := append_stops_inj run.digit hdigit run'.digit hdigit' hrun
      exact ⟨by rw [Blanks.ext hgap, Digits.ext hrun], htail⟩

/-- A text begins with at most one literal that ends there. -/
theorem append_inj {s s' : Spelling} (hends : s.EndsBefore tail) (hends' : s'.EndsBefore tail')
    (heq : s.chars ++ tail = s'.chars ++ tail') : s = s' ∧ tail = tail' := by
  simp only [chars, List.append_assoc] at heq
  obtain ⟨hminus, hwhole⟩ := minusChars_append_inj heq
  obtain ⟨hwhole, hfraction⟩ := append_stops_inj s.whole.digit
    (stops_isDigit_fractionChars fun _ => hends.1) s'.whole.digit
    (stops_isDigit_fractionChars fun _ => hends'.1) hwhole
  obtain ⟨hfraction, htail⟩ := fractionChars_append_inj hends.1 hends'.1 hends.2 hends'.2 hfraction
  exact ⟨Spelling.ext hminus (Digits.ext hwhole) hfraction, htail⟩

end Spelling

/-- The pieces of a text up to its operator. -/
structure Opening where
  gap : Blanks
  left : Spelling
  gapBeforeOperator : Blanks
  operator : Operator

/-- The pieces of an expression, and the text behind it. -/
structure Split extends Opening where
  gapBehindOperator : Blanks
  right : Spelling
  tail : List Char
  ends : right.EndsBefore tail

namespace Opening

/-- The text up to the operator. -/
def chars (o : Opening) : List Char :=
  o.gap.chars ++ (o.left.chars ++ (o.gapBeforeOperator.chars ++ [o.operator.symbol]))

theorem chars_append (o : Opening) (rest : List Char) :
    o.chars ++ rest = o.gap.chars ++
      (o.left.chars ++ (o.gapBeforeOperator.chars ++ o.operator.symbol :: rest)) := by
  simp only [chars, List.append_assoc, List.cons_append, List.nil_append]

/-- A text has at most one opening, however it goes on. -/
theorem chars_append_inj {o o' : Opening} {rest rest' : List Char}
    (heq : o.chars ++ rest = o'.chars ++ rest') : o = o' ∧ rest = rest' := by
  obtain ⟨gap, left, before, operator⟩ := o
  obtain ⟨gap', left', before', operator'⟩ := o'
  simp only [chars_append] at heq
  obtain ⟨hgap, heq⟩ := append_stops_inj gap.blank left.stops_isBlank gap'.blank
    left'.stops_isBlank heq
  obtain ⟨hleft, heq⟩ := Spelling.append_inj (left.endsBefore_symbol before operator)
    (left'.endsBefore_symbol before' operator') heq
  obtain ⟨hbefore, heq⟩ := append_stops_inj before.blank
    (stops_cons.mpr operator.isBlank_symbol) before'.blank
    (stops_cons.mpr operator'.isBlank_symbol) heq
  obtain ⟨hsymbol, hrest⟩ := List.cons.inj heq
  have hoperator := congrArg Operator.ofSymbol? hsymbol
  simp only [Operator.ofSymbol?_symbol, Option.some.injEq] at hoperator
  cases Blanks.ext hgap
  cases Blanks.ext hbefore
  subst hleft hoperator
  exact ⟨rfl, hrest⟩

/-- Behind an opening, only the right operand is left to be read. -/
theorem scan_chars (o : Opening) {text : String} {rest : List Char}
    (htext : text.toList = o.chars ++ rest) :
    (Expression.scan text).run (.start text) =
      match (Scan.within .rightOperand Literal.number).run
        ⟨text, utf8Length o.chars, rest⟩ with
      | .ok right after => .ok ⟨text, o.left.value, o.operator, right⟩ after
      | .error e after => .error e after := by
  have hstart : Cursor.start text = ⟨text, 0, o.chars ++ rest⟩ := by rw [Cursor.start, htext]
  have hvalid := Cursor.valid_start text
  have hends : o.left.EndsBefore (o.gapBeforeOperator.chars ++ o.operator.symbol :: rest) :=
    o.left.endsBefore_symbol o.gapBeforeOperator o.operator
  rw [hstart, o.chars_append] at hvalid
  rw [hstart, o.chars_append]
  simp only [Expression.scan, EStateM.run_bind, Scan.run_within,
    Literal.number_literal text 0 o.gap o.left hends hvalid, Operator.read_symbol]
  have hposition : 0 + utf8Length o.gap.chars + utf8Length o.left.chars
      + utf8Length o.gapBeforeOperator.chars + 1 = utf8Length o.chars := by
    simp only [chars, utf8Length_append, utf8Length_cons, utf8Length_nil,
      Operator.utf8Size_symbol]
    omega
  rw [hposition]
  cases Literal.number.run ⟨text, utf8Length o.chars, rest⟩ <;> rfl

end Opening

namespace Split

/-- The text that is split. -/
def chars (s : Split) : List Char :=
  s.toOpening.chars ++ (s.gapBehindOperator.chars ++ (s.right.chars ++ s.tail))

/-- The byte at which the right operand ends. -/
def rightEnd (s : Split) : Nat :=
  utf8Length s.toOpening.chars + utf8Length s.gapBehindOperator.chars + utf8Length s.right.chars

/-- The expression that the text denotes. -/
def expression (s : Split) : Expression :=
  ⟨String.ofList s.chars, s.left.value, s.operator, s.right.value⟩

/-- A text has at most one split. -/
theorem chars_injective : Function.Injective chars := by
  rintro ⟨opening, behind, right, tail, hends⟩ ⟨opening', behind', right', tail', hends'⟩ heq
  obtain ⟨hopening, heq⟩ := Opening.chars_append_inj heq
  obtain ⟨hbehind, heq⟩ := append_stops_inj behind.blank right.stops_isBlank behind'.blank
    right'.stops_isBlank heq
  obtain ⟨hright, htail⟩ := Spelling.append_inj hends hends' heq
  cases Blanks.ext hbehind
  subst hopening hright htail
  rfl

/-- The expression of a split is what is read, and the tail is left. -/
theorem scan_chars (s : Split) {text : String} (htext : s.chars = text.toList) :
    (Expression.scan text).run (.start text) =
      .ok s.expression ⟨text, s.rightEnd, s.tail⟩ := by
  have hvalid : Cursor.Valid ⟨text, utf8Length s.toOpening.chars,
      s.gapBehindOperator.chars ++ (s.right.chars ++ s.tail)⟩ :=
    ⟨s.toOpening.chars, htext.symm, rfl⟩
  rw [s.toOpening.scan_chars htext.symm, Scan.run_within,
    Literal.number_literal text _ s.gapBehindOperator s.right s.ends hvalid]
  simp only [expression, htext, String.ofList_toList, rightEnd]

end Split

/-- Blanks or nothing in front of a text begin with a blank or as the text does. -/
theorem Blanks.exists_cons_append (gap : Blanks) {P : Char → Prop} {cs : List Char}
    (hcs : ∃ c tail, cs = c :: tail ∧ P c) :
    ∃ c tail, gap.chars ++ cs = c :: tail ∧ (isBlank c = true ∨ P c) := by
  cases hgap : gap.chars with
  | nil =>
    obtain ⟨c, tail, rfl, hc⟩ := hcs
    exact ⟨c, tail, rfl, .inr hc⟩
  | cons c tail => exact ⟨c, tail ++ cs, rfl, .inl (gap.blank c (by simp [hgap]))⟩

theorem Digits.exists_cons_append (run : Digits) (rest : List Char) :
    ∃ c tail, run.chars ++ rest = c :: tail ∧ c.isDigit = true := by
  obtain ⟨c, tail, hchars, hc⟩ := run.exists_cons
  exact ⟨c, tail ++ rest, by rw [hchars]; rfl, hc⟩

theorem Spelling.exists_cons_append (s : Spelling) (rest : List Char) :
    ∃ c tail, s.chars ++ rest = c :: tail ∧ (c = '-' ∨ c.isDigit = true) := by
  rw [chars, List.append_assoc, List.append_assoc]
  cases s.minus with
  | none =>
    obtain ⟨c, tail, hchars, hc⟩ := s.whole.exists_cons_append (fractionChars s.fraction ++ rest)
    exact ⟨c, tail, hchars, .inr hc⟩
  | some gap => exact ⟨'-', _, rfl, .inl rfl⟩

/-- An expression begins with a blank, a minus sign or a digit. -/
theorem Split.exists_cons (s : Split) :
    ∃ c tail, s.chars = c :: tail ∧ (isBlank c = true ∨ c = '-' ∨ c.isDigit = true) := by
  rw [Split.chars, Opening.chars_append]
  exact s.gap.exists_cons_append (s.left.exists_cons_append _)

/-- Behind a minus sign that an expression begins with stands a blank or a digit. -/
theorem Split.exists_behind_minus (s : Split) (hhead : s.chars.head? = some '-') :
    ∃ c tail, s.chars = '-' :: c :: tail ∧ (isBlank c = true ∨ c.isDigit = true) := by
  obtain ⟨rest, hchars⟩ : ∃ rest, s.chars = s.gap.chars ++ (s.left.chars ++ rest) :=
    ⟨_, by rw [Split.chars, Opening.chars_append]⟩
  have hgap : s.gap.chars = [] := by
    cases hgap : s.gap.chars with
    | nil => rfl
    | cons c cs =>
      have hblank := s.gap.blank c (by simp [hgap])
      rw [hchars, hgap, List.cons_append, List.head?_cons, Option.some.injEq] at hhead
      rw [hhead] at hblank
      exact absurd hblank (by decide)
  rw [hgap, List.nil_append, Spelling.chars, List.append_assoc, List.append_assoc] at hchars
  cases hminus : s.left.minus with
  | none =>
    rw [hchars, hminus] at hhead
    exact absurd hhead (s.left.whole.head?_append_ne_minus _)
  | some inner =>
    obtain ⟨c, tail, htail, hc⟩ := inner.exists_cons_append
      (s.left.whole.exists_cons_append (fractionChars s.left.fraction ++ rest))
    refine ⟨c, tail, ?_, hc⟩
    rw [hchars, hminus, ← htail]
    rfl

/-! ## Reading a whole text -/

theorem trimBlanks_eq_nil_iff {cs : List Char} :
    trimBlanks cs = [] ↔ ∀ c ∈ cs, isBlank c = true := by
  rw [trimBlanks, List.reverse_eq_nil_iff, List.dropWhile_eq_nil_iff]
  simp only [List.mem_reverse]
  constructor
  · intro hdrop
    cases hrest : cs.dropWhile isBlank with
    | nil => exact List.dropWhile_eq_nil_iff.mp hrest
    | cons c rest =>
      have hstops : Stops isBlank (cs.dropWhile isBlank) := stops_dropWhile cs
      rw [hrest, stops_cons, hdrop c (by simp [hrest])] at hstops
      exact Bool.noConfusion hstops
  · intro hcs c hc
    exact hcs c ((List.dropWhile_suffix isBlank).mem hc)

namespace Expression

/-- A text with a character that is no blank is read by the scanners. -/
theorem read_of_not_blank {text : String} {c : Char} (hc : c ∈ text.toList)
    (hblank : isBlank c = false) :
    read text = match (scan text).run (.start text) with
      | .ok expression _ => .ok expression
      | .error error _ => .error error := by
  have htrim : (trimBlanks text.toList).isEmpty = false := by
    rw [List.isEmpty_eq_false_iff, ne_eq, trimBlanks_eq_nil_iff]
    intro hall
    rw [hall c hc] at hblank
    exact Bool.noConfusion hblank
  rw [read, htrim]
  rfl

end Expression

theorem Spelling.exists_not_blank (s : Spelling) : ∃ c ∈ s.chars, isBlank c = false := by
  obtain ⟨c, cs, hchars, hc⟩ := s.whole.exists_cons
  exact ⟨c, by simp [Spelling.chars, hchars], isBlank_eq_false_of_isDigit hc⟩

/-- A split text is read as its expression. -/
theorem Split.read_chars (s : Split) {text : String} (htext : s.chars = text.toList) :
    Expression.read text = .ok s.expression := by
  obtain ⟨c, hc, hblank⟩ := s.left.exists_not_blank
  rw [Expression.read_of_not_blank (c := c) ?_ hblank, s.scan_chars htext]
  rw [← htext, Split.chars, Opening.chars_append]
  simp [hc]

end CommaCalc
