import CommaCalc.Proofs.Expression.Interruption

/-!
# What is read

Reading accepts exactly the texts that have a split, and returns what the split
denotes.  The split is longest on the right: a comma directly behind a whole part
belongs to the literal, so the text is rejected when no digits follow it, while a
comma behind blanks is never part of a literal.
-/

namespace CommaCalc

/-- The value of a fraction is what the scanner of fractions returns for its digits. -/
theorem Literal.fraction_start (run : Digits) :
    fraction.run (.start (String.ofList run.chars)) =
      .ok run.fraction ⟨String.ofList run.chars, utf8Length run.chars, []⟩ := by
  have hrun := fraction_ok (String.ofList run.chars) 0 noBlanks run stops_nil
  simp only [noBlanks, List.nil_append, List.append_nil, utf8Length_nil, Nat.add_zero,
    Nat.zero_add] at hrun
  rw [Cursor.start, String.toList_ofList]
  exact hrun

namespace Expression

/-- A plus sign is no sign: an operand that begins with it has no digits. -/
theorem read_plus {text : String} (lead : Option Opening) (gap : Blanks) (tail : List Char)
    (htext : text.toList = leadChars lead ++ (gap.chars ++ '+' :: tail)) :
    read text = .error (.within (leadPlace lead) (.within .integerPart (.fault
      (.missingDigits (utf8Length (leadChars lead ++ gap.chars)) (some '+'))))) := by
  have hstops : (Stem.wholePart none).StopsAt ('+' :: tail) :=
    ⟨stops_cons.mpr (by decide), stops_cons.mpr (by decide), fun _ => by simp⟩
  have hread := (Interruption.noDigit lead gap (.wholePart none) ('+' :: tail) hstops).read htext
  simpa only [Stem.place, Stem.chars, minusChars, List.append_nil, List.head?_cons] using hread

/-- A comma behind blanks is no decimal comma: the left operand ends in front of
the blanks, and the comma is not an operator. -/
theorem read_gap_comma {text : String} (gap : Blanks) (left : Spelling) (behind : Blanks)
    (tail : List Char) (hbehind : behind.chars ≠ [])
    (htext : text.toList =
      gap.chars ++ (left.chars ++ (behind.chars ++ decimalMark :: tail))) :
    read text = .error (.fault (.invalidOperator decimalMark
      (utf8Length (gap.chars ++ (left.chars ++ behind.chars))))) := by
  have hends : left.EndsBefore (behind.chars ++ decimalMark :: tail) := by
    obtain ⟨c, cs, hchars⟩ := List.exists_cons_of_ne_nil hbehind
    have hc := behind.blank c (by simp [hchars])
    refine ⟨behind.stops_isDigit (stops_cons.mpr isDigit_decimalMark), fun _ hhead => ?_⟩
    simp only [hchars, List.cons_append, List.head?_cons, Option.some.injEq] at hhead
    rw [hhead, isBlank_decimalMark] at hc
    exact Bool.noConfusion hc
  exact (Interruption.badOperator gap left behind decimalMark tail isBlank_decimalMark rfl
    hends).read htext

/-- A comma directly behind a whole part makes digits due, although the literal
could have ended in front of it. -/
theorem read_comma {text : String} (lead : Option Opening) (gap : Blanks) (s : Spelling)
    (behind : Blanks) (tail : List Char) (hs : s.fraction = none)
    (hblank : Stops isBlank tail) (hdigit : Stops Char.isDigit tail)
    (htext : text.toList = leadChars lead ++
      (gap.chars ++ (s.chars ++ decimalMark :: (behind.chars ++ tail)))) :
    read text = .error (.within (leadPlace lead) (.within .fractionPart (.fault
      (.missingDigits (utf8Length (leadChars lead ++
        (gap.chars ++ (s.chars ++ decimalMark :: behind.chars)))) tail.head?)))) := by
  obtain ⟨minus, whole, hfits, fraction⟩ := s
  cases hs
  have hstops : (Stem.fractionPart minus whole hfits behind).StopsAt tail :=
    ⟨hblank, hdigit, by simp⟩
  have hstem : text.toList = leadChars lead ++ (gap.chars ++
      ((Stem.fractionPart minus whole hfits behind).chars ++ tail)) := by
    simpa only [Stem.chars, Spelling.chars, fractionChars, List.append_nil, List.append_assoc,
      List.cons_append] using htext
  have hread := (Interruption.noDigit lead gap _ tail hstops).read hstem
  simpa only [Stem.place, Stem.chars, Spelling.chars, fractionChars, List.append_nil,
    List.append_assoc] using hread

/-- Reading accepts exactly the texts that have a split, which is then unique, and
returns the values that the split denotes.  In particular a blank in front of a
comma ends the literal, a plus is never a sign, and a comma directly behind a whole
part is never left over. -/
theorem read_eq_ok_iff_split (text : String) (e : Expression) :
    (read text = .ok e ↔ ∃ s : Split, s.chars = text.toList ∧
      e = ⟨text, s.left.value, s.operator, s.right.value⟩) ∧
    (∀ s s' : Split, s.chars = text.toList → s'.chars = text.toList → s = s') ∧
    (∀ run : Digits, ∃ after,
      Literal.fraction.run (.start (String.ofList run.chars)) = .ok run.fraction after) ∧
    (∀ (gap : Blanks) (left : Spelling) (behind : Blanks) (tail : List Char),
      behind.chars ≠ [] →
      text.toList = gap.chars ++ (left.chars ++ (behind.chars ++ decimalMark :: tail)) →
      read text ≠ .ok e) ∧
    (∀ (lead : Option Opening) (gap : Blanks) (tail : List Char),
      text.toList = leadChars lead ++ (gap.chars ++ '+' :: tail) → read text ≠ .ok e) ∧
    ∀ (lead : Option Opening) (gap : Blanks) (s : Spelling) (behind : Blanks)
      (tail : List Char), s.fraction = none → Stops isBlank tail → Stops Char.isDigit tail →
      text.toList = leadChars lead ++
        (gap.chars ++ (s.chars ++ decimalMark :: (behind.chars ++ tail))) →
      read text ≠ .ok e := by
  refine ⟨⟨?_, ?_⟩, ?_, ?_, ?_, ?_, ?_⟩
  · intro hread
    obtain ⟨s, hs, rfl⟩ := exists_split_of_read hread
    exact ⟨s, hs, by rw [Split.expression, hs, String.ofList_toList]⟩
  · rintro ⟨s, hs, rfl⟩
    rw [s.read_chars hs, Split.expression, hs, String.ofList_toList]
  · intro s s' hs hs'
    exact Split.chars_injective (hs.trans hs'.symm)
  · intro run
    exact ⟨_, Literal.fraction_start run⟩
  · intro gap left behind tail hbehind htext
    rw [read_gap_comma gap left behind tail hbehind htext]
    simp
  · intro lead gap tail htext
    rw [read_plus lead gap tail htext]
    simp
  · intro lead gap s behind tail hs hblank hdigit htext
    rw [read_comma lead gap s behind tail hs hblank hdigit htext]
    simp

/-- A comma with a blank behind it reads a fraction, a second minus sign is one, and
a comma behind a blank is left over. -/
theorem read_eq_ok_iff_split_spaced :
    ∃ s : Split, s.chars = "3, 5--2 ,1".toList ∧
      (⟨"3, 5--2 ,1", (Binary64.ofNat 7).div (Binary64.ofNat 2), .subtract,
        (Binary64.ofNat 2).neg⟩ : Expression) =
        ⟨"3, 5--2 ,1", s.left.value, s.operator, s.right.value⟩ :=
  (read_eq_ok_iff_split _ _).1.mp (by decide +kernel)

example : read "3 ,5+1" = .error (.fault (.invalidOperator ',' 2)) := by decide +kernel

end Expression

end CommaCalc
