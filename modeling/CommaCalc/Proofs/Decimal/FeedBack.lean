import CommaCalc.Proofs.Decimal.Reread

/-!
# Feeding a printed result back

A printed double is read back as a literal exactly when it is finite and below 2¹²⁸.
Any other finite double is printed with a whole part that is too large, and the words
for infinity and NaN begin with no digit.
-/

namespace CommaCalc

namespace Binary64

/-- A double that fits is printed as a literal. -/
theorem exists_spelling {v : Binary64} (hbelow : v.Below numeralLimit) :
    ∃ s : Spelling, s.chars = v.decimalChars ∧ s.value = v.reread := by
  cases v with
  | nan => exact hbelow.elim
  | infinite negative => exact hbelow.elim
  | finite negative m =>
    have hfits := m.shortestTicks_div_lt_iff.mpr hbelow
    exact ⟨tickSpelling negative m.shortestTicks hfits,
      (decimalChars_eq_chars negative m hfits).symm, tickSpelling_value negative m hfits⟩

/-- What is wrong with the text of a double that cannot be read, when it stands at a
position: the whole part is too large, or a word stands for it. -/
def textFault (position : Nat) : Binary64 → Fault
  | .nan => .missingDigits position (some 'N')
  | .infinite negative =>
    .missingDigits (position + utf8Length (minusChars (signBlanks negative))) (some 'i')
  | .finite negative _ =>
    .integerTooLarge (position + utf8Length (minusChars (signBlanks negative)))

end Binary64

namespace Literal

variable (text : String) (position : Nat) (gap : Blanks) {v : Binary64} {tail : List Char}

/-- The text of a double that fits is read in full. -/
theorem number_decimalChars (hbelow : v.Below numeralLimit) (hdigit : Stops Char.isDigit tail)
    (hmark : tail.head? ≠ some decimalMark)
    (hvalid : Cursor.Valid ⟨text, position, gap.chars ++ (v.decimalChars ++ tail)⟩) :
    number.run ⟨text, position, gap.chars ++ (v.decimalChars ++ tail)⟩ =
      .ok v.reread
        ⟨text, position + utf8Length gap.chars + utf8Length v.decimalChars, tail⟩ := by
  obtain ⟨s, hchars, hvalue⟩ := Binary64.exists_spelling hbelow
  rw [← hchars] at hvalid ⊢
  rw [number_literal text position gap s ⟨hdigit, fun _ => hmark⟩ hvalid, hvalue]

/-- A word where the whole part is due. -/
private theorem number_word (minus : Option Blanks) {c : Char} (hc : isBlank c = false)
    (hdigit : c.isDigit = false) (hminus : c ≠ '-')
    (hvalid : Cursor.Valid ⟨text, position, gap.chars ++ (minusChars minus ++ c :: tail)⟩) :
    ∃ after, number.run ⟨text, position, gap.chars ++ (minusChars minus ++ c :: tail)⟩ =
      .error (.within .integerPart (.fault (.missingDigits
        (position + utf8Length gap.chars + utf8Length (minusChars minus)) (some c)))) after :=
  ⟨_, number_noDigit text position gap (.wholePart minus)
    ⟨stops_cons.mpr hc, stops_cons.mpr hdigit, fun _ => ⟨by simp, by simpa using hminus⟩⟩ hvalid⟩

/-- The text of any other double is rejected. -/
theorem number_decimalChars_error (hbelow : ¬ v.Below numeralLimit)
    (hdigit : Stops Char.isDigit tail)
    (hvalid : Cursor.Valid ⟨text, position, gap.chars ++ (v.decimalChars ++ tail)⟩) :
    ∃ after, number.run ⟨text, position, gap.chars ++ (v.decimalChars ++ tail)⟩ =
      .error (.within .integerPart (.fault (v.textFault (position + utf8Length gap.chars))))
        after := by
  cases v with
  | nan =>
    exact number_word text position gap none (by decide) (by decide) (by decide) hvalid
  | infinite negative =>
    have hchars : Binary64.decimalChars (.infinite negative) =
        minusChars (signBlanks negative) ++ ['i', 'n', 'f'] := by cases negative <;> rfl
    rw [hchars, List.append_assoc] at hvalid ⊢
    exact number_word text position gap (signBlanks negative) (by decide) (by decide)
      (by decide) hvalid
  | finite negative m =>
    have hlarge : numeralLimit ≤ (tickWhole m.shortestTicks).value := by
      rw [tickWhole_value]
      exact Nat.le_of_not_lt fun h => hbelow (m.shortestTicks_div_lt_iff.mp h)
    have hfraction : Stops Char.isDigit (fractionChars (tickFraction m.shortestTicks) ++ tail) :=
      Spelling.stops_isDigit_fractionChars fun _ => hdigit
    rw [Binary64.decimalChars_finite, ticksText_eq, List.append_assoc, List.append_assoc]
      at hvalid ⊢
    obtain ⟨front, c, back, -, -, -, hrun⟩ := number_tooLarge text position gap
      (signBlanks negative) (tickWhole m.shortestTicks) hlarge hfraction hvalid
    exact ⟨_, hrun⟩

/-- A cursor in front of a printed double. -/
theorem start_decimalText (v : Binary64) (suffix : String) :
    Cursor.start (v.decimalText ++ suffix) = ⟨v.decimalText ++ suffix, 0,
      noBlanks.chars ++ (v.decimalChars ++ suffix.toList)⟩ := by
  rw [Cursor.start, String.toList_append, Binary64.decimalText, String.toList_ofList]
  rfl

/-- The text of a double is read, whatever follows that does not go on with it,
exactly when the double is finite and below 2¹²⁸.  It is read in full, and a whole
number or a fraction of few digits comes back bit for bit.  Any other finite double
is too large, from its first digit on; NaN and the infinities have no digits. -/
theorem number_decimalText (v : Binary64) (suffix : String)
    (hsuffix : ∀ c ∈ suffix.toList.head?, c.isDigit = false ∧ c ≠ decimalMark) :
    ((∃ result after, number.run (.start (v.decimalText ++ suffix)) = .ok result after) ↔
      v.Below numeralLimit) ∧
    (∀ result after, number.run (.start (v.decimalText ++ suffix)) = .ok result after →
      after = ⟨v.decimalText ++ suffix, v.decimalText.utf8ByteSize, suffix.toList⟩ ∧
      (v.IsWhole ∨ (v.Below 1 ∧ significantDigits v.decimalText.toList ≤ 15 ∧
        decimalPlacesOf v.decimalText.toList ≤ 22) → result = v)) ∧
    (∀ negative m, v = .finite negative m → ¬ m.Below numeralLimit →
      ∃ after, number.run (.start (v.decimalText ++ suffix)) = .error (.within .integerPart
        (.fault (.integerTooLarge (if negative then 1 else 0)))) after) ∧
    (v = .nan →
      ∃ after, number.run (.start (v.decimalText ++ suffix)) = .error (.within .integerPart
        (.fault (.missingDigits 0 (some 'N')))) after) ∧
    ∀ negative, v = .infinite negative →
      ∃ after, number.run (.start (v.decimalText ++ suffix)) = .error (.within .integerPart
        (.fault (.missingDigits (if negative then 1 else 0) (some 'i')))) after := by
  have hdigit : Stops Char.isDigit suffix.toList := fun c hc => (hsuffix c hc).1
  have hmark : suffix.toList.head? ≠ some decimalMark := fun h => (hsuffix _ h).2 rfl
  have hvalid := Cursor.valid_start (v.decimalText ++ suffix)
  rw [start_decimalText] at hvalid
  have hread : v.Below numeralLimit → number.run (.start (v.decimalText ++ suffix)) =
      .ok v.reread ⟨v.decimalText ++ suffix, v.decimalText.utf8ByteSize, suffix.toList⟩ := by
    intro hbelow
    rw [start_decimalText, number_decimalChars _ _ _ hbelow hdigit hmark hvalid,
      Binary64.decimalText, utf8ByteSize_ofList, noBlanks, utf8Length_nil, Nat.zero_add]
  have herror : ¬ v.Below numeralLimit → ∃ after,
      number.run (.start (v.decimalText ++ suffix)) =
        .error (.within .integerPart (.fault (v.textFault 0))) after := by
    intro hbelow
    rw [start_decimalText]
    exact number_decimalChars_error _ _ _ hbelow hdigit hvalid
  refine ⟨⟨?_, fun hbelow => ⟨_, _, hread hbelow⟩⟩, ?_, ?_, ?_, ?_⟩
  · rintro ⟨result, after, hok⟩
    by_contra hbelow
    obtain ⟨stop, hstop⟩ := herror hbelow
    rw [hstop] at hok
    simp at hok
  · intro result after hok
    by_cases hbelow : v.Below numeralLimit
    · rw [hread hbelow] at hok
      cases hok
      exact ⟨rfl, fun hv => v.reread_eq_self (hv.imp_right .inl)⟩
    · obtain ⟨stop, hstop⟩ := herror hbelow
      rw [hstop] at hok
      simp at hok
  · rintro negative m rfl hbelow
    cases negative <;> exact herror hbelow
  · rintro rfl
    exact herror id
  · rintro negative rfl
    cases negative <;> exact herror id

/-- Minus zero comes back as minus zero, and minus infinity has no digits behind its sign. -/
theorem number_decimalText_cases :
    (∃ after, number.run (.start ((Binary64.zero true).decimalText ++ " + 1")) =
      .ok (Binary64.zero true) after ∧ after.rest = " + 1".toList) ∧
    ∃ after, number.run (.start ((Binary64.infinite true).decimalText ++ "/2")) =
      .error (.within .integerPart (.fault (.missingDigits 1 (some 'i')))) after := by
  have hblank : " + 1".toList.head? = some ' ' := by decide +kernel
  have hslash : "/2".toList.head? = some '/' := by decide +kernel
  obtain ⟨hreads, hresult, -⟩ := number_decimalText (.zero true) " + 1" (by
    rw [hblank]
    rintro c ⟨⟩
    decide)
  obtain ⟨result, after, hok⟩ := hreads.mpr (Nat.mul_pos (by decide) unitsPerOne_pos)
  obtain ⟨rfl, hsame⟩ := hresult result after hok
  rw [hsame (.inl (Nat.dvd_zero _))] at hok
  obtain ⟨-, -, -, -, hinfinite⟩ := number_decimalText (.infinite true) "/2" (by
    rw [hslash]
    rintro c ⟨⟩
    decide)
  exact ⟨⟨_, hok, rfl⟩, hinfinite true rfl⟩

end Literal

end CommaCalc
