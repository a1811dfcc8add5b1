import CommaCalc.Proofs.Expression.Split
import CommaCalc.Proofs.Step.Translated

/-!
# Blanks in front of an expression

A cursor on a character boundary reads what a new cursor over the rest of the text reads,
with every position moved on.  A literal begins with the blanks in front of it, so a new
cursor over blanks and a text reads what the cursor behind the blanks reads.  Blanks in
front therefore change nothing about an expression but the positions in its errors.
-/

namespace CommaCalc

/-- The bytes read tell which characters were read. -/
theorem append_inj_of_utf8Length {front front' back back' : List Char}
    (happend : front ++ back = front' ++ back') (hlength : utf8Length front = utf8Length front') :
    front = front' ∧ back = back' := by
  obtain ⟨more, rfl, rfl⟩ | ⟨more, rfl, rfl⟩ := List.append_eq_append_iff.mp happend
  · rw [utf8Length_append] at hlength
    obtain rfl := utf8Length_eq_zero.mp (show utf8Length more = 0 by omega)
    exact ⟨(List.append_nil _).symm, rfl⟩
  · rw [utf8Length_append] at hlength
    obtain rfl := utf8Length_eq_zero.mp (show utf8Length more = 0 by omega)
    exact ⟨List.append_nil _, rfl⟩

namespace Cursor

/-- A boundary and the bytes in front of it determine the cursor. -/
theorem Valid.eq_behind {c : Cursor} {front back : String} (hvalid : c.Valid)
    (htext : c.text = front ++ back) (hposition : c.position = front.utf8ByteSize) :
    c = (start back).behind front := by
  obtain ⟨text, position, rest⟩ := c
  obtain ⟨done, hdone, hbytes⟩ := hvalid
  dsimp only at htext hposition hdone hbytes
  subst htext hposition
  rw [String.toList_append] at hdone
  rw [← utf8Length_toList] at hbytes
  obtain ⟨-, rfl⟩ := append_inj_of_utf8Length hdone hbytes
  rfl

theorem skipWhile_skipWhile (c : Cursor) (inClass : Char → Bool) :
    (c.skipWhile inClass).skipWhile inClass = c.skipWhile inClass := by
  obtain ⟨text, position, rest⟩ := c
  have hsplit := List.takeWhile_append_dropWhile (p := inClass) (l := rest)
  have hrun : ∀ d ∈ rest.takeWhile inClass, inClass d = true := fun _ => of_mem_takeWhile rest
  rw [← hsplit, skipWhile_append text position hrun (stops_dropWhile rest),
    skipWhile_of_stops text _ (stops_dropWhile rest)]

/-- In front of a text, blanks are read with the blanks that it begins with. -/
theorem skipBlanks_start_append {blanks : String} (hblanks : ∀ c ∈ blanks.toList, isBlank c = true)
    (text : String) : (start (blanks ++ text)).skipWhile isBlank =
      ((start text).behind blanks).skipWhile isBlank := by
  obtain ⟨gap, tail, htext, htail⟩ := exists_blanks_append text.toList
  have hfront : ∀ c ∈ blanks.toList ++ gap.chars, isBlank c = true := by
    intro c hc
    obtain hc | hc := List.mem_append.mp hc
    · exact hblanks c hc
    · exact gap.blank c hc
  rw [start, start, behind, String.toList_append, htext, ← List.append_assoc,
    skipWhile_append _ _ hfront htail, skipWhile_append _ _ gap.blank htail, utf8Length_append,
    utf8Length_toList, Nat.zero_add, Nat.add_zero]

end Cursor

/-- A literal reads the blanks in front of it first. -/
theorem Literal.number_skipBlanks (c : Cursor) :
    number.run (c.skipWhile isBlank) = number.run c := by
  rw [number, EStateM.run_bind, EStateM.run_bind, Scan.run_skipBlanks, Scan.run_skipBlanks,
    c.skipWhile_skipWhile]

namespace Expression

theorem scan_skipBlanks (text : String) (c : Cursor) :
    (scan text).run (c.skipWhile isBlank) = (scan text).run c := by
  rw [scan, EStateM.run_bind, EStateM.run_bind, Scan.run_within, Scan.run_within,
    Literal.number_skipBlanks]

theorem scan_translates (front text : String) :
    Scan.Translates front (fun e => { e with sourceText := front ++ text }) (scan text)
      (scan (front ++ text)) :=
  .bind (.within .leftOperand (Literal.number_translates front)) fun _ =>
    .bind (Operator.read_translates front) fun _ =>
    .bind (.within .rightOperand (Literal.number_translates front)) fun _ => .pure _

/-- Blanks in front change an expression only in the text it was read from, and an error
only in its positions. -/
theorem read_blanks_append {blanks : String} (hblanks : ∀ c ∈ blanks.toList, isBlank c = true)
    (text : String) : read (blanks ++ text) = match read text with
      | .ok e => .ok { e with sourceText := blanks ++ text }
      | .error e => .error (e.shift blanks.utf8ByteSize) := by
  have hempty : (trimBlanks (blanks ++ text).toList).isEmpty =
      (trimBlanks text.toList).isEmpty := by
    rw [Bool.eq_iff_iff, List.isEmpty_iff, List.isEmpty_iff, trimBlanks_eq_nil_iff,
      trimBlanks_eq_nil_iff, String.toList_append, List.forall_mem_append]
    exact and_iff_right hblanks
  have hscan := scan_translates blanks text (.start text)
  rw [← scan_skipBlanks, ← Cursor.skipBlanks_start_append hblanks, scan_skipBlanks] at hscan
  rw [read, read, hempty, hscan]
  split
  · rfl
  · cases (scan text).run (.start text) <;> rfl

/-- Reading does not depend on what stands in front of the cursor.  Any steps on a cursor
that stands behind the front of a text return what they return on a new cursor over the
rest, with every position larger by the bytes of the front; and a text behind blanks is
read as the text itself, with every position of an error larger by the bytes of the
blanks. -/
theorem read_translated :
    (∀ (front back : String) (c : Cursor) (steps : List Step), c.Valid → c.text = front ++ back →
      c.position = front.utf8ByteSize →
      Step.takeAll steps c = (Step.takeAll steps (.start back)).map fun taken =>
        (taken.1.mapError (·.shift front.utf8ByteSize), taken.2.behind front)) ∧
    ∀ blanks text : String, (∀ c ∈ blanks.toList, isBlank c = true) →
      read (blanks ++ text) = match read text with
        | .ok e => .ok { e with sourceText := blanks ++ text }
        | .error e => .error (e.shift blanks.utf8ByteSize) := by
  refine ⟨?_, fun blanks text hblanks => read_blanks_append hblanks text⟩
  intro front back c steps hvalid htext hposition
  rw [hvalid.eq_behind htext hposition]
  exact Step.takeAll_behind front steps _

/-- Behind a letter of two bytes a fraction without digits is found at byte 4 instead of 2,
and behind a blank of three bytes an unknown operator at byte 5 instead of 2. -/
theorem read_translated_wide :
    (Cursor.mk "é1,x" 2 ['1', ',', 'x']).Valid ∧
    Step.takeAll [.number, .next] ⟨"é1,x", 2, ['1', ',', 'x']⟩ =
      [(.error (.within .fractionPart (.fault (.missingDigits 4 (some 'x')))),
        ⟨"é1,x", 4, ['x']⟩), (.ok (.character (some 'x')), ⟨"é1,x", 5, []⟩)] ∧
    (∀ c ∈ "　".toList, isBlank c = true) ∧
    read "　5 & 2" = .error (.fault (.invalidOperator '&' 5)) := by
  obtain ⟨hsteps, hblanks⟩ := read_translated
  have hvalid : (Cursor.mk "é1,x" 2 ['1', ',', 'x']).Valid := ⟨['é'], by decide, by decide⟩
  have hblank : ∀ c ∈ "　".toList, isBlank c = true := by
    rw [show "　".toList = ['　'] by decide +kernel, List.forall_mem_singleton]
    decide
  have hrun := hsteps "é" "1,x" ⟨"é1,x", 2, ['1', ',', 'x']⟩ [.number, .next] hvalid
    (by decide +kernel) (by decide +kernel)
  refine ⟨hvalid, hrun.trans (by rfl), hblank, ?_⟩
  exact (hblanks "　" "5 & 2" hblank).trans (by decide +kernel)

end Expression

end CommaCalc
