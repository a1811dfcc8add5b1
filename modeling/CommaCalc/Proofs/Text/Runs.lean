import CommaCalc.Text.Blank
import CommaCalc.Text.Cursor

/-!
# Runs of a class and the cursor behind them

A scanner reads a maximal run of characters of one class.  A run is maximal when
the text behind it *stops* the class, so the split of a text into a run and a
stopping tail is unique, and skipping the class moves a cursor exactly over the
run.
-/

namespace CommaCalc

/-- No character of the class stands at the front. -/
def Stops (inClass : Char → Bool) (tail : List Char) : Prop :=
  ∀ c ∈ tail.head?, inClass c = false

section Runs

variable {inClass : Char → Bool} {run run' tail tail' : List Char}

theorem stops_nil : Stops inClass [] := by
  intro c hc
  simp at hc

theorem stops_cons {c : Char} : Stops inClass (c :: tail) ↔ inClass c = false := by
  simp [Stops]

theorem stops_dropWhile (cs : List Char) : Stops inClass (cs.dropWhile inClass) := by
  intro c hc
  have hhead := List.head?_dropWhile_not inClass cs
  rw [Option.mem_def.mp hc] at hhead
  simpa using hhead

/-- A tail keeps stopping a class when text is put behind it, unless it is empty
and the new text goes on with the class. -/
theorem Stops.append (htail : Stops inClass tail)
    (hmore : tail = [] → Stops inClass tail') : Stops inClass (tail ++ tail') := by
  cases tail with
  | nil => exact hmore rfl
  | cons c cs => exact stops_cons.mpr (stops_cons.mp htail)

theorem takeWhile_append_stops (hrun : ∀ c ∈ run, inClass c = true)
    (htail : Stops inClass tail) : (run ++ tail).takeWhile inClass = run := by
  rw [List.takeWhile_append_of_pos hrun]
  cases tail with
  | nil => simp
  | cons c cs => simp [stops_cons.mp htail]

theorem dropWhile_append_stops (hrun : ∀ c ∈ run, inClass c = true)
    (htail : Stops inClass tail) : (run ++ tail).dropWhile inClass = tail := by
  rw [List.dropWhile_append_of_pos hrun]
  cases tail with
  | nil => simp
  | cons c cs => simp [stops_cons.mp htail]

theorem of_mem_takeWhile {c : Char} (cs : List Char) (hc : c ∈ cs.takeWhile inClass) :
    inClass c = true :=
  List.all_eq_true.mp List.all_takeWhile c hc

/-- A text splits into a run and a stopping tail in one way only. -/
theorem append_stops_inj (hrun : ∀ c ∈ run, inClass c = true) (htail : Stops inClass tail)
    (hrun' : ∀ c ∈ run', inClass c = true) (htail' : Stops inClass tail')
    (heq : run ++ tail = run' ++ tail') : run = run' ∧ tail = tail' := by
  constructor
  · rw [← takeWhile_append_stops hrun htail, heq, takeWhile_append_stops hrun' htail']
  · rw [← dropWhile_append_stops hrun htail, heq, dropWhile_append_stops hrun' htail']

end Runs

section Length

@[simp]
theorem utf8Length_nil : utf8Length [] = 0 := rfl

@[simp]
theorem utf8Length_cons (c : Char) (cs : List Char) :
    utf8Length (c :: cs) = c.utf8Size + utf8Length cs := rfl

@[simp]
theorem utf8Length_append (cs ds : List Char) :
    utf8Length (cs ++ ds) = utf8Length cs + utf8Length ds := by
  induction cs with
  | nil => simp
  | cons c cs ih => simp [ih, Nat.add_assoc]

theorem utf8Length_eq_zero {cs : List Char} : utf8Length cs = 0 ↔ cs = [] := by
  cases cs with
  | nil => simp
  | cons c cs =>
    have hpos := c.utf8Size_pos
    simp only [utf8Length_cons, reduceCtorEq, iff_false]
    omega

@[simp]
theorem utf8ByteSize_ofList (cs : List Char) :
    (String.ofList cs).utf8ByteSize = utf8Length cs := by
  induction cs with
  | nil => rfl
  | cons c cs ih =>
    rw [String.ofList_cons, String.utf8ByteSize_append, ih, String.utf8ByteSize_singleton]
    rfl

theorem utf8Length_toList (text : String) : utf8Length text.toList = text.utf8ByteSize := by
  rw [← utf8ByteSize_ofList, String.ofList_toList]

end Length

namespace Cursor

/-- The cursor stands on a character boundary of its text: the characters read
and those to be read make up the text, and the position counts the former. -/
def Valid (c : Cursor) : Prop :=
  ∃ done, c.text.toList = done ++ c.rest ∧ c.position = utf8Length done

theorem valid_start (text : String) : (start text).Valid :=
  ⟨[], rfl, rfl⟩

/-- Reading a part of the text keeps a cursor valid. -/
theorem Valid.read {text : String} {position : Nat} {part tail : List Char}
    (hvalid : Valid ⟨text, position, part ++ tail⟩) :
    Valid ⟨text, position + utf8Length part, tail⟩ := by
  obtain ⟨done, htext, hposition⟩ := hvalid
  refine ⟨done ++ part, ?_, ?_⟩
  · simpa using htext
  · simpa using hposition

theorem Valid.size_eq {c : Cursor} (hvalid : c.Valid) :
    c.text.utf8ByteSize = c.position + utf8Length c.rest := by
  obtain ⟨done, htext, hposition⟩ := hvalid
  rw [← utf8Length_toList, htext, hposition, utf8Length_append]

/-- The position of a valid cursor has reached the end exactly when nothing is
left to be read. -/
theorem Valid.isAtEnd_eq {c : Cursor} (hvalid : c.Valid) : c.isAtEnd = c.rest.isEmpty := by
  have hsize := hvalid.size_eq
  rw [Bool.eq_iff_iff, isAtEnd, decide_eq_true_iff, List.isEmpty_iff, ← utf8Length_eq_zero]
  omega

/-- Moving forward keeps a cursor valid. -/
theorem Valid.advance {c : Cursor} (hvalid : c.Valid) (count : Nat) : (c.advance count).Valid := by
  obtain ⟨done, htext, hposition⟩ := hvalid
  refine ⟨done ++ c.rest.take count, ?_, ?_⟩
  · simp only [Cursor.advance, htext, List.append_assoc, List.take_append_drop]
  · simp only [Cursor.advance, hposition, utf8Length_append]

section Move

variable (text : String) (position : Nat) {part tail : List Char}

theorem advance_append :
    (⟨text, position, part ++ tail⟩ : Cursor).advance part.length =
      ⟨text, position + utf8Length part, tail⟩ := by
  simp [advance]

theorem advance_one (c : Char) :
    (⟨text, position, c :: tail⟩ : Cursor).advance 1 =
      ⟨text, position + c.utf8Size, tail⟩ := by
  simp [advance]

/-- Skipping a class reads the run in front of a tail that stops it. -/
theorem skipWhile_append {inClass : Char → Bool} (hpart : ∀ c ∈ part, inClass c = true)
    (htail : Stops inClass tail) :
    (⟨text, position, part ++ tail⟩ : Cursor).skipWhile inClass =
      ⟨text, position + utf8Length part, tail⟩ := by
  rw [skipWhile, takeWhile_append_stops hpart htail, advance_append]

theorem skipWhile_of_stops {inClass : Char → Bool} (htail : Stops inClass tail) :
    (⟨text, position, tail⟩ : Cursor).skipWhile inClass = ⟨text, position, tail⟩ := by
  have hnil : ∀ c ∈ ([] : List Char), inClass c = true := by simp
  exact skipWhile_append text position hnil htail

end Move

end Cursor

end CommaCalc
