import CommaCalc.Proofs.Step.Failing

/-!
# The cursor stays sound over a run

Every scan is put together from moves over the characters that come next.  So whatever
steps are taken, in any order and whether they fail or not, the cursor only moves forward
over whole characters: it stays on a character boundary of its text, and what has been
read and what is unread always make up the text.  A scanner that succeeds has read
something.
-/

namespace CommaCalc

theorem utf8Length_pos {cs : List Char} (hcs : cs ≠ []) : 0 < utf8Length cs :=
  Nat.pos_of_ne_zero (mt utf8Length_eq_zero.mp hcs)

namespace Cursor

theorem advance_zero (c : Cursor) : c.advance 0 = c := by
  simp [advance]

theorem advance_advance (c : Cursor) (first second : Nat) :
    (c.advance first).advance second = c.advance (first + second) := by
  simp [advance, List.take_add, Nat.add_assoc]

theorem position_le_advance (c : Cursor) (count : Nat) :
    c.position ≤ (c.advance count).position :=
  Nat.le_add_right ..

end Cursor

namespace Scan

variable {α β : Type}

/-- The cursor that a scan leaves, whether it fails or not. -/
def leave (scan : Scan α) (c : Cursor) : Cursor :=
  match scan.run c with
  | .ok _ after => after
  | .error _ after => after

/-- All that a scan does to the cursor is to move it forward over characters. -/
def OnlyAdvances (scan : Scan α) : Prop :=
  ∀ c, ∃ count, scan.leave c = c.advance count

namespace OnlyAdvances

variable {scan : Scan α} {later : α → Scan β}

/-- A scan that leaves the cursor as it is. -/
theorem of_leave_eq (hleave : ∀ c, scan.leave c = c) : scan.OnlyAdvances :=
  fun c => ⟨0, by rw [hleave, c.advance_zero]⟩

theorem pure (result : α) : (Pure.pure result : Scan α).OnlyAdvances :=
  of_leave_eq fun _ => rfl

theorem fail (fault : Fault) : (Scan.fail fault : Scan α).OnlyAdvances :=
  of_leave_eq fun _ => rfl

theorem bind (hscan : scan.OnlyAdvances) (hlater : ∀ result, (later result).OnlyAdvances) :
    (scan >>= later).OnlyAdvances := by
  intro c
  obtain ⟨count, hcount⟩ := hscan c
  rw [leave] at hcount
  rw [leave, EStateM.run_bind]
  cases hrun : scan.run c with
  | error e after =>
    rw [hrun] at hcount
    exact ⟨count, hcount⟩
  | ok result after =>
    rw [hrun] at hcount
    obtain ⟨more, hmore⟩ := hlater result after
    refine ⟨count + more, ?_⟩
    rw [← c.advance_advance, ← hcount]
    exact hmore

theorem within (place : Place) (hscan : scan.OnlyAdvances) :
    (Scan.within place scan).OnlyAdvances := by
  intro c
  obtain ⟨count, hcount⟩ := hscan c
  refine ⟨count, ?_⟩
  rw [leave] at hcount
  rw [leave, run_within]
  cases hrun : scan.run c with
  | error e after =>
    rw [hrun] at hcount
    exact hcount
  | ok result after =>
    rw [hrun] at hcount
    exact hcount

theorem get : (MonadState.get : Scan Cursor).OnlyAdvances :=
  of_leave_eq fun _ => rfl

theorem peek : Scan.peek.OnlyAdvances :=
  of_leave_eq fun _ => rfl

theorem position : Scan.position.OnlyAdvances :=
  of_leave_eq fun _ => rfl

theorem isAtEnd : Scan.isAtEnd.OnlyAdvances :=
  of_leave_eq fun _ => rfl

theorem next : Scan.next.OnlyAdvances :=
  fun _ => ⟨1, rfl⟩

theorem skipWhile (inClass : Char → Bool) : (Scan.skipWhile inClass).OnlyAdvances :=
  fun _ => ⟨_, rfl⟩

theorem skipBlanks : Scan.skipBlanks.OnlyAdvances :=
  skipWhile isBlank

theorem numeral : Scan.numeral.OnlyAdvances :=
  fun _ => ⟨_, rfl⟩

theorem eat (expected : Char) : (Scan.eat expected).OnlyAdvances := by
  intro c
  rw [leave, run_eat]
  by_cases hhead : c.rest.head? = some expected
  · rw [if_pos hhead]
    exact ⟨1, rfl⟩
  · rw [if_neg hhead]
    exact ⟨0, c.advance_zero.symm⟩

end OnlyAdvances

end Scan

open Scan (OnlyAdvances)

namespace Literal

theorem expectDigit_onlyAdvances : expectDigit.OnlyAdvances := by
  refine .bind .skipBlanks fun _ => .bind .position fun position => .bind .peek fun found => ?_
  split
  · exact .pure position
  · exact .fail _

theorem sign_onlyAdvances : sign.OnlyAdvances := by
  refine .bind .skipBlanks fun _ => .bind (.eat '-') fun found => ?_
  split
  · exact .pure _
  · exact .pure _

theorem wholePart_onlyAdvances : wholePart.OnlyAdvances := by
  refine .bind expectDigit_onlyAdvances fun start => .bind .numeral fun numeral =>
    .bind .peek fun found => ?_
  split
  · exact .fail _
  · exact .pure _

theorem fraction_onlyAdvances : fraction.OnlyAdvances :=
  .bind expectDigit_onlyAdvances fun _ => .bind .numeral fun _ =>
    .bind (.skipWhile Char.isDigit) fun _ => .pure _

theorem number_onlyAdvances : number.OnlyAdvances := by
  refine .bind .skipBlanks fun _ => .bind .isAtEnd fun atEnd => ?_
  split
  · exact .bind .position fun position => .fail _
  · refine .bind sign_onlyAdvances fun factor =>
      .bind (.within .integerPart wholePart_onlyAdvances) fun whole =>
      .bind (.eat decimalMark) fun comma => ?_
    split
    · exact .bind (.within .fractionPart fraction_onlyAdvances) fun part => .pure _
    · exact .pure _

end Literal

theorem Operator.read_onlyAdvances : Operator.read.OnlyAdvances := by
  refine .bind .skipBlanks fun _ => .bind .position fun position => .bind .next fun found => ?_
  split
  · exact .fail _
  · split
    · exact .pure _
    · exact .fail _

namespace Step

/-- Every step only moves forward. -/
theorem scan_onlyAdvances (step : Step) : step.scan.OnlyAdvances := by
  cases step with
  | peek => exact .bind .peek fun _ => .pure _
  | next => exact .bind .next fun _ => .pure _
  | eat expected => exact .bind (.eat expected) fun _ => .pure _
  | rest => exact .bind .get fun _ => .pure _
  | skipBlanks => exact .bind .skipBlanks fun _ => .pure _
  | isAtEnd => exact .bind .isAtEnd fun _ => .pure _
  | sign => exact .bind Literal.sign_onlyAdvances fun _ => .pure _
  | wholePart => exact .bind Literal.wholePart_onlyAdvances fun _ => .pure _
  | fraction => exact .bind Literal.fraction_onlyAdvances fun _ => .pure _
  | number => exact .bind Literal.number_onlyAdvances fun _ => .pure _
  | operator => exact .bind Operator.read_onlyAdvances fun _ => .pure _

theorem take_snd (step : Step) (c : Cursor) : (step.take c).2 = step.scan.leave c := by
  rw [take, Scan.leave]
  cases step.scan.run c <;> rfl

/-- A step moves the cursor forward over characters, or leaves it. -/
theorem exists_take_eq (step : Step) (c : Cursor) :
    ∃ result count, step.take c = (result, c.advance count) := by
  obtain ⟨count, hcount⟩ := step.scan_onlyAdvances c
  exact ⟨(step.take c).1, count, Prod.ext rfl ((step.take_snd c).trans hcount)⟩

end Step

section Progress

variable {text : String} {position : Nat} {rest : List Char} {after : Cursor}

namespace Literal

theorem wholePart_position_lt {value : Nat}
    (hrun : wholePart.run ⟨text, position, rest⟩ = .ok value after) : position < after.position := by
  obtain ⟨gap, run, tail, htail⟩ | ⟨gap, tail, hblank, hdigit⟩ := exists_digitFront rest
  · by_cases hfits : run.value < numeralLimit
    · rw [wholePart_ok text position gap run hfits htail] at hrun
      cases hrun
      have hpos := utf8Length_pos run.nonempty
      dsimp only
      omega
    · obtain ⟨front, c, back, -, -, -, herror⟩ :=
        wholePart_tooLarge text position gap run (Nat.le_of_not_lt hfits) htail
      rw [herror] at hrun
      cases hrun
  · rw [wholePart_noDigit text position gap hblank hdigit] at hrun
    cases hrun

theorem fraction_position_lt {value : Binary64}
    (hrun : fraction.run ⟨text, position, rest⟩ = .ok value after) : position < after.position := by
  obtain ⟨gap, run, tail, htail⟩ | ⟨gap, tail, hblank, hdigit⟩ := exists_digitFront rest
  · rw [fraction_ok text position gap run htail] at hrun
    obtain ⟨-, rfl⟩ := EStateM.Result.ok.inj hrun
    have hpos := utf8Length_pos run.nonempty
    dsimp only
    omega
  · rw [fraction_noDigit text position gap hblank hdigit] at hrun
    cases hrun

theorem number_position_lt {value : Binary64} (hvalid : Cursor.Valid ⟨text, position, rest⟩)
    (hrun : number.run ⟨text, position, rest⟩ = .ok value after) : position < after.position := by
  obtain ⟨gap, s, tail, -, -, -, rfl⟩ := exists_of_number text position hvalid hrun
  obtain ⟨c, hc, -⟩ := s.exists_not_blank
  have hpos := utf8Length_pos (List.ne_nil_of_mem hc)
  dsimp only
  omega

end Literal

theorem Operator.read_position_lt {operator : Operator}
    (hrun : Operator.read.run ⟨text, position, rest⟩ = .ok operator after) :
    position < after.position := by
  obtain ⟨gap, tail, rfl, hblank⟩ := exists_blanks_append rest
  cases tail with
  | nil =>
    rw [List.append_nil, Operator.read_nothing text position gap] at hrun
    cases hrun
  | cons c tail =>
    cases hsymbol : Operator.ofSymbol? c with
    | none =>
      rw [Operator.read_other text position gap (stops_cons.mp hblank) hsymbol] at hrun
      cases hrun
    | some operator =>
      rw [Operator.eq_symbol_of_ofSymbol? hsymbol, Operator.read_symbol text position gap] at hrun
      cases hrun
      dsimp only
      omega

end Progress

namespace Step

variable {step : Step} {c after : Cursor}

/-- The steps that fail unless they read something. -/
def IsScanner : Step → Prop
  | wholePart | fraction | number | operator => True
  | peek | next | eat _ | rest | skipBlanks | isAtEnd | sign => False

/-- Naming a result does not make a scan succeed. -/
theorem exists_run_of_bind_pure {α β : Type} {scan : Scan α} {name : α → β} {result : β}
    (hrun : (do return name (← scan) : Scan β).run c = .ok result after) :
    ∃ value, scan.run c = .ok value after := by
  rw [EStateM.run_bind] at hrun
  cases hscan : scan.run c with
  | ok value stop =>
    rw [hscan] at hrun
    cases hrun
    exact ⟨value, rfl⟩
  | error failure stop =>
    rw [hscan] at hrun
    cases hrun

/-- A scanner that succeeds leaves the cursor further on. -/
theorem position_lt_of_take {result : StepResult} (hvalid : c.Valid) (hscanner : step.IsScanner)
    (htake : step.take c = (.ok result, after)) : c.position < after.position := by
  have hrun : step.scan.run c = .ok result after := by
    rw [take] at htake
    cases hscan : step.scan.run c with
    | ok found stop =>
      rw [hscan] at htake
      cases htake
      rfl
    | error failure stop =>
      rw [hscan] at htake
      cases htake
  cases step with
  | wholePart =>
    obtain ⟨value, hvalue⟩ := exists_run_of_bind_pure hrun
    exact Literal.wholePart_position_lt hvalue
  | fraction =>
    obtain ⟨value, hvalue⟩ := exists_run_of_bind_pure hrun
    exact Literal.fraction_position_lt hvalue
  | number =>
    obtain ⟨value, hvalue⟩ := exists_run_of_bind_pure hrun
    exact Literal.number_position_lt hvalid hvalue
  | operator =>
    obtain ⟨value, hvalue⟩ := exists_run_of_bind_pure hrun
    exact Operator.read_position_lt hvalue
  | _ => exact hscanner.elim

end Step

/-! ## Runs -/

/-- The cursor is on a character boundary of the text, the unread part is what stands
behind it, and the three ways to ask for the end agree. -/
structure Cursor.Sound (text : String) (c : Cursor) : Prop where
  text_eq : c.text = text
  boundary : (String.Pos.Raw.mk c.position).IsValid text
  le_size : c.position ≤ text.utf8ByteSize
  unread : ∃ read unread : String, text = read ++ unread ∧ read.utf8ByteSize = c.position ∧
    (Step.rest.take c).1 = .ok (.text unread)
  atEnd_iff_peek : (Step.isAtEnd.take c).1 = .ok (.flag true) ↔
    (Step.peek.take c).1 = .ok (.character none)
  peek_iff_rest : (Step.peek.take c).1 = .ok (.character none) ↔
    (Step.rest.take c).1 = .ok (.text "")

namespace Cursor

theorem Valid.sound {text : String} {c : Cursor} (hvalid : c.Valid) (hc : c.text = text) :
    c.Sound text := by
  subst hc
  obtain ⟨done, htext, hposition⟩ := hvalid
  have hsplit : SplitsAt c.text c.position done c.rest := ⟨htext, hposition⟩
  have hpeek : (Step.peek.take c).1 = .ok (.character none) ↔ c.rest = [] := by
    rw [show (Step.peek.take c).1 = .ok (.character c.rest.head?) from rfl, Except.ok.injEq,
      StepResult.character.injEq, List.head?_eq_none_iff]
  have hrest : (Step.rest.take c).1 = .ok (.text (String.ofList c.rest)) := rfl
  refine ⟨rfl, hsplit.isValid, hsplit.le_size, ?_, ?_, ?_⟩
  · refine ⟨String.ofList done, String.ofList c.rest, ?_, ?_, hrest⟩
    · rw [← String.ofList_append, ← htext, String.ofList_toList]
    · rw [utf8ByteSize_ofList, hposition]
  · rw [show (Step.isAtEnd.take c).1 = .ok (.flag c.isAtEnd) from rfl, Except.ok.injEq,
      StepResult.flag.injEq, Valid.isAtEnd_eq ⟨done, htext, hposition⟩, hpeek, List.isEmpty_iff]
  · rw [hpeek, hrest, Except.ok.injEq, StepResult.text.injEq, String.ofList_eq_empty_iff]

end Cursor

namespace Step

/-- The cursor that a run leaves. -/
def leaveAll (steps : List Step) (c : Cursor) : Cursor :=
  ((takeAll steps c).map (·.2)).getLastD c

theorem leaveAll_cons (step : Step) (later : List Step) (c : Cursor) :
    leaveAll (step :: later) c = leaveAll later (step.take c).2 := by
  rw [leaveAll, takeAll, List.map_cons, List.getLastD_cons]
  rfl

/-- A run goes on where the steps before have left the cursor. -/
theorem takeAll_append (earlier later : List Step) (c : Cursor) :
    takeAll (earlier ++ later) c = takeAll earlier c ++ takeAll later (leaveAll earlier c) := by
  induction earlier generalizing c with
  | nil => rfl
  | cons step earlier ih =>
    rw [List.cons_append, takeAll, takeAll, ih, leaveAll_cons]
    rfl

/-- A run only moves forward. -/
theorem exists_leaveAll_eq (steps : List Step) (c : Cursor) :
    ∃ count, leaveAll steps c = c.advance count := by
  induction steps generalizing c with
  | nil => exact ⟨0, c.advance_zero.symm⟩
  | cons step steps ih =>
    obtain ⟨result, count, htake⟩ := step.exists_take_eq c
    obtain ⟨more, hmore⟩ := ih (c.advance count)
    refine ⟨count + more, ?_⟩
    rw [leaveAll_cons, htake, hmore, c.advance_advance]

/-- Whatever steps are taken on a text, failing ones included, each of them finds a sound
cursor and moves it forward over characters; it is sound at every character on the way and
where the step leaves it.  A scanner that succeeds moves it by a byte at least. -/
theorem takeAll_sound (text : String) (earlier : List Step) (step : Step) (later : List Step) :
    ∃ (before : Cursor) (result : Except ReadError StepResult) (count : Nat),
      before = leaveAll earlier (.start text) ∧
      step.take before = (result, before.advance count) ∧
      takeAll (earlier ++ step :: later) (.start text) =
        takeAll earlier (.start text) ++
          (result, before.advance count) :: takeAll later (before.advance count) ∧
      before.Sound text ∧ (∀ moved, (before.advance moved).Sound text) ∧
      before.position ≤ (before.advance count).position ∧
      (step.IsScanner → ∀ found, result = .ok found →
        before.position < (before.advance count).position) := by
  obtain ⟨reached, hreached⟩ := exists_leaveAll_eq earlier (.start text)
  obtain ⟨result, count, htake⟩ := step.exists_take_eq (leaveAll earlier (.start text))
  have hvalid : (leaveAll earlier (.start text)).Valid := by
    rw [hreached]
    exact (Cursor.valid_start text).advance reached
  have htext : (leaveAll earlier (.start text)).text = text := by
    rw [hreached]
    rfl
  refine ⟨_, result, count, rfl, htake, ?_, hvalid.sound htext,
    fun moved => (hvalid.advance moved).sound htext, Cursor.position_le_advance _ count, ?_⟩
  · rw [takeAll_append, takeAll, htake]
  · rintro hscanner found rfl
    exact position_lt_of_take hvalid hscanner htake

/-- Behind a letter of two bytes a number fails at the letter that stands where its fraction
should; the next number begins behind that letter. -/
theorem takeAll_sound_failing :
    leaveAll [.next, .number, .next] (.start "é1,x2") = ⟨"é1,x2", 5, ['2']⟩ ∧
    (Cursor.mk "é1,x2" 5 ['2']).Sound "é1,x2" ∧
    ∃ count, Step.wholePart.take ⟨"é1,x2", 5, ['2']⟩ =
        (.ok (.natural 2), (Cursor.mk "é1,x2" 5 ['2']).advance count) ∧
      5 < ((Cursor.mk "é1,x2" 5 ['2']).advance count).position := by
  have hleave : leaveAll [.next, .number, .next] (.start "é1,x2") = ⟨"é1,x2", 5, ['2']⟩ := by rfl
  have hresult : (Step.wholePart.take ⟨"é1,x2", 5, ['2']⟩).1 = .ok (.natural 2) := by rfl
  obtain ⟨before, result, count, hbefore, htake, -, hsound, -, -, hprogress⟩ :=
    takeAll_sound "é1,x2" [.next, .number, .next] .wholePart []
  rw [hleave] at hbefore
  subst hbefore
  have hfound : result = .ok (.natural 2) := by
    rw [← hresult, htake]
  subst hfound
  exact ⟨hleave, hsound, count, htake, hprogress trivial _ rfl⟩

end Step

end CommaCalc
