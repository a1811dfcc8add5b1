import CommaCalc.Proofs.Decimal.FeedBack
import CommaCalc.Proofs.Expression.Interruption

/-!
# Reading the normal form

The normal form of an expression is read again when both operands are finite and
below 2¹²⁸, and then each operand is what its digits are reread as.  The expression
is the same exactly when each operand is reread as itself.  That can fail in two
ways: the operand 2¹²⁸ is printed as a number that is too large to be read, and the
digits of a fraction, which are converted, divided and added with a rounding each, can
come to a neighbour of the printed double.
-/

namespace CommaCalc

namespace Binary64

/-- Finite, below 2¹²⁸ and what its printed digits are reread as. -/
def ReadsBack (v : Binary64) : Prop :=
  v.Below numeralLimit ∧ v.reread = v

instance (v : Binary64) : Decidable v.ReadsBack :=
  inferInstanceAs (Decidable (_ ∧ _))

theorem numEq_self_of_below {v : Binary64} {bound : Nat} (hbelow : v.Below bound) :
    v.numEq v = true := by
  cases v with
  | nan => exact hbelow.elim
  | infinite negative => exact hbelow.elim
  | finite negative m => simp [numEq]

theorem eq_finite_of_numEq {v : Binary64} {negative : Bool} {m : Magnitude}
    (hv : v.numEq (.finite negative m) = true) (hunits : m.units ≠ 0) : v = .finite negative m := by
  cases v with
  | nan => exact Bool.noConfusion hv
  | infinite s => exact Bool.noConfusion hv
  | finite s a =>
    simp only [numEq, Bool.and_eq_true, Bool.or_eq_true, beq_iff_eq] at hv
    obtain ⟨hsame, hsign⟩ := hv
    rw [Magnitude.ext hsame, hsign.resolve_right (hsame ▸ hunits)]

/-- What is reread is the same number only if it is the same double: a zero keeps
its sign. -/
theorem reread_numEq_iff {v : Binary64} (hbelow : v.Below numeralLimit) :
    v.reread.numEq v = true ↔ v.reread = v := by
  constructor
  · intro hsame
    cases v with
    | nan => rfl
    | infinite negative => rfl
    | finite negative m =>
      by_cases hzero : m.units = 0
      · have hwhole : m.IsWhole := by
          rw [Magnitude.IsWhole, hzero]
          exact Nat.dvd_zero unitsPerOne
        exact reread_eq_self _ (.inl hwhole)
      · exact eq_finite_of_numEq hsame hzero
  · intro hsame
    rw [hsame]
    exact numEq_self_of_below hbelow

end Binary64

namespace Expression

/-- A single space. -/
def oneBlank : Blanks := ⟨[' '], List.forall_mem_singleton.mpr (by decide)⟩

variable (e : Expression)

theorem display_toList :
    e.display.toList = e.left.decimalChars ++
      (oneBlank.chars ++ e.operator.symbol :: (oneBlank.chars ++ e.right.decimalChars)) := by
  simp [display, Binary64.decimalText, oneBlank]

/-- Up to its operator, a normal form whose left operand fits is an opening. -/
theorem exists_opening_display (hleft : e.left.Below numeralLimit) :
    ∃ o : Opening, e.display.toList = o.chars ++ (oneBlank.chars ++ e.right.decimalChars) ∧
      o.left.value = e.left.reread ∧ o.operator = e.operator := by
  obtain ⟨left, hchars, hvalue⟩ := Binary64.exists_spelling hleft
  refine ⟨⟨noBlanks, left, oneBlank, e.operator⟩, ?_, hvalue, rfl⟩
  rw [display_toList, Opening.chars_append, hchars]
  rfl

/-- A normal form whose operands fit is read, and the operands are reread. -/
theorem read_display_of_below (hleft : e.left.Below numeralLimit)
    (hright : e.right.Below numeralLimit) :
    read e.display = .ok ⟨e.display, e.left.reread, e.operator, e.right.reread⟩ := by
  obtain ⟨o, hopening, hleftValue, hoperator⟩ := exists_opening_display e hleft
  obtain ⟨right, hchars, hrightValue⟩ := Binary64.exists_spelling hright
  have hsplit : (Split.mk o oneBlank right [] right.endsBefore_nil).chars = e.display.toList := by
    rw [hopening, Split.chars, List.append_nil, hchars]
  rw [Split.read_chars _ hsplit]
  simp only [Split.expression, hsplit, String.ofList_toList, hleftValue, hoperator, hrightValue]

theorem display_not_blank : ∃ c ∈ e.display.toList, isBlank c = false :=
  ⟨e.operator.symbol, by simp [display_toList], e.operator.isBlank_symbol⟩

/-- A text that begins with a double that does not fit has an invalid left operand. -/
theorem read_decimalChars_error {v : Binary64} (hbelow : ¬ v.Below numeralLimit) {text : String}
    {tail : List Char} (htext : text.toList = v.decimalChars ++ tail)
    (hdigit : Stops Char.isDigit tail) (hblank : ∃ c ∈ text.toList, isBlank c = false) :
    read text =
      .error (.within .leftOperand (.within .integerPart (.fault (v.textFault 0)))) := by
  have hlead : text.toList = leadChars none ++ (noBlanks.chars ++ (v.decimalChars ++ tail)) := htext
  obtain ⟨after, hnumber⟩ := Literal.number_decimalChars_error _ _ noBlanks hbelow hdigit
    (valid_leadChars none hlead)
  exact read_of_scan_error hblank (scan_lead_error none hlead hnumber)

/-- A left operand that does not fit is the error. -/
theorem read_display_left_error (hleft : ¬ e.left.Below numeralLimit) :
    read e.display =
      .error (.within .leftOperand (.within .integerPart (.fault (e.left.textFault 0)))) :=
  read_decimalChars_error hleft e.display_toList (stops_cons.mpr (by decide)) e.display_not_blank

/-- Behind a left operand that fits, a right operand that does not fit is the error. -/
theorem read_display_right_error (hleft : e.left.Below numeralLimit)
    (hright : ¬ e.right.Below numeralLimit) :
    ∃ position, read e.display = .error (.within .rightOperand
      (.within .integerPart (.fault (e.right.textFault position)))) := by
  obtain ⟨o, hopening, -, -⟩ := exists_opening_display e hleft
  have htext : e.display.toList =
      leadChars (some o) ++ (oneBlank.chars ++ (e.right.decimalChars ++ [])) := by
    rw [hopening, List.append_nil]
    rfl
  obtain ⟨after, hnumber⟩ := Literal.number_decimalChars_error _ _ oneBlank hright stops_nil
    (valid_leadChars (some o) htext)
  exact ⟨_, read_of_scan_error e.display_not_blank (scan_lead_error (some o) htext hnumber)⟩

/-- The normal form is read exactly when both operands are finite and below 2¹²⁸,
with the operator and what the digits of the operands are worth.  It is the same
expression exactly when both operands are reread as themselves: whole numbers are, and
so are fractions of few digits and, with few digits behind the comma, doubles whose last
bit is zero. -/
theorem read_display (e : Expression) :
    ((∃ again, read e.display = .ok again ∧ again.left.numEq e.left = true ∧
        again.operator = e.operator ∧ again.right.numEq e.right = true) ↔
      e.left.ReadsBack ∧ e.right.ReadsBack) ∧
    ((∃ again, read e.display = .ok again) ↔
      e.left.Below numeralLimit ∧ e.right.Below numeralLimit) ∧
    (∀ again, read e.display = .ok again →
      again = ⟨e.display, e.left.reread, e.operator, e.right.reread⟩) ∧
    ∀ v : Binary64, v.Below numeralLimit →
      v.IsWhole ∨ (v.Below 1 ∧ significantDigits v.decimalText.toList ≤ 15 ∧
        decimalPlacesOf v.decimalText.toList ≤ 22) ∨
        (v.IsEven ∧ decimalPlacesOf v.decimalText.toList ≤ 15) → v.ReadsBack := by
  have hbelow : ∀ again, read e.display = .ok again →
      e.left.Below numeralLimit ∧ e.right.Below numeralLimit := by
    intro again hread
    by_cases hleft : e.left.Below numeralLimit
    · by_cases hright : e.right.Below numeralLimit
      · exact ⟨hleft, hright⟩
      · obtain ⟨position, herror⟩ := read_display_right_error e hleft hright
        rw [herror] at hread
        simp at hread
    · rw [read_display_left_error e hleft] at hread
      simp at hread
  have hresult : ∀ again, read e.display = .ok again →
      again = ⟨e.display, e.left.reread, e.operator, e.right.reread⟩ := by
    intro again hread
    obtain ⟨hleft, hright⟩ := hbelow again hread
    rw [read_display_of_below e hleft hright] at hread
    exact (Except.ok.inj hread).symm
  refine ⟨⟨?_, ?_⟩, ⟨?_, ?_⟩, hresult, fun v hv hshort => ⟨hv, v.reread_eq_self hshort⟩⟩
  · rintro ⟨again, hread, hleftSame, -, hrightSame⟩
    obtain ⟨hleft, hright⟩ := hbelow again hread
    obtain rfl := hresult again hread
    exact ⟨⟨hleft, (Binary64.reread_numEq_iff hleft).mp hleftSame⟩,
      hright, (Binary64.reread_numEq_iff hright).mp hrightSame⟩
  · rintro ⟨⟨hleft, hleftSame⟩, hright, hrightSame⟩
    exact ⟨_, read_display_of_below e hleft hright,
      (Binary64.reread_numEq_iff hleft).mpr hleftSame, rfl,
      (Binary64.reread_numEq_iff hright).mpr hrightSame⟩
  · rintro ⟨again, hread⟩
    exact hbelow again hread
  · rintro ⟨hleft, hright⟩
    exact ⟨_, read_display_of_below e hleft hright⟩

/-- The normal form of a text with two operands that are exact is read as the same. -/
theorem read_display_exact :
    ∃ e, read "  -3,5*2 " = .ok e ∧
      ∃ again, read e.display = .ok again ∧ again.left.numEq e.left = true ∧
        again.operator = e.operator ∧ again.right.numEq e.right = true := by
  refine ⟨⟨"  -3,5*2 ", ((Binary64.ofNat 7).div (.ofNat 2)).neg, .multiply, .ofNat 2⟩,
    by decide +kernel, ?_⟩
  exact (read_display _).1.mpr (by decide +kernel)

/-- The largest whole part that is read rounds to 2¹²⁸, whose text is rejected; and a
fraction of 17 places comes back as its neighbour. -/
theorem read_display_not_same :
    (∃ e, read "340282366920938463463374607431768211455+1" = .ok e ∧
      read e.display = .error (.within .leftOperand (.within .integerPart
        (.fault (.integerTooLarge 0))))) ∧
    ∃ e again, read "0,97823824996853082 + 1" = .ok e ∧ read e.display = .ok again ∧
      again.left.numEq e.left = false := by
  refine ⟨⟨⟨"340282366920938463463374607431768211455+1", .ofNat numeralLimit, .add, .ofNat 1⟩,
      ?_, ?_⟩,
    ⟨⟨"0,97823824996853082 + 1", .ofFraction 97823824996853082 17, .add, .ofNat 1⟩,
      ⟨"0,9782382499685309 + 1", .ofFraction 9782382499685309 16, .add, .ofNat 1⟩, ?_, ?_, ?_⟩⟩
  all_goals decide +kernel

end Expression

end CommaCalc
