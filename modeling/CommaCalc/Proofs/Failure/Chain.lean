import CommaCalc.Failure
import Mathlib.Data.List.Infix

/-!
# The chain of causes

A fault can be located in any number of places.  Each place puts one error around the
others, so going from an error to its cause, and on to the cause of that, passes the
errors in the opposite order, and ends at the fault.  A report has one line for each of
them, in this order, and nothing for the stage of the calculation.
-/

namespace CommaCalc

/-- The numbered causes, each behind the line feed that ends the line above it. -/
def causesBelow (first : Nat) : List String → String
  | [] => ""
  | cause :: rest =>
    "\n  " ++ toString first ++ ". Caused by: " ++ cause ++ causesBelow (first + 1) rest

theorem intercalate_causeLines (message : String) (first : Nat) (causes : List String) :
    String.intercalate "\n" (message :: causeLines first causes) =
      message ++ causesBelow first causes := by
  induction causes generalizing message first with
  | nil => rw [causeLines, causesBelow, String.intercalate_singleton, String.append_empty]
  | cons cause rest ih =>
    have hfeed : ∀ line : String, "\n" ++ ("  " ++ line) = "\n  " ++ line := by
      intro line
      rw [← String.append_assoc]
      rfl
    rw [causeLines, causesBelow, String.intercalate_cons_cons, ih]
    simp only [String.append_assoc, hfeed]

theorem causesBelow_eq_join {α : Type} (message : α → String) (first : Nat) (causes : List α) :
    causesBelow first (causes.map message) = String.join (causes.mapIdx fun i cause =>
      "\n  " ++ toString (i + first) ++ ". Caused by: " ++ message cause) := by
  induction causes generalizing first with
  | nil => rfl
  | cons cause rest ih =>
    rw [List.map_cons, causesBelow, ih, List.mapIdx_cons, String.join_cons, Nat.zero_add]
    simp only [Nat.add_assoc, Nat.add_comm first 1]

namespace ReadError

/-- A fault that is located in places, the innermost first. -/
def nested (fault : Fault) (places : List Place) : ReadError :=
  places.foldl (fun cause place => .within place cause) (.fault fault)

/-- The errors of which a nested fault consists, from the outermost to the fault: each is
nested in the places up to its own. -/
def layers (fault : Fault) (places : List Place) : List ReadError :=
  (places.inits.map (nested fault)).reverse

/-- The error that is reached by going to the cause a number of times. -/
def reached (e : ReadError) : Nat → Option ReadError
  | 0 => some e
  | steps + 1 => e.cause?.bind fun cause => cause.reached steps

theorem reached_eq (e : ReadError) (steps : Nat) : e.reached steps = (e :: e.causes)[steps]? := by
  induction steps generalizing e with
  | zero => rfl
  | succ steps ih =>
    cases e with
    | fault f => rfl
    | within place cause => exact ih cause

variable (fault : Fault) (places : List Place) (place : Place)

theorem nested_concat : nested fault (places ++ [place]) = .within place (nested fault places) := by
  rw [nested, List.foldl_concat]
  rfl

theorem layers_concat :
    layers fault (places ++ [place]) =
      .within place (nested fault places) :: layers fault places := by
  rw [layers, List.inits_append, List.map_append, List.reverse_append, ← nested_concat]
  rfl

theorem cons_causes_nested :
    nested fault places :: (nested fault places).causes = layers fault places := by
  induction places using List.reverseRecOn with
  | nil => rfl
  | append_singleton places place ih => rw [layers_concat, ← ih, nested_concat, causes]

theorem length_layers : (layers fault places).length = places.length + 1 := by
  rw [layers, List.length_reverse, List.length_map, List.length_inits]

/-- The innermost layer is the fault itself. -/
theorem getElem?_layers_length : (layers fault places)[places.length]? = some (.fault fault) := by
  induction places using List.reverseRecOn with
  | nil => rfl
  | append_singleton places place ih =>
    rw [layers_concat, List.length_append, List.length_singleton, List.getElem?_cons_succ, ih]

theorem root_nested : (nested fault places).root = fault := by
  induction places using List.reverseRecOn with
  | nil => rfl
  | append_singleton places place ih => rw [nested_concat, root, ih]

/-- The message of an error with its causes below it, numbered from `first`. -/
def text (first : Nat) (e : ReadError) : String :=
  e.message ++ causesBelow first (e.causes.map message)

/-- A place stands in front of what it holds, which is numbered on. -/
theorem text_within (first : Nat) (place : Place) (cause : ReadError) :
    (within place cause).text first =
      place.message ++ ("\n  " ++ toString first ++ ". Caused by: " ++ cause.text (first + 1)) := by
  rw [text, text, causes, List.map_cons, causesBelow]
  simp only [message, String.append_assoc]

theorem report_eq (e : ReadError) : e.report = e.text 1 := by
  rw [report, reportFrom, sources_source?, reportText, intercalate_causeLines, text]

/-- From a fault in any places, going to the cause passes every layer once and ends behind the
fault, which is the root.  The recorded causes are the same layers.  Each layer names its cause
as its source, and the stage names the source of its error, so that going from source to source
passes the same layers.  The report of the error, at its stage as on its own, is the outermost
message and below it, numbered from one, the messages of the layers that are reached. -/
theorem report_nested :
    (∀ steps, (nested fault places).reached steps = (layers fault places)[steps]?) ∧
      (nested fault places).reached places.length = some (.fault (nested fault places).root) ∧
      (nested fault places).reached (places.length + 1) = none ∧
      (nested fault places).root = fault ∧
      nested fault places :: (nested fault places).causes = layers fault places ∧
      (∀ e ∈ layers fault places, e.source? = e.cause?) ∧
      (Failure.reading (nested fault places)).source? = (nested fault places).cause? ∧
      sources (some (nested fault places)) = layers fault places ∧
      (nested fault places).report = (nested fault places).message ++
        String.join ((layers fault places).tail.mapIdx fun i cause =>
          "\n  " ++ toString (i + 1) ++ ". Caused by: " ++ cause.message) ∧
      (Failure.reading (nested fault places)).message = (nested fault places).message ∧
      (Failure.reading (nested fault places)).report = (nested fault places).report := by
  have hlayers := cons_causes_nested fault places
  have hreached : ∀ steps, (nested fault places).reached steps = (layers fault places)[steps]? := by
    intro steps
    rw [reached_eq, hlayers]
  refine ⟨hreached, ?_, ?_, root_nested fault places, hlayers,
    fun e _ => e.source?_eq_cause?, source?_eq_cause? _, ?_, ?_, rfl, ?_⟩
  · rw [hreached, root_nested, getElem?_layers_length]
  · rw [hreached, List.getElem?_eq_none]
    exact (length_layers fault places).le
  · rw [sources, sources_source?, hlayers]
  · rw [report_eq, text, causesBelow_eq_join, ← hlayers, List.tail_cons]
  · rw [Failure.report, Failure.message, Failure.source?, report]

end ReadError

end CommaCalc
