/-!
# Command-line arguments

There is exactly one positional argument, and two flags that may stand before or
after it, each at most once: `--file` (`-f`) and `--verbose` (`-v`).  Short flags
may be joined, as in `-vf`.  An argument that starts with a minus sign and is
longer than it holds flags; after `--` every argument is positional.

The flags that ask a program for its help text or its version, `--help` (`-h`) and
`--version` (`-V`), ask for no calculation and are left out: a call with one of
them is refused here, where the program would print the text and succeed.
-/

namespace CommaCalc.CommandLine

/-- What a flag asks for. -/
inductive Flag where
  | file
  | verbose
  deriving DecidableEq

/-- What a call asks for. -/
structure Options where
  /-- Whether `contents` names a file instead of being the expression. -/
  fromFile : Bool
  /-- Whether the normal form of an expression precedes its result. -/
  verbose : Bool
  /-- The positional argument. -/
  contents : String
  deriving DecidableEq

/-- The arguments sorted into flags and positional ones, each in order. -/
structure SortedArguments where
  flags : List Flag
  positionals : List String

/-- The flag of a single letter. -/
def Flag.ofLetter? : Char → Option Flag
  | 'f' => some .file
  | 'v' => some .verbose
  | _ => none

/-- The flags of an argument that starts with a minus sign, given without it. -/
def flagsOfTail? : List Char → Option (List Flag)
  | '-' :: name =>
    if name = "file".toList then some [.file]
    else if name = "verbose".toList then some [.verbose]
    else none
  | letters => letters.mapM Flag.ofLetter?

/-- Sorts the arguments, unless one of them is an unknown flag. -/
def sortArguments? : List String → Option SortedArguments
  | [] => some ⟨[], []⟩
  | argument :: rest =>
    if argument = "--" then some ⟨[], rest⟩
    else
      match argument.toList with
      | '-' :: c :: tail => do
        let flags ← flagsOfTail? (c :: tail)
        let sorted ← sortArguments? rest
        return { sorted with flags := flags ++ sorted.flags }
      | _ => do
        let sorted ← sortArguments? rest
        return { sorted with positionals := argument :: sorted.positionals }

/-- The options of a call, unless its arguments break the rules; a flag for the help text or
the version breaks them like any unknown one. -/
def Options.ofArguments? (arguments : List String) : Option Options := do
  let sorted ← sortArguments? arguments
  match sorted.positionals with
  | [contents] =>
    if sorted.flags.Nodup then
      return ⟨decide (.file ∈ sorted.flags), decide (.verbose ∈ sorted.flags), contents⟩
    else
      none
  | _ => none

end CommaCalc.CommandLine
