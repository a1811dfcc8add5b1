import CommaCalc.Calculation
import CommaCalc.CommandLine.Options

/-!
# Running a call

A call calculates one expression, or each line of a file.  Results go to the
standard output, reports to the standard error, a line each, and the call fails
if any expression does.  In a file, blank lines and lines that start with `#` are
passed over.
-/

namespace CommaCalc.CommandLine

/-- What a finished call has written, and whether it failed. -/
structure Output where
  failed : Bool
  stdout : String
  stderr : String
  deriving DecidableEq

namespace Output

/-- The outputs of several expressions, in order. -/
def concat (outputs : List Output) : Output :=
  ⟨outputs.any (·.failed), String.join (outputs.map (·.stdout)),
    String.join (outputs.map (·.stderr))⟩

end Output

/-- The line written for an expression with a value; when verbose, its normal
form comes first. -/
def resultLine (verbose : Bool) (expression : Expression) (result : Binary64) : String :=
  if verbose then expression.display ++ " = " ++ result.decimalText ++ "\n"
  else result.decimalText ++ "\n"

/-- Calculates one expression. -/
def runText (verbose : Bool) (text : String) : Output :=
  let failure (f : Failure) : Output := ⟨true, "", f.report ++ "\n"⟩
  match Expression.read text with
  | .error e => failure (.reading e)
  | .ok expression =>
    match expression.evaluate with
    | .error e => failure (.evaluation e)
    | .ok result => ⟨false, resultLine verbose expression result, ""⟩

/-- Puts a character in front of the first line; a line feed begins a new one. -/
def pushToLines (c : Char) : List (List Char) → List (List Char)
  | [] => [[c]]
  | line :: later => if c = '\n' then [] :: line :: later else (c :: line) :: later

/-- The pieces between line feeds. -/
def lines (content : List Char) : List (List Char) :=
  content.foldr pushToLines [[]]

/-- The expression on a line of a file, without the blanks around it, unless the
line is blank or a comment. -/
def lineExpression? (line : List Char) : Option String :=
  match trimBlanks line with
  | [] => none
  | '#' :: _ => none
  | trimmed => some (String.ofList trimmed)

/-- Calculates the lines of a file in order. -/
def runLines (verbose : Bool) (content : String) : Output :=
  .concat (((lines content.toList).filterMap lineExpression?).map (runText verbose))

/-- The failure to read a file, or to read it as UTF-8. -/
def unreadableFile (path : String) : Output :=
  ⟨true, "", "Failed to read the input file '" ++ path ++ "'. Perhaps this file does not exist?\n"⟩

/-- Runs a call, given the bytes of each file that can be read. -/
def run (options : Options) (readFile : String → Option ByteArray) : Output :=
  if options.fromFile then
    match (readFile options.contents).bind String.fromUTF8? with
    | some content => runLines options.verbose content
    | none => unreadableFile options.contents
  else
    runText options.verbose options.contents

/-- How a call ends. -/
inductive Outcome where
  /-- The arguments break the rules, and nothing was calculated. -/
  | refused
  | finished (output : Output)
  deriving DecidableEq

/-- The exit code of a call. -/
def Outcome.code : Outcome → Nat
  | refused => 2
  | finished output => if output.failed then 1 else 0

/-- Runs a call with the given arguments. -/
def call (arguments : List String) (readFile : String → Option ByteArray) : Outcome :=
  match Options.ofArguments? arguments with
  | none => .refused
  | some options => .finished (run options readFile)

end CommaCalc.CommandLine
