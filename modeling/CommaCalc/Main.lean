import CommaCalc.CommandLine.Run

/-!
# The program

Reads the file that the arguments ask for, if any, runs the call and writes its
output.
-/

namespace CommaCalc.CommandLine

private def usage : String :=
  "Usage: [-f|--file] [-v|--verbose] [--] CONTENTS\n"

/-- The bytes of the file that the arguments name, if it can be read. -/
private def requestedFile (arguments : List String) : IO (Option ByteArray) := do
  match Options.ofArguments? arguments with
  | some ⟨true, _, path⟩ =>
    try
      return some (← IO.FS.readBinFile path)
    catch _ =>
      return none
  | _ => return none

/-- Runs a call on the real files and writes what it puts out. -/
def program (arguments : List String) : IO UInt32 := do
  let bytes ← requestedFile arguments
  let outcome := call arguments fun _ => bytes
  match outcome with
  | .refused => IO.eprint usage
  | .finished output =>
    IO.print output.stdout
    IO.eprint output.stderr
  return UInt32.ofNat outcome.code

end CommaCalc.CommandLine

def main (arguments : List String) : IO UInt32 :=
  CommaCalc.CommandLine.program arguments
