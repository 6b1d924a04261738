import CanonicalLR.CommandLine

/-!
# The program

Reads the arguments and the grammar file, and prints the report.
-/

namespace CanonicalLR.CommandLine

/-- The reason why a file could not be read. -/
def reason : IO.Error → String
  | .noFileOrDirectory .. => "No such file or directory (os error 2)"
  | error => toString error

/-- The text of a file, or why it could not be read. -/
def readSource (path : String) : IO (Except String String) := do
  try
    return .ok (← IO.FS.readFile path)
  catch error =>
    return .error (reason error)

/-- Prints the report on the grammar file that the arguments name. -/
def run (arguments : List String) : IO UInt32 := do
  match parseArguments none {} arguments with
  | none =>
    IO.eprintln "usage: canonical-lr GRAMMAR [--input INPUT] [--states] [--sets]"
    return 2
  | some (path, options) =>
    let result := report moveLimit path (← readSource path) options
    IO.print result.stdout
    IO.eprint result.stderr
    return result.code.toUInt32

end CanonicalLR.CommandLine

/-- The program. -/
def main (arguments : List String) : IO UInt32 :=
  CanonicalLR.CommandLine.run arguments
