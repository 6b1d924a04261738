import CanonicalLR.CommandLine.Grid
import CanonicalLR.Grammar.Source
import CanonicalLR.Parser.Trace

/-!
# The command line

The program reads a grammar, prints its table, and parses an input if one is
given. On request it also prints the FIRST and FOLLOW sets and the states. All
of this is a function from the text of the grammar to what is printed; nothing
is printed before the table is built.

## Main definitions

* `Options`, `parseArguments` — what the user asks for.
* `Table.render`, `Trace.render` — tables and traces, printed as bordered grids.
* `Report` — exit code and output.
* `report` — the report on a grammar.

## Main results

* `report_of_error` — nothing is printed before the table is built.
-/

namespace CanonicalLR

/-- The table as the program prints it. -/
def Table.render (t : Table) : String := t.display CommandLine.renderGrid

/-- The trace as the program prints it. -/
def Trace.render (trace : Trace) : String := trace.display CommandLine.renderGrid

namespace CommandLine

/-- What the user asks for besides the table. -/
structure Options where
  /-- Parse this input. -/
  input : Option String := none
  /-- Print the states. -/
  states : Bool := false
  /-- Print the FIRST and FOLLOW sets. -/
  sets : Bool := false
  deriving DecidableEq, Repr

/-- Reads the arguments: one path, and options anywhere. -/
def parseArguments (path : Option String) (options : Options) :
    List String → Option (String × Options)
  | [] => path.map fun path => (path, options)
  | "--states" :: rest => parseArguments path { options with states := true } rest
  | "--sets" :: rest => parseArguments path { options with sets := true } rest
  | "--input" :: input :: rest | "-i" :: input :: rest =>
    parseArguments path { options with input := some input } rest
  | argument :: rest =>
    match Text.cut ['='] argument.toList with
    | some (['-', '-', 'i', 'n', 'p', 'u', 't'], input) =>
      parseArguments path { options with input := some (String.ofList input) } rest
    | _ =>
      if path.isNone && argument.toList.head? != some '-'
      then parseArguments (some argument) options rest
      else none

/-- What the program leaves behind. -/
structure Report where
  code : Nat
  stdout : String
  stderr : String
  deriving DecidableEq, Repr

/-- More moves than a run that ends can make before memory is used up. -/
def moveLimit : Nat := 0x4000000000000000

/-- The report of a failure after some output. -/
def failure (stdout message : String) : Report :=
  ⟨1, stdout, "Error: " ++ message ++ "\n"⟩

/-- The FIRST and FOLLOW sets, and an empty line. -/
def setsText (t : Table) : String :=
  t.first.render "FIRST" t.grammar.symbols
    ++ t.follow.render "FOLLOW" t.grammar.symbols ++ "\n"

/-- Each state under its number, with an empty line behind it. -/
def statesText (t : Table) : String :=
  String.join (t.automaton.states.toList.zipIdx.map fun (s, state) =>
    "I" ++ toString state ++ ":\n" ++ s.render t.grammar ++ "\n\n")

/-- What is printed of a table. -/
def tableText (t : Table) (options : Options) : String :=
  (if options.sets then setsText t else "")
    ++ (if options.states then statesText t else "")
    ++ t.render ++ "\n"

/-- The report on a grammar that was read from `path`, or could not be read for
some reason. -/
def report (limit : Nat) (path : String) (source : Except String String)
    (options : Options) : Report :=
  match source with
  | .error reason =>
    failure "" ("cannot read grammar " ++ path ++ "\n\nCaused by:\n    " ++ reason)
  | .ok text =>
    match Grammar.ofText text >>= Table.build with
    | .error error => failure "" error.message
    | .ok table =>
      let printed := tableText table options
      match options.input with
      | none => ⟨0, printed, ""⟩
      | some input =>
        match table.parse limit input with
        | .accepted trace => ⟨0, printed ++ trace.render ++ "\n", ""⟩
        | .failed error trace =>
          failure (printed ++ trace.elim "" fun trace => trace.render ++ "\n") error.message
        | .unfinished trace =>
          failure (printed ++ trace.render ++ "\n") "the parse did not come to an end"

/-- **Nothing is printed** of a text that declares no grammar, or one with a conflict, but the
error, whatever is asked for. -/
theorem report_of_error {text : String} {error : Error}
    (refused : Grammar.ofText text >>= Table.build = .error error) (limit : Nat)
    (path : String) (options : Options) :
    report limit path (.ok text) options = failure "" error.message := by
  simp only [report, refused]

end CommandLine

end CanonicalLR
