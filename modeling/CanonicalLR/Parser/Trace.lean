import CanonicalLR.Parser.Configuration
import CanonicalLR.Parser.Token

/-!
# Traces

A trace shows a run: the configuration before the first decision, and the
configuration after each action, with the names that the grammar gives to
symbols and rules.

## Main definitions

* `StackCell`, `StepAction`, `Step` — what a trace shows of one configuration.
* `Trace` — the steps of a run.
* `Table.parse` — parses an input.
* `Trace.display` — the printed trace.
-/

namespace CanonicalLR

/-! ## Steps -/

/-- A cell of the shown stack, on which states and symbols alternate. -/
inductive StackCell where
  | state (number : Nat)
  | symbol (name : String)
  deriving DecidableEq, Repr

/-- The text of a stack cell. -/
def StackCell.render : StackCell → String
  | .state number => toString number
  | .symbol name => name

/-- The action that a step shows. -/
inductive StepAction where
  /-- No action yet. -/
  | start
  | shift (state : Nat)
  /-- The rule, its text, and the number of stack cells taken off. -/
  | reduce (rule : Nat) (label : String) (popped : Nat)
  | accept
  deriving DecidableEq, Repr

/-- The text of an action. -/
def StepAction.render : StepAction → String
  | .start => ""
  | .shift _ => "Shift"
  | .reduce _ label _ => "Reduce by " ++ label
  | .accept => "Accept"

/-- A configuration as it is shown, after the action that led to it. -/
structure Step where
  stack : List StackCell
  /-- The remaining tokens, the end marker last. -/
  input : List String
  action : StepAction
  deriving DecidableEq, Repr

namespace Step

/-- The stack, with a blank between two cells. -/
def stackText (s : Step) : String := " ".intercalate (s.stack.map StackCell.render)

/-- The remaining input, with a blank between two tokens. -/
def inputText (s : Step) : String := " ".intercalate s.input

end Step

/-- The shown stack: the state at the bottom, then each symbol with the state
entered over it. -/
def Configuration.cells (g : Grammar) (c : Configuration) : List StackCell :=
  match c.states.reverse with
  | [] => []
  | bottom :: entered =>
    .state bottom :: (c.spelled.zip entered).flatMap fun (symbol, state) =>
      [.symbol (g.symbols.name symbol), .state state]

/-- The shown configuration. -/
def Configuration.shown (g : Grammar) (action : StepAction) (c : Configuration) : Step :=
  ⟨c.cells g, c.pending ++ [endName], action⟩

/-- An action as it is shown. -/
def Action.shown (g : Grammar) : Action → StepAction
  | .shift state => .shift state
  | .reduce id =>
    let rule := g.rule id
    .reduce id (rule.render g.symbols) (2 * rule.rhs.length)
  | .accept => .accept

/-! ## Traces -/

/-- The steps of a run, from the configuration before the first decision. -/
abbrev Trace := List Step

namespace Trace

/-- Does the trace end with acceptance? -/
def isAccepted (trace : Trace) : Bool :=
  trace.getLast?.any fun step => step.action = .accept

/-- The printed trace: a header, then a line for each step. -/
def display (print : GridPrinter) (trace : Trace) : String :=
  print (["Stack", "Input", "Action"]
    :: trace.map fun step => [step.stackText, step.inputText, step.action.render])

end Trace

/-- The trace of a run that began in a configuration. -/
def Run.trace (g : Grammar) (start : Configuration) (run : Run) : Trace :=
  start.shown g .start :: run.moves.map fun move => move.after.shown g (move.action.shown g)

/-! ## Parsing -/

/-- What a parse comes to. A failure before the first configuration, on an
input that is refused as a whole, has no trace. -/
inductive ParseResult where
  | accepted (trace : Trace)
  | failed (error : Error) (trace : Option Trace)
  | unfinished (trace : Trace)
  deriving DecidableEq, Repr

namespace Table

/-- The run on a list of tokens, within a limit on the number of moves. -/
def runOn (t : Table) (limit : Nat) (tokens : List Token) : Run :=
  (Configuration.initial (tokens.map (·.text))).run t limit

/-- Parses an input, within a limit on the number of moves. -/
def parse (t : Table) (limit : Nat) (input : String) : ParseResult :=
  match Token.ofInput input with
  | .error error => .failed error none
  | .ok tokens =>
    let run := t.runOn limit tokens
    let trace := run.trace t.grammar (Configuration.initial (tokens.map (·.text)))
    match run.ending with
    | .accepted => .accepted trace
    | .failed error => .failed error (some trace)
    | .unfinished => .unfinished trace

end Table

end CanonicalLR
