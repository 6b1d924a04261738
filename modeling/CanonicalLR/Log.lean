import CanonicalLR.Grammar.Source
import CanonicalLR.Parser.Trace

/-!
# Log

What reading a grammar, building its table and parsing an input report about
themselves. An event is a fact about the work; its wording and its level are
functions of it.

## Main definitions

* `Event` — the facts that are reported.
* `Grammar.readEvent`, `Analysis.events`, `Table.filledEvent`, `Table.parseEvents` —
  the events of each stage, in order.
* `Configuration.events` — a parser reports each decision before it acts on it.
* `Log.ofText` — the events from a grammar text to the end of a parse.
-/

namespace CanonicalLR

/-- How much detail an event belongs to. -/
inductive Level where
  | debug
  | trace
  deriving DecidableEq, Repr

/-- The facts that are reported. -/
inductive Event where
  /-- A grammar text was read. -/
  | read (rules nonTerminals terminals : Nat)
  /-- The start rule was added. -/
  | augmented (start : String) (rules : Nat)
  /-- The FIRST sets are found. -/
  | firstFound (passes : Nat)
  /-- The FOLLOW sets are found. -/
  | followFound (passes : Nat)
  /-- The canonical collection is complete. -/
  | explored (states edges : Nat)
  /-- The rows are filled without conflict. -/
  | filled (rows actions gotos : Nat)
  /-- The parser is about to act. -/
  | decided (state : Nat) (token : String) (action : Action)
  deriving DecidableEq, Repr

namespace Event

/-- Decisions of the parser are details; all else is reported once. -/
def level : Event → Level
  | .decided .. => .trace
  | _ => .debug

/-- The wording of an event. -/
def message : Event → String
  | .read rules nonTerminals terminals =>
    "grammar: " ++ toString rules ++ " rules, " ++ toString nonTerminals
      ++ " non-terminals, " ++ toString terminals ++ " terminals"
  | .augmented start rules =>
    "augmented grammar: start symbol " ++ start ++ ", " ++ toString rules ++ " rules"
  | .firstFound passes => "FIRST sets converged after " ++ toString passes ++ " passes"
  | .followFound passes => "FOLLOW sets converged after " ++ toString passes ++ " passes"
  | .explored states edges =>
    "canonical collection: " ++ toString states ++ " states, " ++ toString edges ++ " edges"
  | .filled rows actions gotos =>
    "table: " ++ toString rows ++ " rows, " ++ toString actions ++ " actions, "
      ++ toString gotos ++ " gotos"
  | .decided state token action =>
    "#" ++ toString state ++ " " ++ token ++ " :: " ++ action.render

end Event

/-- The event of reading a grammar. -/
def Grammar.readEvent (g : Grammar) : Event :=
  .read g.rules.size g.nonTerminals.length g.terminals.length

/-- The events of analysing a grammar. -/
def Analysis.events (a : Analysis) : List Event :=
  [.augmented (a.grammar.symbols.name a.grammar.start) a.grammar.rules.size,
   .firstFound a.first.passes,
   .followFound a.follow.passes,
   .explored a.automaton.states.size a.automaton.edges.length]

/-- The event of a table without conflict. -/
def Table.filledEvent (t : Table) : Event :=
  let rows := t.rows.toList
  .filled rows.length (rows.flatMap (·.actions)).length (rows.flatMap (·.gotos)).length

/-- The action for the top state and the next token, if there is one. -/
def Configuration.decision? (t : Table) (c : Configuration) : Option Action :=
  (c.lookahead? t.grammar).bind (t.action? c.state)

/-- The events of the decisions from a configuration on, at most `limit`. A decision is
reported before it is carried out. -/
def Configuration.events (t : Table) : Nat → Configuration → List Event
  | 0, _ => []
  | limit + 1, c =>
    match c.decision? t with
    | none => []
    | some action =>
      .decided c.state c.next action ::
        match c.step t with
        | .moved _ after => after.events t limit
        | _ => []

/-- Whether a table was built, and the events in order. -/
structure Log where
  built : Bool
  events : List Event
  deriving DecidableEq, Repr

/-- The events of parsing an input; an input that is refused has none. -/
def Table.parseEvents (t : Table) (limit : Nat) (input : String) : List Event :=
  match Token.ofInput input with
  | .ok tokens => (Configuration.initial (tokens.map (·.text))).events t limit
  | .error _ => []

/-- The log from a grammar text to the parse of an input, if there is one. -/
def Log.ofText (limit : Nat) (text : String) (input : Option String) : Log :=
  match Grammar.ofText text with
  | .error _ => ⟨false, []⟩
  | .ok g =>
    let analysis := g.analysis
    let before := g.readEvent :: analysis.events
    match Table.ofAnalysis analysis with
    | .error _ => ⟨false, before⟩
    | .ok table =>
      ⟨true, before ++ table.filledEvent :: input.elim [] (table.parseEvents limit)⟩

end CanonicalLR
