import CanonicalLR.Table

/-!
# The shift-reduce machine

A configuration is what the parser has on its stacks and what it has yet to
read. One stack holds states, with state 0 at the bottom, the other the grammar
symbols over which the states above it were entered. When no token is pending
the parser reads the end marker, which is never consumed.

A table may send the machine round for ever, on a grammar with a symbol that
derives no word. The run therefore takes a limit on the number of its moves,
and says so when it stopped there.

## Main definitions

* `Configuration` — the stacks, the tokens consumed and the tokens pending.
* `Configuration.step` — one move, acceptance, or the cause of failure.
* `Run`, `Configuration.run` — the moves of a run and how it ended.

## Main results

* `run_of_finished` — a run that ended is the same under every greater limit.
-/

namespace CanonicalLR

/-- The two stacks of the parser, top first, and the input around the reading
place. -/
structure Configuration where
  /-- The states that have been entered and not left; the first one at the bottom. -/
  states : List Nat
  /-- The grammar symbols over which they were entered. -/
  symbols : List Nat
  /-- How many tokens have been shifted. -/
  consumed : Nat
  /-- The tokens that have not been shifted. -/
  pending : List String
  deriving DecidableEq, Repr

/-- The outcome of one decision. -/
inductive StepResult where
  | moved (action : Action) (after : Configuration)
  | accepted
  | failed (error : Error)
  deriving DecidableEq, Repr

namespace Configuration

/-- The configuration before the first decision. -/
def initial (tokens : List String) : Configuration := ⟨[0], [], 0, tokens⟩

/-- The state on top of the stack. -/
def state (c : Configuration) : Nat := c.states.headD 0

/-- The symbols on the stack from bottom to top. -/
def spelled (c : Configuration) : List Nat := c.symbols.reverse

/-- The token to be read next. -/
def next (c : Configuration) : String := c.pending.headD endName

/-- The column of the token to be read next; a word that is no terminal of the
grammar has none. -/
def lookahead? (g : Grammar) (c : Configuration) : Option Nat :=
  match c.pending with
  | [] => some endId
  | token :: _ => (g.symbols.find? token).filter g.symbols.isTerminal

/-- Reads a token: its symbol and a state are pushed. -/
def shift (c : Configuration) (symbol state : Nat) : Configuration :=
  ⟨state :: c.states, symbol :: c.symbols, c.consumed + 1, c.pending.tail⟩

/-- Takes a symbol and a state for each symbol on the right of a rule off the
stacks, as far as they reach, and pushes the symbol on its left with the state
that GOTO names. -/
def reduce (t : Table) (c : Configuration) (id : Nat) : Except Error Configuration :=
  let rule := t.grammar.rule id
  let states := c.states.drop rule.rhs.length
  let symbols := c.symbols.drop rule.rhs.length
  match states.head?.bind fun state => t.goto? state rule.lhs with
  | some state => .ok { c with states := state :: states, symbols := rule.lhs :: symbols }
  | none => .error (.missingGoto (states.headD 0) (t.grammar.symbols.name rule.lhs))

/-- The error of a configuration whose next token has no action. -/
def unexpected (t : Table) (c : Configuration) : Error :=
  .unexpectedToken c.next c.consumed ((t.expects c.state).map t.grammar.symbols.name)

/-- One decision: the ACTION cell of the top state and the next token. -/
def step (t : Table) (c : Configuration) : StepResult :=
  match c.lookahead? t.grammar with
  | none => .failed (c.unexpected t)
  | some symbol =>
    match t.action? c.state symbol with
    | none => .failed (c.unexpected t)
    | some (.shift state) => .moved (.shift state) (c.shift symbol state)
    | some (.reduce rule) =>
      match c.reduce t rule with
      | .ok after => .moved (.reduce rule) after
      | .error error => .failed error
    | some .accept => .accepted

end Configuration

/-! ## Runs -/

/-- An action between two configurations. -/
structure Move where
  before : Configuration
  action : Action
  after : Configuration
  deriving DecidableEq, Repr

/-- How a run ended. -/
inductive Ending where
  | accepted
  | failed (error : Error)
  /-- The limit on the number of moves was reached. -/
  | unfinished
  deriving DecidableEq, Repr

/-- The moves of a run in order, and how it ended. -/
structure Run where
  moves : List Move
  ending : Ending
  deriving DecidableEq, Repr

/-- Steps until the input is accepted or refused, at most `limit` times.
Acceptance is a move that changes nothing. -/
def Configuration.run (t : Table) : Nat → Configuration → Run
  | 0, _ => ⟨[], .unfinished⟩
  | limit + 1, c =>
    match c.step t with
    | .moved action after =>
      let later := after.run t limit
      ⟨⟨c, action, after⟩ :: later.moves, later.ending⟩
    | .accepted => ⟨[⟨c, .accept, c⟩], .accepted⟩
    | .failed error => ⟨[], .failed error⟩

theorem Configuration.run_succ_of_finished {t : Table} {limit : Nat} {c : Configuration}
    (h : (c.run t limit).ending ≠ .unfinished) :
    c.run t (limit + 1) = c.run t limit := by
  induction limit generalizing c with
  | zero => exact absurd rfl h
  | succ limit ih =>
    rw [Configuration.run, Configuration.run]
    rw [Configuration.run] at h
    cases hs : c.step t with
    | moved action after =>
      simp only [hs] at h ⊢
      rw [ih h]
    | accepted => rfl
    | failed error => rfl

theorem Configuration.run_of_finished {t : Table} {limit more : Nat} {c : Configuration}
    (h : (c.run t limit).ending ≠ .unfinished) :
    c.run t (limit + more) = c.run t limit := by
  induction more with
  | zero => rfl
  | succ more ih =>
    rw [← Nat.add_assoc, run_succ_of_finished (by rw [ih]; exact h), ih]

end CanonicalLR
