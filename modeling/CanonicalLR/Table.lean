import CanonicalLR.Follow
import CanonicalLR.Table.Row

/-!
# Canonical LR(1) parsing tables

The table of a grammar has one row for each state of the canonical collection.
It keeps what it was made from: the augmented grammar, whose rule numbers label
reductions, the FIRST and FOLLOW sets and the automaton.

## Main definitions

* `Analysis`, `Grammar.analysis` — what is computed of a grammar before its rows.
* `Table` — the rows and their origin.
* `Table.ofAnalysis`, `Table.build` — the table of a declared grammar, or its
  first conflict.
* `Table.action?`, `Table.goto?` — the cells.
* `Table.expects` — the terminals with an action in a state.
* `GridPrinter` — what prints tables and traces.
* `Table.grid`, `Table.display` — the cells that are printed, and the printed table.

## Main results

* `mem_expects` — a terminal is expected exactly if its cell is filled.
-/

namespace CanonicalLR

/-- What prints rows of cells, the first row above all others. -/
abbrev GridPrinter := List (List String) → String

/-- What is computed of a declared grammar before the rows of its table. -/
structure Analysis where
  /-- The augmented grammar. -/
  grammar : Grammar
  first : Saturation SymbolSets
  follow : Saturation SymbolSets
  automaton : Automaton

/-- The analysis of a declared grammar. -/
def Grammar.analysis (declared : Grammar) : Analysis :=
  let grammar := declared.augment
  let first := grammar.firstSaturation
  { grammar, first
    follow := grammar.followSaturation first.value
    automaton := grammar.automaton first.value }

/-- A canonical LR(1) table. -/
structure Table where
  /-- The augmented grammar. -/
  grammar : Grammar
  first : SymbolSets
  follow : SymbolSets
  automaton : Automaton
  /-- One row for each state. -/
  rows : Array Row
  deriving DecidableEq

namespace Table

/-- The table of an analysed grammar. The first state in which two items are in
conflict is reported. -/
def ofAnalysis (a : Analysis) : Except Error Table := do
  let rows ← a.automaton.states.toList.zipIdx.mapM fun (s, state) =>
    Row.ofState a.grammar state s (a.automaton.movesFrom state)
  pure
    { grammar := a.grammar
      first := a.first.value
      follow := a.follow.value
      automaton := a.automaton
      rows := rows.toArray }

/-- The table of a declared grammar. -/
def build (declared : Grammar) : Except Error Table := ofAnalysis declared.analysis

/-- The ACTION cell of a state and a symbol. -/
def action? (t : Table) (state symbol : Nat) : Option Action :=
  (t.rows[state]?).bind fun row => row.actions.lookup symbol

/-- The GOTO cell of a state and a symbol. -/
def goto? (t : Table) (state symbol : Nat) : Option Nat :=
  (t.rows[state]?).bind fun row => row.gotos.lookup symbol

/-- The terminals with an action in a state, in column order. -/
def expects (t : Table) (state : Nat) : List Nat :=
  t.grammar.actionColumns.filter fun symbol => (t.action? state symbol).isSome

theorem mem_expects {t : Table} {state symbol : Nat} :
    symbol ∈ t.expects state ↔
      symbol ∈ t.grammar.actionColumns ∧ ∃ action, t.action? state symbol = some action := by
  simp [expects, Option.isSome_iff_exists]

/-! ## Text -/

/-- The names of the columns. -/
def header (t : Table) : List String :=
  "#" :: (t.grammar.actionColumns ++ t.grammar.gotoColumns).map t.grammar.symbols.name

/-- The printed cells of a state, after its number. -/
def rowCells (t : Table) (state : Nat) : List String :=
  toString state
    :: t.grammar.actionColumns.map (fun symbol =>
      (t.action? state symbol).elim "" Action.render)
    ++ t.grammar.gotoColumns.map fun symbol =>
      (t.goto? state symbol).elim "" toString

/-- The cells of the printed table: a header, then a row for each state. -/
def grid (t : Table) : List (List String) :=
  t.header :: (List.range t.rows.size).map t.rowCells

/-- The printed table. -/
def display (print : GridPrinter) (t : Table) : String := print t.grid

end Table

end CanonicalLR
