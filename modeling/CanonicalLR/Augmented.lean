import CanonicalLR.Grammar
import CanonicalLR.OrdSet

/-!
# Augmented grammars

Augmentation adds a fresh start symbol `S'` and the rule `S' -> S` in front of
the others, so that acceptance is the reduction of one known rule. The fresh
name is the start symbol's name with the fewest primes that make it new, and
the fresh symbol takes the last slot of the table, so every declared number
keeps its meaning.

## Main definitions

* `freshName` — a name that no symbol has.
* `Grammar.augment` — the augmented grammar.
* `Grammar.actionColumns`, `Grammar.gotoColumns` — the columns of a table.
* `Grammar.movable` — the symbols a dot can move over.
* `Grammar.inColumnOrder` — the symbols of a set, in the order of the columns.

## Main results

* `rule_augment_zero` — rule 0 is `S' -> S`.
* `kind?_augment` — declared symbols keep their number and kind.
* `mem_inColumnOrder`, `filter_movable` — the order leaves out only what no dot
  can move over, and is the order of `movable`.
-/

namespace CanonicalLR

/-- A name with one or more primes behind it. -/
def primed (base : String) (primes : Nat) : String :=
  base ++ String.ofList (List.replicate primes '\x27')

/-- The name with the fewest primes, at least one, that no symbol of the table
has. A table cannot hold one more primed name than it has symbols. -/
def freshName (t : SymbolTable) (base : String) : String :=
  let unused := fun primes => (t.find? (primed base primes)).isNone
  primed base (((List.range' 1 (t.size + 1)).find? unused).getD 0)

namespace Grammar

/-- The grammar with the added start rule `S' -> S` as rule 0. -/
def augment (g : Grammar) : Grammar :=
  let name := freshName g.symbols (g.symbols.name g.start)
  { symbols := g.symbols.push ⟨name, .start⟩
    rules := #[⟨0, g.symbols.size, [g.start]⟩]
      ++ g.rules.map fun r => ⟨r.id + 1, r.lhs, r.rhs⟩
    start := g.symbols.size }

/-- The ACTION columns of an augmented grammar: the terminals, then `$`. -/
def actionColumns (g : Grammar) : List Nat := g.terminals ++ [endId]

/-- The GOTO columns of an augmented grammar: `S'`, then the declared
non-terminals. -/
def gotoColumns (g : Grammar) : List Nat := g.start :: g.nonTerminals

/-- The symbols a dot can move over, in column order; `$` stands in no rule. -/
def movable (g : Grammar) : List Nat := g.terminals ++ g.gotoColumns

/-- The members of a set that a dot can move over, in column order. -/
def inColumnOrder (g : Grammar) (symbols : OrdSet Nat) : List Nat :=
  let ofKind := fun kind =>
    symbols.toList.filter fun symbol => g.symbols.kind? symbol = some kind
  ofKind .terminal ++ ofKind .start ++ ofKind .nonTerminal

theorem mem_inColumnOrder {g : Grammar} {symbols : OrdSet Nat} {symbol : Nat} :
    symbol ∈ g.inColumnOrder symbols ↔ symbol ∈ symbols ∧
      ∃ kind ∈ [SymbolKind.terminal, .start, .nonTerminal],
        g.symbols.kind? symbol = some kind := by
  simp [inColumnOrder, OrdSet.mem_toList, and_or_left]

/-- The slots of a kind that lie in a set are the members that have the kind. -/
theorem filter_idsOfKind (t : SymbolTable) (kind : SymbolKind) (symbols : OrdSet Nat) :
    (t.idsOfKind kind).filter (· ∈ symbols)
      = symbols.toList.filter fun symbol => t.kind? symbol = some kind := by
  have ascending : (t.idsOfKind kind).Pairwise fun a b => compare a b = .lt :=
    (List.pairwise_lt_range.imp fun h => Nat.compare_eq_lt.2 h).filter _
  refine OrdSet.eq_of_mem_iff (ascending.filter _) (symbols.ascending.filter _) fun symbol => ?_
  simp only [List.mem_filter, SymbolTable.mem_idsOfKind, decide_eq_true_eq,
    OrdSet.mem_toList, and_comm]

/-- **Column order**: what a dot can move over, as far as it lies in a set. -/
theorem filter_movable {g : Grammar} (start : g.symbols.idsOfKind .start = [g.start])
    (symbols : OrdSet Nat) :
    g.movable.filter (· ∈ symbols) = g.inColumnOrder symbols := by
  have columns : g.movable = g.symbols.idsOfKind .terminal
      ++ (g.symbols.idsOfKind .start ++ g.symbols.idsOfKind .nonTerminal) := by
    rw [start]
    rfl
  simp only [columns, List.filter_append, filter_idsOfKind, inColumnOrder, List.append_assoc]

@[simp] theorem rule_augment_zero (g : Grammar) :
    g.augment.rule 0 = ⟨0, g.symbols.size, [g.start]⟩ := by
  simp only [rule, augment]
  rw [Array.getElem?_append_left (by simp)]
  rfl

theorem kind?_augment {g : Grammar} {symbol : Nat} (h : symbol < g.symbols.size) :
    g.augment.symbols.kind? symbol = g.symbols.kind? symbol := by
  have : symbol ≠ g.symbols.symbols.size := Nat.ne_of_lt h
  simp [augment, SymbolTable.push, SymbolTable.kind?, Array.getElem?_push, this]

theorem kind?_augment_start (g : Grammar) :
    g.augment.symbols.kind? g.augment.start = some .start := by
  simp [augment, SymbolTable.push, SymbolTable.kind?, SymbolTable.size]

end Grammar

end CanonicalLR
