import CanonicalLR.First
import CanonicalLR.Item

/-!
# Item sets: closure and goto

A state of the automaton is a set of items. An item with a non-terminal `B`
after its dot spawns the items of `B`'s rules, with the dot at the start and
with every lookahead that can follow `B` there. The closure of a set adds all
that is spawned, directly or through other spawned items; goto moves the dot
over one symbol and closes the result.

All rules of a symbol are spawned with the same lookaheads. The closure is
therefore found as FIRST and FOLLOW are, by passes over the rules that let one
set of lookaheads grow for each symbol, and not item by item.

## Main definitions

* `Item.spawn` — the items that one item spawns.
* `ItemSet.spawned` — the lookaheads with which the rules of each symbol are
  spawned from a set.
* `ItemSet.closure` — the set with all that its members spawn.
* `ItemSet.goto` — the state reached over a symbol.
* `ItemSet.kernel` — the item `[S' -> • S, $]` from which all states come.

## Main results

* `mem_spawn` — the spawned items one by one.
* `subset_closure` — a set is part of its closure.
* `mem_advance` — the items whose dot has moved over a symbol.
* `mem_expected` — the symbols that a set expects.
-/

namespace CanonicalLR

/-- A set of items. -/
abbrev ItemSet := OrdSet Item

/-- The items that an item spawns: for `[A -> α • B β, a]`, the items
`[B -> • γ, l]` for each rule of `B` and each `l` that can start `β a`. -/
def Item.spawn (g : Grammar) (first : SymbolSets) (i : Item) : List Item :=
  match i.symbol? g with
  | none => []
  | some symbol =>
    if g.symbols.isNonTerminal symbol then
      let lookaheads := first.lookaheads (i.tail g) i.lookahead
      (g.rulesOf symbol).flatMap fun r => lookaheads.toList.map fun l => ⟨r.id, 0, l⟩
    else []

theorem Item.mem_spawn {g : Grammar} {first : SymbolSets} {i j : Item} :
    j ∈ i.spawn g first ↔
      ∃ symbol, i.symbol? g = some symbol ∧ g.symbols.isNonTerminal symbol = true ∧
        ∃ r ∈ g.rulesOf symbol, ∃ l ∈ first.lookaheads (i.tail g) i.lookahead,
          j = ⟨r.id, 0, l⟩ := by
  unfold Item.spawn
  split
  next h => simp [h]
  next symbol h =>
    split
    next nonTerminal =>
      simp only [h, List.mem_flatMap, List.mem_map, Option.some.injEq]
      constructor
      · rintro ⟨r, hr, l, hl, rfl⟩
        exact ⟨symbol, rfl, nonTerminal, r, hr, l, hl, rfl⟩
      · rintro ⟨_, rfl, _, r, hr, l, hl, rfl⟩
        exact ⟨r, hr, l, hl, rfl⟩
    next terminal =>
      simp only [h, Option.some.injEq, List.not_mem_nil, false_iff]
      rintro ⟨_, rfl, nonTerminal, _⟩
      exact terminal nonTerminal

namespace ItemSet

/-! ## Closure -/

/-- Adds the lookaheads with which one item spawns the rules of its symbol. -/
def spawnItem (g : Grammar) (first spawned : SymbolSets) (i : Item) : SymbolSets :=
  match i.symbol? g with
  | some symbol =>
    if g.symbols.isNonTerminal symbol
    then spawned.extend symbol (first.lookaheads (i.tail g) i.lookahead)
    else spawned
  | none => spawned

/-- The lookaheads with which the items of a set spawn the rules of each symbol. -/
def spawnedBy (g : Grammar) (first : SymbolSets) (s : ItemSet) : SymbolSets :=
  s.toList.foldl (spawnItem g first) (SymbolSets.empty g.symbols.size)

/-- Adds what the items of one rule spawn, where the rule itself is spawned. -/
def spawnRule (g : Grammar) (first spawned : SymbolSets) (r : Rule) : SymbolSets :=
  match r.rhs with
  | [] => spawned
  | symbol :: rest =>
    let after := spawned.get r.lhs
    if g.symbols.isNonTerminal symbol && !after.isEmpty
    then spawned.extend symbol (first.followedBy rest after)
    else spawned

/-- A pass over the rules in order; each rule sees what earlier ones spawned. -/
def spawnPass (g : Grammar) (first spawned : SymbolSets) : SymbolSets :=
  g.rules.foldl (spawnRule g first) spawned

/-- More passes than the lookaheads of the rules can grow: they are symbols of
the table or lookaheads of the set. -/
def spawnCap (g : Grammar) (s : ItemSet) : Nat :=
  g.symbols.size * (g.symbols.size + s.size) + 1

/-- The lookaheads with which the rules of each symbol are spawned, by the items
of a set or by items that these spawn. -/
def spawned (g : Grammar) (first : SymbolSets) (s : ItemSet) : SymbolSets :=
  (saturate (spawnPass g first) (spawnCap g s) (spawnedBy g first s)).value

/-- The items of all rules with the dot at the start and a lookahead that their
left-hand side has in a family. -/
def ofSpawned (g : Grammar) (spawned : SymbolSets) : ItemSet :=
  OrdSet.ofList (g.rules.toList.flatMap fun r =>
    (spawned.get r.lhs).toList.map fun l => ⟨r.id, 0, l⟩)

/-- The set with all that its members spawn, directly or not. -/
def closure (g : Grammar) (first : SymbolSets) (s : ItemSet) : ItemSet :=
  s ∪ ofSpawned g (spawned g first s)

theorem mem_ofSpawned {g : Grammar} {spawned : SymbolSets} {i : Item} :
    i ∈ ofSpawned g spawned ↔
      ∃ r ∈ g.rules, ∃ l ∈ spawned.get r.lhs, i = ⟨r.id, 0, l⟩ := by
  simp only [ofSpawned, OrdSet.mem_ofList, List.mem_flatMap, List.mem_map,
    Array.mem_toList_iff, OrdSet.mem_toList, eq_comm]

theorem subset_closure {g : Grammar} {first : SymbolSets} {s : ItemSet} {i : Item}
    (h : i ∈ s) : i ∈ s.closure g first :=
  OrdSet.mem_union.2 (Or.inl h)

/-! ## Goto -/

/-- The items of a set that expect a symbol, with their dot moved over it. -/
def advance (g : Grammar) (s : ItemSet) (symbol : Nat) : ItemSet :=
  OrdSet.ofList ((s.toList.filter fun i => i.symbol? g = some symbol).filterMap
    fun i => i.next? g)

/-- The symbols that the items of a set expect. -/
def expected (g : Grammar) (s : ItemSet) : OrdSet Nat :=
  OrdSet.ofList (s.toList.filterMap fun i => i.symbol? g)

/-- The closed set reached over a symbol; empty if no item expects it. -/
def goto (g : Grammar) (first : SymbolSets) (s : ItemSet) (symbol : Nat) : ItemSet :=
  (s.advance g symbol).closure g first

theorem mem_advance {g : Grammar} {s : ItemSet} {symbol : Nat} {j : Item} :
    j ∈ s.advance g symbol ↔
      ∃ i ∈ s, i.symbol? g = some symbol ∧ i.next? g = some j := by
  simp only [advance, OrdSet.mem_ofList, List.mem_filterMap, List.mem_filter,
    decide_eq_true_eq, and_assoc, OrdSet.mem_toList]

theorem mem_expected {g : Grammar} {s : ItemSet} {symbol : Nat} :
    symbol ∈ s.expected g ↔ ∃ i ∈ s, i.symbol? g = some symbol := by
  simp only [expected, OrdSet.mem_ofList, List.mem_filterMap, OrdSet.mem_toList]

/-! ## Views -/

/-- The items from which state 0 is closed: `[S' -> • S, $]`. -/
def kernel : ItemSet := OrdSet.ofList [⟨0, 0, endId⟩]

/-- The exhausted items, in order. -/
def exhausted (g : Grammar) (s : ItemSet) : List Item :=
  s.toList.filter fun i => i.isExhausted g

/-- The items in order, one a line. -/
def render (g : Grammar) (s : ItemSet) : String :=
  "\n".intercalate (s.toList.map fun i => i.render g)

end ItemSet

end CanonicalLR
