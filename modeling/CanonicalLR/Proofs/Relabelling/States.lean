import CanonicalLR.Automaton
import CanonicalLR.Proofs.Relabelling.Grammar

/-!
# The states of grammars with the same numbers

Items, closure, goto and the walk over the states are computed of numbers and kinds. Two
grammars that differ in names only have therefore the same canonical collection: the same
states under the same numbers, and the same moves between them in the same order.

## Main results

* `SameNumbers.closure_eq`, `SameNumbers.goto_eq` — item sets.
* `SameNumbers.rounds_eq` — the walk.
* `SameNumbers.automaton_eq` — the canonical collection.
-/

namespace CanonicalLR.Grammar.SameNumbers

variable {g h : Grammar} (hs : SameNumbers g h)

include hs

/-! ## Items -/

theorem symbol?_eq : Item.symbol? h = Item.symbol? g := by
  funext i
  unfold Item.symbol? Item.rhs
  rw [hs.rule_eq]

theorem tail_eq : Item.tail h = Item.tail g := by
  funext i
  unfold Item.tail Item.rhs
  rw [hs.rule_eq]

theorem next?_eq : Item.next? h = Item.next? g := by
  funext i
  unfold Item.next?
  rw [hs.rule_eq]

theorem isAccepting_eq : Item.isAccepting h = Item.isAccepting g := by
  funext i
  unfold Item.isAccepting Item.isExhausted Item.rhs
  rw [hs.rule_eq]

/-! ## Closure and goto -/

theorem spawnItem_eq : ItemSet.spawnItem h = ItemSet.spawnItem g := by
  funext first spawned i
  unfold ItemSet.spawnItem
  rw [hs.symbol?_eq, hs.isNonTerminal_eq, hs.tail_eq]

theorem spawnRule_eq : ItemSet.spawnRule h = ItemSet.spawnRule g := by
  funext first spawned r
  unfold ItemSet.spawnRule
  rw [hs.isNonTerminal_eq]

theorem spawnPass_eq : ItemSet.spawnPass h = ItemSet.spawnPass g := by
  funext first spawned
  unfold ItemSet.spawnPass
  rw [hs.rules_eq, hs.spawnRule_eq]

theorem spawned_eq : ItemSet.spawned h = ItemSet.spawned g := by
  funext first s
  unfold ItemSet.spawned ItemSet.spawnCap ItemSet.spawnedBy
  rw [hs.spawnPass_eq, hs.spawnItem_eq, hs.size_eq]

/-- **Closure** adds the same items. -/
theorem closure_eq : ItemSet.closure h = ItemSet.closure g := by
  funext first s
  unfold ItemSet.closure ItemSet.ofSpawned
  rw [hs.spawned_eq, hs.rules_eq]

theorem expected_eq : ItemSet.expected h = ItemSet.expected g := by
  funext s
  unfold ItemSet.expected
  rw [hs.symbol?_eq]

/-- **Goto** leads to the same set. -/
theorem goto_eq : ItemSet.goto h = ItemSet.goto g := by
  funext first s symbol
  unfold ItemSet.goto ItemSet.advance
  rw [hs.closure_eq, hs.symbol?_eq, hs.next?_eq]

/-! ## The walk -/

theorem follow_eq : Exploration.follow h = Exploration.follow g := by
  funext first s symbols
  induction symbols with
  | nil => rfl
  | cons symbol symbols ih =>
      funext met
      unfold Exploration.follow
      rw [hs.goto_eq, ih]

theorem expand_eq : Exploration.expand h = Exploration.expand g := by
  funext first s e
  unfold Exploration.expand
  rw [hs.follow_eq, hs.inColumnOrder_eq, hs.expected_eq]

theorem steps_eq : Exploration.steps h = Exploration.steps g := by
  funext first cap
  induction cap with
  | zero => rfl
  | succ cap ih =>
      funext e
      unfold Exploration.steps
      rw [hs.expand_eq, ih]

/-- **The walk** meets the same sets in the same order. -/
theorem rounds_eq : Exploration.rounds h = Exploration.rounds g := by
  funext first more
  induction more with
  | zero => rfl
  | succ more ih =>
      funext cap e
      unfold Exploration.rounds
      rw [hs.steps_eq, ih]

/-- **The canonical collection** is the same. -/
theorem automaton_eq : h.automaton = g.automaton := by
  have hcount : h.itemCount = g.itemCount := by
    unfold itemCount
    rw [hs.actionColumns_eq, hs.rules_eq]
  funext first
  unfold automaton
  rw [hs.closure_eq, hs.rounds_eq, hcount]

end CanonicalLR.Grammar.SameNumbers
