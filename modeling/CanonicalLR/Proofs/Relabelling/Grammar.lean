import CanonicalLR.Proofs.Grammar.Augmented
import CanonicalLR.Follow

/-!
# Grammars with the same numbers

Two grammars may have the same rules, the same start symbol and the same kind of symbol in
each slot, and other names. FIRST and FOLLOW are computed of numbers and kinds and never
look at a name, so they are the same sets, found in as many passes.

Augmentation looks at names to find a new one. That name is all in which the two augmented
grammars differ beyond the names that were declared: the added symbol has the same number
and the same rule.

## Main definitions

* `Grammar.SameNumbers` — two grammars that differ in names only.

## Main results

* `SameNumbers.augment` — the augmented grammars differ in names only.
* `SameNumbers.firstSaturation_eq`, `SameNumbers.followSaturation_eq` — FIRST and FOLLOW.
-/

namespace CanonicalLR.Grammar

/-- The second grammar has the rules, the start symbol and the kinds of the first one, and
may have other names. -/
structure SameNumbers (g h : Grammar) : Prop where
  rules_eq : h.rules = g.rules
  start_eq : h.start = g.start
  kind?_eq : h.symbols.kind? = g.symbols.kind?

namespace SameNumbers

variable {g h : Grammar} (hs : SameNumbers g h)

include hs

/-! ## Symbols and rules -/

theorem size_eq : h.symbols.size = g.symbols.size := by
  have hle : ∀ id, h.symbols.size ≤ id ↔ g.symbols.size ≤ id := by
    intro id
    rw [← SymbolTable.kind?_eq_none_iff, ← SymbolTable.kind?_eq_none_iff, hs.kind?_eq]
  exact Nat.le_antisymm ((hle _).2 (Nat.le_refl _)) ((hle _).1 (Nat.le_refl _))

theorem isTerminal_eq : h.symbols.isTerminal = g.symbols.isTerminal := by
  funext id
  unfold SymbolTable.isTerminal
  rw [hs.kind?_eq]

theorem isNonTerminal_eq : h.symbols.isNonTerminal = g.symbols.isNonTerminal := by
  funext id
  unfold SymbolTable.isNonTerminal
  rw [hs.kind?_eq]

theorem actionColumns_eq : h.actionColumns = g.actionColumns := by
  unfold actionColumns terminals SymbolTable.idsOfKind
  rw [hs.size_eq, hs.kind?_eq]

theorem inColumnOrder_eq : h.inColumnOrder = g.inColumnOrder := by
  funext symbols
  unfold inColumnOrder
  rw [hs.kind?_eq]

theorem rule_eq : h.rule = g.rule := by
  funext id
  unfold rule
  rw [hs.rules_eq]

/-- **The augmented grammars** differ in names only, too. -/
theorem augment : SameNumbers g.augment h.augment where
  rules_eq := by
    unfold Grammar.augment
    rw [hs.rules_eq, hs.size_eq, hs.start_eq]
  start_eq := hs.size_eq
  kind?_eq := by
    have hstart : h.augment.start = g.augment.start := hs.size_eq
    funext id
    apply Option.ext
    intro kind
    rw [kind?_augment_eq_some_iff, kind?_augment_eq_some_iff, hs.kind?_eq, hstart]

/-! ## FIRST and FOLLOW -/

theorem passCap_eq : h.passCap = g.passCap := by
  unfold passCap
  rw [hs.size_eq]

theorem firstSeed_eq : h.firstSeed = g.firstSeed := by
  unfold firstSeed
  rw [hs.size_eq, hs.isNonTerminal_eq]

theorem firstPass_eq : h.firstPass = g.firstPass := by
  funext first
  unfold firstPass
  rw [hs.rules_eq]

/-- **FIRST** is the same, found in as many passes. -/
theorem firstSaturation_eq : h.firstSaturation = g.firstSaturation := by
  unfold firstSaturation
  rw [hs.firstPass_eq, hs.passCap_eq, hs.firstSeed_eq]

theorem followSeed_eq : h.followSeed = g.followSeed := by
  unfold followSeed
  rw [hs.size_eq, hs.start_eq]

theorem followRule_eq : h.followRule = g.followRule := by
  funext first follow r
  unfold followRule
  rw [hs.isNonTerminal_eq]

theorem followPass_eq : h.followPass = g.followPass := by
  funext first follow
  unfold followPass
  rw [hs.rules_eq, hs.followRule_eq]

/-- **FOLLOW** is the same, found in as many passes. -/
theorem followSaturation_eq : h.followSaturation = g.followSaturation := by
  funext first
  unfold followSaturation
  rw [hs.followPass_eq, hs.passCap_eq, hs.followSeed_eq]

end SameNumbers

end CanonicalLR.Grammar
