import CanonicalLR.Proofs.Sets.Checked
import CanonicalLR.Proofs.Sets.FirstExact

/-!
# FIRST of sequences

FIRST of a sequence is gathered on one walk, which leaves out the `ε` of each symbol and
stops at the first symbol without one; only a walk that comes to the end adds `ε`. What is
gathered does not depend on how a sequence is divided, so FIRST of a sequence is put
together from FIRST of its parts. The lookahead of an item is a part of one symbol, which
starts itself, and may be put in the place of `ε`.

## Main definitions

* `SymbolSets.gather` — the walk over a sequence.
* `Grammar.ComposesFirst` — FIRST of sequences is put together from FIRST of their parts.

## Main results

* `gather_eq` — what the walk gathers.
* `lookaheads_eq_ofSequence` — a lookahead that starts itself may stand behind the
  sequence.
* `composesFirst_augment` — so it is with every grammar text.
-/

namespace CanonicalLR

namespace SymbolSets

/-- Adds FIRST of a sequence to what has been found: the sets of its symbols without `ε`,
until a symbol has no `ε`; and `ε` behind the last symbol. -/
def gather (s : SymbolSets) (found : OrdSet Nat) : List Nat → OrdSet Nat
  | [] => found.insert epsilonId
  | symbol :: rest =>
    let more := found ∪ (s.get symbol).erase epsilonId
    if epsilonId ∈ s.get symbol then s.gather more rest else more

end SymbolSets

/-- FIRST of sequences is put together from FIRST of their parts. -/
structure Grammar.ComposesFirst (g : Grammar) : Prop where
  /-- FIRST of a sequence of symbols needs no set outside the family, and is gathered on one
  walk. -/
  gathers : ∀ α, (∀ symbol ∈ α, symbol < g.symbols.size) →
    g.first.ofSequence? α = some (g.first.ofSequence α) ∧
      g.first.gather ∅ α = g.first.ofSequence α
  /-- Where the first part can be empty, the second part takes the place of its `ε`. -/
  append_of_mem : ∀ α β, epsilonId ∈ g.first.ofSequence α →
    g.first.ofSequence (α ++ β)
      = (g.first.ofSequence α).erase epsilonId ∪ g.first.ofSequence β
  /-- Where it cannot, the second part adds nothing. -/
  append_of_not_mem : ∀ α β, epsilonId ∉ g.first.ofSequence α →
    g.first.ofSequence (α ++ β) = (g.first.ofSequence α).erase epsilonId
  /-- The lookaheads behind a sequence are FIRST of the sequence, in which a lookahead takes
  the place of `ε`. -/
  lookaheads_eq : ∀ β a, g.first.lookaheads β a =
    if epsilonId ∈ g.first.ofSequence β
    then ((g.first.ofSequence β).erase epsilonId).insert a
    else g.first.ofSequence β
  /-- A terminal, `$` or `ε` may as well stand behind the sequence. -/
  lookaheads_eq_concat : ∀ β a, g.symbols.isTerminal a = true ∨ a = epsilonId →
    g.first.lookaheads β a = g.first.ofSequence (β ++ [a])

/-! ## One walk -/

namespace SymbolSets

variable {s : SymbolSets} {α : List Nat} {found : OrdSet Nat} {a b : Nat}

/-- **What the walk gathers** is FIRST of the sequence. -/
theorem gather_eq (s : SymbolSets) (found : OrdSet Nat) (α : List Nat) :
    s.gather found α = found ∪ s.ofSequence α := by
  apply OrdSet.ext
  intro a
  induction α generalizing found with
  | nil =>
      rw [gather, OrdSet.mem_insert, OrdSet.mem_union, mem_ofSequence_nil, or_comm]
  | cons symbol rest ih =>
      rw [gather, OrdSet.mem_union, mem_ofSequence_cons]
      by_cases hnull : epsilonId ∈ s.get symbol
      · rw [if_pos hnull, ih, OrdSet.mem_union, OrdSet.mem_union, OrdSet.mem_erase, or_assoc]
        simp only [hnull, true_and]
      · rw [if_neg hnull, OrdSet.mem_union, OrdSet.mem_erase]
        simp only [hnull, false_and, or_false]

theorem gather_empty (s : SymbolSets) (α : List Nat) : s.gather ∅ α = s.ofSequence α := by
  rw [gather_eq]
  apply OrdSet.ext
  intro a
  rw [OrdSet.mem_union]
  exact or_iff_right (OrdSet.not_mem_empty a)

/-! ## Lookaheads -/

theorem lookaheads_eq_insert (s : SymbolSets) (β : List Nat) (a : Nat) :
    s.lookaheads β a =
      if epsilonId ∈ s.ofSequence β
      then ((s.ofSequence β).erase epsilonId).insert a
      else s.ofSequence β := by
  apply OrdSet.ext
  intro b
  rw [mem_lookaheads]
  by_cases hnull : epsilonId ∈ s.ofSequence β
  · rw [if_pos hnull, OrdSet.mem_insert, OrdSet.mem_erase, or_comm]
    simp only [hnull, true_and]
  · have hne : b ∈ s.ofSequence β → b ≠ epsilonId := fun hb heq => hnull (heq ▸ hb)
    rw [if_neg hnull]
    simp only [hnull, false_and, or_false]
    exact ⟨And.left, fun hb => ⟨hb, hne hb⟩⟩

/-- **A lookahead that starts itself** may stand behind the sequence. -/
theorem lookaheads_eq_ofSequence (ha : ∀ b, b ∈ s.get a ↔ b = a) (β : List Nat) :
    s.lookaheads β a = s.ofSequence (β ++ [a]) := by
  apply OrdSet.ext
  intro b
  rw [mem_lookaheads, mem_ofSequence_append, mem_ofSequence_singleton, ha]

end SymbolSets

/-! ## Grammar texts -/

namespace Grammar

open SymbolSets

/-- Terminals, `$` and `ε` start themselves. -/
theorem IsAugmented.mem_first_get_iff_eq {g : Grammar} (hg : g.IsAugmented) {a : Nat}
    (ha : g.symbols.isTerminal a = true ∨ a = epsilonId) (b : Nat) :
    b ∈ g.first.get a ↔ b = a := by
  have hlt : a < g.symbols.size := by
    rcases ha with hterminal | rfl
    · exact lt_size_of_isTerminal hterminal
    · exact lt_size_of_kind? (hg.epsilon_kind_iff.2 rfl)
  have hother : g.symbols.isNonTerminal a = false := by
    rw [← Bool.not_eq_true]
    rintro hnonTerminal
    rcases ha with hterminal | rfl
    · exact SymbolTable.not_isNonTerminal_of_isTerminal hterminal hnonTerminal
    · exact hg.ne_epsilonId_of_isNonTerminal hnonTerminal rfl
  rw [hg.first_get_eq (Bool.eq_false_iff.1 hother), mem_get_firstSeed]
  exact ⟨fun hb => hb.2.2.symm ▸ rfl, fun hb => ⟨hlt, hother, hb⟩⟩

/-- **FIRST of sequences** is put together from FIRST of their parts. -/
theorem composesFirst_augment {text : String} {g : Grammar} (read : ofText text = .ok g) :
    g.augment.ComposesFirst := by
  have hg : g.augment.IsAugmented := (wellFormed_ofText read).isAugmented
  have hsets : g.augment.first.HasSets g.augment := hg.firstSaturation?_eq_some.2
  refine
    { gathers := fun α hα => ⟨hsets.ofSequence?_eq_some hα, gather_empty _ α⟩
      append_of_mem := fun α β hnull => ?_
      append_of_not_mem := fun α β hnull => ?_
      lookaheads_eq := lookaheads_eq_insert _
      lookaheads_eq_concat := fun β a ha =>
        lookaheads_eq_ofSequence (hg.mem_first_get_iff_eq ha) β }
  · rw [ofSequence_append, if_pos hnull]
  · apply OrdSet.ext
    intro a
    rw [ofSequence_append, if_neg hnull, OrdSet.mem_erase]
    exact ⟨fun ha => ⟨ha, fun heq => hnull (heq ▸ ha)⟩, And.left⟩

/-- So it is where two symbols in front of a terminal can be empty. -/
theorem composesFirst_of_empty_front :
    ∃ g, ofText "S -> A B c\nA -> a | ε\nB -> b | ε" = .ok g ∧ g.augment.ComposesFirst ∧
      (g.augment.first.ofSequence [3, 4]).toList = [epsilonId, 6, 7] ∧
      (g.augment.first.ofSequence ([3, 4] ++ [5])).toList = [5, 6, 7] ∧
      g.augment.first.lookaheads [3, 4] 5 = g.augment.first.ofSequence ([3, 4] ++ [5]) := by
  have hread : (ofText "S -> A B c\nA -> a | ε\nB -> b | ε").toOption.any (fun g =>
      (g.augment.first.ofSequence [3, 4]).toList = [epsilonId, 6, 7] ∧
        (g.augment.first.ofSequence ([3, 4] ++ [5])).toList = [5, 6, 7] ∧
        g.augment.symbols.isTerminal 5 = true) = true := by
    decide +kernel
  cases read : ofText "S -> A B c\nA -> a | ε\nB -> b | ε" with
  | error e =>
      rw [read] at hread
      cases hread
  | ok g =>
      rw [read] at hread
      obtain ⟨hfront, hall, hterminal⟩ := of_decide_eq_true hread
      have hcomposes := composesFirst_augment read
      exact ⟨g, rfl, hcomposes, hfront, hall,
        hcomposes.lookaheads_eq_concat [3, 4] 5 (Or.inl hterminal)⟩

end Grammar

end CanonicalLR
