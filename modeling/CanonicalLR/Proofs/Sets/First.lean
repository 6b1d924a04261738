import CanonicalLR.First
import CanonicalLR.Proofs.Grammar.Yield
import CanonicalLR.Proofs.Sets.Growth

/-!
# FIRST sets are closed under the rules

The passes over the rules end on sets that contain FIRST of every right-hand
side, so whatever a word derived from some symbols starts with is in FIRST of
these symbols, and an empty word makes `ε` one of the members. A lookahead that
the parser meets is therefore never missing from an item.

## Main results

* `mem_ofSequence_append`, `mem_lookaheads_append` — membership in FIRST of a
  concatenation.
* `first_fixed`, `mem_first_of_rule` — FIRST of a right-hand side is part of
  FIRST of the left-hand side.
* `within_first` — the members are terminals, `$` and `ε`.
* `headD_mem_ofSequence`, `headD_mem_lookaheads` — the start of a derived word is
  in FIRST, and what follows an empty one is a lookahead.
-/

namespace CanonicalLR

/-! ## Sequences -/

namespace SymbolSets

variable {s : SymbolSets} {symbol a b : Nat} {left right rest : List Nat}
  {after : OrdSet Nat}

@[simp] theorem mem_ofSequence_nil : a ∈ s.ofSequence [] ↔ a = epsilonId := by
  show a ∈ OrdSet.empty.insert epsilonId ↔ a = epsilonId
  rw [OrdSet.mem_insert]
  exact or_iff_left (OrdSet.not_mem_empty a)

/-- The second part counts where the first one derives the empty word. -/
theorem mem_ofSequence_append :
    a ∈ s.ofSequence (left ++ right) ↔
      (a ∈ s.ofSequence left ∧ a ≠ epsilonId) ∨
        (epsilonId ∈ s.ofSequence left ∧ a ∈ s.ofSequence right) := by
  rw [ofSequence_append]
  by_cases hnull : epsilonId ∈ s.ofSequence left
  · rw [if_pos hnull, OrdSet.mem_union, OrdSet.mem_erase]
    simp [hnull]
  · rw [if_neg hnull]
    have hne : a ∈ s.ofSequence left → a ≠ epsilonId := fun ha heq => hnull (heq ▸ ha)
    simp only [hnull, false_and, or_false]
    exact ⟨fun ha => ⟨ha, hne ha⟩, And.left⟩

theorem mem_ofSequence_cons :
    a ∈ s.ofSequence (symbol :: rest) ↔
      (a ∈ s.get symbol ∧ a ≠ epsilonId) ∨
        (epsilonId ∈ s.get symbol ∧ a ∈ s.ofSequence rest) := by
  have h : a ∈ s.ofSequence ([symbol] ++ rest) ↔ _ := mem_ofSequence_append
  simpa only [mem_ofSequence_singleton, List.singleton_append] using h

theorem mem_followedBy :
    a ∈ s.followedBy rest after ↔
      (a ∈ s.ofSequence rest ∧ a ≠ epsilonId) ∨
        (epsilonId ∈ s.ofSequence rest ∧ a ∈ after) := by
  simp only [followedBy]
  by_cases hnull : epsilonId ∈ s.ofSequence rest
  · rw [if_pos hnull, OrdSet.mem_union, OrdSet.mem_erase]
    simp [hnull]
  · rw [if_neg hnull]
    have hne : a ∈ s.ofSequence rest → a ≠ epsilonId := fun ha heq => hnull (heq ▸ ha)
    simp only [hnull, false_and, or_false]
    exact ⟨fun ha => ⟨ha, hne ha⟩, And.left⟩

theorem mem_lookaheads :
    a ∈ s.lookaheads rest b ↔
      (a ∈ s.ofSequence rest ∧ a ≠ epsilonId) ∨ (epsilonId ∈ s.ofSequence rest ∧ a = b) := by
  have hsingle : a ∈ OrdSet.empty.insert b ↔ a = b := by
    rw [OrdSet.mem_insert]
    exact or_iff_left (OrdSet.not_mem_empty a)
  rw [lookaheads, mem_followedBy, hsingle]

@[simp] theorem mem_lookaheads_nil : a ∈ s.lookaheads [] b ↔ a = b := by
  rw [mem_lookaheads, mem_ofSequence_nil]
  simp

/-- What follows one of some symbols follows them together. -/
theorem mem_followedBy_of_mem_lookaheads (hb : b ∈ after)
    (h : a ∈ s.lookaheads rest b) : a ∈ s.followedBy rest after := by
  rcases mem_lookaheads.1 h with ha | ⟨hnull, rfl⟩
  · exact mem_followedBy.2 (Or.inl ha)
  · exact mem_followedBy.2 (Or.inr ⟨hnull, hb⟩)

/-- What follows some symbols together follows one of them. -/
theorem exists_mem_lookaheads (hafter : b ∈ after) (h : a ∈ s.followedBy rest after) :
    ∃ c ∈ after, a ∈ s.lookaheads rest c := by
  rcases mem_followedBy.1 h with ha | ⟨hnull, ha⟩
  · exact ⟨b, hafter, mem_lookaheads.2 (Or.inl ha)⟩
  · exact ⟨a, ha, mem_lookaheads.2 (Or.inr ⟨hnull, rfl⟩)⟩

theorem mem_followedBy_append :
    a ∈ s.followedBy (left ++ right) after ↔
      (a ∈ s.ofSequence left ∧ a ≠ epsilonId) ∨
        (epsilonId ∈ s.ofSequence left ∧ a ∈ s.followedBy right after) := by
  simp only [mem_followedBy, mem_ofSequence_append, ne_eq, not_true_eq_false, and_false,
    false_or]
  grind

theorem mem_lookaheads_append :
    a ∈ s.lookaheads (left ++ right) b ↔
      (a ∈ s.ofSequence left ∧ a ≠ epsilonId) ∨
        (epsilonId ∈ s.ofSequence left ∧ a ∈ s.lookaheads right b) :=
  mem_followedBy_append

end SymbolSets

/-! ## The passes -/

namespace Grammar

open SymbolSets

variable {g : Grammar}

/-- The terminals, `$` and `ε`. -/
def firstPool (g : Grammar) : Finset Nat :=
  (Finset.range g.symbols.size).filter fun a => g.symbols.isTerminal a ∨ a = epsilonId

theorem le_firstPass (g : Grammar) (s : SymbolSets) : s ≤ g.firstPass s := by
  unfold firstPass
  rw [← Array.foldl_toList]
  exact le_foldl (fun s r => le_extend s r.lhs (s.ofSequence r.rhs)) g.rules.toList s

section Augmented

variable (hg : g.IsAugmented)

include hg

theorem IsAugmented.epsilonId_mem_firstPool : epsilonId ∈ g.firstPool := by
  have hlt := lt_size_of_kind? (hg.epsilon_kind_iff.2 rfl)
  exact Finset.mem_filter.2 ⟨Finset.mem_range.2 hlt, Or.inr rfl⟩

theorem IsAugmented.within_ofSequence {s : SymbolSets}
    (hs : s.Within g.symbols.size g.firstPool) (rest : List Nat) :
    ∀ a ∈ s.ofSequence rest, a ∈ g.firstPool := by
  induction rest with
  | nil =>
      intro a ha
      rw [mem_ofSequence_nil.1 ha]
      exact hg.epsilonId_mem_firstPool
  | cons symbol rest ih =>
      intro a ha
      rcases mem_ofSequence_cons.1 ha with ⟨ha, _⟩ | ⟨_, ha⟩
      · exact hs.mem ha
      · exact ih a ha

theorem IsAugmented.within_firstPass {s : SymbolSets}
    (hs : s.Within g.symbols.size g.firstPool) :
    (g.firstPass s).Within g.symbols.size g.firstPool := by
  unfold firstPass
  rw [← Array.foldl_toList]
  refine List.foldlRecOn g.rules.toList _ hs ?_
  intro s hs r _
  exact hs.extend (hg.within_ofSequence hs r.rhs)

omit hg in
theorem mem_get_firstSeed {symbol a : Nat} :
    a ∈ g.firstSeed.get symbol ↔
      symbol < g.symbols.size ∧ g.symbols.isNonTerminal symbol = false ∧ a = symbol := by
  simp only [SymbolSets.get, firstSeed, Array.getElem?_map, Array.getElem?_range]
  by_cases hlt : symbol < g.symbols.size
  · cases hk : g.symbols.isNonTerminal symbol with
    | true => simp [hlt, hk]
    | false =>
        have hempty : a ∉ OrdSet.empty := OrdSet.not_mem_empty a
        simp [hlt, hk, hempty]
  · simp [hlt]

theorem IsAugmented.within_firstSeed :
    g.firstSeed.Within g.symbols.size g.firstPool := by
  refine ⟨by simp [firstSeed], fun {symbol a} ha => ?_⟩
  obtain ⟨hlt, hk, rfl⟩ := mem_get_firstSeed.1 ha
  refine Finset.mem_filter.2 ⟨Finset.mem_range.2 hlt, ?_⟩
  exact hg.isTerminal_or_eq_epsilonId hlt hk

/-- The passes end on sets that a pass leaves alone. -/
theorem IsAugmented.first_fixed : g.firstPass g.first = g.first := by
  have hcard : g.firstPool.card ≤ g.symbols.size :=
    (Finset.card_filter_le _ _).trans_eq (Finset.card_range _)
  have hroom : g.symbols.size * g.firstPool.card < g.passCap :=
    Nat.lt_succ_of_le (Nat.mul_le_mul_left _ hcard)
  exact saturate_fixed g.le_firstPass (fun s hs => hg.within_firstPass hs)
    hg.within_firstSeed hroom

/-- FIRST sets hold terminals, `$` and `ε`. -/
theorem IsAugmented.within_first : g.first.Within g.symbols.size g.firstPool :=
  saturate_invariant (fun _ hs => hg.within_firstPass hs) _ hg.within_firstSeed

theorem IsAugmented.isTerminal_of_mem_ofSequence {a : Nat} {rest : List Nat}
    (ha : a ∈ g.first.ofSequence rest) (hne : a ≠ epsilonId) :
    g.symbols.isTerminal a = true := by
  have hpool := hg.within_ofSequence hg.within_first rest a ha
  exact (Finset.mem_filter.1 hpool).2.resolve_right hne

/-- What follows an ACTION column is one. -/
theorem IsAugmented.isTerminal_of_mem_lookaheads {a b : Nat} {rest : List Nat}
    (ha : a ∈ g.first.lookaheads rest b) (hb : g.symbols.isTerminal b = true) :
    g.symbols.isTerminal a = true := by
  rcases mem_lookaheads.1 ha with ⟨ha, hne⟩ | ⟨_, rfl⟩
  · exact hg.isTerminal_of_mem_ofSequence ha hne
  · exact hb

/-! ## FIRST is closed -/

/-- **FIRST of a right-hand side** is part of FIRST of the left-hand side. -/
theorem IsAugmented.mem_first_of_rule {r : Rule} {a : Nat} (hr : r ∈ g.rules)
    (ha : a ∈ g.first.ofSequence r.rhs) : a ∈ g.first.get r.lhs := by
  have hfixed := hg.first_fixed
  unfold firstPass at hfixed
  rw [← Array.foldl_toList] at hfixed
  have hrule := eq_of_foldl_eq (fun s r => le_extend s r.lhs (s.ofSequence r.rhs)) hfixed
    r (Array.mem_toList_iff.2 hr)
  have hlhs : r.lhs < g.first.sets.size := by
    rw [hg.within_first.size_eq]
    exact IsAugmented.lt_size_of_isNonTerminal (hg.lhs_isNonTerminal r hr)
  exact mem_get_of_extend_eq hrule hlhs ha

omit hg in
/-- A terminal starts itself. -/
theorem mem_first_of_terminal {a : Nat}
    (ha : g.symbols.kind? a = some .terminal) : a ∈ g.first.get a := by
  have hseed : a ∈ g.firstSeed.get a := by
    refine mem_get_firstSeed.2 ⟨lt_size_of_kind? ha, ?_, rfl⟩
    simp [SymbolTable.isNonTerminal, ha, SymbolKind.isNonTerminal]
  exact (le_saturate g.le_firstPass).2 a a hseed

/-- **The start of a derived word is in FIRST**; for the empty word this is `ε`. -/
theorem IsAugmented.headD_mem_ofSequence {ids α w : List Nat} (h : g.Yields ids α w) :
    w.headD epsilonId ∈ g.first.ofSequence α := by
  induction h with
  | nil => exact mem_ofSequence_nil.2 rfl
  | @terminal a _ _ _ kind _ _ =>
      have hne := hg.ne_epsilonId_of_terminal kind
      exact mem_ofSequence_cons.2 (Or.inl ⟨mem_first_of_terminal kind, hne⟩)
  | @rule r _ _ v _ w hr inner _ ihInner ihLater =>
      have hhead := hg.mem_first_of_rule hr ihInner
      apply mem_ofSequence_cons.2
      cases v with
      | nil => exact Or.inr ⟨hhead, ihLater⟩
      | cons a v =>
          have hne := hg.ne_epsilonId_of_terminal (inner.isWord a List.mem_cons_self)
          exact Or.inl ⟨hhead, hne⟩

/-- **The next token is a lookahead**: what stands behind a derived word, or the
start of the word, may follow the place before it. -/
theorem IsAugmented.headD_mem_lookaheads {ids α β w rest : List Nat} {b : Nat}
    (h : g.Yields ids α w) (hrest : rest.headD endId ∈ g.first.lookaheads β b) :
    (w ++ rest).headD endId ∈ g.first.lookaheads (α ++ β) b := by
  have hhead := hg.headD_mem_ofSequence h
  apply mem_lookaheads_append.2
  cases w with
  | nil => exact Or.inr ⟨hhead, hrest⟩
  | cons a w =>
      have hne := hg.ne_epsilonId_of_terminal (h.isWord a List.mem_cons_self)
      exact Or.inl ⟨hhead, hne⟩

end Augmented

end Grammar

end CanonicalLR
