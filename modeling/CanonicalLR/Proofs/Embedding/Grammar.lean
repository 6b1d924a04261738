import CanonicalLR.Proofs.Items.Goto
import Mathlib.Order.Monotone.Basic

/-!
# Embedded grammars

A grammar is part of a larger one if its symbols can be renumbered, in order, so that
its rules stand under their numbers among the rules of the larger grammar, and the larger
one has no other rules for them. Whatever its own symbols derive is then the same in
both. This module compares what is read off a rule or an item, and the FIRST sets.

## Main definitions

* `Rule.rename`, `Item.rename` — rules and items in the other numbering.
* `Grammar.Embeds` — a grammar is part of another one.
* `SymbolSets.MapsInto`, `SymbolSets.MapsOnto` — sets that are renumbered.

## Main results

* `symbol?_rename`, `tail_rename`, `isExhausted_rename`, `isAccepting_rename` — an item
  and its image.
* `mem_first_iff` — FIRST sets are renumbered, and nothing is added.
* `spawns_rename_iff` — images of items spawn images.
-/

namespace CanonicalLR

/-- The rule with its symbols renumbered. -/
def Rule.rename (ρ : Nat → Nat) (r : Rule) : Rule := ⟨r.id, ρ r.lhs, r.rhs.map ρ⟩

/-- The item with its lookahead renumbered. -/
def Item.rename (ρ : Nat → Nat) (i : Item) : Item := ⟨i.rule, i.position, ρ i.lookahead⟩

/-- `Embeds ρ g h`: the augmented grammar `g` is the part of the augmented grammar `h` to
which `ρ` leads. -/
structure Grammar.Embeds (ρ : Nat → Nat) (g h : Grammar) : Prop where
  isAugmented : g.IsAugmented
  isAugmented' : h.IsAugmented
  /-- Symbols keep their order. -/
  strictMono : StrictMono ρ
  /-- Symbols keep their kind. -/
  kind?_eq : ∀ {id : Nat}, id < g.symbols.size →
    h.symbols.kind? (ρ id) = g.symbols.kind? id
  /-- Symbols keep their name, the added start symbol apart. -/
  name_eq : ∀ {id : Nat}, id < g.symbols.size → id ≠ g.start →
    h.symbols.name (ρ id) = g.symbols.name id
  /-- A name leads to the same symbol. -/
  find?_iff : ∀ {id : Nat} {name : String}, id < g.symbols.size → id ≠ g.start →
    (h.symbols.find? name = some (ρ id) ↔ g.symbols.find? name = some id)
  /-- Rules keep their number. -/
  getElem?_rules : ∀ {id : Nat} {r : Rule}, g.rules[id]? = some r →
    h.rules[id]? = some (r.rename ρ)
  /-- The symbols have no other rules. -/
  exists_rule : ∀ {id : Nat}, id < g.symbols.size → ∀ r ∈ h.rules, r.lhs = ρ id →
    ∃ q ∈ g.rules, r = q.rename ρ

/-! ## FIRST of a renumbered sequence -/

namespace SymbolSets

variable {ρ : Nat → Nat} {s s' : SymbolSets} {size a b : Nat} {α : List Nat}

/-- What the sets of the first symbols hold is held, renumbered, by the sets of their
images. -/
def MapsInto (ρ : Nat → Nat) (size : Nat) (s s' : SymbolSets) : Prop :=
  ∀ id < size, ∀ a ∈ s.get id, ρ a ∈ s'.get (ρ id)

/-- The sets of the images of the first symbols hold nothing but what comes from the sets
of those symbols. -/
def MapsOnto (ρ : Nat → Nat) (size : Nat) (s s' : SymbolSets) : Prop :=
  ∀ id < size, ∀ b ∈ s'.get (ρ id), ∃ a ∈ s.get id, b = ρ a

/-- FIRST of a sequence grows with FIRST of its symbols. -/
theorem MapsInto.map_mem_ofSequence (hs : MapsInto ρ size s s') (hρ : StrictMono ρ)
    (hε : ρ epsilonId = epsilonId) (hα : ∀ id ∈ α, id < size)
    (ha : a ∈ s.ofSequence α) : ρ a ∈ s'.ofSequence (α.map ρ) := by
  induction α with
  | nil =>
      rw [mem_ofSequence_nil.1 ha, hε]
      exact mem_ofSequence_nil.2 rfl
  | cons id α ih =>
      have hid : id < size := hα id List.mem_cons_self
      rw [List.map_cons]
      apply mem_ofSequence_cons.2
      rcases mem_ofSequence_cons.1 ha with ⟨ha, hne⟩ | ⟨hnull, ha⟩
      · have hne' : ρ a ≠ epsilonId := by
          rw [← hε]
          exact hρ.injective.ne hne
        exact Or.inl ⟨hs id hid a ha, hne'⟩
      · have hnull' : epsilonId ∈ s'.get (ρ id) := hε ▸ hs id hid epsilonId hnull
        exact Or.inr ⟨hnull', ih (fun x hx => hα x (List.mem_cons_of_mem _ hx)) ha⟩

/-- FIRST of a renumbered sequence holds nothing but what FIRST of its symbols holds. -/
theorem MapsOnto.exists_mem_ofSequence (hs : MapsOnto ρ size s s') (hρ : StrictMono ρ)
    (hε : ρ epsilonId = epsilonId) (hα : ∀ id ∈ α, id < size)
    (hb : b ∈ s'.ofSequence (α.map ρ)) :
    ∃ a ∈ s.ofSequence α, b = ρ a := by
  induction α generalizing b with
  | nil => exact ⟨epsilonId, mem_ofSequence_nil.2 rfl, (mem_ofSequence_nil.1 hb).trans hε.symm⟩
  | cons id α ih =>
      have hid : id < size := hα id List.mem_cons_self
      rw [List.map_cons] at hb
      rcases mem_ofSequence_cons.1 hb with ⟨hb, hne⟩ | ⟨hnull, hb⟩
      · obtain ⟨a, ha, rfl⟩ := hs id hid b hb
        have hne' : a ≠ epsilonId := by
          rintro rfl
          exact hne hε
        exact ⟨a, mem_ofSequence_cons.2 (Or.inl ⟨ha, hne'⟩), rfl⟩
      · obtain ⟨e, he, hεe⟩ := hs id hid epsilonId hnull
        have heq : e = epsilonId := hρ.injective (hεe.symm.trans hε.symm)
        obtain ⟨a, ha, rfl⟩ := ih (fun x hx => hα x (List.mem_cons_of_mem _ hx)) hb
        exact ⟨a, mem_ofSequence_cons.2 (Or.inr ⟨heq ▸ he, ha⟩), rfl⟩

end SymbolSets

namespace Grammar.Embeds

open SymbolSets

variable {ρ : Nat → Nat} {g h : Grammar} {i : Item} {id symbol a b l : Nat} {α : List Nat}
  (he : Embeds ρ g h)

include he

/-! ## Symbols and rules -/

theorem epsilon_eq : ρ epsilonId = epsilonId := by
  have hkind := he.isAugmented.epsilon_kind_iff.2 rfl
  apply he.isAugmented'.epsilon_kind_iff.1
  rw [he.kind?_eq (lt_size_of_kind? hkind), hkind]

theorem end_eq : ρ endId = endId := by
  have hkind := he.isAugmented.end_kind_iff.2 rfl
  apply he.isAugmented'.end_kind_iff.1
  rw [he.kind?_eq (lt_size_of_kind? hkind), hkind]

theorem lt_size (hid : id < g.symbols.size) : ρ id < h.symbols.size := by
  apply Nat.lt_of_not_le
  intro hle
  have hnone := SymbolTable.kind?_eq_none_iff.2 hle
  rw [he.kind?_eq hid] at hnone
  exact absurd hid (Nat.not_lt.2 (SymbolTable.kind?_eq_none_iff.1 hnone))

theorem isTerminal_eq (hid : id < g.symbols.size) :
    h.symbols.isTerminal (ρ id) = g.symbols.isTerminal id := by
  unfold SymbolTable.isTerminal
  rw [he.kind?_eq hid]

theorem isNonTerminal_eq (hid : id < g.symbols.size) :
    h.symbols.isNonTerminal (ρ id) = g.symbols.isNonTerminal id := by
  unfold SymbolTable.isNonTerminal
  rw [he.kind?_eq hid]

/-- What heads an ACTION column keeps its name. -/
theorem name_of_isTerminal (hterminal : g.symbols.isTerminal id = true) :
    h.symbols.name (ρ id) = g.symbols.name id :=
  he.name_eq (IsAugmented.lt_size_of_isTerminal hterminal)
    (he.isAugmented.ne_start_of_isTerminal hterminal)

theorem rule_rename (hr : g.rule id ∈ g.rules) : h.rule id = (g.rule id).rename ρ :=
  rule_of_getElem? (he.getElem?_rules (he.isAugmented.getElem?_rules hr))

theorem rename_mem_rules {r : Rule} (hr : r ∈ g.rules) : r.rename ρ ∈ h.rules := by
  obtain ⟨k, hk⟩ := Array.getElem?_of_mem hr
  exact Array.mem_of_getElem? (he.getElem?_rules hk)

/-! ## FIRST sets -/

/-- The passes over the smaller grammar stay below FIRST of the larger one. -/
theorem mapsInto_firstPass {s : SymbolSets} (hs : MapsInto ρ g.symbols.size s h.first) :
    MapsInto ρ g.symbols.size (g.firstPass s) h.first := by
  unfold firstPass
  rw [← Array.foldl_toList]
  refine List.foldlRecOn (motive := fun s => MapsInto ρ g.symbols.size s h.first)
    g.rules.toList _ hs ?_
  intro s hs r hr id hid a ha
  have hr := Array.mem_toList_iff.1 hr
  rcases mem_of_mem_get_extend ha with hold | ⟨rfl, hnew⟩
  · exact hs id hid a hold
  · have hrhs := he.isAugmented.lt_size_of_mem_rhs hr
    have hmem := hs.map_mem_ofSequence he.strictMono he.epsilon_eq hrhs hnew
    exact he.isAugmented'.mem_first_of_rule (he.rename_mem_rules hr) hmem

/-- A symbol that starts itself has an image that starts itself. -/
theorem mapsInto_firstSeed : MapsInto ρ g.symbols.size g.firstSeed h.first := by
  intro id hid a ha
  obtain ⟨_, hterminal, rfl⟩ := mem_get_firstSeed.1 ha
  have hseed : ρ a ∈ h.firstSeed.get (ρ a) :=
    mem_get_firstSeed.2 ⟨he.lt_size hid, (he.isNonTerminal_eq hid).trans hterminal, rfl⟩
  exact (le_saturate h.le_firstPass).2 (ρ a) (ρ a) hseed

/-- What FIRST of a symbol holds, FIRST of its image holds. -/
theorem mapsInto_first : MapsInto ρ g.symbols.size g.first h.first := by
  have hkeeps : ∀ s, MapsInto ρ g.symbols.size s h.first →
      MapsInto ρ g.symbols.size (g.firstPass s) h.first :=
    fun _ hs => he.mapsInto_firstPass hs
  exact saturate_invariant hkeeps g.passCap he.mapsInto_firstSeed

/-- Only the rules of the smaller grammar extend the sets of its symbols. -/
theorem mapsOnto_firstPass {s : SymbolSets} (hs : MapsOnto ρ g.symbols.size g.first s) :
    MapsOnto ρ g.symbols.size g.first (h.firstPass s) := by
  unfold firstPass
  rw [← Array.foldl_toList]
  refine List.foldlRecOn h.rules.toList _ hs ?_
  intro s hs r hr id hid b hb
  rcases mem_of_mem_get_extend hb with hold | ⟨hlhs, hnew⟩
  · exact hs id hid b hold
  · obtain ⟨q, hq, rfl⟩ := he.exists_rule hid r (Array.mem_toList_iff.1 hr) hlhs.symm
    have heq : q.lhs = id := he.strictMono.injective hlhs.symm
    have hrhs := he.isAugmented.lt_size_of_mem_rhs hq
    obtain ⟨a, ha, rfl⟩ := hs.exists_mem_ofSequence he.strictMono he.epsilon_eq hrhs hnew
    exact ⟨a, heq ▸ he.isAugmented.mem_first_of_rule hq ha, rfl⟩

theorem mapsOnto_firstSeed : MapsOnto ρ g.symbols.size g.first h.firstSeed := by
  intro id hid b hb
  obtain ⟨_, hterminal, rfl⟩ := mem_get_firstSeed.1 hb
  rw [he.isNonTerminal_eq hid] at hterminal
  have hseed : id ∈ g.firstSeed.get id := mem_get_firstSeed.2 ⟨hid, hterminal, rfl⟩
  exact ⟨id, (le_saturate g.le_firstPass).2 id id hseed, rfl⟩

/-- FIRST of an image holds nothing but images. -/
theorem mapsOnto_first : MapsOnto ρ g.symbols.size g.first h.first :=
  saturate_invariant (fun _ hs => he.mapsOnto_firstPass hs) _ he.mapsOnto_firstSeed

/-- **FIRST sets** are renumbered, and nothing is added to them. -/
theorem mem_first_iff (hid : id < g.symbols.size) :
    b ∈ h.first.get (ρ id) ↔ ∃ a ∈ g.first.get id, b = ρ a := by
  constructor
  · exact he.mapsOnto_first id hid b
  · rintro ⟨a, ha, rfl⟩
    exact he.mapsInto_first id hid a ha

theorem mem_lookaheads_iff (hα : ∀ id ∈ α, id < g.symbols.size) :
    b ∈ h.first.lookaheads (α.map ρ) (ρ l) ↔ ∃ a ∈ g.first.lookaheads α l, b = ρ a := by
  have hmap : ∀ {a : Nat}, a ∈ g.first.ofSequence α → ρ a ∈ h.first.ofSequence (α.map ρ) :=
    he.mapsInto_first.map_mem_ofSequence he.strictMono he.epsilon_eq hα
  have hexists : ∀ {b : Nat}, b ∈ h.first.ofSequence (α.map ρ) →
      ∃ a ∈ g.first.ofSequence α, b = ρ a :=
    he.mapsOnto_first.exists_mem_ofSequence he.strictMono he.epsilon_eq hα
  have hne : ∀ {a : Nat}, ρ a = epsilonId ↔ a = epsilonId := by
    intro a
    rw [← he.strictMono.injective.eq_iff (a := a), he.epsilon_eq]
  constructor
  · intro hb
    rcases mem_lookaheads.1 hb with ⟨hb, hother⟩ | ⟨hnull, rfl⟩
    · obtain ⟨a, ha, rfl⟩ := hexists hb
      exact ⟨a, mem_lookaheads.2 (Or.inl ⟨ha, fun heq => hother (hne.2 heq)⟩), rfl⟩
    · obtain ⟨e, hε, heq⟩ := hexists hnull
      rw [hne.1 heq.symm] at hε
      exact ⟨l, mem_lookaheads.2 (Or.inr ⟨hε, rfl⟩), rfl⟩
  · rintro ⟨a, ha, rfl⟩
    rcases mem_lookaheads.1 ha with ⟨ha, hother⟩ | ⟨hnull, rfl⟩
    · exact mem_lookaheads.2 (Or.inl ⟨hmap ha, fun heq => hother (hne.1 heq)⟩)
    · exact mem_lookaheads.2 (Or.inr ⟨he.epsilon_eq ▸ hmap hnull, rfl⟩)

/-! ## Items -/

section Items

variable (hi : i ∈ g.items)

include hi

theorem rhs_rename : (i.rename ρ).rhs h = (i.rhs g).map ρ := by
  have hr := (he.isAugmented.rule_mem_of_mem_items hi).1
  unfold Item.rhs Item.rename
  rw [he.rule_rename hr]
  rfl

theorem symbol?_rename : (i.rename ρ).symbol? h = (i.symbol? g).map ρ := by
  unfold Item.symbol?
  rw [he.rhs_rename hi, List.getElem?_map]
  rfl

theorem tail_rename : (i.rename ρ).tail h = (i.tail g).map ρ := by
  unfold Item.tail
  rw [he.rhs_rename hi, List.map_drop]
  rfl

theorem isExhausted_rename : (i.rename ρ).isExhausted h = i.isExhausted g := by
  unfold Item.isExhausted
  rw [he.rhs_rename hi, List.length_map]
  rfl

theorem isAccepting_rename : (i.rename ρ).isAccepting h = i.isAccepting g := by
  have hend : (ρ i.lookahead == endId) = (i.lookahead == endId) := by
    have hiff := he.strictMono.injective.eq_iff (a := i.lookahead) (b := endId)
    rw [he.end_eq] at hiff
    rw [Bool.eq_iff_iff, beq_iff_eq, beq_iff_eq]
    exact hiff
  unfold Item.isAccepting
  rw [he.isExhausted_rename hi]
  unfold Item.rename
  simp only [hend]

/-- What an item expects is a symbol of the table. -/
theorem lt_size_of_symbol? (hexp : i.symbol? g = some symbol) : symbol < g.symbols.size :=
  he.isAugmented.lt_size_of_mem_rhs (he.isAugmented.rule_mem_of_mem_items hi).1 symbol
    (List.mem_of_getElem? hexp)

theorem lt_size_of_mem_tail : ∀ symbol ∈ i.tail g, symbol < g.symbols.size := by
  intro symbol hmem
  exact he.isAugmented.lt_size_of_mem_rhs (he.isAugmented.rule_mem_of_mem_items hi).1 symbol
    (List.mem_of_mem_drop hmem)

/-- **Images of items** spawn the images of what the items spawn. -/
theorem spawns_rename_iff :
    (i.rename ρ).Spawns h a b ↔ ∃ symbol l, i.Spawns g symbol l ∧ a = ρ symbol ∧ b = ρ l := by
  have hsymbol := he.symbol?_rename hi
  have htail := he.tail_rename hi
  constructor
  · intro hspawns
    have hexp := hspawns.expected
    rw [hsymbol] at hexp
    obtain ⟨symbol, hexpected, rfl⟩ := Option.map_eq_some_iff.1 hexp
    have hlt := he.lt_size_of_symbol? hi hexpected
    have hl := hspawns.mem_lookaheads
    rw [htail] at hl
    obtain ⟨l, hmem, rfl⟩ := (he.mem_lookaheads_iff (he.lt_size_of_mem_tail hi)).1 hl
    have hnonTerminal := hspawns.nonTerminal
    rw [he.isNonTerminal_eq hlt] at hnonTerminal
    exact ⟨symbol, l, ⟨hexpected, hnonTerminal, hmem⟩, rfl, rfl⟩
  · rintro ⟨symbol, l, hspawns, rfl, rfl⟩
    have hlt := he.lt_size_of_symbol? hi hspawns.expected
    refine ⟨?_, ?_, ?_⟩
    · rw [hsymbol, hspawns.expected]
      rfl
    · rw [he.isNonTerminal_eq hlt]
      exact hspawns.nonTerminal
    · rw [htail]
      exact (he.mem_lookaheads_iff (he.lt_size_of_mem_tail hi)).2
        ⟨l, hspawns.mem_lookaheads, rfl⟩

end Items

end Grammar.Embeds

end CanonicalLR
