import CanonicalLR.ItemSet
import CanonicalLR.Proofs.Sets.First

/-!
# The closure of an item set

The closure is computed by passes that let one set of lookaheads grow for each
symbol. What it is meant to be is said item by item: an item that expects a
non-terminal spawns the items of its rules, and so do the spawned items. This
module proves that the passes find exactly these items, none is missing and
none is added.

## Main definitions

* `Item.Spawns` — an item spawns the rules of a symbol with a lookahead.
* `ItemSet.Spawned` — the items of a set and all that they spawn, one by one.

## Main results

* `mem_spawnedBy` — the lookaheads that the items of a set spawn.
* `spawnPass_fixed` — the passes end on lookaheads that spawn no others.
* `mem_closure` — the closure holds exactly what is spawned.
* `closure_closure` — a closure is closed.
* `cases_of_mem_closure` — where an item of a closure comes from.
-/

namespace CanonicalLR

/-! ## Spawning, item by item -/

/-- The item expects the non-terminal `symbol`, and `l` can follow it there. -/
structure Item.Spawns (g : Grammar) (i : Item) (symbol l : Nat) : Prop where
  expected : i.symbol? g = some symbol
  nonTerminal : g.symbols.isNonTerminal symbol = true
  mem_lookaheads : l ∈ g.first.lookaheads (i.tail g) i.lookahead

/-- The items of a set, and the items that these spawn, directly or not. -/
inductive ItemSet.Spawned (g : Grammar) (s : ItemSet) : Item → Prop where
  | base {i : Item} (mem : i ∈ s) : s.Spawned g i
  | spawn {i : Item} {r : Rule} {l : Nat} (earlier : s.Spawned g i) (rule : r ∈ g.rules)
      (spawns : i.Spawns g r.lhs l) : s.Spawned g ⟨r.id, 0, l⟩

namespace ItemSet

open SymbolSets

variable {g : Grammar} {s : ItemSet} {i : Item} {symbol l : Nat} {spawned : SymbolSets}

/-! ## The lookaheads that a set spawns -/

@[simp] theorem size_spawnItem {first : SymbolSets} :
    (spawnItem g first spawned i).sets.size = spawned.sets.size := by
  unfold spawnItem
  split
  · split
    · exact size_extend ..
    · rfl
  · rfl

theorem mem_get_spawnItem (hsize : spawned.sets.size = g.symbols.size) :
    l ∈ (spawnItem g g.first spawned i).get symbol ↔
      l ∈ spawned.get symbol ∨ i.Spawns g symbol l := by
  unfold spawnItem
  cases hexp : i.symbol? g with
  | none =>
      have hnone : ¬ i.Spawns g symbol l := by
        intro h
        have := h.expected
        rw [hexp] at this
        cases this
      exact (or_iff_left hnone).symm
  | some other =>
      have hother : i.Spawns g symbol l → symbol = other := by
        intro h
        have := h.expected
        rw [hexp] at this
        exact (Option.some.inj this).symm
      by_cases hnt : g.symbols.isNonTerminal other = true
      · have hlt : other < spawned.sets.size := by
          rw [hsize]
          exact Grammar.IsAugmented.lt_size_of_isNonTerminal hnt
        simp only [if_pos hnt]
        rw [mem_get_extend hlt]
        refine or_congr_right ⟨?_, fun h => ⟨hother h, h.mem_lookaheads⟩⟩
        intro hparts
        rcases hparts with ⟨rfl, h⟩
        exact ⟨hexp, hnt, h⟩
      · simp only [if_neg hnt]
        exact (or_iff_left fun h => hnt (hother h ▸ h.nonTerminal)).symm

theorem mem_get_foldl_spawnItem (items : List Item)
    (hsize : spawned.sets.size = g.symbols.size) :
    l ∈ (items.foldl (spawnItem g g.first) spawned).get symbol ↔
      l ∈ spawned.get symbol ∨ ∃ i ∈ items, i.Spawns g symbol l := by
  induction items generalizing spawned with
  | nil => simp
  | cons i items ih =>
      rw [List.foldl_cons, ih (by rw [size_spawnItem, hsize]), mem_get_spawnItem hsize]
      simp only [List.mem_cons, exists_eq_or_imp, or_assoc]

/-- The lookaheads with which the items of a set spawn the rules of a symbol. -/
theorem mem_spawnedBy :
    l ∈ (spawnedBy g g.first s).get symbol ↔ ∃ i ∈ s, i.Spawns g symbol l := by
  have hempty : (SymbolSets.empty g.symbols.size).sets.size = g.symbols.size := by
    simp [SymbolSets.empty]
  unfold spawnedBy
  rw [mem_get_foldl_spawnItem s.toList hempty, get_empty]
  simp only [OrdSet.not_mem_empty, false_or, OrdSet.mem_toList]

theorem size_spawnedBy : (spawnedBy g g.first s).sets.size = g.symbols.size := by
  unfold spawnedBy
  refine List.foldlRecOn (motive := fun spawned : SymbolSets =>
    spawned.sets.size = g.symbols.size) s.toList _ (by simp [SymbolSets.empty]) ?_
  intro spawned hsize i _
  rw [size_spawnItem, hsize]

/-! ## A pass over the rules -/

section Passes

variable (hg : g.IsAugmented)

/-- A rule at its start spawns the rules of its first symbol. -/
theorem spawns_start_iff {r : Rule} {b : Nat} (hr : g.rule r.id = r) :
    Item.Spawns g ⟨r.id, 0, b⟩ symbol l ↔
      ∃ rest, r.rhs = symbol :: rest ∧ g.symbols.isNonTerminal symbol = true ∧
        l ∈ g.first.lookaheads rest b := by
  have hrhs : Item.rhs g ⟨r.id, 0, b⟩ = r.rhs := congrArg Rule.rhs hr
  have hsymbol : Item.symbol? g ⟨r.id, 0, b⟩ = r.rhs[0]? := by
    unfold Item.symbol?
    rw [hrhs]
  have htail : Item.tail g ⟨r.id, 0, b⟩ = r.rhs.drop 1 := by
    unfold Item.tail
    rw [hrhs]
  constructor
  · intro h
    have hexp := h.expected
    have hl := h.mem_lookaheads
    rw [hsymbol] at hexp
    rw [htail] at hl
    cases hrest : r.rhs with
    | nil =>
        rw [hrest] at hexp
        cases hexp
    | cons first rest =>
        rw [hrest] at hexp hl
        obtain rfl := Option.some.inj hexp
        exact ⟨rest, rfl, h.nonTerminal, hl⟩
  · intro h
    obtain ⟨rest, hrest, hnt, hl⟩ := h
    refine ⟨?_, hnt, ?_⟩
    · rw [hsymbol, hrest]
      rfl
    · rw [htail, hrest]
      exact hl

theorem spawnRule_cases (g : Grammar) (first spawned : SymbolSets) (r : Rule) :
    spawnRule g first spawned r = spawned ∨
      ∃ symbol more, spawnRule g first spawned r = spawned.extend symbol more := by
  unfold spawnRule
  cases r.rhs with
  | nil => exact Or.inl rfl
  | cons symbol rest =>
      by_cases h : (g.symbols.isNonTerminal symbol && !(spawned.get r.lhs).isEmpty) = true
      · exact Or.inr ⟨symbol, _, if_pos h⟩
      · exact Or.inl (if_neg h)

theorem le_spawnRule (spawned : SymbolSets) (r : Rule) :
    spawned ≤ spawnRule g g.first spawned r := by
  rcases spawnRule_cases g g.first spawned r with h | ⟨symbol, more, h⟩
  · rw [h]
  · rw [h]
    exact le_extend spawned symbol more

theorem le_spawnPass (g : Grammar) (spawned : SymbolSets) :
    spawned ≤ spawnPass g g.first spawned := by
  unfold spawnPass
  rw [← Array.foldl_toList]
  exact le_foldl le_spawnRule g.rules.toList spawned

include hg

/-- A rule adds what it spawns at its start, with each lookahead that it has. -/
theorem mem_get_spawnRule {r : Rule} (hr : r ∈ g.rules)
    (hsize : spawned.sets.size = g.symbols.size) :
    l ∈ (spawnRule g g.first spawned r).get symbol ↔
      l ∈ spawned.get symbol ∨
        ∃ b ∈ spawned.get r.lhs, Item.Spawns g ⟨r.id, 0, b⟩ symbol l := by
  simp only [spawns_start_iff (hg.rule_eq_of_mem hr)]
  unfold spawnRule
  cases hrhs : r.rhs with
  | nil => simp
  | cons other rest =>
      by_cases hadd : (g.symbols.isNonTerminal other && !(spawned.get r.lhs).isEmpty) = true
      · obtain ⟨hnt, hsome⟩ := Bool.and_eq_true_iff.1 hadd
        have hlt : other < spawned.sets.size := by
          rw [hsize]
          exact Grammar.IsAugmented.lt_size_of_isNonTerminal hnt
        simp only [if_pos hadd]
        rw [mem_get_extend hlt]
        apply or_congr_right
        constructor
        · intro h
          rcases h with ⟨rfl, hl⟩
          obtain ⟨b, hb⟩ := OrdSet.exists_mem_of_not_isEmpty hsome
          obtain ⟨c, hc, hl⟩ := exists_mem_lookaheads hb hl
          exact ⟨c, hc, rest, rfl, hnt, hl⟩
        · intro h
          rcases h with ⟨b, hb, rest', hrest, _, hl⟩
          obtain ⟨rfl, rfl⟩ := List.cons_eq_cons.1 hrest
          exact ⟨rfl, mem_followedBy_of_mem_lookaheads hb hl⟩
      · simp only [if_neg hadd]
        refine (or_iff_left ?_).symm
        intro h
        rcases h with ⟨b, hb, rest', hrest, hnt, _⟩
        obtain ⟨rfl, rfl⟩ := List.cons_eq_cons.1 hrest
        apply hadd
        rw [hnt, Bool.true_and, Bool.not_eq_true', Bool.eq_false_iff]
        intro hempty
        rw [OrdSet.isEmpty_iff.1 hempty] at hb
        exact OrdSet.not_mem_empty b hb

/-! ## The passes find all lookaheads -/

omit hg in
/-- The symbols of the table and the lookaheads of a set. -/
def spawnPool (g : Grammar) (s : ItemSet) : Finset Nat :=
  Finset.range g.symbols.size ∪ s.toFinset.image Item.lookahead

omit hg in
theorem card_spawnPool_le : (spawnPool g s).card ≤ g.symbols.size + s.size := by
  have himage : (s.toFinset.image Item.lookahead).card ≤ s.size := Finset.card_image_le
  have hunion := Finset.card_union_le (Finset.range g.symbols.size)
    (s.toFinset.image Item.lookahead)
  rw [Finset.card_range] at hunion
  unfold spawnPool
  omega

/-- What is spawned with a lookahead from the pool has its lookaheads there. -/
theorem mem_spawnPool_of_spawns (h : i.Spawns g symbol l)
    (hi : i.lookahead ∈ spawnPool g s) : l ∈ spawnPool g s := by
  rcases mem_lookaheads.1 h.mem_lookaheads with ⟨hl, _⟩ | ⟨_, rfl⟩
  · have hfirst := hg.within_ofSequence hg.within_first _ l hl
    exact Finset.mem_union_left _ (Finset.mem_filter.1 hfirst).1
  · exact hi

theorem within_spawnedBy :
    (spawnedBy g g.first s).Within g.symbols.size (spawnPool g s) := by
  refine ⟨size_spawnedBy, fun {symbol l} hl => ?_⟩
  obtain ⟨i, hi, hspawns⟩ := mem_spawnedBy.1 hl
  have hpool : i.lookahead ∈ spawnPool g s :=
    Finset.mem_union_right _ (Finset.mem_image_of_mem Item.lookahead hi)
  exact mem_spawnPool_of_spawns hg hspawns hpool

theorem within_spawnPass (hs : spawned.Within g.symbols.size (spawnPool g s)) :
    (spawnPass g g.first spawned).Within g.symbols.size (spawnPool g s) := by
  unfold spawnPass
  rw [← Array.foldl_toList]
  refine List.foldlRecOn (motive := fun spawned : SymbolSets =>
    spawned.Within g.symbols.size (spawnPool g s)) g.rules.toList _ hs ?_
  intro spawned hs r hr
  refine ⟨(le_spawnRule spawned r).1.symm.trans hs.size_eq, fun {symbol l} hl => ?_⟩
  rcases (mem_get_spawnRule hg (Array.mem_toList_iff.1 hr) hs.size_eq).1 hl with
    hl | ⟨b, hb, hspawns⟩
  · exact hs.mem hl
  · exact mem_spawnPool_of_spawns hg hspawns (hs.mem hb)

/-- The passes end on lookaheads that a pass leaves alone. -/
theorem spawnPass_fixed :
    spawnPass g g.first (ItemSet.spawned g g.first s) = ItemSet.spawned g g.first s := by
  have hroom : g.symbols.size * (spawnPool g s).card < spawnCap g s :=
    Nat.lt_succ_of_le (Nat.mul_le_mul_left _ card_spawnPool_le)
  exact saturate_fixed (le_spawnPass g) (fun _ hs => within_spawnPass hg hs)
    (within_spawnedBy hg) hroom

theorem within_spawned :
    (ItemSet.spawned g g.first s).Within g.symbols.size (spawnPool g s) :=
  saturate_invariant (fun _ hs => within_spawnPass hg hs) _ (within_spawnedBy hg)

/-- A rule that has a lookahead has spawned what it spawns at its start. -/
theorem mem_spawned_of_spawns {r : Rule} {b : Nat} (hr : r ∈ g.rules)
    (hb : b ∈ (ItemSet.spawned g g.first s).get r.lhs)
    (h : Item.Spawns g ⟨r.id, 0, b⟩ symbol l) :
    l ∈ (ItemSet.spawned g g.first s).get symbol := by
  have hfixed := spawnPass_fixed hg (s := s)
  unfold spawnPass at hfixed
  rw [← Array.foldl_toList] at hfixed
  have hrule := eq_of_foldl_eq le_spawnRule hfixed r (Array.mem_toList_iff.2 hr)
  rw [← hrule]
  exact (mem_get_spawnRule hg hr (within_spawned hg).size_eq).2 (Or.inr ⟨b, hb, h⟩)

/-- **Completeness**: an item of the closure has spawned what it spawns. -/
theorem Spawned.mem_spawned (hi : s.Spawned g i) (h : i.Spawns g symbol l) :
    l ∈ (ItemSet.spawned g g.first s).get symbol := by
  induction hi generalizing symbol l with
  | base mem =>
      have hseed := mem_spawnedBy.2 ⟨_, mem, h⟩
      exact (le_saturate (le_spawnPass g)).2 symbol l hseed
  | spawn _ rule spawns ih => exact mem_spawned_of_spawns hg rule (ih spawns) h

/-! ## The passes find nothing else -/

/-- Every lookahead of a family is spawned by an item of the closure. -/
structure IsJustified (g : Grammar) (s : ItemSet) (family : SymbolSets) : Prop where
  size_eq : family.sets.size = g.symbols.size
  spawned : ∀ {symbol l : Nat}, l ∈ family.get symbol →
    ∃ i, s.Spawned g i ∧ i.Spawns g symbol l

omit hg in
theorem isJustified_spawnedBy : IsJustified g s (spawnedBy g g.first s) := by
  refine ⟨size_spawnedBy, fun {symbol l} hl => ?_⟩
  obtain ⟨i, hi, hspawns⟩ := mem_spawnedBy.1 hl
  exact ⟨i, .base hi, hspawns⟩

theorem isJustified_spawnPass (hs : IsJustified g s spawned) :
    IsJustified g s (spawnPass g g.first spawned) := by
  unfold spawnPass
  rw [← Array.foldl_toList]
  refine List.foldlRecOn (motive := IsJustified g s) g.rules.toList _ hs ?_
  intro spawned hs r hr
  have hr := Array.mem_toList_iff.1 hr
  refine ⟨(le_spawnRule spawned r).1.symm.trans hs.size_eq, fun {symbol l} hl => ?_⟩
  rcases (mem_get_spawnRule hg hr hs.size_eq).1 hl with hl | ⟨b, hb, hspawns⟩
  · exact hs.spawned hl
  · obtain ⟨i, hi, hb⟩ := hs.spawned hb
    exact ⟨⟨r.id, 0, b⟩, .spawn hi hr hb, hspawns⟩

/-- **Soundness**: every lookahead that is found is spawned. -/
theorem isJustified_spawned : IsJustified g s (ItemSet.spawned g g.first s) :=
  saturate_invariant (fun _ hs => isJustified_spawnPass hg hs) _ isJustified_spawnedBy

/-! ## The closure -/

/-- **The closure** holds the items of a set and all that they spawn. -/
theorem mem_closure : i ∈ s.closure g g.first ↔ s.Spawned g i := by
  constructor
  · intro h
    rcases OrdSet.mem_union.1 h with h | h
    · exact .base h
    · obtain ⟨r, hr, l, hl, rfl⟩ := mem_ofSpawned.1 h
      obtain ⟨i, hi, hspawns⟩ := (isJustified_spawned hg).spawned hl
      exact .spawn hi hr hspawns
  · intro h
    cases h with
    | base mem => exact subset_closure mem
    | spawn earlier rule spawns =>
        have hl := earlier.mem_spawned hg spawns
        exact OrdSet.mem_union.2 (Or.inr (mem_ofSpawned.2 ⟨_, rule, _, hl, rfl⟩))

/-- The closure holds what its items spawn. -/
theorem mem_closure_of_spawns {r : Rule} (hi : i ∈ s.closure g g.first) (hr : r ∈ g.rules)
    (h : i.Spawns g r.lhs l) : ⟨r.id, 0, l⟩ ∈ s.closure g g.first :=
  (mem_closure hg).2 (.spawn ((mem_closure hg).1 hi) hr h)

/-- What the items of a closure spawn is spawned by the set. -/
theorem Spawned.of_closure (h : (s.closure g g.first).Spawned g i) : s.Spawned g i := by
  induction h with
  | base mem => exact (mem_closure hg).1 mem
  | spawn _ rule spawns ih => exact .spawn ih rule spawns

/-- **A closure is closed**: closing it again changes nothing. -/
theorem closure_closure :
    (s.closure g g.first).closure g g.first = s.closure g g.first := by
  apply OrdSet.ext
  intro i
  constructor
  · intro h
    exact (mem_closure hg).2 (((mem_closure hg).1 h).of_closure hg)
  · intro h
    exact subset_closure h

/-- An item of a closure belongs to the set or is spawned by an item of the closure. -/
theorem cases_of_mem_closure (h : i ∈ s.closure g g.first) :
    i ∈ s ∨ ∃ j ∈ s.closure g g.first, ∃ r ∈ g.rules, ∃ l,
      j.Spawns g r.lhs l ∧ i = ⟨r.id, 0, l⟩ := by
  cases (mem_closure hg).1 h with
  | base mem => exact Or.inl mem
  | spawn earlier rule spawns =>
      exact Or.inr ⟨_, (mem_closure hg).2 earlier, _, rule, _, spawns, rfl⟩

end Passes

end ItemSet

end CanonicalLR
