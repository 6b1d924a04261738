import CanonicalLR.Proofs.Automaton.Checked
import CanonicalLR.Proofs.Items.Worklist
import CanonicalLR.Proofs.Sets.Passes
import Mathlib.Logic.Relation

/-!
# The closure as the least closed set

The items `[B -> • γ, l]` that an item `[A -> α • B β, a]` spawns are one step away from it.
The closure of a set, whatever its items are, holds the items that are finitely many such
steps away from its own, and it is found by passes that end by themselves. All laws of a
closure follow from this, and so do those of goto, which closes the items whose dot has moved.

## Main definitions

* `Item.IsDotted` — an item as `[A -> α • β, a]`.
* `Item.SpawnStep`, `Item.MovesOver` — one item spawns another one; its dot moves over a symbol.
* `Grammar.ClosesExactly` — what closure and goto are on all sets of items.

## Main results

* `mem_closure_iff_reachable` — closure is reachability by steps that spawn.
* `closure_least`, `closure_subset_closure`, `closure_union` — the laws of a closure.
* `goto_union`, `goto_eq_empty_iff_forall` — goto is made up item by item.
* `closesExactly_ofText` — all of it, for every grammar that is read from a text.
-/

namespace CanonicalLR

/-! ## Items as they are written -/

namespace Item

variable {g : Grammar} {i j : Item} {symbol : Nat} {later : List Nat}

/-- The item is `[lhs -> before • behind, a]` for a rule of the grammar. -/
structure IsDotted (g : Grammar) (i : Item) (lhs : Nat) (before behind : List Nat) : Prop where
  rule : ∃ r, g.rules[i.rule]? = some r ∧ r.lhs = lhs ∧ r.rhs = before ++ behind
  position : i.position = before.length

/-- `[A -> α • B β, a]` spawns `[B -> • γ, l]`, for each rule of the non-terminal `B` and each
symbol `l` that can follow `B` there. -/
def SpawnStep (g : Grammar) (i j : Item) : Prop :=
  ∃ lhs before symbol behind rhs, i.IsDotted g lhs before (symbol :: behind) ∧
    g.symbols.isNonTerminal symbol = true ∧ j.IsDotted g symbol [] rhs ∧
    j.lookahead ∈ g.first.lookaheads behind i.lookahead

/-- `[A -> α • X β, a]` becomes `[A -> α X • β, a]`, by the same rule. -/
def MovesOver (g : Grammar) (symbol : Nat) (i j : Item) : Prop :=
  ∃ lhs before behind, i.IsDotted g lhs before (symbol :: behind) ∧
    j.IsDotted g lhs (before ++ [symbol]) behind ∧ j.rule = i.rule ∧ j.lookahead = i.lookahead

theorem IsDotted.remaining_eq {lhs : Nat} {before behind : List Nat}
    (h : i.IsDotted g lhs before behind) : i.remaining g = behind := by
  obtain ⟨r, hr, -, hrhs⟩ := h.rule
  unfold remaining rhs
  rw [Grammar.rule_of_getElem? hr, hrhs, h.position, List.drop_left]

/-- An item that expects something has a rule, which its dot divides. -/
theorem exists_isDotted (h : i.remaining g = symbol :: later) :
    ∃ lhs before, i.IsDotted g lhs before (symbol :: later) := by
  have hexp := (symbol?_eq_some_iff.1 (symbol?_of_remaining h)).2
  cases hr : g.rules[i.rule]? with
  | none =>
      unfold rhs Grammar.rule at hexp
      rw [hr] at hexp
      exact absurd hexp (Nat.not_lt_zero _)
  | some r =>
      have hrhs : i.rhs g = r.rhs := congrArg Rule.rhs (Grammar.rule_of_getElem? hr)
      refine ⟨r.lhs, r.rhs.take i.position, ⟨r, hr, rfl, ?_⟩, ?_⟩
      · rw [← h]
        unfold remaining
        rw [hrhs, List.take_append_drop]
      · rw [hrhs] at hexp
        rw [List.length_take, Nat.min_eq_left (Nat.le_of_lt hexp)]

theorem symbol?_iff_isDotted : i.symbol? g = some symbol ↔
    ∃ lhs before behind, i.IsDotted g lhs before (symbol :: behind) := by
  constructor
  · intro h
    obtain ⟨lhs, before, hdotted⟩ := exists_isDotted (remaining_of_symbol? h)
    exact ⟨lhs, before, _, hdotted⟩
  · rintro ⟨lhs, before, behind, hdotted⟩
    exact symbol?_of_remaining hdotted.remaining_eq

variable (hg : g.IsAugmented)

include hg

/-- An item is a step away exactly if it is one of a rule that is spawned. -/
theorem spawnStep_iff : i.SpawnStep g j ↔
    ∃ r ∈ g.rules, ∃ l, i.Spawns g r.lhs l ∧ j = ⟨r.id, 0, l⟩ := by
  constructor
  · rintro ⟨lhs, before, symbol, behind, rhs, hi, hnt, hj, hl⟩
    obtain ⟨r, hr, rfl, -⟩ := hj.rule
    have hremaining := hi.remaining_eq
    have hexp := symbol?_of_remaining hremaining
    rw [← tail_of_remaining hremaining] at hl
    refine ⟨r, Array.mem_of_getElem? hr, j.lookahead, ⟨hexp, hnt, hl⟩, ?_⟩
    obtain ⟨id, position, lookahead⟩ := j
    obtain rfl : position = 0 := hj.position
    rw [hg.rule_id hr]
  · rintro ⟨r, hr, l, hspawns, rfl⟩
    obtain ⟨k, hk⟩ := Array.getElem?_of_mem hr
    have hid := hg.rule_id hk
    obtain ⟨lhs, before, hdotted⟩ := exists_isDotted (remaining_of_symbol? hspawns.expected)
    exact ⟨lhs, before, r.lhs, i.tail g, r.rhs, hdotted, hspawns.nonTerminal,
      ⟨⟨r, hid ▸ hk, rfl, rfl⟩, rfl⟩, hspawns.mem_lookaheads⟩

omit hg in
/-- An item moves over the symbol that it expects, to the item with its dot one place
further. -/
theorem movesOver_iff : i.MovesOver g symbol j ↔ i.symbol? g = some symbol ∧ j = i.moved := by
  constructor
  · rintro ⟨lhs, before, behind, hi, hj, hrule, hlookahead⟩
    have hposition : j.position = i.position + 1 := by
      rw [hj.position, hi.position, List.length_append, List.length_singleton]
    obtain ⟨id, position, lookahead⟩ := j
    obtain rfl : id = i.rule := hrule
    obtain rfl : lookahead = i.lookahead := hlookahead
    obtain rfl : position = i.position + 1 := hposition
    exact ⟨symbol?_of_remaining hi.remaining_eq, rfl⟩
  · rintro ⟨hexp, rfl⟩
    obtain ⟨lhs, before, behind, hi⟩ := symbol?_iff_isDotted.1 hexp
    obtain ⟨r, hr, hlhs, hrhs⟩ := hi.rule
    have hmoved : i.moved.IsDotted g lhs (before ++ [symbol]) behind := by
      refine ⟨⟨r, hr, hlhs, ?_⟩, ?_⟩
      · rw [hrhs, List.append_assoc, List.singleton_append]
      · rw [List.length_append, ← hi.position]
        rfl
    exact ⟨lhs, before, behind, hi, hmoved, rfl, rfl⟩

end Item

/-! ## Closure -/

namespace ItemSet

variable {g : Grammar} (hg : g.IsAugmented) {s t : ItemSet} {i j : Item} {symbol : Nat}

include hg

/-- What is spawned, directly or not, is finitely many steps away. -/
theorem spawned_iff_reachable :
    s.Spawned g i ↔ ∃ j ∈ s, Relation.ReflTransGen (Item.SpawnStep g) j i := by
  constructor
  · intro h
    induction h with
    | base mem => exact ⟨_, mem, .refl⟩
    | spawn _ rule spawns ih =>
        obtain ⟨j, hj, hsteps⟩ := ih
        exact ⟨j, hj, hsteps.tail ((Item.spawnStep_iff hg).2 ⟨_, rule, _, spawns, rfl⟩)⟩
  · rintro ⟨j, hj, hsteps⟩
    induction hsteps with
    | refl => exact .base hj
    | tail _ hstep ih =>
        obtain ⟨r, hr, l, hspawns, rfl⟩ := (Item.spawnStep_iff hg).1 hstep
        exact .spawn ih hr hspawns

/-- **The closure** holds what is finitely many steps away from the items of the set. -/
theorem mem_closure_iff_reachable : i ∈ s.closure g g.first ↔
    ∃ j ∈ s, Relation.ReflTransGen (Item.SpawnStep g) j i :=
  (mem_closure hg).trans (spawned_iff_reachable hg)

/-- The closure holds what its items spawn. -/
theorem mem_closure_of_spawnStep (hi : i ∈ s.closure g g.first) (hstep : i.SpawnStep g j) :
    j ∈ s.closure g g.first := by
  obtain ⟨r, hr, l, hspawns, rfl⟩ := (Item.spawnStep_iff hg).1 hstep
  exact mem_closure_of_spawns hg hi hr hspawns

/-- **The closure is the least** set around a set that holds what its items spawn. -/
theorem closure_least (hsub : ∀ i ∈ s, i ∈ t)
    (hclosed : ∀ i ∈ t, ∀ j, i.SpawnStep g j → j ∈ t) (hi : i ∈ s.closure g g.first) : i ∈ t := by
  obtain ⟨j, hj, hsteps⟩ := (mem_closure_iff_reachable hg).1 hi
  clear hi
  induction hsteps with
  | refl => exact hsub j hj
  | tail _ hstep ih => exact hclosed _ ih _ hstep

/-- A larger set has a larger closure. -/
theorem closure_subset_closure (hsub : ∀ i ∈ s, i ∈ t) (hi : i ∈ s.closure g g.first) :
    i ∈ t.closure g g.first :=
  closure_least hg (fun i hi => subset_closure (hsub i hi))
    (fun _ hi _ hstep => mem_closure_of_spawnStep hg hi hstep) hi

/-- **Closures are made up item by item**: what is spawned goes back to one item. -/
theorem closure_union : (s ∪ t).closure g g.first = s.closure g g.first ∪ t.closure g g.first := by
  apply OrdSet.ext
  intro i
  rw [OrdSet.mem_union, mem_closure_iff_reachable hg, mem_closure_iff_reachable hg,
    mem_closure_iff_reachable hg]
  simp only [OrdSet.mem_union, or_and_right, exists_or]

/-- The passes that find what a set spawns end by themselves. -/
theorem spawned_ends (s : ItemSet) :
    (saturate (spawnPass g g.first) (spawnCap g s) (spawnedBy g g.first s)).Ends
      (spawnPass g g.first) (spawnedBy g g.first s) := by
  have hroom : g.symbols.size * (spawnPool g s).card < spawnCap g s :=
    Nat.lt_succ_of_le (Nat.mul_le_mul_left _ card_spawnPool_le)
  exact SymbolSets.saturate_ends_of_within (le_spawnPass g) (fun _ hs => within_spawnPass hg hs)
    (within_spawnedBy hg) hroom

/-! ## Goto -/

theorem mem_advance_iff_movesOver :
    j ∈ s.advance g symbol ↔ ∃ i ∈ s, i.MovesOver g symbol j := by
  simp only [Item.movesOver_iff]
  exact hg.mem_advance_iff

theorem advance_union : (s ∪ t).advance g symbol = s.advance g symbol ∪ t.advance g symbol := by
  apply OrdSet.ext
  intro i
  simp only [OrdSet.mem_union, hg.mem_advance_iff, or_and_right, exists_or]

/-- **Gotos are made up item by item.** -/
theorem goto_union : (s ∪ t).goto g g.first symbol
    = s.goto g g.first symbol ∪ t.goto g g.first symbol := by
  unfold goto
  rw [advance_union hg, closure_union hg]

/-- A goto is empty exactly if no item has the symbol behind its dot. -/
theorem goto_eq_empty_iff_forall : s.goto g g.first symbol = ∅ ↔
    ∀ i ∈ s, ∀ lhs before behind, ¬ i.IsDotted g lhs before (symbol :: behind) := by
  rw [hg.goto_eq_empty_iff, mem_expected]
  simp only [Item.symbol?_iff_isDotted, not_exists, not_and]

end ItemSet

/-! ## All item sets -/

namespace Grammar

/-- What closure and goto are, on all sets of items. The positions and the lookaheads of the
items may be any numbers; their rules exist where something is looked up. -/
structure ClosesExactly (g : Grammar) : Prop where
  /-- The passes of a closure end by themselves, and look nothing up outside their tables. -/
  ends : ∀ s : ItemSet, s.HasRules g → s.closure? g g.first = some (s.closure g g.first) ∧
    (saturate (ItemSet.spawnPass g g.first) (ItemSet.spawnCap g s)
      (ItemSet.spawnedBy g g.first s)).Ends (ItemSet.spawnPass g g.first)
      (ItemSet.spawnedBy g g.first s)
  /-- Item by item, with a stack, the same set is found: the stack runs empty after as many
  steps as the closure has items. -/
  finds : ∀ s : ItemSet, Worklist.Finds g g.first (s.closure g g.first).size (Worklist.start s)
    (s.closure g g.first)
  /-- The closure holds what is finitely many steps away from the items of the set. -/
  mem_closure_iff : ∀ (s : ItemSet) i, i ∈ s.closure g g.first ↔
    ∃ j ∈ s, Relation.ReflTransGen (Item.SpawnStep g) j i
  /-- It holds the set. -/
  subset : ∀ (s : ItemSet), ∀ i ∈ s, i ∈ s.closure g g.first
  /-- It holds what its items spawn. -/
  closed : ∀ (s : ItemSet), ∀ i ∈ s.closure g g.first, ∀ j, i.SpawnStep g j →
    j ∈ s.closure g g.first
  /-- It is part of every other set of which both are true. -/
  least : ∀ s t : ItemSet, (∀ i ∈ s, i ∈ t) → (∀ i ∈ t, ∀ j, i.SpawnStep g j → j ∈ t) →
    ∀ i ∈ s.closure g g.first, i ∈ t
  idempotent : ∀ s : ItemSet, (s.closure g g.first).closure g g.first = s.closure g g.first
  monotone : ∀ s t : ItemSet, (∀ i ∈ s, i ∈ t) →
    ∀ i ∈ s.closure g g.first, i ∈ t.closure g g.first
  union : ∀ s t : ItemSet,
    (s ∪ t).closure g g.first = s.closure g g.first ∪ t.closure g g.first
  /-- A goto is the closure of the items whose dot has moved over the symbol. -/
  goto_eq : ∀ (s : ItemSet) symbol, ∃ moved : ItemSet,
    (∀ j, j ∈ moved ↔ ∃ i ∈ s, i.MovesOver g symbol j) ∧
      s.goto g g.first symbol = moved.closure g g.first
  /-- It is empty exactly if no item has the symbol behind its dot. -/
  goto_eq_empty_iff : ∀ (s : ItemSet) symbol, s.goto g g.first symbol = ∅ ↔
    ∀ i ∈ s, ∀ lhs before behind, ¬ i.IsDotted g lhs before (symbol :: behind)
  goto_union : ∀ (s t : ItemSet) symbol, (s ∪ t).goto g g.first symbol
    = s.goto g g.first symbol ∪ t.goto g g.first symbol

theorem IsAugmented.closesExactly {g : Grammar} (hg : g.IsAugmented) : g.ClosesExactly where
  ends s hs := ⟨hg.closure?_eq_some hg.firstSaturation?_eq_some.2 hs, ItemSet.spawned_ends hg s⟩
  finds s := Worklist.finds_closure hg s
  mem_closure_iff _ _ := ItemSet.mem_closure_iff_reachable hg
  subset _ _ hi := ItemSet.subset_closure hi
  closed _ _ hi _ hstep := ItemSet.mem_closure_of_spawnStep hg hi hstep
  least _ _ hsub hclosed _ hi := ItemSet.closure_least hg hsub hclosed hi
  idempotent _ := ItemSet.closure_closure hg
  monotone _ _ hsub _ hi := ItemSet.closure_subset_closure hg hsub hi
  union _ _ := ItemSet.closure_union hg
  goto_eq s symbol := ⟨s.advance g symbol, fun _ => ItemSet.mem_advance_iff_movesOver hg, rfl⟩
  goto_eq_empty_iff _ _ := ItemSet.goto_eq_empty_iff_forall hg
  goto_union _ _ _ := ItemSet.goto_union hg

/-- **Closure and goto**: for every grammar that is read from a text, the closure of a set of
items is found by repetitions that end and is the least set around it that holds what its
items spawn, and goto closes the items whose dot has moved. -/
theorem closesExactly_ofText {text : String} {g : Grammar} (read : ofText text = .ok g) :
    g.augment.ClosesExactly :=
  (wellFormed_ofText read).isAugmented.closesExactly

/-- So it is for nested pairs, where an item beyond the end of its rule and one with a
non-terminal as its lookahead are closed, the second over its own rule. -/
theorem closesExactly_of_nested :
    ofText "S -> a S b | ε" = .ok nested ∧ nested.augment.ClosesExactly ∧
      (ItemSet.closure nested.augment nested.augment.first
        (OrdSet.ofList [⟨2, 7, 1⟩, ⟨1, 1, 2⟩])).toList
        = [⟨1, 0, 4⟩, ⟨1, 1, 2⟩, ⟨2, 0, 4⟩, ⟨2, 7, 1⟩] :=
  ⟨ofText_nested, closesExactly_ofText ofText_nested, by decide +kernel⟩

end Grammar

end CanonicalLR
