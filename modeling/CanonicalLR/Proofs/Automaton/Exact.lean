import CanonicalLR.Proofs.Automaton.States
import CanonicalLR.Proofs.Grammar.Productive

/-!
# The canonical collection is exact

The walk finds the item sets that gotos reach from the closure of
`[S' -> • S, $]`, each of them once, and draws an edge for each goto that is not
empty. A state is known by its core, the items whose dot has left the start: the
rest is what the core spawns, and the symbol before the dots is the one over
which all edges enter the state.

## Main definitions

* `ItemSet.Obtained` — the item sets that non-empty gotos reach.
* `ItemSet.core` — the items of a state from which it is closed.
* `Automaton.edgesOver` — the edges that leave a state over a symbol.
* `Automaton.IsExact` — states and edges are those of the canonical collection.

## Main results

* `nodup_keys` — no two edges leave one state over one symbol.
* `exists_state_iff_obtained` — which item sets are states.
* `exists_move_to` — from which states they are met.
* `target_ne_zero`, `symbol_eq_of_target_eq` — the edges that enter a state.
* `closure_core` — a state is the closure of its core.
* `isExact_automaton` — the collection of every grammar text is exact.
-/

namespace CanonicalLR

/-! ## Lists with one member -/

/-- A list without repetition that has one member holds it once. -/
theorem eq_singleton_of_mem_iff {α : Type} {l : List α} {a : α} (hnodup : l.Nodup)
    (h : ∀ b, b ∈ l ↔ b = a) : l = [a] := by
  apply List.perm_singleton.1
  refine (List.perm_ext_iff_of_nodup hnodup (List.nodup_singleton a)).2 fun b => ?_
  rw [List.mem_singleton, h]

/-! ## Item sets -/

/-- The item sets that non-empty gotos reach from the closure of the start item. -/
inductive ItemSet.Obtained (g : Grammar) : ItemSet → Prop where
  | start : Obtained g (ItemSet.kernel.closure g g.first)
  | goto {s : ItemSet} {symbol : Nat} (earlier : Obtained g s)
      (nonempty : s.goto g g.first symbol ≠ ∅) : Obtained g (s.goto g g.first symbol)

/-- The items of a state from which it is closed: those whose dot is not at the start,
and `[S' -> • S, $]` in state 0. -/
def ItemSet.core (state : Nat) (s : ItemSet) : ItemSet :=
  if state = 0 then ItemSet.kernel else s.filter fun i => 0 < i.position

/-- Behind a goto the dot has left the start in the moved items, and in no others. -/
theorem Grammar.IsAugmented.filter_goto {g : Grammar} (hg : g.IsAugmented) (s : ItemSet)
    (symbol : Nat) :
    ((s.goto g g.first symbol).filter fun i => 0 < i.position) = s.advance g symbol := by
  apply OrdSet.ext
  intro j
  rw [OrdSet.mem_filter, decide_eq_true_eq]
  constructor
  · intro h
    obtain ⟨hj, hpos⟩ := h
    cases (ItemSet.mem_closure hg).1 hj with
    | base mem => exact mem
    | spawn _ _ _ => exact absurd hpos (Nat.lt_irrefl 0)
  · intro hj
    obtain ⟨i, _, _, rfl⟩ := hg.mem_advance_iff.1 hj
    exact ⟨ItemSet.subset_closure hj, Nat.succ_pos i.position⟩

namespace Automaton

variable {a : Automaton} {g : Grammar} {s : ItemSet} {state symbol next : Nat}

/-! ## Edges -/

/-- Where an edge leaves, and over which symbol. -/
def key (e : Edge) : Nat × Nat := (e.source, e.symbol)

/-- The edges that leave a state over a symbol. -/
def edgesOver (a : Automaton) (state symbol : Nat) : List Edge :=
  a.edges.filter fun e => e.source = state ∧ e.symbol = symbol

theorem mem_edges_iff {e : Edge} : e ∈ a.edges ↔ a.Moves e.source e.symbol e.target :=
  mem_edges

theorem mem_edgesOver {e : Edge} :
    e ∈ a.edgesOver state symbol ↔
      a.Moves state symbol e.target ∧ e = ⟨state, symbol, e.target⟩ := by
  unfold edgesOver
  rw [List.mem_filter, mem_edges_iff, decide_eq_true_eq]
  constructor
  · intro h
    obtain ⟨hmove, rfl, rfl⟩ := h
    exact ⟨hmove, rfl⟩
  · intro h
    obtain ⟨hmove, heq⟩ := h
    rw [heq]
    exact ⟨hmove, rfl, rfl⟩

namespace IsCanonical

variable (ha : a.IsCanonical g)

include ha

/-- The moves of a state, in the list from which the edges are read. -/
theorem exists_state_of_mem_zipIdx {entry : List (Nat × Nat) × Nat}
    (h : entry ∈ a.moves.toList.zipIdx) :
    ∃ s, a.states[entry.2]? = some s ∧ entry.1.map Prod.fst = g.inColumnOrder (s.expected g) := by
  have hmoves : a.moves[entry.2]? = some entry.1 := by
    simpa using List.mem_zipIdx_iff_getElem?.1 h
  have hlt : entry.2 < a.states.size := by
    rw [← ha.size_moves]
    exact (Array.getElem?_eq_some_iff.1 hmoves).1
  have hs := Array.getElem?_eq_getElem hlt
  have hsymbols := ha.symbols hs
  unfold movesFrom at hsymbols
  rw [hmoves] at hsymbols
  exact ⟨_, hs, hsymbols⟩

/-- **No two edges** leave one state over one symbol. -/
theorem nodup_keys : (a.edges.map key).Nodup := by
  have hrow : ∀ entry ∈ a.moves.toList.zipIdx, (entry.1.map Prod.fst).Nodup := by
    intro entry hentry
    obtain ⟨s, -, hsymbols⟩ := ha.exists_state_of_mem_zipIdx hentry
    rw [hsymbols]
    exact Grammar.nodup_inColumnOrder
  have hsources : (a.moves.toList.zipIdx.map Prod.snd).Nodup := by
    rw [List.zipIdx_map_snd]
    exact List.nodup_range'
  unfold edges
  rw [List.map_flatMap, List.nodup_flatMap]
  constructor
  · intro entry hentry
    have hpairs := (hrow entry hentry).map (f := fun symbol => (entry.2, symbol))
      fun x y hxy => congrArg Prod.snd hxy
    rw [List.map_map] at hpairs ⊢
    exact hpairs
  · refine (List.pairwise_map.1 hsources).imp ?_
    intro p q hne k hp hq
    obtain ⟨e, he, rfl⟩ := List.mem_map.1 hp
    obtain ⟨f, hf, heq⟩ := List.mem_map.1 hq
    obtain ⟨m, _, rfl⟩ := List.mem_map.1 he
    obtain ⟨n, _, rfl⟩ := List.mem_map.1 hf
    exact hne (congrArg Prod.fst heq).symm

/-- **A move is the only edge** over its symbol. -/
theorem edgesOver_eq_singleton (h : a.Moves state symbol next) :
    a.edgesOver state symbol = [⟨state, symbol, next⟩] := by
  have hnodup : (a.edgesOver state symbol).Nodup := ha.nodup_keys.of_map.filter _
  refine eq_singleton_of_mem_iff hnodup fun e => ?_
  rw [mem_edgesOver]
  constructor
  · intro he
    obtain ⟨hmove, heq⟩ := he
    rw [heq, ha.next_unique hmove h]
  · rintro rfl
    exact ⟨h, rfl⟩

/-- Edges leave states. -/
theorem source_lt {e : Edge} (he : e ∈ a.edges) : e.source < a.states.size := by
  obtain ⟨s, hs⟩ := ha.exists_state (mem_edges_iff.1 he)
  exact (Array.getElem?_eq_some_iff.1 hs).1

section Augmented

variable (hg : g.IsAugmented)

include hg

/-- Moves are made over the symbols with a non-empty goto. -/
theorem exists_move_iff (hs : a.states[state]? = some s) :
    (∃ next, a.Moves state symbol next) ↔ s.goto g g.first symbol ≠ ∅ := by
  rw [ne_eq, hg.goto_eq_empty_iff, not_not]
  constructor
  · intro h
    obtain ⟨next, hmove⟩ := h
    exact ha.mem_expected_of_move hg hs hmove
  · intro hexp
    exact ha.exists_move hg hs hexp

theorem edgesOver_eq_nil (hs : a.states[state]? = some s)
    (h : s.goto g g.first symbol = ∅) : a.edgesOver state symbol = [] := by
  apply List.eq_nil_iff_forall_not_mem.2
  intro e he
  exact (ha.exists_move_iff hg hs).1 ⟨_, (mem_edgesOver.1 he).1⟩ h

/-- **No edge enters state 0**: behind a move the dot of some item has left the start. -/
theorem target_ne_zero (h : a.Moves state symbol next) : next ≠ 0 := by
  rintro rfl
  obtain ⟨i, hi, hexp⟩ := ha.exists_holds_of_move hg h
  have hzero := ha.position_eq_zero hg (ha.holds_moved hg hi hexp h)
  exact Nat.succ_ne_zero i.position hzero

/-- **The accessing symbol**: all edges that enter a state carry the symbol before the
dots that have left the start. -/
theorem symbol_eq_of_target_eq {p q x y : Nat} (h : a.Moves p x next)
    (h' : a.Moves q y next) : x = y := by
  obtain ⟨i, hi, hexp⟩ := ha.exists_holds_of_move hg h
  have hmoved := ha.holds_moved hg hi hexp h
  obtain ⟨j, _, hexp', heq⟩ := ha.exists_predecessor hg h' hmoved (Nat.succ_pos i.position)
  rw [Item.moved_injective heq, hexp'] at hexp
  exact (Option.some.inj hexp).symm

/-! ## States -/

/-- **The states** are the item sets that gotos reach. -/
theorem exists_state_iff_obtained :
    (∃ state : Nat, a.states[state]? = some s) ↔ ItemSet.Obtained g s := by
  constructor
  · intro h
    obtain ⟨state, hs⟩ := h
    refine ha.state_induction .start ?_ hs
    intro before symbol hexp ih
    have hne : before.goto g g.first symbol ≠ ∅ := by
      intro hempty
      exact hg.goto_eq_empty_iff.1 hempty hexp
    exact .goto ih hne
  · intro h
    induction h with
    | start => exact ⟨0, ha.start⟩
    | goto _ nonempty ih =>
        obtain ⟨state, hs⟩ := ih
        obtain ⟨next, hmove⟩ := (ha.exists_move_iff hg hs).2 nonempty
        exact ⟨next, ha.target hs hmove⟩

/-- Every state is closed. -/
theorem closure_eq (hs : a.states[state]? = some s) : s.closure g g.first = s := by
  rcases ha.exists_origin hs with ⟨_, rfl⟩ | ⟨before, symbol, rfl⟩
  · exact ItemSet.closure_closure hg
  · exact ItemSet.closure_closure hg

/-- **A state is the closure of its core.** -/
theorem closure_core (hs : a.states[state]? = some s) :
    (s.core state).closure g g.first = s := by
  unfold ItemSet.core
  by_cases hzero : state = 0
  · rw [if_pos hzero]
    rw [hzero, ha.start] at hs
    exact Option.some.inj hs
  · rw [if_neg hzero]
    rcases ha.exists_origin hs with ⟨h, _⟩ | ⟨before, symbol, rfl⟩
    · exact absurd h hzero
    · rw [hg.filter_goto]
      rfl

end Augmented

end IsCanonical

/-- Every state but state 0 is met over a move from one with a smaller number. -/
theorem exists_move_to (hg : g.IsAugmented) (hs : (g.automaton g.first).states[state]? = some s)
    (hne : state ≠ 0) :
    ∃ earlier < state, ∃ symbol, (g.automaton g.first).Moves earlier symbol state := by
  have ha := Grammar.isCanonical_automaton hg
  rcases ha.origin hs with hzero | ⟨earlier, hlt, before, symbol, hbefore, hexp, rfl⟩
  · exact absurd hzero hne
  · obtain ⟨next, hmove⟩ := ha.exists_move hg hbefore hexp
    have hnext : next = state := Grammar.eq_of_getElem?_states (ha.target hbefore hmove) hs
    exact ⟨earlier, hlt, symbol, hnext ▸ hmove⟩

/-! ## The collection -/

/-- The states and edges are those of the canonical collection of an augmented grammar. -/
structure IsExact (g : Grammar) (a : Automaton) : Prop where
  /-- The states are the item sets that non-empty gotos reach, and no others. -/
  exists_state_iff : ∀ s : ItemSet,
    (∃ state : Nat, a.states[state]? = some s) ↔ ItemSet.Obtained g s
  /-- No two states are equal. -/
  state_unique : ∀ (state other : Nat) (s : ItemSet), a.states[state]? = some s →
    a.states[other]? = some s → state = other
  /-- State 0 is the closure of the start item. -/
  start : a.states[0]? = some (ItemSet.kernel.closure g g.first)
  /-- No edge enters it. -/
  not_enters_start : ∀ e ∈ a.edges, e.target ≠ 0
  /-- Edges leave states. -/
  source_lt : ∀ e ∈ a.edges, e.source < a.states.size
  /-- Over a symbol with a non-empty goto there is one edge, and it leads to the goto. -/
  edge_of_ne_empty : ∀ (state symbol : Nat) (s : ItemSet), a.states[state]? = some s →
    s.goto g g.first symbol ≠ ∅ → ∃ next, a.edgesOver state symbol = [⟨state, symbol, next⟩] ∧
      a.states[next]? = some (s.goto g g.first symbol)
  /-- Over any other symbol there is none. -/
  no_edge_of_eq_empty : ∀ (state symbol : Nat) (s : ItemSet), a.states[state]? = some s →
    s.goto g g.first symbol = ∅ → a.edgesOver state symbol = []
  /-- All edges that enter a state carry one symbol. -/
  accessing : ∀ e ∈ a.edges, ∀ f ∈ a.edges, e.target = f.target → e.symbol = f.symbol
  /-- Every state is closed. -/
  closed : ∀ (state : Nat) (s : ItemSet), a.states[state]? = some s →
    s.closure g g.first = s
  /-- Every state is the closure of its core. -/
  closed_core : ∀ (state : Nat) (s : ItemSet), a.states[state]? = some s →
    (s.core state).closure g g.first = s

theorem isExact (hg : g.IsAugmented) : (g.automaton g.first).IsExact g := by
  have ha := Grammar.isCanonical_automaton hg
  refine
    { exists_state_iff := fun s => ha.exists_state_iff_obtained hg
      state_unique := fun state other s => Grammar.eq_of_getElem?_states
      start := ha.start
      not_enters_start := fun e he => ha.target_ne_zero hg (mem_edges_iff.1 he)
      source_lt := fun e he => ha.source_lt he
      edge_of_ne_empty := ?_
      no_edge_of_eq_empty := fun state symbol s hs => ha.edgesOver_eq_nil hg hs
      accessing := ?_
      closed := fun state s hs => ha.closure_eq hg hs
      closed_core := fun state s hs => ha.closure_core hg hs }
  · intro state symbol s hs hne
    obtain ⟨next, hmove⟩ := (ha.exists_move_iff hg hs).2 hne
    exact ⟨next, ha.edgesOver_eq_singleton hmove, ha.target hs hmove⟩
  · intro e he f hf htarget
    have hmove := mem_edges_iff.1 he
    rw [htarget] at hmove
    exact ha.symbol_eq_of_target_eq hg hmove (mem_edges_iff.1 hf)

/-- **The canonical collection** of every grammar text is exact: its states are the item
sets that gotos reach, each once, and its edges are the non-empty gotos, each once. -/
theorem isExact_automaton {text : String} {g : Grammar} (read : Grammar.ofText text = .ok g) :
    (g.augment.automaton g.augment.first).IsExact g.augment :=
  isExact (Grammar.wellFormed_ofText read).isAugmented

/-- So it is with nested pairs. -/
theorem isExact_of_nested :
    Grammar.ofText "S -> a S b | ε" = .ok Grammar.nested ∧
      (Grammar.nested.augment.automaton Grammar.nested.augment.first).IsExact
        Grammar.nested.augment :=
  ⟨Grammar.ofText_nested, isExact_automaton Grammar.ofText_nested⟩

end Automaton

end CanonicalLR
