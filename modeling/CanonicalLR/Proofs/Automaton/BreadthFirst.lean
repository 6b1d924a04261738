import CanonicalLR.Proofs.Automaton.Exact

/-!
# The numbers of the states

The states have the numbers in which a breadth-first walk from state 0 meets them, if the
walk takes the symbols of each state in column order. In the list of edges this means that
the sources ascend, that the columns ascend among the edges of one source, and that the
targets, each where it first occurs, are 1, 2, 3 and so on. No other numbering of the
canonical collection has such a list of edges.

## Main definitions

* `Grammar.column` — the place of a symbol in column order.
* `Edge.Before` — the order of edges by source, then by column.
* `Automaton.IsBreadthFirst` — the edges are in order and meet the states in order.

## Main results

* `IsDiscovered.expand` — an expansion meets the next states in order.
* `pairwise_before`, `eraseDups_targets_automaton` — the edges are in order, and their
  targets meet the states in order.
* `IsBreadthFirst.exists_discovery` — the edge that first meets a state.
* `IsBreadthFirst.states_eq` — two breadth-first numberings of the collection are one.
* `isBreadthFirst_automaton` — the states of every grammar text are numbered in this way.
-/

namespace CanonicalLR

/-! ## First occurrences -/

section FirstOccurrences

variable {α : Type} [BEq α] [LawfulBEq α] {l : List α} {a : α}

/-- An element that stands in front already is no first occurrence. -/
theorem eraseDups_concat_of_mem (h : a ∈ l) : (l ++ [a]).eraseDups = l.eraseDups := by
  rw [List.eraseDups_append, List.cons_removeAll]
  simp [h]

/-- An element that does not stand in front is a first occurrence. -/
theorem exists_eraseDups_append_cons (h : a ∉ l) (m : List α) :
    ∃ later, (l ++ a :: m).eraseDups = l.eraseDups ++ a :: later := by
  rw [List.eraseDups_append, List.cons_removeAll]
  simp [h, List.eraseDups_cons]

theorem eraseDups_concat_of_not_mem (h : a ∉ l) :
    (l ++ [a]).eraseDups = l.eraseDups ++ [a] := by
  rw [List.eraseDups_append, List.cons_removeAll]
  simp [h, List.eraseDups_cons]

/-- Where the first occurrences ascend, only smaller numbers stand in front of the first
occurrence of a number. -/
theorem lt_of_mem_front {front back : List Nat} {n start length : Nat}
    (h : (front ++ n :: back).eraseDups = List.range' start length) (hn : n ∉ front) :
    ∀ k ∈ front, k < n := by
  obtain ⟨later, hlater⟩ := exists_eraseDups_append_cons hn back
  have hascending : (front.eraseDups ++ n :: later).Pairwise (· < ·) := by
    rw [← hlater, h]
    exact List.pairwise_lt_range'
  intro k hk
  exact (List.pairwise_append.1 hascending).2.2 k (List.mem_eraseDups.2 hk) n List.mem_cons_self

end FirstOccurrences

/-! ## The walk meets the states in order -/

/-- A value that is met has a number, or it is given the next one. -/
theorem Numbering.meet_cases {α : Type} [Ord α] [Std.TransOrd α] [Std.LawfulEqOrd α]
    (n : Numbering α) (a : α) :
    ((n.meet a).1 < n.size ∧ (n.meet a).2.size = n.size) ∨
      ((n.meet a).1 = n.size ∧ (n.meet a).2.size = n.size + 1) := by
  simp only [meet]
  split
  next i h => exact Or.inl ⟨lt_size_of_getElem? (number?_eq_some_iff.1 h), rfl⟩
  next h => exact Or.inr ⟨rfl, Array.size_push _⟩

namespace Exploration

variable {g : Grammar} {first : SymbolSets} {s : ItemSet} {e : Exploration}

/-- Where the moves lead, in order. -/
def targets (e : Exploration) : List Nat := e.moves.toList.flatMap fun moves => moves.map Prod.snd

/-- The walk has met state 0 and then the states in the order of their numbers. -/
def IsDiscovered (e : Exploration) : Prop :=
  (0 :: e.targets).eraseDups = List.range e.met.size

/-- Following symbols meets the next states in order. -/
theorem eraseDups_follow {before : List Nat} (symbols : List Nat) (met : Numbering ItemSet)
    (h : before.eraseDups = List.range met.size) :
    (before ++ (follow g first s symbols met).1.map Prod.snd).eraseDups
      = List.range (follow g first s symbols met).2.size := by
  induction symbols generalizing before met with
  | nil =>
      unfold follow
      rw [List.map_nil, List.append_nil, h]
  | cons symbol symbols ih =>
      have hmem : ∀ n, n ∈ before ↔ n < met.size := by
        intro n
        rw [← List.mem_eraseDups, h, List.mem_range]
      have hnext : (before ++ [(met.meet (s.goto g first symbol)).1]).eraseDups
          = List.range (met.meet (s.goto g first symbol)).2.size := by
        rcases met.meet_cases (s.goto g first symbol) with ⟨hlt, hsize⟩ | ⟨heq, hsize⟩
        · rw [eraseDups_concat_of_mem ((hmem _).2 hlt), h, hsize]
        · have hnew : met.size ∉ before := fun hbefore => Nat.lt_irrefl _ ((hmem _).1 hbefore)
          rw [heq, eraseDups_concat_of_not_mem hnew, h, hsize, List.range_succ]
      rw [follow_cons, List.map_cons, List.append_cons]
      exact ih _ hnext

/-- **An expansion** meets the next states in order. -/
theorem IsDiscovered.expand (he : e.IsDiscovered) : (e.expand g first s).IsDiscovered := by
  have htargets : (e.expand g first s).targets = e.targets
      ++ (follow g first s (g.inColumnOrder (s.expected g)) e.met).1.map Prod.snd := by
    unfold targets Exploration.expand
    simp only [Array.toList_push, List.flatMap_append, List.flatMap_singleton]
  unfold IsDiscovered at he ⊢
  rw [htargets, ← List.cons_append]
  exact eraseDups_follow _ e.met he

theorem isDiscovered_outset (g : Grammar) (first : SymbolSets) :
    (g.outset first).IsDiscovered := by
  have hsize : (g.outset first).met.size = 1 := congrArg Array.size Numbering.values_meet_empty
  unfold IsDiscovered
  rw [hsize]
  rfl

end Exploration

namespace Automaton

/-- The targets of the edges are those of the moves. -/
theorem map_target_edges (a : Automaton) :
    a.edges.map Edge.target = a.moves.toList.flatMap fun moves => moves.map Prod.snd := by
  have hrow : ∀ entry : List (Nat × Nat) × Nat,
      (entry.1.map fun move => (⟨entry.2, move.1, move.2⟩ : Edge)).map Edge.target
        = entry.1.map Prod.snd := by
    intro entry
    rw [List.map_map]
    rfl
  unfold edges
  rw [List.map_flatMap]
  simp only [hrow]
  rw [← List.flatMap_map (f := Prod.fst)
    (g := fun moves : List (Nat × Nat) => moves.map Prod.snd), List.zipIdx_map_fst]

end Automaton

/-! ## Column order -/

namespace Grammar

/-- The place of a symbol in column order. -/
def column (g : Grammar) (symbol : Nat) : Nat := g.movable.idxOf symbol

/-- Column order: the terminals by number, the added start symbol, and the declared
non-terminals by number. -/
structure OrdersColumns (g : Grammar) : Prop where
  movable_eq : g.movable = g.terminals ++ g.start :: g.nonTerminals
  nodup_movable : g.movable.Nodup
  mem_terminals : ∀ symbol,
    symbol ∈ g.terminals ↔ g.symbols.kind? symbol = some .terminal
  mem_nonTerminals : ∀ symbol,
    symbol ∈ g.nonTerminals ↔ g.symbols.kind? symbol = some .nonTerminal
  terminals_ascend : g.terminals.Pairwise (· < ·)
  nonTerminals_ascend : g.nonTerminals.Pairwise (· < ·)

variable {g : Grammar}

theorem ascending_idsOfKind (t : SymbolTable) (kind : SymbolKind) :
    (t.idsOfKind kind).Pairwise (· < ·) :=
  List.pairwise_lt_range.filter _

theorem IsAugmented.nodup_movable (hg : g.IsAugmented) : g.movable.Nodup := by
  refine List.nodup_append.2 ⟨List.nodup_range.filter _, hg.nodup_gotoColumns, ?_⟩
  rintro symbol hterminal other hgoto rfl
  have hkind : g.symbols.kind? symbol = some .terminal := SymbolTable.mem_idsOfKind.1 hterminal
  have hcases := isNonTerminal_iff.1 (hg.mem_gotoColumns.1 hgoto)
  simp [hkind] at hcases

theorem IsAugmented.ordersColumns (hg : g.IsAugmented) : g.OrdersColumns where
  movable_eq := rfl
  nodup_movable := hg.nodup_movable
  mem_terminals _ := SymbolTable.mem_idsOfKind
  mem_nonTerminals _ := SymbolTable.mem_idsOfKind
  terminals_ascend := ascending_idsOfKind ..
  nonTerminals_ascend := ascending_idsOfKind ..

/-- No symbol but the added one is a start symbol. -/
theorem IsAugmented.idsOfKind_start (hg : g.IsAugmented) :
    g.symbols.idsOfKind .start = [g.start] := by
  have hnodup : (g.symbols.idsOfKind .start).Nodup := List.nodup_range.filter _
  refine eq_singleton_of_mem_iff hnodup fun symbol => ?_
  rw [SymbolTable.mem_idsOfKind, hg.start_kind_iff]

/-- The members of a set are listed by their columns. -/
theorem IsAugmented.pairwise_column (hg : g.IsAugmented) (symbols : OrdSet Nat) :
    (g.inColumnOrder symbols).Pairwise fun a b => g.column a < g.column b := by
  have hall : g.movable.Pairwise fun a b => g.column a < g.column b := by
    unfold column
    rw [List.pairwise_iff_getElem]
    intro i j hi hj hlt
    rw [hg.nodup_movable.idxOf_getElem, hg.nodup_movable.idxOf_getElem]
    exact hlt
  rw [← filter_movable hg.idsOfKind_start]
  exact hall.filter _

end Grammar

/-! ## The edges in order -/

/-- One edge stands before another one if its source is smaller, or if both have one source
and its symbol has the column further left. -/
def Edge.Before (g : Grammar) (e f : Edge) : Prop :=
  e.source < f.source ∨ e.source = f.source ∧ g.column e.symbol < g.column f.symbol

theorem Edge.Before.asymm {g : Grammar} {e f : Edge} (h : e.Before g f) : ¬ f.Before g e := by
  unfold Before at h ⊢
  omega

theorem Edge.Before.source_le {g : Grammar} {e f : Edge} (h : e.Before g f) :
    e.source ≤ f.source := by
  unfold Before at h
  omega

/-- Where edges are in order, one of them stands in front of a place, at it or behind it. -/
theorem Edge.cases_of_pairwise {g : Grammar} {e f : Edge} {front back : List Edge}
    (h : (front ++ e :: back).Pairwise (Edge.Before g)) (hf : f ∈ front ++ e :: back) :
    f ∈ front ∨ f = e ∨ e.Before g f := by
  have hbehind := (List.pairwise_cons.1 (List.pairwise_append.1 h).2.1).1
  rcases List.mem_append.1 hf with hfront | hrest
  · exact Or.inl hfront
  · exact Or.inr ((List.mem_cons.1 hrest).imp_right (hbehind f))

namespace Automaton

variable {g : Grammar} {a : Automaton}

/-- Every edge has a column. -/
theorem IsCanonical.symbol_mem_movable (ha : a.IsCanonical g) (hg : g.IsAugmented) {e : Edge}
    (he : e ∈ a.edges) : e.symbol ∈ g.movable := by
  have hmove := mem_edges_iff.1 he
  obtain ⟨s, hs⟩ := ha.exists_state hmove
  have hcolumn := hg.mem_inColumnOrder_expected.2 (ha.mem_expected_of_move hg hs hmove)
  rw [← Grammar.filter_movable hg.idsOfKind_start] at hcolumn
  exact (List.mem_filter.1 hcolumn).1

/-- **The edges are in order**: by source, then by column. -/
theorem IsCanonical.pairwise_before (ha : a.IsCanonical g) (hg : g.IsAugmented) :
    a.edges.Pairwise (Edge.Before g) := by
  unfold edges
  rw [List.pairwise_flatMap]
  constructor
  · intro entry hentry
    obtain ⟨s, -, hsymbols⟩ := ha.exists_state_of_mem_zipIdx hentry
    have hcolumns := hg.pairwise_column (s.expected g)
    rw [← hsymbols, List.pairwise_map] at hcolumns
    exact List.pairwise_map.2 (hcolumns.imp fun h => Or.inr ⟨rfl, h⟩)
  · have hsources : (a.moves.toList.zipIdx.map Prod.snd).Pairwise (· < ·) := by
      rw [List.zipIdx_map_snd]
      exact List.pairwise_lt_range'
    refine (List.pairwise_map.1 hsources).imp ?_
    intro p q hlt e he f hf
    obtain ⟨m, -, rfl⟩ := List.mem_map.1 he
    obtain ⟨n, -, rfl⟩ := List.mem_map.1 hf
    exact Or.inl hlt

/-! ## Breadth-first numberings -/

/-- The edges are in order and meet the states in the order of their numbers. -/
structure IsBreadthFirst (g : Grammar) (a : Automaton) : Prop where
  /-- Every edge has a column. -/
  symbols : ∀ e ∈ a.edges, e.symbol ∈ g.movable
  /-- The edges are listed by source and, within a source, by column. -/
  ordered : a.edges.Pairwise (Edge.Before g)
  /-- The first occurrences among the targets are 1, 2, and so on to the last state. -/
  discovered : (a.edges.map Edge.target).eraseDups = List.range' 1 (a.states.size - 1)
  /-- A state is first met over an edge from one with a smaller number. -/
  met_from_smaller : ∀ front e back, a.edges = front ++ e :: back →
    e.target ∉ front.map Edge.target → e.source < e.target

/-- The states have been met in the order of their numbers. -/
theorem cons_targets_automaton (g : Grammar) (first : SymbolSets) :
    (0 :: (g.automaton first).edges.map Edge.target).eraseDups
      = List.range (g.automaton first).states.size := by
  have hdiscovered : ((g.outset first).rounds g first (g.itemCount + 1) 1).IsDiscovered :=
    Exploration.rounds_induction (fun _ _ _ he => he.expand)
      (Exploration.isDiscovered_outset g first)
  unfold Exploration.IsDiscovered Exploration.targets at hdiscovered
  rw [map_target_edges, g.automaton_eq first]
  dsimp only
  rw [hdiscovered]
  rfl

/-- **The targets of the edges** meet the states in order. -/
theorem eraseDups_targets_automaton (hg : g.IsAugmented) :
    ((g.automaton g.first).edges.map Edge.target).eraseDups
      = List.range' 1 ((g.automaton g.first).states.size - 1) := by
  have ha := Grammar.isCanonical_automaton hg
  have hpos : 0 < (g.automaton g.first).states.size :=
    (Array.getElem?_eq_some_iff.1 ha.start).1
  obtain ⟨later, hsize⟩ := Nat.exists_eq_succ_of_ne_zero (Nat.ne_of_gt hpos)
  have hwalk := cons_targets_automaton g g.first
  have hzero : ∀ n ∈ (g.automaton g.first).edges.map Edge.target, (!n == 0) = true := by
    intro n hn
    obtain ⟨e, he, rfl⟩ := List.mem_map.1 hn
    simpa using ha.target_ne_zero hg (mem_edges_iff.1 he)
  rw [List.eraseDups_cons, List.filter_eq_self.2 hzero, hsize, List.range_eq_range',
    List.range'_succ] at hwalk
  rw [hsize]
  exact (List.cons_eq_cons.1 hwalk).2

/-- The edge that first leads to a state comes from a smaller one. -/
theorem source_lt_of_first_target (hg : g.IsAugmented) {front back : List Edge} {e : Edge}
    (hedges : (g.automaton g.first).edges = front ++ e :: back)
    (hfirst : e.target ∉ front.map Edge.target) : e.source < e.target := by
  have ha := Grammar.isCanonical_automaton hg
  have hmove : (g.automaton g.first).Moves e.source e.symbol e.target := by
    rw [← mem_edges_iff, hedges]
    simp
  obtain ⟨s, hs⟩ := ha.exists_state hmove
  obtain ⟨earlier, hlt, symbol, hmeets⟩ :=
    exists_move_to hg (ha.target hs hmove) (ha.target_ne_zero hg hmove)
  have hmem : (⟨earlier, symbol, e.target⟩ : Edge) ∈ front ++ e :: back := by
    rw [← hedges]
    exact mem_edges_iff.2 hmeets
  have hordered := ha.pairwise_before hg
  rw [hedges] at hordered
  rcases Edge.cases_of_pairwise hordered hmem with hfront | heq | hbefore
  · exact absurd (List.mem_map_of_mem (f := Edge.target) hfront) hfirst
  · rw [← heq]
    exact hlt
  · exact Nat.lt_of_le_of_lt hbefore.source_le hlt

theorem isBreadthFirst (hg : g.IsAugmented) : (g.automaton g.first).IsBreadthFirst g where
  symbols _ he := (Grammar.isCanonical_automaton hg).symbol_mem_movable hg he
  ordered := (Grammar.isCanonical_automaton hg).pairwise_before hg
  discovered := eraseDups_targets_automaton hg
  met_from_smaller _ _ _ hedges hfirst := source_lt_of_first_target hg hedges hfirst

/-! ## There is one breadth-first numbering -/

variable {b : Automaton} {n : Nat}

/-- **The edge that first meets a state** comes from a smaller one. The edges before it lead
to smaller states, and those that lead to larger ones come after it. -/
theorem IsBreadthFirst.exists_discovery (ha : a.IsBreadthFirst g) (hpos : 0 < n)
    (hn : n < a.states.size) :
    ∃ e ∈ a.edges, e.target = n ∧ e.source < n ∧
      (∀ f ∈ a.edges, f.Before g e → f.target < n) ∧
      ∀ f ∈ a.edges, n < f.target → e.Before g f := by
  have hmem : n ∈ a.edges.map Edge.target := by
    rw [← List.mem_eraseDups, ha.discovered, List.mem_range'_1]
    omega
  obtain ⟨frontTargets, backTargets, htargets, hfresh⟩ := List.eq_append_cons_of_mem hmem
  obtain ⟨front, rest, hedges, rfl, hrest⟩ := List.map_eq_append_iff.1 htargets
  obtain ⟨e, back, rfl, rfl, rfl⟩ := List.map_eq_cons_iff.1 hrest
  have hdiscovered := ha.discovered
  rw [htargets] at hdiscovered
  have hsmaller := lt_of_mem_front hdiscovered hfresh
  have hordered := ha.ordered
  rw [hedges] at hordered
  refine ⟨e, ?_, rfl, ha.met_from_smaller _ _ _ hedges hfresh, ?_, ?_⟩
  · rw [hedges]
    simp
  · intro f hf hbefore
    rw [hedges] at hf
    rcases Edge.cases_of_pairwise hordered hf with hfront | rfl | hafter
    · exact hsmaller _ (List.mem_map_of_mem hfront)
    · exact absurd hbefore hbefore.asymm
    · exact absurd hbefore hafter.asymm
  · intro f hf hlarger
    rw [hedges] at hf
    rcases Edge.cases_of_pairwise hordered hf with hfront | rfl | hafter
    · exact absurd (hsmaller _ (List.mem_map_of_mem hfront)) (Nat.lt_asymm hlarger)
    · exact absurd hlarger (Nat.lt_irrefl _)
    · exact hafter

/-- The edges of the collection are its non-empty gotos. -/
theorem IsExact.mem_edges_iff_goto (ha : a.IsExact g) {e : Edge} :
    e ∈ a.edges ↔ ∃ s, a.states[e.source]? = some s ∧ s.goto g g.first e.symbol ≠ ∅ ∧
      a.states[e.target]? = some (s.goto g g.first e.symbol) := by
  constructor
  · intro he
    have hover : e ∈ a.edgesOver e.source e.symbol := mem_edgesOver.2 ⟨mem_edges_iff.1 he, rfl⟩
    obtain ⟨s, hs⟩ : ∃ s, a.states[e.source]? = some s :=
      ⟨_, Array.getElem?_eq_getElem (ha.source_lt e he)⟩
    have hne : s.goto g g.first e.symbol ≠ ∅ := by
      intro hempty
      rw [ha.no_edge_of_eq_empty _ _ _ hs hempty] at hover
      cases hover
    obtain ⟨next, hedge, hnext⟩ := ha.edge_of_ne_empty _ _ _ hs hne
    rw [hedge, List.mem_singleton] at hover
    rw [hover]
    exact ⟨_, hs, hne, hnext⟩
  · rintro ⟨s, hs, hne, htarget⟩
    obtain ⟨next, hedge, hnext⟩ := ha.edge_of_ne_empty _ _ _ hs hne
    obtain rfl := ha.state_unique _ _ _ htarget hnext
    have hover : e ∈ a.edgesOver e.source e.symbol := by
      rw [hedge]
      exact List.mem_singleton_self e
    exact (List.mem_filter.1 hover).1

section Unique

variable (ha : a.IsExact g) (hb : b.IsExact g)

include ha hb

/-- Where two numberings of the collection have the same states so far, both have a next
state or both are at their end. -/
theorem IsExact.eq_none_of_eq_below (hbelow : ∀ k < n, a.states[k]? = b.states[k]?)
    (h : a.states[n]? = none) : b.states[n]? = none := by
  cases hs : b.states[n]? with
  | none => rfl
  | some s =>
      obtain ⟨k, hk⟩ := (ha.exists_state_iff s).2 ((hb.exists_state_iff s).1 ⟨n, hs⟩)
      have hlt : k < n := Nat.lt_of_lt_of_le (Array.getElem?_eq_some_iff.1 hk).1
        (Array.getElem?_eq_none_iff.1 h)
      rw [hbelow k hlt] at hk
      exact absurd (hb.state_unique k n s hk hs) (Nat.ne_of_lt hlt)

/-- Where two breadth-first numberings have the same states so far, they have the same next
state: both meet it over the same edge. -/
theorem IsBreadthFirst.eq_of_eq_below (ha' : a.IsBreadthFirst g) (hb' : b.IsBreadthFirst g)
    (hbelow : ∀ k < n, a.states[k]? = b.states[k]?) (hpos : 0 < n) (hn : n < a.states.size)
    (hn' : n < b.states.size) : a.states[n]? = b.states[n]? := by
  obtain ⟨e, he, rfl, hsource, hfront, -⟩ := ha'.exists_discovery hpos hn
  obtain ⟨s, hs, hne, htarget⟩ := ha.mem_edges_iff_goto.1 he
  have hs' := hs
  rw [hbelow _ hsource] at hs'
  obtain ⟨m, hedge, hm⟩ := hb.edge_of_ne_empty _ e.symbol _ hs' hne
  have hmem : (⟨e.source, e.symbol, m⟩ : Edge) ∈ b.edges :=
    hb.mem_edges_iff_goto.2 ⟨s, hs', hne, hm⟩
  have heq : m = e.target := by
    rcases Nat.lt_trichotomy m e.target with hlt | heq | hgt
    · rw [← hbelow m hlt] at hm
      exact ha.state_unique _ _ _ hm htarget
    · exact heq
    · obtain ⟨f, hf, hftarget, hfsource, -, hafter⟩ := hb'.exists_discovery hpos hn'
      have hbefore := hafter _ hmem hgt
      obtain ⟨t, ht, htne, hnext⟩ := hb.mem_edges_iff_goto.1 hf
      rw [← hbelow _ hfsource] at ht
      obtain ⟨k, -, hk⟩ := ha.edge_of_ne_empty _ f.symbol _ ht htne
      have hmem' : (⟨f.source, f.symbol, k⟩ : Edge) ∈ a.edges :=
        ha.mem_edges_iff_goto.2 ⟨t, ht, htne, hk⟩
      have hlt : k < e.target := hfront _ hmem' hbefore
      rw [hbelow k hlt] at hk
      rw [hftarget] at hnext
      exact absurd (hb.state_unique _ _ _ hk hnext) (Nat.ne_of_lt hlt)
  rw [htarget, ← heq, hm]

/-- **Two breadth-first numberings** of the collection are one. -/
theorem IsBreadthFirst.states_eq (ha' : a.IsBreadthFirst g) (hb' : b.IsBreadthFirst g) :
    a.states = b.states := by
  have hall : ∀ n : Nat, a.states[n]? = b.states[n]? := by
    intro n
    induction n using Nat.strongRecOn with
    | ind n ih =>
        rcases Nat.eq_zero_or_pos n with rfl | hpos
        · rw [ha.start, hb.start]
        · by_cases hn : n < a.states.size
          · by_cases hn' : n < b.states.size
            · exact ha'.eq_of_eq_below ha hb hb' ih hpos hn hn'
            · have hnone := Array.getElem?_eq_none (Nat.le_of_not_lt hn')
              rw [hnone, hb.eq_none_of_eq_below ha (fun k hk => (ih k hk).symm) hnone]
          · have hnone := Array.getElem?_eq_none (Nat.le_of_not_lt hn)
            rw [hnone, ha.eq_none_of_eq_below hb ih hnone]
  exact Array.ext_getElem? hall

/-- They have the same list of edges. -/
theorem IsBreadthFirst.edges_eq (ha' : a.IsBreadthFirst g) (hb' : b.IsBreadthFirst g) :
    a.edges = b.edges := by
  have hnodup : ∀ {c : Automaton}, c.IsBreadthFirst g → c.edges.Nodup := fun hc =>
    hc.ordered.imp fun hbefore heq => (heq ▸ hbefore).asymm (heq ▸ hbefore)
  have hperm : a.edges.Perm b.edges := by
    refine (List.perm_ext_iff_of_nodup (hnodup ha') (hnodup hb')).2 fun e => ?_
    rw [ha.mem_edges_iff_goto, hb.mem_edges_iff_goto, ha'.states_eq ha hb hb']
  exact hperm.eq_of_pairwise (fun _ _ _ _ hbefore hafter => absurd hafter hbefore.asymm)
    ha'.ordered hb'.ordered

end Unique

/-- **The numbers of the states** of every grammar text are those of the breadth-first walk
in column order, and of no other numbering of the canonical collection. -/
theorem isBreadthFirst_automaton {text : String} {g : Grammar}
    (read : Grammar.ofText text = .ok g) :
    g.augment.OrdersColumns ∧
      (g.augment.automaton g.augment.first).IsBreadthFirst g.augment ∧
      ∀ b : Automaton, b.IsExact g.augment → b.IsBreadthFirst g.augment →
        b.states = (g.augment.automaton g.augment.first).states ∧
          b.edges = (g.augment.automaton g.augment.first).edges := by
  have hg : g.augment.IsAugmented := (Grammar.wellFormed_ofText read).isAugmented
  have hbreadth := isBreadthFirst hg
  have hexact := isExact hg
  exact ⟨hg.ordersColumns, hbreadth, fun b hb hb' =>
    ⟨hb'.states_eq hb hexact hbreadth, hb'.edges_eq hb hexact hbreadth⟩⟩

/-- So it is with nested pairs, where the terminals `a` and `b` have the numbers 3 and 4. -/
theorem isBreadthFirst_of_nested :
    Grammar.ofText "S -> a S b | ε" = .ok Grammar.nested ∧
      Grammar.nested.augment.OrdersColumns ∧
      (Grammar.nested.augment.automaton Grammar.nested.augment.first).IsBreadthFirst
        Grammar.nested.augment ∧
      (Grammar.nested.augment.automaton Grammar.nested.augment.first).edges.map
        (fun e => (e.source, e.symbol, e.target))
        = [(0, 3, 1), (0, 2, 2), (1, 3, 3), (1, 2, 4), (3, 3, 3), (3, 2, 5), (4, 4, 6),
          (5, 4, 7)] := by
  obtain ⟨hcolumns, hbreadth, -⟩ := isBreadthFirst_automaton Grammar.ofText_nested
  exact ⟨Grammar.ofText_nested, hcolumns, hbreadth, by decide +kernel⟩

end Automaton

end CanonicalLR
