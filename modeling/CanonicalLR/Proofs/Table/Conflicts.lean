import CanonicalLR.Proofs.Table.Cells

/-!
# Conflicts

Filling the rows of a table compares demands for one cell, one after the other.
What stands in the way of a table is said here through the items of the states
alone: two exhausted items with one lookahead, or an exhausted item whose
lookahead another item of the state expects. No other demands ever clash,
since all items that expect a symbol demand a shift along the same move.

## Main definitions

* `Automaton.IsConflictFree` — no two items of a state stand in each other's way.

## Main results

* `exists_of_place_eq_error` — where a clash comes from.
* `cases_of_demand_eq` — what an item that demands an action is like.
* `IsConflictFree.action_unique` — without conflicts the items of a state agree.
* `exists_build_iff_isConflictFree` — a grammar has a table exactly if its automaton
  is free of conflicts.
-/

namespace CanonicalLR

/-! ## Clashes -/

/-- **A clash** is one of two different demands, or of a demand with what a cell holds. -/
theorem exists_of_place_eq_error {cells demands : List (Nat × Action)} {clash : Clash}
    (h : place cells demands = .error clash) :
    (cells.lookup clash.symbol = some clash.existing ∨
        (clash.symbol, clash.existing) ∈ demands) ∧
      (clash.symbol, clash.demanded) ∈ demands ∧ clash.existing ≠ clash.demanded := by
  induction demands generalizing cells with
  | nil => cases h
  | cons demand demands ih =>
      obtain ⟨symbol, action⟩ := demand
      simp only [place] at h
      split at h
      next free =>
        obtain ⟨hexisting, hdemanded, hne⟩ := ih h
        refine ⟨?_, List.mem_cons_of_mem _ hdemanded, hne⟩
        rw [lookup_append_singleton free] at hexisting
        by_cases heq : clash.symbol = symbol
        · rw [if_pos heq] at hexisting
          rcases hexisting with hnew | hlater
          · obtain rfl := Option.some.inj hnew
            rw [heq]
            exact Or.inr List.mem_cons_self
          · exact Or.inr (List.mem_cons_of_mem _ hlater)
        · rw [if_neg heq] at hexisting
          exact hexisting.imp_right (List.mem_cons_of_mem _)
      next existing taken =>
        split at h
        · obtain ⟨hexisting, hdemanded, hne⟩ := ih h
          exact ⟨hexisting.imp_right (List.mem_cons_of_mem _),
            List.mem_cons_of_mem _ hdemanded, hne⟩
        next differs =>
          obtain rfl := Except.error.inj h
          exact ⟨Or.inl taken, List.mem_cons_self, differs⟩

namespace Item

variable {g : Grammar} {i : Item} {edges : List (Nat × Nat)} {symbol : Nat} {action : Action}

/-- An item that demands an action expects the symbol, and demands a shift along its
edge, or is exhausted with the symbol as its lookahead. -/
theorem cases_of_demand_eq (h : i.demand g edges = some (symbol, action)) :
    (∃ next, action = .shift next ∧ i.symbol? g = some symbol ∧
        edges.lookup symbol = some next) ∨
      (i.isExhausted g = true ∧ i.lookahead = symbol) := by
  cases action with
  | shift next =>
      obtain ⟨hexp, _, hlookup⟩ := demand_eq_shift_iff.1 h
      exact Or.inl ⟨next, rfl, hexp, hlookup⟩
  | reduce id =>
      obtain ⟨hend, _, hlookahead, _⟩ := demand_eq_reduce_iff.1 h
      exact Or.inr ⟨hend, hlookahead⟩
  | accept =>
      obtain ⟨hacc, rfl⟩ := demand_eq_accept_iff.1 h
      unfold isAccepting at hacc
      simp only [Bool.and_eq_true, beq_iff_eq] at hacc
      exact Or.inr ⟨hacc.2, hacc.1.2⟩

/-- An exhausted item demands an action on its lookahead: acceptance for rule 0, or
the reduction by its rule. -/
theorem exists_demand_of_isExhausted (edges : List (Nat × Nat))
    (h : i.isExhausted g = true) :
    ∃ action, i.demand g edges = some (i.lookahead, action) ∧
      (action = .accept ∧ i.rule = 0 ∨ action = .reduce i.rule) := by
  cases hacc : i.isAccepting g with
  | true =>
      have hdemand : i.demand g edges = some (endId, .accept) :=
        demand_eq_accept_iff.2 ⟨hacc, rfl⟩
      unfold isAccepting at hacc
      simp only [Bool.and_eq_true, beq_iff_eq] at hacc
      obtain ⟨⟨hrule, hl⟩, -⟩ := hacc
      rw [← hl] at hdemand
      exact ⟨.accept, hdemand, Or.inl ⟨rfl, hrule⟩⟩
  | false =>
      exact ⟨.reduce i.rule, demand_eq_reduce_iff.2 ⟨h, hacc, rfl, rfl⟩, Or.inr rfl⟩

end Item

/-! ## Automata without conflicts -/

/-- No two items of a state stand in each other's way. -/
structure Automaton.IsConflictFree (g : Grammar) (a : Automaton) : Prop where
  /-- No two items are to be reduced on one lookahead. -/
  eq_of_isExhausted : ∀ {state : Nat} {i j : Item}, a.Holds state i → a.Holds state j →
    i.isExhausted g = true → j.isExhausted g = true → i.lookahead = j.lookahead → i = j
  /-- No item expects the lookahead on which another one is to be reduced. -/
  symbol?_ne : ∀ {state : Nat} {i j : Item}, a.Holds state i → a.Holds state j →
    i.isExhausted g = true → j.symbol? g ≠ some i.lookahead

/-- Items of a conflict-free automaton that demand actions on one symbol demand the
same action. -/
theorem Automaton.IsConflictFree.action_unique {g : Grammar} {a : Automaton}
    (ha : a.IsConflictFree g) {state symbol : Nat} {i j : Item} {action other : Action}
    {edges : List (Nat × Nat)} (hi : a.Holds state i) (hj : a.Holds state j)
    (hdemand : i.demand g edges = some (symbol, action))
    (hother : j.demand g edges = some (symbol, other)) : action = other := by
  rcases Item.cases_of_demand_eq hdemand with ⟨next, rfl, hexp, hnext⟩ | ⟨hend, hl⟩
  · rcases Item.cases_of_demand_eq hother with ⟨last, rfl, _, hlast⟩ | ⟨hend', hl'⟩
    · rw [hnext] at hlast
      rw [Option.some.inj hlast]
    · rw [← hl'] at hexp
      exact absurd hexp (ha.symbol?_ne hj hi hend')
  · rcases Item.cases_of_demand_eq hother with ⟨last, rfl, hexp, _⟩ | ⟨hend', hl'⟩
    · rw [← hl] at hexp
      exact absurd hexp (ha.symbol?_ne hi hj hend)
    · obtain rfl := ha.eq_of_isExhausted hi hj hend hend' (hl.trans hl'.symm)
      rw [hdemand] at hother
      exact congrArg Prod.snd (Option.some.inj hother)

/-! ## Tables and conflicts -/

namespace Table

variable {t : Table} {g : Grammar} {i j : Item} {state : Nat}

/-- The cell of an exhausted item and its lookahead. -/
theorem IsCanonical.exists_action?_of_isExhausted (ht : t.IsCanonical)
    (hi : t.automaton.Holds state i) (hend : i.isExhausted t.grammar = true) :
    ∃ action, t.action? state i.lookahead = some action ∧
      (action = .accept ∧ i.rule = 0 ∨ action = .reduce i.rule) := by
  obtain ⟨action, hdemand, hcases⟩ :=
    Item.exists_demand_of_isExhausted (t.automaton.movesFrom state) hend
  exact ⟨action, ht.action?_eq_some_iff.2 ⟨i, hi, hdemand⟩, hcases⟩

/-- **A table that is built** leaves no conflict, since a cell holds one action. -/
theorem IsCanonical.isConflictFree (ht : t.IsCanonical) :
    t.automaton.IsConflictFree t.grammar := by
  refine ⟨?_, ?_⟩
  · intro state i j hi hj hend hend' hl
    obtain ⟨action, hcell, hcases⟩ := ht.exists_action?_of_isExhausted hi hend
    obtain ⟨other, hcell', hcases'⟩ := ht.exists_action?_of_isExhausted hj hend'
    rw [← hl, hcell] at hcell'
    obtain rfl := Option.some.inj hcell'
    have hrule : i.rule = j.rule := by
      rcases hcases with ⟨rfl, hzero⟩ | rfl
      · rcases hcases' with ⟨-, hzero'⟩ | hreduce
        · rw [hzero, hzero']
        · cases hreduce
      · rcases hcases' with ⟨haccept, -⟩ | hreduce
        · cases haccept
        · exact Action.reduce.inj hreduce
    exact ht.collection.eq_of_isExhausted ht.augmented hi hj hend hend' hrule hl
  · intro state i j hi hj hend hexp
    have hmem := ht.collection.mem_items hi
    have hterminal := (ht.augmented.rule_mem_of_mem_items hmem).2.2
    obtain ⟨next, hmove⟩ := ht.collection.exists_next ht.augmented hj hexp
    have hshift := ht.action?_eq_shift_iff.2 ⟨hterminal, hmove⟩
    obtain ⟨action, hcell, hcases⟩ := ht.exists_action?_of_isExhausted hi hend
    rw [hshift] at hcell
    obtain rfl := Option.some.inj hcell
    rcases hcases with ⟨haccept, -⟩ | hreduce
    · cases haccept
    · cases hreduce

/-- A row fails where two items of its state demand different actions on one symbol. -/
theorem exists_demands_of_ofState {s : ItemSet} {edges : List (Nat × Nat)} {e : Error}
    (h : Row.ofState g state s edges = .error e) :
    ∃ i ∈ s, ∃ j ∈ s, ∃ symbol action other, i.demand g edges = some (symbol, action) ∧
      j.demand g edges = some (symbol, other) ∧ action ≠ other := by
  have hitem : ∀ {symbol : Nat} {action : Action},
      (symbol, action) ∈ s.toList.filterMap (Item.demand g edges) →
      ∃ i ∈ s, i.demand g edges = some (symbol, action) := by
    intro symbol action hmem
    obtain ⟨i, hi, hdemand⟩ := List.mem_filterMap.1 hmem
    exact ⟨i, OrdSet.mem_toList.1 hi, hdemand⟩
  unfold Row.ofState at h
  cases hplace : place [] (s.toList.filterMap (Item.demand g edges)) with
  | ok actions =>
      rw [hplace] at h
      cases h
  | error clash =>
      obtain ⟨hexisting, hdemanded, hne⟩ := exists_of_place_eq_error hplace
      rcases hexisting with hfilled | hexisting
      · cases hfilled
      · obtain ⟨i, hi, hdemand⟩ := hitem hexisting
        obtain ⟨j, hj, hother⟩ := hitem hdemanded
        exact ⟨i, hi, j, hj, _, _, _, hdemand, hother, hne⟩

/-- A grammar without a table has a conflict in some state. -/
theorem not_isConflictFree_of_ofAnalysis {a : Analysis} {e : Error}
    (h : ofAnalysis a = .error e) : ¬ a.automaton.IsConflictFree a.grammar := by
  intro hfree
  unfold ofAnalysis at h
  rcases cases_of_bind_eq_error h with hrows | ⟨rows, _, ht⟩
  · obtain ⟨⟨s, state⟩, hentry, hrow⟩ := exists_of_mapM_eq_error hrows
    obtain ⟨i, hi, j, hj, symbol, action, other, hdemand, hother, hne⟩ :=
      exists_demands_of_ofState hrow
    have hs : a.automaton.states[state]? = some s := by
      simpa using List.mem_zipIdx_iff_getElem?.1 hentry
    exact hne (hfree.action_unique ⟨s, hs, hi⟩ ⟨s, hs, hj⟩ hdemand hother)
  · cases ht

/-- **A grammar has a table** exactly if its automaton is free of conflicts. -/
theorem exists_build_iff_isConflictFree (hg : g.WellFormed) :
    (∃ t, build g = .ok t) ↔
      (g.augment.automaton g.augment.first).IsConflictFree g.augment := by
  constructor
  · intro h
    obtain ⟨t, built⟩ := h
    have hfree := (isCanonical_build hg built).isConflictFree
    obtain ⟨⟨hgrammar, -, hautomaton⟩, -⟩ :=
      rows_of_ofAnalysis_eq_ok (a := g.analysis) built
    rw [hautomaton, Grammar.automaton_analysis, hgrammar] at hfree
    exact hfree
  · intro hfree
    cases hbuilt : build g with
    | ok t => exact ⟨t, rfl⟩
    | error e =>
        rw [← Grammar.automaton_analysis] at hfree
        exact absurd hfree (not_isConflictFree_of_ofAnalysis (a := g.analysis) hbuilt)

end Table

end CanonicalLR
