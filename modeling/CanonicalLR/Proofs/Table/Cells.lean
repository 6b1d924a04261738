import CanonicalLR.Grammar.Source
import CanonicalLR.Proofs.Automaton.States
import CanonicalLR.Proofs.Traversal
import CanonicalLR.Table

/-!
# The cells of a table

A table that could be built has a row for each state of the automaton, and in
no row did two items clash. Its cells are described here through the items that
the states hold and the moves between them. The proofs about the parser use
these descriptions and know nothing of closures, walks and rows.

## Main definitions

* `Table.IsCanonical` — the table belongs to the automaton of its grammar.

## Main results

* `isCanonical_build`, `exists_conflict_of_build` — building a table ends with
  such a table, or with a conflict.
* `action?_eq_shift_iff`, `action?_eq_reduce_iff`, `action?_eq_accept_iff`,
  `goto?_eq_some_iff` — what the cells hold.
-/

namespace CanonicalLR

/-! ## Demands -/

namespace Item

variable {g : Grammar} {i : Item} {edges : List (Nat × Nat)} {symbol next id : Nat}

/-- An item demands a shift if it expects a terminal over which there is a move. -/
theorem demand_eq_shift_iff :
    i.demand g edges = some (symbol, .shift next) ↔ i.symbol? g = some symbol ∧
      g.symbols.isTerminal symbol = true ∧ edges.lookup symbol = some next := by
  unfold demand
  cases hexp : i.symbol? g with
  | none => cases i.isAccepting g <;> simp
  | some other =>
      by_cases hterminal : g.symbols.isTerminal other = true
      · simp only [if_pos hterminal, Option.map_eq_some_iff, Prod.mk.injEq,
          Action.shift.injEq, Option.some.injEq]
        constructor
        · intro hparts
          rcases hparts with ⟨target, hfound, rfl, rfl⟩
          exact ⟨rfl, hterminal, hfound⟩
        · intro hparts
          rcases hparts with ⟨rfl, _, hfound⟩
          exact ⟨next, hfound, rfl, rfl⟩
      · simp only [if_neg hterminal, Option.some.injEq]
        constructor
        · intro h
          cases h
        · intro hparts
          rcases hparts with ⟨rfl, hother, _⟩
          exact absurd hother hterminal

/-- An exhausted item demands a reduction on its lookahead, the accepting one
apart. -/
theorem demand_eq_reduce_iff :
    i.demand g edges = some (symbol, .reduce id) ↔ i.isExhausted g = true ∧
      i.isAccepting g = false ∧ i.lookahead = symbol ∧ i.rule = id := by
  rw [← symbol?_eq_none_iff]
  unfold demand
  cases hexp : i.symbol? g with
  | none => cases hacc : i.isAccepting g <;> simp
  | some other => by_cases hterminal : g.symbols.isTerminal other = true <;> simp [hterminal]

/-- The accepting item demands acceptance on the end marker. -/
theorem demand_eq_accept_iff :
    i.demand g edges = some (symbol, .accept) ↔
      i.isAccepting g = true ∧ symbol = endId := by
  have hexhausted : i.isAccepting g = true → i.symbol? g = none := by
    intro hacc
    unfold isAccepting at hacc
    rw [Bool.and_eq_true] at hacc
    exact symbol?_eq_none_iff.2 hacc.2
  unfold demand
  cases hexp : i.symbol? g with
  | none => cases hacc : i.isAccepting g <;> simp [eq_comm]
  | some other =>
      have hnot : i.isAccepting g ≠ true := by
        intro hacc
        rw [hexhausted hacc] at hexp
        cases hexp
      by_cases hterminal : g.symbols.isTerminal other = true <;> simp [hterminal, hnot]

/-- What an item demands stands under a terminal or the end marker. -/
theorem isTerminal_of_demand {action : Action} (hg : g.IsAugmented) (hi : i ∈ g.items)
    (h : i.demand g edges = some (symbol, action)) : g.symbols.isTerminal symbol = true := by
  cases action with
  | shift next => exact (demand_eq_shift_iff.1 h).2.1
  | reduce id =>
      obtain ⟨-, -, rfl, -⟩ := demand_eq_reduce_iff.1 h
      exact (hg.rule_mem_of_mem_items hi).2.2
  | accept =>
      obtain ⟨-, rfl⟩ := demand_eq_accept_iff.1 h
      exact hg.isTerminal_iff.2 (Or.inr rfl)

end Item

/-- The analysis of a grammar holds the automaton of the augmented one. -/
theorem Grammar.automaton_analysis (g : Grammar) :
    g.analysis.automaton = g.augment.automaton g.augment.first := by
  unfold analysis first
  rfl

namespace Table

/-! ## Tables and their automata -/

/-- The table belongs to the automaton of its grammar, and no items clash. -/
structure IsCanonical (t : Table) : Prop where
  augmented : t.grammar.IsAugmented
  collection : t.automaton.IsCanonical t.grammar
  first_eq : t.first = t.grammar.first
  size_rows : t.rows.size = t.automaton.states.size
  row : ∀ {state : Nat} {s : ItemSet}, t.automaton.states[state]? = some s →
    ∃ row, t.rows[state]? = some row ∧
      Row.ofState t.grammar state s (t.automaton.movesFrom state) = .ok row

/-- The rows of a table are those of the states, in order. -/
theorem rows_of_ofAnalysis_eq_ok {a : Analysis} {t : Table} (h : ofAnalysis a = .ok t) :
    (t.grammar = a.grammar ∧ t.first = a.first.value ∧ t.automaton = a.automaton) ∧
      List.Forall₂ (fun (entry : ItemSet × Nat) row =>
        Row.ofState a.grammar entry.2 entry.1 (a.automaton.movesFrom entry.2) = .ok row)
        a.automaton.states.toList.zipIdx t.rows.toList := by
  unfold ofAnalysis at h
  obtain ⟨rows, hrows, ht⟩ := exists_of_bind_eq_ok h
  obtain rfl := Except.ok.inj ht
  exact ⟨⟨rfl, rfl, rfl⟩, forall₂_of_mapM_eq_ok hrows⟩

theorem isCanonical_ofAnalysis {a : Analysis} {t : Table} (hg : a.grammar.IsAugmented)
    (hfirst : a.first.value = a.grammar.first) (ha : a.automaton.IsCanonical a.grammar)
    (h : ofAnalysis a = .ok t) : t.IsCanonical := by
  obtain ⟨⟨hgrammar, htfirst, hautomaton⟩, hrows⟩ := rows_of_ofAnalysis_eq_ok h
  refine
    { augmented := hgrammar ▸ hg
      collection := by rw [hgrammar, hautomaton]; exact ha
      first_eq := by rw [htfirst, hfirst, hgrammar]
      size_rows := ?_
      row := ?_ }
  · have hlength := hrows.length_eq
    rw [hautomaton]
    simpa using hlength.symm
  · intro state s hs
    rw [hautomaton] at hs
    have hentry : a.automaton.states.toList.zipIdx[state]? = some (s, state) := by
      simp [List.getElem?_zipIdx, hs]
    obtain ⟨row, hrow, hofState⟩ := exists_getElem?_of_forall₂ hrows hentry
    rw [hgrammar, hautomaton]
    exact ⟨row, by simpa using hrow, hofState⟩

/-- **A table that is built** belongs to the automaton of its grammar. -/
theorem isCanonical_build {g : Grammar} {t : Table} (hg : g.WellFormed)
    (h : build g = .ok t) : t.IsCanonical := by
  have ha : g.analysis.automaton.IsCanonical g.augment := by
    rw [Grammar.automaton_analysis]
    exact Grammar.isCanonical_automaton hg.isAugmented
  exact isCanonical_ofAnalysis (a := g.analysis) hg.isAugmented rfl ha h

theorem grammar_of_build {g : Grammar} {t : Table} (h : build g = .ok t) :
    t.grammar = g.augment :=
  (rows_of_ofAnalysis_eq_ok (a := g.analysis) h).1.1

theorem exists_conflict_of_ofState {g : Grammar} {state : Nat} {s : ItemSet}
    {edges : List (Nat × Nat)} {e : Error} (h : Row.ofState g state s edges = .error e) :
    ∃ symbol existing demanded, e = .conflict state symbol existing demanded := by
  unfold Row.ofState at h
  cases hplace : place [] (s.toList.filterMap (Item.demand g edges)) with
  | ok actions =>
      rw [hplace] at h
      cases h
  | error clash =>
      rw [hplace] at h
      exact ⟨_, _, _, (Except.error.inj h).symm⟩

theorem exists_conflict_of_ofAnalysis {a : Analysis} {e : Error}
    (h : ofAnalysis a = .error e) :
    ∃ state symbol existing demanded, e = .conflict state symbol existing demanded := by
  unfold ofAnalysis at h
  rcases cases_of_bind_eq_error h with hrows | ⟨rows, _, ht⟩
  · obtain ⟨⟨s, state⟩, _, hrow⟩ := exists_of_mapM_eq_error hrows
    exact ⟨state, exists_conflict_of_ofState hrow⟩
  · cases ht

/-- **A grammar has no table** only if two items of a state clash. -/
theorem exists_conflict_of_build {g : Grammar} {e : Error} (h : build g = .error e) :
    ∃ state symbol existing demanded, e = .conflict state symbol existing demanded :=
  exists_conflict_of_ofAnalysis (a := g.analysis) h

/-- A text has a table with some property if reading it, building the table and
testing the property succeed. -/
theorem exists_table (text : String) (p : Table → Bool)
    (h : ((Grammar.ofText text).bind build).toOption.any p = true) :
    ∃ g t, Grammar.ofText text = .ok g ∧ build g = .ok t ∧ p t = true := by
  cases hread : Grammar.ofText text with
  | error e =>
      rw [hread] at h
      cases h
  | ok g =>
      rw [hread] at h
      cases hbuilt : build g with
      | error e =>
          rw [Except.bind, hbuilt] at h
          cases h
      | ok t =>
          rw [Except.bind, hbuilt] at h
          exact ⟨g, t, rfl, hbuilt, h⟩

namespace IsCanonical

variable {t : Table} {i j : Item} {state symbol next id l : Nat} (ht : t.IsCanonical)

include ht

/-! ## Cells -/

omit ht in
/-- The cells of a row are what the items demand, and the moves over non-terminals. -/
theorem cells_of_ofState {g : Grammar} {s : ItemSet} {edges : List (Nat × Nat)} {row : Row}
    (h : Row.ofState g state s edges = .ok row) :
    place [] (s.toList.filterMap (Item.demand g edges)) = .ok row.actions ∧
      row.gotos = edges.filter fun edge => g.symbols.isNonTerminal edge.1 := by
  unfold Row.ofState at h
  cases hplace : place [] (s.toList.filterMap (Item.demand g edges)) with
  | error clash =>
      rw [hplace] at h
      cases h
  | ok actions =>
      rw [hplace] at h
      obtain rfl := Except.ok.inj h
      exact ⟨rfl, rfl⟩

/-- What is no state has no row. -/
theorem getElem?_rows_eq_none (hs : t.automaton.states[state]? = none) :
    t.rows[state]? = none := by
  rw [Array.getElem?_eq_none_iff] at hs ⊢
  rw [ht.size_rows]
  exact hs

/-- An ACTION cell holds what an item of its state demands. -/
theorem action?_eq_some_iff {action : Action} :
    t.action? state symbol = some action ↔ ∃ i, t.automaton.Holds state i ∧
      i.demand t.grammar (t.automaton.movesFrom state) = some (symbol, action) := by
  unfold action?
  cases hs : t.automaton.states[state]? with
  | none =>
      rw [ht.getElem?_rows_eq_none hs]
      simp [Automaton.Holds, hs]
  | some s =>
      obtain ⟨row, hrow, hofState⟩ := ht.row hs
      have hactions := (cells_of_ofState hofState).1
      rw [hrow, Option.bind_some, lookup_place hactions]
      simp [Automaton.Holds, hs, OrdSet.mem_toList]

/-- A filled ACTION cell stands under a terminal or the end marker. -/
theorem isTerminal_of_action? {action : Action} (h : t.action? state symbol = some action) :
    t.grammar.symbols.isTerminal symbol = true := by
  obtain ⟨i, hi, hdemand⟩ := ht.action?_eq_some_iff.1 h
  exact Item.isTerminal_of_demand ht.augmented (ht.collection.mem_items hi) hdemand

/-- A GOTO cell holds the target of a move over a non-terminal. -/
theorem goto?_eq_some_iff :
    t.goto? state symbol = some next ↔
      t.grammar.symbols.isNonTerminal symbol = true ∧ t.automaton.Moves state symbol next := by
  unfold goto?
  cases hs : t.automaton.states[state]? with
  | none =>
      rw [ht.getElem?_rows_eq_none hs]
      constructor
      · intro h
        cases h
      · intro h
        obtain ⟨s, hs'⟩ := ht.collection.exists_state h.2
        rw [hs] at hs'
        cases hs'
  | some s =>
      obtain ⟨row, hrow, hofState⟩ := ht.row hs
      have hgotos := (cells_of_ofState hofState).2
      have hnodup : (row.gotos.map Prod.fst).Nodup := by
        rw [hgotos]
        exact (ht.collection.nodup_symbols hs).sublist (List.filter_sublist.map Prod.fst)
      rw [hrow, Option.bind_some, lookup_eq_some_iff_mem hnodup, hgotos, List.mem_filter]
      exact and_comm

/-- **A shift** follows a move over a terminal. -/
theorem action?_eq_shift_iff :
    t.action? state symbol = some (.shift next) ↔
      t.grammar.symbols.isTerminal symbol = true ∧ t.automaton.Moves state symbol next := by
  have hlookup : ∀ {i : Item}, t.automaton.Holds state i →
      ((t.automaton.movesFrom state).lookup symbol = some next ↔
        t.automaton.Moves state symbol next) := by
    intro i hi
    obtain ⟨s, hs, _⟩ := hi
    exact lookup_eq_some_iff_mem (ht.collection.nodup_symbols hs)
  rw [ht.action?_eq_some_iff]
  constructor
  · intro h
    rcases h with ⟨i, hi, hdemand⟩
    obtain ⟨_, hterminal, hfound⟩ := Item.demand_eq_shift_iff.1 hdemand
    exact ⟨hterminal, (hlookup hi).1 hfound⟩
  · intro h
    rcases h with ⟨hterminal, hmove⟩
    obtain ⟨i, hi, hexp⟩ := ht.collection.exists_holds_of_move ht.augmented hmove
    exact ⟨i, hi, Item.demand_eq_shift_iff.2 ⟨hexp, hterminal, (hlookup hi).2 hmove⟩⟩

/-- A move is a shift over a terminal, or a GOTO over a non-terminal. -/
theorem shift_or_goto_of_move (h : t.automaton.Moves state symbol next) :
    t.action? state symbol = some (.shift next) ∨ t.goto? state symbol = some next := by
  obtain ⟨i, _, hexp⟩ := ht.collection.exists_holds_of_move ht.augmented h
  have hmem : symbol ∈ (t.grammar.rule i.rule).rhs := List.mem_of_getElem? hexp
  rcases ht.augmented.kind?_of_mem_rhs hmem with hk | hk
  · have hterminal := ht.augmented.isTerminal_iff.2 (Or.inl hk)
    exact Or.inl (ht.action?_eq_shift_iff.2 ⟨hterminal, h⟩)
  · have hnonTerminal := Grammar.IsAugmented.isNonTerminal_iff.2 (Or.inl hk)
    exact Or.inr (ht.goto?_eq_some_iff.2 ⟨hnonTerminal, h⟩)

/-- Nothing moves over the end marker. -/
theorem ne_endId_of_move (h : t.automaton.Moves state symbol next) : symbol ≠ endId := by
  obtain ⟨i, _, hexp⟩ := ht.collection.exists_holds_of_move ht.augmented h
  exact ht.augmented.ne_endId_of_mem_rhs (List.mem_of_getElem? hexp)

/-- **A reduction** is demanded by an exhausted item on its lookahead. -/
theorem action?_eq_reduce_iff :
    t.action? state symbol = some (.reduce id) ↔ ∃ i, t.automaton.Holds state i ∧
      i.isExhausted t.grammar = true ∧ i.isAccepting t.grammar = false ∧
        i.lookahead = symbol ∧ i.rule = id := by
  rw [ht.action?_eq_some_iff]
  simp only [Item.demand_eq_reduce_iff]

/-- **Acceptance** is demanded by `[S' -> S •, $]`, on the end marker. -/
theorem action?_eq_accept_iff :
    t.action? state symbol = some .accept ↔
      symbol = endId ∧ t.automaton.Holds state ⟨0, 1, endId⟩ := by
  rw [ht.action?_eq_some_iff]
  constructor
  · intro h
    rcases h with ⟨i, hi, hdemand⟩
    obtain ⟨hacc, rfl⟩ := Item.demand_eq_accept_iff.1 hdemand
    rw [(ht.collection.isAccepting_iff ht.augmented hi).1 hacc] at hi
    exact ⟨rfl, hi⟩
  · intro h
    rcases h with ⟨rfl, hi⟩
    have hacc := (ht.collection.isAccepting_iff ht.augmented hi).2 rfl
    exact ⟨_, hi, Item.demand_eq_accept_iff.2 ⟨hacc, rfl⟩⟩

end IsCanonical

end Table

end CanonicalLR
