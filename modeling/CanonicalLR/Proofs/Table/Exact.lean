import CanonicalLR.Proofs.Automaton.Exact
import CanonicalLR.Proofs.Grammar.Declared
import CanonicalLR.Proofs.Table.Cells
import Mathlib.Data.List.ProdSigma

/-!
# The cells are exact

Every cell of a table is what the item set of its row demands, and every demand has a
cell. The columns cover all of them, so the terminals that a state expects leave no cell
out, and the moves of the automaton are counted once each by the shifts and the GOTO cells.

Nor does the printed table leave a cell out. What prints it is of no concern for that: all
printers are handed the same grid, which has each filled cell in its row, under the name of
its column.

## Main definitions

* `Table.DemandsShift`, `Table.DemandsAccept`, `Table.DemandsReduce`,
  `Table.DemandsGoto` — what the item set of a row demands.
* `Table.Shows` — what is printed has a text in the row of a state and under a symbol.
* `Table.shiftCells`, `Table.gotoCells` — the cells that are made from moves.
* `Table.IsExact` — the cells are what is demanded, and none is left out.

## Main results

* `lookahead_eq_endId` — the items of rule 0 wait for the end marker.
* `moves_iff_of_build` — moves lead to the state of the goto.
* `Shows.unique` — what is printed of a cell is determined.
* `perm_keys` — shifts and GOTO cells are the moves.
* `cells_exact_of_build` — the cells of every table are exact.
-/

namespace CanonicalLR

namespace Automaton.IsCanonical

variable {a : Automaton} {g : Grammar} {i : Item} {state : Nat}

/-- **The items of rule 0** have the lookahead `$`: nothing spawns them, and moves keep
the lookahead. -/
theorem lookahead_eq_endId (ha : a.IsCanonical g) (hg : g.IsAugmented)
    (h : a.Holds state i) (hrule : i.rule = 0) : i.lookahead = endId := by
  revert hrule
  refine ha.holds_induction hg (P := fun i => i.rule = 0 → i.lookahead = endId) ?_ ?_ ?_ h
  · exact fun _ => rfl
  · exact fun i symbol hi _ => hi
  · exact fun i r l _ hr hspawns hrule => absurd hrule (hg.id_ne_zero_of_spawns hr hspawns)

/-- An exhausted item is the accepting one exactly if its rule is rule 0. -/
theorem isAccepting_eq_false_iff (ha : a.IsCanonical g) (hg : g.IsAugmented)
    (h : a.Holds state i) (hend : i.isExhausted g = true) :
    i.isAccepting g = false ↔ i.rule ≠ 0 := by
  rw [← not_iff_not, Bool.not_eq_false, not_not]
  unfold Item.isAccepting
  simp only [hend, Bool.and_true, Bool.and_eq_true, beq_iff_eq]
  constructor
  · exact And.left
  · intro hrule
    exact ⟨hrule, ha.lookahead_eq_endId hg h hrule⟩

end Automaton.IsCanonical

/-- Is the action a shift? -/
def Action.isShift : Action → Bool
  | .shift _ => true
  | .reduce _ | .accept => false

theorem Action.isShift_iff {action : Action} :
    action.isShift = true ↔ ∃ next, action = .shift next := by
  cases action <;> simp [isShift]

namespace Table

/-! ## Demands of an item set -/

/-- Some item of the state has the terminal after its dot, and the other state is the
goto over it. -/
def DemandsShift (t : Table) (state symbol next : Nat) : Prop :=
  t.grammar.symbols.kind? symbol = some .terminal ∧
    ∃ s, t.automaton.states[state]? = some s ∧
      (∃ i ∈ s, i.symbol? t.grammar = some symbol) ∧
      t.automaton.states[next]? = some (s.goto t.grammar t.first symbol)

/-- The state has the item `[S' -> S •, $]`. -/
def DemandsAccept (t : Table) (state symbol : Nat) : Prop :=
  symbol = endId ∧ t.automaton.Holds state ⟨0, 1, endId⟩

/-- The state has the item of a declared rule with its dot at the end and the symbol as
its lookahead. -/
def DemandsReduce (t : Table) (state symbol id : Nat) : Prop :=
  id ≠ 0 ∧ t.automaton.Holds state ⟨id, (t.grammar.rule id).rhs.length, symbol⟩

/-- The goto over the non-terminal is not empty, and it is the other state. -/
def DemandsGoto (t : Table) (state symbol next : Nat) : Prop :=
  t.grammar.symbols.isNonTerminal symbol = true ∧
    ∃ s, t.automaton.states[state]? = some s ∧
      s.goto t.grammar t.first symbol ≠ ∅ ∧
      t.automaton.states[next]? = some (s.goto t.grammar t.first symbol)

/-! ## Views of the cells -/

/-- All printers are handed the same grid, which has a column with the name of the symbol at
its head and the text in the row of the state, behind the column of the row numbers. -/
def Shows (t : Table) (state symbol : Nat) (text : String) : Prop :=
  ∃ grid : List (List String), (∀ print : GridPrinter, t.display print = print grid) ∧
    ∃ column, grid[0]?.bind (·[column + 1]?) = some (t.grammar.symbols.name symbol) ∧
      grid[state + 1]?.bind (·[column + 1]?) = some text

/-- The cells that hold a shift, row by row. -/
def shiftCells (t : Table) : List (Nat × Nat) :=
  ((List.range t.rows.size).product t.grammar.actionColumns).filter fun cell =>
    (t.action? cell.1 cell.2).any Action.isShift

/-- The filled GOTO cells, row by row. -/
def gotoCells (t : Table) : List (Nat × Nat) :=
  ((List.range t.rows.size).product t.grammar.gotoColumns).filter fun cell =>
    (t.goto? cell.1 cell.2).isSome

/-! ## What is demanded -/

section Built

variable {t : Table} {g : Grammar} {s : ItemSet} {state other symbol next id : Nat}
  {action : Action}

/-- The automaton of a table is the canonical collection of the augmented grammar. -/
theorem origin_of_build (built : build g = .ok t) :
    t.grammar = g.augment ∧ t.first = g.augment.first ∧
      t.automaton = g.augment.automaton g.augment.first := by
  obtain ⟨⟨hgrammar, hfirst, hautomaton⟩, -⟩ :=
    rows_of_ofAnalysis_eq_ok (a := g.analysis) built
  rw [Grammar.automaton_analysis] at hautomaton
  exact ⟨hgrammar, hfirst, hautomaton⟩

variable (hg : g.WellFormed) (built : build g = .ok t)

include hg built

/-- **Moves** lead to the state of the goto, and to no other. -/
theorem moves_iff_of_build :
    t.automaton.Moves state symbol next ↔
      ∃ s, t.automaton.states[state]? = some s ∧ symbol ∈ s.expected t.grammar ∧
        t.automaton.states[next]? = some (s.goto t.grammar t.first symbol) := by
  have ht : t.IsCanonical := isCanonical_build hg built
  rw [ht.first_eq]
  constructor
  · intro h
    obtain ⟨s, hs⟩ := ht.collection.exists_state h
    exact ⟨s, hs, ht.collection.mem_expected_of_move ht.augmented hs h,
      ht.collection.target hs h⟩
  · intro h
    obtain ⟨s, hs, hexp, hnext⟩ := h
    obtain ⟨other, hmove⟩ := ht.collection.exists_move ht.augmented hs hexp
    have hother := ht.collection.target hs hmove
    obtain ⟨-, -, hautomaton⟩ := origin_of_build built
    rw [hautomaton] at hnext hother
    rw [Grammar.eq_of_getElem?_states hnext hother]
    exact hmove

theorem action?_eq_shift_iff_demands :
    t.action? state symbol = some (.shift next) ↔ t.DemandsShift state symbol next := by
  have ht : t.IsCanonical := isCanonical_build hg built
  rw [ht.action?_eq_shift_iff, moves_iff_of_build hg built]
  unfold DemandsShift
  simp only [ItemSet.mem_expected]
  constructor
  · intro h
    obtain ⟨hterminal, s, hs, ⟨i, hi, hexp⟩, hnext⟩ := h
    have hmem : symbol ∈ (t.grammar.rule i.rule).rhs := List.mem_of_getElem? hexp
    exact ⟨ht.augmented.kind?_of_mem_rhs_of_isTerminal hmem hterminal, s, hs,
      ⟨i, hi, hexp⟩, hnext⟩
  · intro h
    obtain ⟨hkind, hgoto⟩ := h
    exact ⟨ht.augmented.isTerminal_iff.2 (Or.inl hkind), hgoto⟩

theorem action?_eq_reduce_iff_demands :
    t.action? state symbol = some (.reduce id) ↔ t.DemandsReduce state symbol id := by
  have ht : t.IsCanonical := isCanonical_build hg built
  rw [ht.action?_eq_reduce_iff]
  constructor
  · intro h
    obtain ⟨i, hi, hend, hnot, rfl, rfl⟩ := h
    refine ⟨(ht.collection.isAccepting_eq_false_iff ht.augmented hi hend).1 hnot, ?_⟩
    have hposition : (t.grammar.rule i.rule).rhs.length = i.position :=
      (ht.collection.position_eq_of_isExhausted ht.augmented hi hend).symm
    rw [hposition]
    exact hi
  · intro h
    obtain ⟨hid, hi⟩ := h
    have hend : Item.isExhausted t.grammar
        ⟨id, (t.grammar.rule id).rhs.length, symbol⟩ = true :=
      decide_eq_true (Nat.le_refl _)
    have hnot := (ht.collection.isAccepting_eq_false_iff ht.augmented hi hend).2 hid
    exact ⟨_, hi, hend, hnot, rfl, rfl⟩

theorem goto?_eq_some_iff_demands :
    t.goto? state symbol = some next ↔ t.DemandsGoto state symbol next := by
  have ht : t.IsCanonical := isCanonical_build hg built
  rw [ht.goto?_eq_some_iff, moves_iff_of_build hg built]
  unfold DemandsGoto
  simp only [ht.first_eq, ne_eq, ht.augmented.goto_eq_empty_iff, not_not]

theorem action?_eq_none_iff_demands :
    t.action? state symbol = none ↔
      (∀ next, ¬ t.DemandsShift state symbol next) ∧ ¬ t.DemandsAccept state symbol ∧
        ∀ id, ¬ t.DemandsReduce state symbol id := by
  have ht : t.IsCanonical := isCanonical_build hg built
  simp only [← action?_eq_shift_iff_demands hg built,
    ← action?_eq_reduce_iff_demands hg built, DemandsAccept, ← ht.action?_eq_accept_iff]
  cases hcell : t.action? state symbol with
  | none => simp
  | some action => cases action <;> simp

omit hg built in
/-- A filled cell stands in a row. -/
theorem lt_size_rows_of_action? (h : t.action? state symbol = some action) :
    state < t.rows.size := by
  unfold action? at h
  obtain ⟨row, hrow, -⟩ := Option.bind_eq_some_iff.1 h
  exact (Array.getElem?_eq_some_iff.1 hrow).1

omit hg built in
theorem lt_size_rows_of_goto? (h : t.goto? state symbol = some next) :
    state < t.rows.size := by
  unfold goto? at h
  obtain ⟨row, hrow, -⟩ := Option.bind_eq_some_iff.1 h
  exact (Array.getElem?_eq_some_iff.1 hrow).1

/-! ## Columns -/

/-- **Filled ACTION cells** stand under a column. -/
theorem mem_actionColumns_of_action? (h : t.action? state symbol = some action) :
    symbol ∈ t.grammar.actionColumns := by
  have ht : t.IsCanonical := isCanonical_build hg built
  exact ht.augmented.mem_actionColumns.2 (ht.isTerminal_of_action? h)

/-- **Filled GOTO cells** stand under a column. -/
theorem mem_gotoColumns_of_goto? (h : t.goto? state symbol = some next) :
    symbol ∈ t.grammar.gotoColumns := by
  have ht : t.IsCanonical := isCanonical_build hg built
  rw [ht.augmented.mem_gotoColumns]
  exact (ht.goto?_eq_some_iff.1 h).1

/-- **The column of the added start symbol** is empty: no dot stands before it. -/
theorem goto?_start_eq_none : t.goto? state t.grammar.start = none := by
  have ht : t.IsCanonical := isCanonical_build hg built
  apply Option.eq_none_iff_forall_ne_some.2
  intro next h
  obtain ⟨i, -, hexp⟩ :=
    ht.collection.exists_holds_of_move ht.augmented (ht.goto?_eq_some_iff.1 h).2
  exact ht.augmented.ne_start_of_mem_rhs (List.mem_of_getElem? hexp) rfl

/-! ## The printed table -/

omit hg built in
/-- Only one grid is handed to all printers. -/
theorem eq_grid_of_display {grid : List (List String)}
    (h : ∀ print : GridPrinter, t.display print = print grid) : grid = t.grid := by
  by_contra hne
  have hprint : (if t.grid = t.grid then "=" else "") = if grid = t.grid then "=" else "" :=
    h fun rows => if rows = t.grid then "=" else ""
  rw [if_pos rfl, if_neg hne] at hprint
  exact absurd hprint (by decide)

omit hg built in
/-- **What is shown** stands in a row behind its number, and below the name at the same place
of the header. -/
theorem shows_iff {text : String} :
    t.Shows state symbol text ↔ state < t.rows.size ∧
      ∃ column, t.header[column + 1]? = some (t.grammar.symbols.name symbol) ∧
        (t.rowCells state)[column + 1]? = some text := by
  have hrow : ∀ column, t.grid[state + 1]?.bind (·[column + 1]?) = some text ↔
      state < t.rows.size ∧ (t.rowCells state)[column + 1]? = some text := by
    intro column
    unfold grid
    rw [List.getElem?_cons_succ, List.getElem?_map]
    by_cases hstate : state < t.rows.size
    · rw [List.getElem?_range hstate]
      exact (and_iff_right hstate).symm
    · rw [List.getElem?_eq_none (by simpa using hstate)]
      exact ⟨nofun, fun h => absurd h.1 hstate⟩
  constructor
  · rintro ⟨grid, hprint, column, hname, htext⟩
    obtain rfl := eq_grid_of_display hprint
    obtain ⟨hstate, htext⟩ := (hrow column).1 htext
    exact ⟨hstate, column, hname, htext⟩
  · rintro ⟨hstate, column, hname, htext⟩
    exact ⟨t.grid, fun _ => rfl, column, hname, (hrow column).2 ⟨hstate, htext⟩⟩

omit hg built in
/-- The text at the place of a column is shown under the symbol of the column. -/
theorem shows_of_getElem? {column : Nat} {text : String} (hstate : state < t.rows.size)
    (hcolumn : (t.grammar.actionColumns ++ t.grammar.gotoColumns)[column]? = some symbol)
    (hcell : (t.rowCells state)[column + 1]? = some text) : t.Shows state symbol text := by
  refine shows_iff.2 ⟨hstate, column, ?_, hcell⟩
  unfold header
  rw [List.getElem?_cons_succ, List.getElem?_map, hcolumn]
  rfl

/-- **All actions** are shown. -/
theorem shows_of_action? (h : t.action? state symbol = some action) :
    t.Shows state symbol action.render := by
  obtain ⟨column, hcolumn⟩ := List.getElem?_of_mem (mem_actionColumns_of_action? hg built h)
  have hlt : column < t.grammar.actionColumns.length := (List.getElem?_eq_some_iff.1 hcolumn).1
  apply shows_of_getElem? (lt_size_rows_of_action? h)
  · rw [List.getElem?_append_left hlt, hcolumn]
  · unfold rowCells
    rw [List.cons_append, List.getElem?_cons_succ,
      List.getElem?_append_left (by rwa [List.length_map]), List.getElem?_map, hcolumn,
      Option.map_some, h]
    rfl

/-- **All GOTO cells** are shown, behind the actions. -/
theorem shows_of_goto? (h : t.goto? state symbol = some next) :
    t.Shows state symbol (toString next) := by
  obtain ⟨column, hcolumn⟩ := List.getElem?_of_mem (mem_gotoColumns_of_goto? hg built h)
  have hle : t.grammar.actionColumns.length ≤ t.grammar.actionColumns.length + column :=
    Nat.le_add_right _ _
  apply shows_of_getElem? (lt_size_rows_of_goto? h)
  · rw [List.getElem?_append_right hle, Nat.add_sub_cancel_left, hcolumn]
  · unfold rowCells
    rw [List.cons_append, List.getElem?_cons_succ,
      List.getElem?_append_right (by rwa [List.length_map]), List.length_map,
      Nat.add_sub_cancel_left, List.getElem?_map, hcolumn, Option.map_some, h]
    rfl

/-- No two columns have the same name. -/
theorem nodup_names_columns :
    ((t.grammar.actionColumns ++ t.grammar.gotoColumns).map t.grammar.symbols.name).Nodup := by
  have ht : t.IsCanonical := isCanonical_build hg built
  have hterminal : ∀ {id}, id ∈ t.grammar.actionColumns →
      t.grammar.symbols.isTerminal id = true := ht.augmented.mem_actionColumns.1
  have hnonTerminal : ∀ {id}, id ∈ t.grammar.gotoColumns →
      t.grammar.symbols.isNonTerminal id = true := ht.augmented.mem_gotoColumns.1
  have hlt : ∀ {id}, id ∈ t.grammar.actionColumns ++ t.grammar.gotoColumns →
      id < t.grammar.symbols.size := by
    intro id hmem
    rcases List.mem_append.1 hmem with hmem | hmem
    · exact Grammar.IsAugmented.lt_size_of_isTerminal (hterminal hmem)
    · exact Grammar.IsAugmented.lt_size_of_isNonTerminal (hnonTerminal hmem)
  have hids : (t.grammar.actionColumns ++ t.grammar.gotoColumns).Nodup := by
    refine List.nodup_append.2
      ⟨ht.augmented.nodup_actionColumns, ht.augmented.nodup_gotoColumns, ?_⟩
    rintro id hmem other hmem' rfl
    exact SymbolTable.not_isNonTerminal_of_isTerminal (hterminal hmem) (hnonTerminal hmem')
  refine List.Nodup.map_on (fun id hmem other hmem' heq => ?_) hids
  rw [grammar_of_build built] at hlt heq
  rw [grammar_of_build built] at hmem hmem'
  exact hg.eq_of_name_augment_eq (hlt hmem) (hlt hmem') heq

/-- **What is printed of a cell** is determined by the row and the name of the column. -/
theorem Shows.unique {text text' : String} (h : t.Shows state symbol text)
    (h' : t.Shows state symbol text') : text = text' := by
  obtain ⟨-, column, hname, htext⟩ := shows_iff.1 h
  obtain ⟨-, column', hname', htext'⟩ := shows_iff.1 h'
  unfold header at hname hname'
  rw [List.getElem?_cons_succ] at hname hname'
  have hlt := (List.getElem?_eq_some_iff.1 hname).1
  have hcolumn : column = column' :=
    (List.getElem?_inj hlt (nodup_names_columns hg built)).1 (hname.trans hname'.symm)
  rw [hcolumn, htext'] at htext
  exact (Option.some.inj htext).symm

/-! ## Counting -/

theorem mem_shiftCells :
    (state, symbol) ∈ t.shiftCells ↔ ∃ next, t.action? state symbol = some (.shift next) := by
  unfold shiftCells
  rw [List.mem_filter, List.pair_mem_product, List.mem_range, Option.any_eq_true]
  constructor
  · intro h
    obtain ⟨-, action, hcell, hshift⟩ := h
    obtain ⟨next, rfl⟩ := Action.isShift_iff.1 hshift
    exact ⟨next, hcell⟩
  · intro h
    obtain ⟨next, hcell⟩ := h
    exact ⟨⟨lt_size_rows_of_action? hcell, mem_actionColumns_of_action? hg built hcell⟩,
      _, hcell, rfl⟩

theorem mem_gotoCells :
    (state, symbol) ∈ t.gotoCells ↔ ∃ next, t.goto? state symbol = some next := by
  unfold gotoCells
  rw [List.mem_filter, List.pair_mem_product, List.mem_range, Option.isSome_iff_exists]
  constructor
  · exact And.right
  · intro h
    obtain ⟨next, hcell⟩ := h
    exact ⟨⟨lt_size_rows_of_goto? hcell, mem_gotoColumns_of_goto? hg built hcell⟩, _, hcell⟩

theorem nodup_shiftCells : t.shiftCells.Nodup := by
  have ht : t.IsCanonical := isCanonical_build hg built
  exact (List.nodup_range.product ht.augmented.nodup_actionColumns).filter _

theorem nodup_gotoCells : t.gotoCells.Nodup := by
  have ht : t.IsCanonical := isCanonical_build hg built
  exact (List.nodup_range.product ht.augmented.nodup_gotoColumns).filter _

/-- **Shifts and GOTO cells** are the moves of the automaton, each once. -/
theorem perm_keys :
    (t.shiftCells ++ t.gotoCells).Perm (t.automaton.edges.map Automaton.key) := by
  have ht : t.IsCanonical := isCanonical_build hg built
  have hnodup : (t.shiftCells ++ t.gotoCells).Nodup := by
    refine List.nodup_append.2 ⟨nodup_shiftCells hg built, nodup_gotoCells hg built, ?_⟩
    rintro ⟨state, symbol⟩ hshift cell hgoto rfl
    obtain ⟨next, hshift⟩ := (mem_shiftCells hg built).1 hshift
    obtain ⟨other, hgoto⟩ := (mem_gotoCells hg built).1 hgoto
    exact SymbolTable.not_isNonTerminal_of_isTerminal (ht.action?_eq_shift_iff.1 hshift).1
      (ht.goto?_eq_some_iff.1 hgoto).1
  refine (List.perm_ext_iff_of_nodup hnodup ht.collection.nodup_keys).2 ?_
  rintro ⟨state, symbol⟩
  rw [List.mem_append, mem_shiftCells hg built, mem_gotoCells hg built, List.mem_map]
  constructor
  · rintro (⟨next, hcell⟩ | ⟨next, hcell⟩)
    · exact ⟨⟨state, symbol, next⟩,
        Automaton.mem_edges_iff.2 (ht.action?_eq_shift_iff.1 hcell).2, rfl⟩
    · exact ⟨⟨state, symbol, next⟩,
        Automaton.mem_edges_iff.2 (ht.goto?_eq_some_iff.1 hcell).2, rfl⟩
  · rintro ⟨e, he, hkey⟩
    obtain ⟨rfl, rfl⟩ := Prod.mk.inj hkey
    exact (ht.shift_or_goto_of_move (Automaton.mem_edges_iff.1 he)).imp
      (fun hcell => ⟨_, hcell⟩) (fun hcell => ⟨_, hcell⟩)

theorem length_shiftCells_add_length_gotoCells :
    t.shiftCells.length + t.gotoCells.length = t.automaton.edges.length := by
  rw [← List.length_append, (perm_keys hg built).length_eq, List.length_map]

end Built

/-! ## The table -/

/-- The cells of a table are what its item sets demand, and no view leaves one out. -/
structure IsExact (t : Table) : Prop where
  /-- The shifts. -/
  action_shift_iff : ∀ state symbol next : Nat,
    t.action? state symbol = some (.shift next) ↔ t.DemandsShift state symbol next
  /-- Acceptance. -/
  action_accept_iff : ∀ state symbol : Nat,
    t.action? state symbol = some .accept ↔ t.DemandsAccept state symbol
  /-- The reductions. -/
  action_reduce_iff : ∀ state symbol id : Nat,
    t.action? state symbol = some (.reduce id) ↔ t.DemandsReduce state symbol id
  /-- A cell for which nothing is demanded is empty. -/
  action_none_iff : ∀ state symbol : Nat, t.action? state symbol = none ↔
    (∀ next, ¬ t.DemandsShift state symbol next) ∧ ¬ t.DemandsAccept state symbol ∧
      ∀ id, ¬ t.DemandsReduce state symbol id
  /-- The GOTO cells. -/
  goto_iff : ∀ state symbol next : Nat,
    t.goto? state symbol = some next ↔ t.DemandsGoto state symbol next
  /-- Filled ACTION cells stand under a column. -/
  mem_actionColumns : ∀ (state symbol : Nat) (action : Action),
    t.action? state symbol = some action → symbol ∈ t.grammar.actionColumns
  /-- Filled GOTO cells stand under a column. -/
  mem_gotoColumns : ∀ state symbol next : Nat,
    t.goto? state symbol = some next → symbol ∈ t.grammar.gotoColumns
  nodup_actionColumns : t.grammar.actionColumns.Nodup
  nodup_gotoColumns : t.grammar.gotoColumns.Nodup
  /-- A state expects all symbols under which it has an action. -/
  expects_iff : ∀ state symbol : Nat,
    symbol ∈ t.expects state ↔ ∃ action, t.action? state symbol = some action
  /-- Whatever prints the table, it is handed all actions. -/
  shows_action : ∀ (state symbol : Nat) (action : Action),
    t.action? state symbol = some action →
      ∃ text, action.IsWritten text ∧ t.Shows state symbol text
  /-- It is handed all GOTO cells. -/
  shows_goto : ∀ state symbol next : Nat,
    t.goto? state symbol = some next → t.Shows state symbol (toString next)
  /-- Nothing else stands in a row under the name of a column. -/
  shows_unique : ∀ (state symbol : Nat) (text text' : String),
    t.Shows state symbol text → t.Shows state symbol text' → text = text'
  /-- The column of the added start symbol is empty. -/
  start_column : ∀ state : Nat, t.goto? state t.grammar.start = none
  /-- Each shift is counted once. -/
  shiftCells_iff : t.shiftCells.Nodup ∧ ∀ state symbol : Nat,
    (state, symbol) ∈ t.shiftCells ↔ ∃ next, t.action? state symbol = some (.shift next)
  /-- Each GOTO cell is counted once. -/
  gotoCells_iff : t.gotoCells.Nodup ∧ ∀ state symbol : Nat,
    (state, symbol) ∈ t.gotoCells ↔ ∃ next, t.goto? state symbol = some next
  /-- They are as many as the edges. -/
  length_cells : t.shiftCells.length + t.gotoCells.length = t.automaton.edges.length

/-- **The cells of every table are exact**: they are what the item sets of the canonical
collection demand, and neither the columns nor the printed table leave one out, whatever
prints it. -/
theorem cells_exact_of_build {text : String} {g : Grammar} {t : Table}
    (read : Grammar.ofText text = .ok g) (built : build g = .ok t) :
    t.grammar = g.augment ∧ t.first = g.augment.first ∧
      t.automaton = g.augment.automaton g.augment.first ∧ t.IsExact := by
  have hg : g.WellFormed := Grammar.wellFormed_ofText read
  have ht : t.IsCanonical := isCanonical_build hg built
  obtain ⟨hgrammar, hfirst, hautomaton⟩ := origin_of_build built
  refine ⟨hgrammar, hfirst, hautomaton, ?_⟩
  have hexpects : ∀ state symbol : Nat,
      symbol ∈ t.expects state ↔ ∃ action, t.action? state symbol = some action := by
    intro state symbol
    rw [mem_expects]
    refine and_iff_right_of_imp ?_
    rintro ⟨action, hcell⟩
    exact mem_actionColumns_of_action? hg built hcell
  exact
    { action_shift_iff := fun _ _ _ => action?_eq_shift_iff_demands hg built
      action_accept_iff := fun _ _ => ht.action?_eq_accept_iff
      action_reduce_iff := fun _ _ _ => action?_eq_reduce_iff_demands hg built
      action_none_iff := fun _ _ => action?_eq_none_iff_demands hg built
      goto_iff := fun _ _ _ => goto?_eq_some_iff_demands hg built
      mem_actionColumns := fun _ _ _ => mem_actionColumns_of_action? hg built
      mem_gotoColumns := fun _ _ _ => mem_gotoColumns_of_goto? hg built
      nodup_actionColumns := ht.augmented.nodup_actionColumns
      nodup_gotoColumns := ht.augmented.nodup_gotoColumns
      expects_iff := hexpects
      shows_action := fun _ _ action hcell =>
        ⟨action.render, action.isWritten_render, shows_of_action? hg built hcell⟩
      shows_goto := fun _ _ _ => shows_of_goto? hg built
      shows_unique := fun _ _ _ _ => Shows.unique hg built
      start_column := fun _ => goto?_start_eq_none hg built
      shiftCells_iff := ⟨nodup_shiftCells hg built, fun _ _ => mem_shiftCells hg built⟩
      gotoCells_iff := ⟨nodup_gotoCells hg built, fun _ _ => mem_gotoCells hg built⟩
      length_cells := length_shiftCells_add_length_gotoCells hg built }

/-- So it is with the table of nested pairs, of which this grid is printed. -/
theorem cells_exact_of_nested :
    ∃ t, Grammar.ofText "S -> a S b | ε" = .ok Grammar.nested ∧
      build Grammar.nested = .ok t ∧ t.grammar = Grammar.nested.augment ∧
      t.first = Grammar.nested.augment.first ∧
      t.automaton = Grammar.nested.augment.automaton Grammar.nested.augment.first ∧
      t.IsExact ∧ t.grid =
        [["#", "a", "b", "$", "S'", "S"],
         ["0", "s1", "", "r2", "", "2"],
         ["1", "s3", "r2", "", "", "4"],
         ["2", "", "", "acc", "", ""],
         ["3", "s3", "r2", "", "", "5"],
         ["4", "", "s6", "", "", ""],
         ["5", "", "s7", "", "", ""],
         ["6", "", "", "r1", "", ""],
         ["7", "", "r1", "", "", ""]] := by
  obtain ⟨g, t, read, built, -⟩ :=
    exists_table "S -> a S b | ε" (fun t => t.rows.size = 8) (by decide +kernel)
  obtain rfl := Except.ok.inj (read.symm.trans Grammar.ofText_nested)
  obtain ⟨hgrammar, hfirst, hautomaton, hexact⟩ := cells_exact_of_build read built
  have hgrid : (build Grammar.nested).toOption.map grid = some t.grid := by
    rw [built]
    rfl
  exact ⟨t, read, built, hgrammar, hfirst, hautomaton, hexact,
    Option.some.inj (hgrid.symm.trans (by decide +kernel))⟩

end Table

end CanonicalLR
