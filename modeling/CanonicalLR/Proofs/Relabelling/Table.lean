import CanonicalLR.Proofs.Relabelling.Names
import CanonicalLR.Proofs.Relabelling.States
import CanonicalLR.Proofs.Table.Conflicts

/-!
# The tables of grammars under other names

Rows are filled with numbers, and a name is looked up only for the message on a conflict.
So a grammar under other names has the same rows, or is refused for the same conflict on
the symbol with the other name. Such a symbol is a terminal or the end marker, never the
added start symbol, whose names need not be related.

## Main definitions

* `Error.relabel` — an error under other names.
* `Table.Relabels` — one table under two sets of names.

## Main results

* `SameNumbers.analysis_eq` — FIRST, FOLLOW and the canonical collection.
* `Relabels.ofState_eq` — the row of a state.
* `Relabels.build_eq` — the table, or the conflict.
* `Relabels.build_cases` — two tables under two sets of names, or two conflicts.
-/

namespace CanonicalLR

/-- The error with all names of symbols and tokens replaced. -/
def Error.relabel (ρ : String → String) : Error → Error
  | .malformedRule line text => .malformedRule line text
  | .emptyGrammar => .emptyGrammar
  | .reservedSymbol name => .reservedSymbol (ρ name)
  | .conflict state symbol existing demanded => .conflict state (ρ symbol) existing demanded
  | .unexpectedToken token position expecting =>
    .unexpectedToken (ρ token) position (expecting.map ρ)
  | .missingGoto state symbol => .missingGoto state (ρ symbol)

namespace Grammar

/-- **What is computed before the rows** is the same but for the grammar that it keeps. -/
theorem SameNumbers.analysis_eq {g h : Grammar} (hs : SameNumbers g h) :
    h.analysis = { g.analysis with grammar := h.augment } := by
  unfold analysis
  dsimp only
  rw [hs.augment.firstSaturation_eq, hs.augment.followSaturation_eq, hs.augment.automaton_eq]

namespace SameNumbers

variable {g h : Grammar} (hs : SameNumbers g h)

include hs

theorem demand_eq : Item.demand h = Item.demand g := by
  funext edges i
  unfold Item.demand
  rw [hs.symbol?_eq, hs.isTerminal_eq, hs.isAccepting_eq]

/-- **The row of a state** is the same, or the names in the conflict are related. -/
theorem ofState_eq {ρ : String → String} (hg : g.IsAugmented)
    (hname : ∀ id, g.symbols.isTerminal id = true →
      h.symbols.name id = ρ (g.symbols.name id))
    (state : Nat) {s : ItemSet} (hitems : ∀ i ∈ s, i ∈ g.items) (edges : List (Nat × Nat)) :
    Row.ofState h state s edges = (Row.ofState g state s edges).mapError (Error.relabel ρ) := by
  unfold Row.ofState
  rw [hs.demand_eq, hs.isNonTerminal_eq]
  cases hrow : place [] (s.toList.filterMap (Item.demand g edges)) with
  | ok actions => rfl
  | error clash =>
      obtain ⟨-, hdemanded, -⟩ := exists_of_place_eq_error hrow
      obtain ⟨i, hi, hdemand⟩ := List.mem_filterMap.1 hdemanded
      have hterminal := Item.isTerminal_of_demand hg (hitems i (OrdSet.mem_toList.1 hi)) hdemand
      dsimp only
      rw [hname clash.symbol hterminal]
      rfl

end SameNumbers

end Grammar

/-- A table that keeps another grammar, if each row is the same or fails with the image of the
error. -/
theorem Table.ofAnalysis_eq {a : Analysis} {g : Grammar} {image : Error → Error}
    (hrow : ∀ {state s}, a.automaton.states[state]? = some s →
      Row.ofState g state s (a.automaton.movesFrom state)
        = (Row.ofState a.grammar state s (a.automaton.movesFrom state)).mapError image) :
    ofAnalysis { a with grammar := g }
      = ((ofAnalysis a).map fun t => { t with grammar := g }).mapError image := by
  have hrows : a.automaton.states.toList.zipIdx.mapM (fun entry : ItemSet × Nat =>
        Row.ofState g entry.2 entry.1 (a.automaton.movesFrom entry.2))
      = (a.automaton.states.toList.zipIdx.mapM fun entry : ItemSet × Nat =>
          Row.ofState a.grammar entry.2 entry.1
            (a.automaton.movesFrom entry.2)).mapError image := by
    apply mapM_eq_mapError
    rintro ⟨s, state⟩ hentry
    exact hrow (by simpa using List.mem_zipIdx_iff_getElem?.1 hentry)
  unfold ofAnalysis
  refine (congrArg (· >>= _) hrows).trans ?_
  cases a.automaton.states.toList.zipIdx.mapM fun entry : ItemSet × Nat =>
      Row.ofState a.grammar entry.2 entry.1 (a.automaton.movesFrom entry.2) with
  | error e => rfl
  | ok rows => rfl

/-- **The table** is the same but for the grammar that it keeps, or the names in the conflict
are related. -/
theorem Grammar.Relabels.build_eq {ρ : String → String} {g h : Grammar} (hr : Relabels ρ g h)
    (hg : g.WellFormed) :
    Table.build h = ((Table.build g).map fun t => { t with grammar := h.augment }).mapError
      (Error.relabel ρ) := by
  have ha : g.analysis.automaton.IsCanonical g.augment := by
    rw [automaton_analysis]
    exact isCanonical_automaton hg.isAugmented
  have hname : ∀ id, g.augment.symbols.isTerminal id = true →
      h.augment.symbols.name id = ρ (g.augment.symbols.name id) := fun id hterminal =>
    (hr.name_augment_eq hg (IsAugmented.lt_size_of_isTerminal hterminal)
      (hg.isAugmented.ne_start_of_isTerminal hterminal)).1
  unfold Table.build
  rw [hr.analysis_eq]
  exact Table.ofAnalysis_eq fun hs =>
    hr.augment.ofState_eq hg.isAugmented hname _ (ha.items hs) _

/-- The second table is the first one under the names that a map of words gives to all symbols
but the added one. -/
structure Table.Relabels (ρ : String → String) (t t' : Table) : Prop where
  isCanonical : t.IsCanonical
  same : t.grammar.SameNumbers t'.grammar
  rows_eq : t'.rows = t.rows
  injOn : Set.InjOn ρ {name | IsWordText name}
  endName_eq : ρ endName = endName
  epsilonName_eq : ρ epsilonName = epsilonName
  name_eq : ∀ {id}, id < t.grammar.symbols.size → id ≠ t.grammar.start →
    t'.grammar.symbols.name id = ρ (t.grammar.symbols.name id) ∧
      IsWordText (t.grammar.symbols.name id)
  filter_find?_eq : ∀ {name}, IsWordText name →
    (t'.grammar.symbols.find? (ρ name)).filter t'.grammar.symbols.isTerminal
      = (t.grammar.symbols.find? name).filter t.grammar.symbols.isTerminal

/-- **Two tables, or two conflicts**: the same table under two sets of names, or the same
conflict on the symbol with these names. -/
theorem Grammar.Relabels.build_cases {ρ : String → String} {g h : Grammar}
    (hr : Relabels ρ g h) (hg : g.WellFormed) (hh : h.WellFormed) :
    (∃ state symbol existing demanded,
        Table.build g = .error (.conflict state symbol existing demanded) ∧
        Table.build h = .error (.conflict state (ρ symbol) existing demanded)) ∨
      ∃ t t', Table.build g = .ok t ∧ Table.build h = .ok t' ∧
        t' = { t with grammar := h.augment } ∧ t.Relabels ρ t' := by
  have hbuild := hr.build_eq hg
  cases hbuilt : Table.build g with
  | error e =>
      obtain ⟨state, symbol, existing, demanded, rfl⟩ := Table.exists_conflict_of_build hbuilt
      rw [hbuilt] at hbuild
      exact Or.inl ⟨state, symbol, existing, demanded, rfl, hbuild⟩
  | ok t =>
      rw [hbuilt] at hbuild
      refine Or.inr ⟨t, _, rfl, hbuild, rfl, ?_⟩
      have hgrammar : t.grammar = g.augment := Table.grammar_of_build hbuilt
      refine
        { isCanonical := Table.isCanonical_build hg hbuilt
          same := hgrammar ▸ hr.augment
          rows_eq := rfl
          injOn := hr.bijOn.injOn
          endName_eq := hr.apply_endName hg hh
          epsilonName_eq := hr.apply_epsilonName hg hh
          name_eq := ?_
          filter_find?_eq := ?_ }
      · rw [hgrammar]
        exact hr.name_augment_eq hg
      · rw [hgrammar]
        exact hr.filter_find?_augment hg hh

end CanonicalLR
