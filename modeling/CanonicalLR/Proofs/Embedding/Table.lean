import CanonicalLR.Proofs.Embedding.States
import CanonicalLR.Proofs.Table.Conflicts

/-!
# The tables of embedded grammars

Each row of the larger grammar is filled with the demands of the same items in the same
order, under the renumbered symbols. So a row fails on the same conflict, or has the same
cells, and the larger grammar adds columns that are empty everywhere.

## Main definitions

* `Row.rename` — a row with its symbols renumbered.
* `Table.Renames` — a table in the numbering of a larger grammar.

## Main results

* `place_map` — renumbered demands fill renumbered cells, or clash in the same place.
* `ofState_rename` — the row of a state and that of its image.
* `build_cases_of_embeds` — two tables, or one error.
* `Renames.action?_eq_some_iff`, `Renames.goto?_eq_some_iff` — the cells of the table.
-/

namespace CanonicalLR

/-- The row with its symbols renumbered. -/
def Row.rename (ρ : Nat → Nat) (row : Row) : Row :=
  ⟨row.actions.map (Prod.map ρ id), row.gotos.map (Prod.map ρ id)⟩

/-- The clash with its symbol renumbered. -/
def Clash.rename (ρ : Nat → Nat) (clash : Clash) : Clash :=
  ⟨ρ clash.symbol, clash.existing, clash.demanded⟩

/-! ## Cells -/

section Cells

variable {ρ : Nat → Nat} (hρ : Function.Injective ρ)

include hρ

theorem lookup_map {γ : Type} (cells : List (Nat × γ)) (symbol : Nat) :
    (cells.map (Prod.map ρ id)).lookup (ρ symbol) = cells.lookup symbol := by
  induction cells with
  | nil => rfl
  | cons cell cells ih =>
      obtain ⟨key, value⟩ := cell
      simp only [List.map_cons, Prod.map_apply, id, List.lookup_cons, ih, beq_eq_decide,
        hρ.eq_iff]

/-- Renumbered cells are filled under renumbered symbols only. -/
theorem lookup_map_eq_some_iff {γ : Type} {cells : List (Nat × γ)} {other : Nat} {value : γ} :
    (cells.map (Prod.map ρ id)).lookup other = some value ↔
      ∃ symbol, ρ symbol = other ∧ cells.lookup symbol = some value := by
  constructor
  · intro h
    have hmem : (other, value) ∈ cells.map (Prod.map ρ id) := by
      obtain ⟨before, after, hsplit, -⟩ := List.lookup_eq_some_iff.1 h
      rw [hsplit]
      simp
    obtain ⟨⟨symbol, v⟩, _, heq⟩ := List.mem_map.1 hmem
    obtain rfl : ρ symbol = other := congrArg Prod.fst heq
    rw [lookup_map hρ] at h
    exact ⟨symbol, rfl, h⟩
  · rintro ⟨symbol, rfl, h⟩
    rw [lookup_map hρ, h]

/-- **Renumbered demands** fill renumbered cells, or clash in the same place. -/
theorem place_map (cells demands : List (Nat × Action)) :
    place (cells.map (Prod.map ρ id)) (demands.map (Prod.map ρ id))
      = ((place cells demands).map (List.map (Prod.map ρ id))).mapError (Clash.rename ρ) := by
  induction demands generalizing cells with
  | nil => rfl
  | cons demand demands ih =>
      obtain ⟨symbol, action⟩ := demand
      simp only [List.map_cons, Prod.map_apply, id, place, lookup_map hρ]
      cases cells.lookup symbol with
      | none =>
          have hcells : cells.map (Prod.map ρ id) ++ [(ρ symbol, action)]
              = (cells ++ [(symbol, action)]).map (Prod.map ρ id) := by
            rw [List.map_append]
            rfl
          simp only [hcells, ih]
      | some existing =>
          dsimp only
          by_cases hsame : existing = action
          · rw [if_pos hsame, if_pos hsame, ih]
          · rw [if_neg hsame, if_neg hsame]
            rfl

end Cells

/-! ## Rows -/

namespace Grammar.Embeds

variable {ρ : Nat → Nat} {g h : Grammar} {s : ItemSet} {i : Item} {state : Nat}
  {edges : List (Nat × Nat)} (he : Embeds ρ g h)

include he

theorem demand_rename (hi : i ∈ g.items) (edges : List (Nat × Nat)) :
    (i.rename ρ).demand h (edges.map (Prod.map ρ id))
      = (i.demand g edges).map (Prod.map ρ id) := by
  unfold Item.demand
  rw [he.symbol?_rename hi]
  cases hexp : i.symbol? g with
  | none =>
      simp only [Option.map_none, he.isAccepting_rename hi]
      by_cases hacc : i.isAccepting g = true
      · rw [if_pos hacc, if_pos hacc, Option.map_some, Prod.map_apply, he.end_eq]
        rfl
      · rw [if_neg hacc, if_neg hacc]
        rfl
  | some symbol =>
      have hlt := he.lt_size_of_symbol? hi hexp
      simp only [Option.map_some, he.isTerminal_eq hlt, lookup_map he.strictMono.injective]
      by_cases hterminal : g.symbols.isTerminal symbol = true
      · rw [if_pos hterminal, if_pos hterminal, Option.map_map]
        rfl
      · rw [if_neg hterminal, if_neg hterminal]
        rfl

theorem demands_rename (hs : ∀ i ∈ s, i ∈ g.items) (edges : List (Nat × Nat)) :
    (s.rename ρ).toList.filterMap (Item.demand h (edges.map (Prod.map ρ id)))
      = (s.toList.filterMap (Item.demand g edges)).map (Prod.map ρ id) := by
  rw [ItemSet.toList_rename he.strictMono, List.filterMap_map, List.map_filterMap]
  apply List.filterMap_congr
  intro i hi
  exact he.demand_rename (hs i (OrdSet.mem_toList.1 hi)) edges

/-- **The row of an image** fails on the same conflict, or has the same cells. -/
theorem ofState_rename (hs : ∀ i ∈ s, i ∈ g.items)
    (hedges : ∀ edge ∈ edges, edge.1 < g.symbols.size) :
    Row.ofState h state (s.rename ρ) (edges.map (Prod.map ρ id))
      = (Row.ofState g state s edges).map (Row.rename ρ) := by
  have hplace := place_map he.strictMono.injective [] (s.toList.filterMap (Item.demand g edges))
  have hgotos : (edges.map (Prod.map ρ id)).filter (fun edge => h.symbols.isNonTerminal edge.1)
      = (edges.filter fun edge => g.symbols.isNonTerminal edge.1).map (Prod.map ρ id) := by
    rw [List.filter_map]
    congr 1
    apply List.filter_congr
    intro edge hedge
    exact he.isNonTerminal_eq (hedges edge hedge)
  unfold Row.ofState
  rw [he.demands_rename hs, hgotos]
  rw [List.map_nil] at hplace
  rw [hplace]
  cases hrow : place [] (s.toList.filterMap (Item.demand g edges)) with
  | ok actions => rfl
  | error clash =>
      obtain ⟨-, hdemanded, -⟩ := exists_of_place_eq_error hrow
      obtain ⟨i, hi, hdemand⟩ := List.mem_filterMap.1 hdemanded
      have hterminal := Item.isTerminal_of_demand he.isAugmented
        (hs i (OrdSet.mem_toList.1 hi)) hdemand
      show Except.error (Error.conflict state (h.symbols.name (ρ clash.symbol)) _ _) = _
      rw [he.name_of_isTerminal hterminal]
      rfl

end Grammar.Embeds

/-! ## Tables -/

namespace Table

/-- The second table is the first one in the numbering of a larger grammar. -/
structure Renames (ρ : Nat → Nat) (t t' : Table) : Prop where
  isCanonical : t.IsCanonical
  embeds : Grammar.Embeds ρ t.grammar t'.grammar
  rows : t'.rows = t.rows.map (Row.rename ρ)

section Build

variable {ρ : Nat → Nat} {g h : Grammar}

/-- The rows of the larger grammar, up to the first conflict. -/
theorem mapM_ofState_rename (he : Grammar.Embeds ρ g h) {a : Automaton}
    (ha : a.IsCanonical g) :
    (a.rename ρ).states.toList.zipIdx.mapM (fun entry : ItemSet × Nat =>
        Row.ofState h entry.2 entry.1 ((a.rename ρ).movesFrom entry.2))
      = (a.states.toList.zipIdx.mapM fun entry : ItemSet × Nat =>
          Row.ofState g entry.2 entry.1 (a.movesFrom entry.2)).map
            (List.map (Row.rename ρ)) := by
  have hentries : (a.rename ρ).states.toList.zipIdx
      = a.states.toList.zipIdx.map (Prod.map (ItemSet.rename ρ) id) := by
    unfold Automaton.rename
    rw [Array.toList_map, List.zipIdx_map]
  rw [hentries]
  apply mapM_map_eq
  rintro ⟨s, state⟩ hentry
  have hs : a.states[state]? = some s := by
    simpa using List.mem_zipIdx_iff_getElem?.1 hentry
  have hedges : ∀ edge ∈ a.movesFrom state, edge.1 < g.symbols.size := by
    rintro ⟨symbol, next⟩ hedge
    have hexpected := ha.mem_expected_of_move he.isAugmented hs hedge
    obtain ⟨i, hi, hexp⟩ := ItemSet.mem_expected.1 hexpected
    exact he.lt_size_of_symbol? (ha.items hs i hi) hexp
  dsimp only [Prod.map_apply, id]
  rw [Automaton.movesFrom_rename]
  exact he.ofState_rename (ha.items hs) hedges

/-- **Two tables, or one error**: the larger grammar has the same table in its own
numbering, or is refused for the same conflict. -/
theorem build_cases_of_embeds (hg : g.WellFormed)
    (he : Grammar.Embeds ρ g.augment h.augment) :
    (∃ e, build g = .error e ∧ build h = .error e) ∨
      ∃ t t', build g = .ok t ∧ build h = .ok t' ∧ t.Renames ρ t' := by
  have ha := Grammar.isCanonical_automaton hg.isAugmented
  have hrows := mapM_ofState_rename he ha
  rw [← he.automaton_rename, ← Grammar.automaton_analysis, ← Grammar.automaton_analysis]
    at hrows
  cases hresult : g.analysis.automaton.states.toList.zipIdx.mapM
      fun entry : ItemSet × Nat =>
        Row.ofState g.augment entry.2 entry.1 (g.analysis.automaton.movesFrom entry.2) with
  | error e =>
      rw [hresult] at hrows
      refine Or.inl ⟨e, ?_, ?_⟩
      · unfold build ofAnalysis
        exact congrArg (· >>= _) hresult
      · unfold build ofAnalysis
        exact congrArg (· >>= _) hrows
  | ok rows =>
      rw [hresult] at hrows
      have hbuilt : ∃ t, build g = .ok t ∧ t.rows = rows.toArray := by
        refine ⟨_, congrArg (· >>= _) hresult, rfl⟩
      have hbuilt' : ∃ t, build h = .ok t ∧ t.rows = (rows.map (Row.rename ρ)).toArray := by
        refine ⟨_, congrArg (· >>= _) hrows, rfl⟩
      obtain ⟨t, hbuilt, hrow⟩ := hbuilt
      obtain ⟨t', hbuilt', hrow'⟩ := hbuilt'
      refine Or.inr ⟨t, t', hbuilt, hbuilt', isCanonical_build hg hbuilt, ?_, ?_⟩
      · rw [grammar_of_build hbuilt, grammar_of_build hbuilt']
        exact he
      · rw [hrow, hrow', List.map_toArray]

end Build

/-! ## Cells -/

namespace Renames

variable {ρ : Nat → Nat} {t t' : Table} {state symbol other next : Nat} {action : Action}
  (ht : Renames ρ t t')

include ht

theorem size_rows : t'.rows.size = t.rows.size := by
  rw [ht.rows, Array.size_map]

/-- **The ACTION cells** of the larger table are those of the smaller one. -/
theorem action?_eq_some_iff :
    t'.action? state other = some action ↔
      ∃ symbol, ρ symbol = other ∧ t.action? state symbol = some action := by
  unfold action?
  rw [ht.rows, Array.getElem?_map]
  cases t.rows[state]? with
  | none => simp
  | some row => exact lookup_map_eq_some_iff ht.embeds.strictMono.injective

/-- **The GOTO cells** of the larger table are those of the smaller one. -/
theorem goto?_eq_some_iff :
    t'.goto? state other = some next ↔
      ∃ symbol, ρ symbol = other ∧ t.goto? state symbol = some next := by
  unfold goto?
  rw [ht.rows, Array.getElem?_map]
  cases t.rows[state]? with
  | none => simp
  | some row => exact lookup_map_eq_some_iff ht.embeds.strictMono.injective

theorem action?_rename : t'.action? state (ρ symbol) = t.action? state symbol := by
  apply Option.ext
  intro action
  rw [ht.action?_eq_some_iff]
  simp only [ht.embeds.strictMono.injective.eq_iff, exists_eq_left]

theorem goto?_rename : t'.goto? state (ρ symbol) = t.goto? state symbol := by
  apply Option.ext
  intro next
  rw [ht.goto?_eq_some_iff]
  simp only [ht.embeds.strictMono.injective.eq_iff, exists_eq_left]

end Renames

end Table

end CanonicalLR
