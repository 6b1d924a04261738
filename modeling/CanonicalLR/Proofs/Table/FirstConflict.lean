import CanonicalLR.Proofs.Automaton.Exact
import CanonicalLR.Proofs.Table.Conflicts

/-!
# The first conflict

The rows of a table are filled state by state and, in each state, item by item. The
table is refused at the first state in which two items ask for different actions on one
symbol, and there at the first item that asks for another action than an item before it.
Which state, symbol and actions are reported is thereby determined.

## Main definitions

* `Automaton.Asks` — what an item of a state asks for, and on which symbol.
* `Automaton.Disagree`, `Automaton.HasConflict` — items that ask for different actions.
* `Item.Conflicting` — the three kinds of conflicts.
* `Automaton.FirstConflict` — what is to be reported.

## Main results

* `demand_eq_iff_asks` — rows are filled with what the items ask for.
* `exists_first_of_place_eq_error` — where the first clash lies.
* `hasConflict_iff` — a state has a conflict exactly if two items are of one of the kinds.
* `FirstConflict.unique` — there is one first conflict at most.
* `build_refused_iff` — tables are refused for the first conflict, and for nothing else.
-/

namespace CanonicalLR

/-! ## Definitions -/

/-- `a.Asks g state i symbol action`: an item of a state asks for an action on a symbol. -/
inductive Automaton.Asks (a : Automaton) (g : Grammar) (state : Nat) (i : Item) :
    Nat → Action → Prop where
  /-- With a terminal after its dot, for a shift along the move over it. -/
  | shift {symbol next : Nat} (terminal : g.symbols.kind? symbol = some .terminal)
      (expected : i.symbol? g = some symbol) (move : a.Moves state symbol next) :
      a.Asks g state i symbol (.shift next)
  /-- With its dot at the end, for a reduction on its lookahead. -/
  | reduce (exhausted : i.isExhausted g = true) (other : i ≠ ⟨0, 1, endId⟩) :
      a.Asks g state i i.lookahead (.reduce i.rule)
  /-- The item `[S' -> S •, $]` asks for acceptance on the end marker. -/
  | accept (accepting : i = ⟨0, 1, endId⟩) : a.Asks g state i endId .accept

/-- Two items of a state ask for different actions on one symbol. -/
def Automaton.Disagree (a : Automaton) (g : Grammar) (state : Nat) (i j : Item) : Prop :=
  ∃ symbol action other,
    a.Asks g state i symbol action ∧ a.Asks g state j symbol other ∧ action ≠ other

/-- Some items of a state disagree. -/
def Automaton.HasConflict (a : Automaton) (g : Grammar) (state : Nat) : Prop :=
  ∃ i j, a.Holds state i ∧ a.Holds state j ∧ a.Disagree g state i j

/-- The kinds of conflicts. -/
inductive Item.Conflicting (g : Grammar) (i j : Item) : Prop where
  /-- A terminal is to be shifted, and to be reduced on. -/
  | shiftReduce (terminal : g.symbols.kind? j.lookahead = some .terminal)
      (expected : i.symbol? g = some j.lookahead) (exhausted : j.isExhausted g = true)
  /-- Two rules are to be reduced on one lookahead. -/
  | reduceReduce (exhausted : i.isExhausted g = true) (exhausted' : j.isExhausted g = true)
      (rules : i.rule ≠ j.rule) (lookaheads : i.lookahead = j.lookahead)
  /-- The input is to be accepted, and a rule to be reduced at its end. -/
  | acceptReduce (accepting : i = ⟨0, 1, endId⟩) (exhausted : j.isExhausted g = true)
      (other : j ≠ i) (lookahead : j.lookahead = endId)

/-- The conflict that is met first, by states and by items. -/
structure Automaton.FirstConflict (a : Automaton) (g : Grammar) (state symbol : Nat)
    (existing demanded : Action) : Prop where
  hasConflict : a.HasConflict g state
  /-- No smaller state has a conflict. -/
  first_state : ∀ earlier < state, ¬ a.HasConflict g earlier
  /-- An item asks for another action than an item before it, and no two of the items
  before it disagree. -/
  first_item : ∃ i, a.Holds state i ∧ a.Asks g state i symbol demanded ∧
    (∃ j, a.Holds state j ∧ compare j i = .lt ∧ a.Asks g state j symbol existing) ∧
    ∀ j k, a.Holds state j → a.Holds state k → compare j i = .lt → compare k i = .lt →
      ¬ a.Disagree g state j k
  differ : existing ≠ demanded
  /-- One of the two is a reduction. -/
  reduces : (∃ id, existing = .reduce id) ∨ ∃ id, demanded = .reduce id

/-! ## Demands and clashes -/

/-- The members before one in the list of a set are the smaller ones. -/
theorem OrdSet.mem_before_iff {α : Type} [Ord α] [Std.LawfulEqOrd α] [Std.TransOrd α]
    {s : OrdSet α} {a b : α} {before after : List α}
    (h : s.toList = before ++ a :: after) :
    b ∈ before ↔ b ∈ s ∧ compare b a = .lt := by
  have hascending := s.ascending
  rw [h] at hascending
  obtain ⟨-, hrest, hacross⟩ := List.pairwise_append.1 hascending
  rw [← OrdSet.mem_toList, h, List.mem_append, List.mem_cons]
  constructor
  · intro hb
    exact ⟨Or.inl hb, hacross b hb a List.mem_cons_self⟩
  · rintro ⟨hb | rfl | hb, hlt⟩
    · exact hb
    · exact absurd hlt (OrdSet.not_lt_self b)
    · have hgt := (List.pairwise_cons.1 hrest).1 b hb
      exact absurd (Std.TransCmp.lt_trans hlt hgt) (OrdSet.not_lt_self b)

/-- **The first clash**: the demands before it are entered, and one of them stands in its
cell. -/
theorem exists_first_of_place_eq_error {cells demands : List (Nat × Action)} {clash : Clash}
    (h : place cells demands = .error clash) :
    ∃ before after filled,
      demands = before ++ (clash.symbol, clash.demanded) :: after ∧
      place cells before = .ok filled ∧
      filled.lookup clash.symbol = some clash.existing ∧
      clash.existing ≠ clash.demanded := by
  induction demands generalizing cells with
  | nil => cases h
  | cons demand demands ih =>
      obtain ⟨symbol, action⟩ := demand
      simp only [place] at h
      split at h
      next free =>
        obtain ⟨before, after, filled, rfl, hplace, hclash⟩ := ih h
        refine ⟨(symbol, action) :: before, after, filled, rfl, ?_, hclash⟩
        simp only [place, free, hplace]
      next existing taken =>
        split at h
        next same =>
          obtain ⟨before, after, filled, rfl, hplace, hclash⟩ := ih h
          refine ⟨(symbol, action) :: before, after, filled, rfl, ?_, hclash⟩
          simp only [place, taken, if_pos same, hplace]
        next differs =>
          obtain rfl := Except.error.inj h
          exact ⟨[], demands, cells, rfl, rfl, taken, differs⟩

/-- **The first clash** is that of an item with the items before it. -/
theorem exists_first_item_of_place_eq_error {items : List Item}
    {demand : Item → Option (Nat × Action)} {clash : Clash}
    (h : place [] (items.filterMap demand) = .error clash) :
    ∃ before i behind filled, items = before ++ i :: behind ∧
      demand i = some (clash.symbol, clash.demanded) ∧
      place [] (before.filterMap demand) = .ok filled ∧
      filled.lookup clash.symbol = some clash.existing ∧
      clash.existing ≠ clash.demanded := by
  obtain ⟨before, after, filled, hsplit, hbefore, hlookup, hdiffer⟩ :=
    exists_first_of_place_eq_error h
  obtain ⟨front, rest, rfl, rfl, hrest⟩ := List.filterMap_eq_append_iff.1 hsplit
  obtain ⟨quiet, i, behind, rfl, hquiet, hdemand, -⟩ := List.filterMap_eq_cons_iff.1 hrest
  have hsilent : quiet.filterMap demand = [] := List.filterMap_eq_nil_iff.2 hquiet
  refine ⟨front ++ quiet, i, behind, filled, (List.append_assoc ..).symm, hdemand, ?_,
    hlookup, hdiffer⟩
  rw [List.filterMap_append, hsilent, List.append_nil, hbefore]

namespace Automaton

variable {a : Automaton} {g : Grammar} {i j : Item} {state symbol other : Nat}
  {action action' : Action} {s : ItemSet}

section Canonical

variable (ha : a.IsCanonical g) (hg : g.IsAugmented)

include ha hg

/-- **Demands** are what the items of a state ask for. -/
theorem demand_eq_iff_asks (hi : a.Holds state i) :
    i.demand g (a.movesFrom state) = some (symbol, action) ↔ a.Asks g state i symbol action := by
  obtain ⟨s, hs, hmem⟩ := id hi
  have hlookup : ∀ {next : Nat}, (a.movesFrom state).lookup symbol = some next ↔
      a.Moves state symbol next := lookup_eq_some_iff_mem (ha.nodup_symbols hs)
  constructor
  · intro h
    cases action with
    | shift next =>
        obtain ⟨hexp, hterminal, hnext⟩ := Item.demand_eq_shift_iff.1 h
        have hrhs : symbol ∈ (g.rule i.rule).rhs := List.mem_of_getElem? hexp
        exact .shift (hg.kind?_of_mem_rhs_of_isTerminal hrhs hterminal) hexp (hlookup.1 hnext)
    | reduce id =>
        obtain ⟨hend, hnot, rfl, rfl⟩ := Item.demand_eq_reduce_iff.1 h
        refine .reduce hend ?_
        intro heq
        rw [(ha.isAccepting_iff hg hi).2 heq] at hnot
        cases hnot
    | accept =>
        obtain ⟨hacc, rfl⟩ := Item.demand_eq_accept_iff.1 h
        exact .accept ((ha.isAccepting_iff hg hi).1 hacc)
  · intro h
    cases h with
    | shift terminal expected move =>
        exact Item.demand_eq_shift_iff.2
          ⟨expected, hg.isTerminal_iff.2 (Or.inl terminal), hlookup.2 move⟩
    | reduce exhausted other =>
        have hnot : i.isAccepting g = false := by
          rw [Bool.eq_false_iff, ne_eq, ha.isAccepting_iff hg hi]
          exact other
        exact Item.demand_eq_reduce_iff.2 ⟨exhausted, hnot, rfl, rfl⟩
    | accept accepting =>
        exact Item.demand_eq_accept_iff.2 ⟨(ha.isAccepting_iff hg hi).2 accepting, rfl⟩

/-- An item asks for one action on one symbol. -/
theorem asks_unique (hi : a.Holds state i) (h : a.Asks g state i symbol action)
    (h' : a.Asks g state i other action') : symbol = other ∧ action = action' := by
  have hdemand := (demand_eq_iff_asks ha hg hi).2 h
  rw [(demand_eq_iff_asks ha hg hi).2 h'] at hdemand
  obtain ⟨rfl, rfl⟩ := Prod.mk.inj (Option.some.inj hdemand)
  exact ⟨rfl, rfl⟩

omit ha hg in
/-- A completed item asks for an action on its lookahead. -/
theorem exists_asks_of_isExhausted (hend : i.isExhausted g = true) :
    ∃ action, a.Asks g state i i.lookahead action ∧
      (action = .accept ∧ i = ⟨0, 1, endId⟩ ∨ action = .reduce i.rule) := by
  by_cases hacc : i = ⟨0, 1, endId⟩
  · refine ⟨.accept, ?_, Or.inl ⟨rfl, hacc⟩⟩
    rw [hacc]
    exact .accept rfl
  · exact ⟨.reduce i.rule, .reduce hend hacc, Or.inr rfl⟩

/-- **One of two different actions** on one symbol is a reduction. -/
theorem exists_reduce_of_ne (h : a.Asks g state i symbol action)
    (h' : a.Asks g state j symbol action') (hne : action ≠ action') :
    (∃ id, action = .reduce id) ∨ ∃ id, action' = .reduce id := by
  cases h with
  | reduce _ _ => exact Or.inl ⟨_, rfl⟩
  | shift terminal _ move =>
      cases h' with
      | reduce _ _ => exact Or.inr ⟨_, rfl⟩
      | shift _ _ move' => exact absurd (congrArg Action.shift (ha.next_unique move move')) hne
      | accept _ => exact absurd rfl (hg.ne_endId_of_terminal terminal)
  | accept _ =>
      generalize hend : endId = last at h'
      cases h' with
      | reduce _ _ => exact Or.inr ⟨_, rfl⟩
      | shift terminal _ _ => exact absurd hend.symm (hg.ne_endId_of_terminal terminal)
      | accept _ => exact absurd rfl hne

/-! ## Kinds of conflicts -/

/-- Items of one of the kinds disagree. -/
theorem disagree_of_conflicting (hi : a.Holds state i) (h : i.Conflicting g j) :
    a.Disagree g state i j := by
  cases h with
  | shiftReduce terminal expected exhausted =>
      obtain ⟨next, hmove⟩ := ha.exists_next hg hi expected
      obtain ⟨action, hask, hcases⟩ := exists_asks_of_isExhausted exhausted
      refine ⟨_, _, action, .shift terminal expected hmove, hask, ?_⟩
      rintro rfl
      rcases hcases with ⟨haccept, -⟩ | hreduce
      · cases haccept
      · cases hreduce
  | reduceReduce exhausted exhausted' rules lookaheads =>
      obtain ⟨action, hask, hcases⟩ := exists_asks_of_isExhausted exhausted
      obtain ⟨action', hask', hcases'⟩ := exists_asks_of_isExhausted exhausted'
      refine ⟨_, action, action', hask, lookaheads ▸ hask', ?_⟩
      rintro rfl
      rcases hcases with ⟨rfl, rfl⟩ | rfl
      · rcases hcases' with ⟨-, rfl⟩ | hreduce
        · exact rules rfl
        · cases hreduce
      · rcases hcases' with ⟨haccept, -⟩ | hreduce
        · cases haccept
        · exact rules (Action.reduce.inj hreduce)
  | acceptReduce accepting exhausted other lookahead =>
      obtain ⟨action, hask, hcases⟩ := exists_asks_of_isExhausted exhausted
      refine ⟨_, _, action, .accept accepting, lookahead ▸ hask, ?_⟩
      rintro rfl
      rcases hcases with ⟨-, heq⟩ | hreduce
      · exact other (heq.trans accepting.symm)
      · cases hreduce

omit ha hg in
/-- What asks for a reduction is in conflict with all that asks for anything else on its
lookahead. -/
theorem conflicting_of_ne {id : Nat} (h : a.Asks g state j symbol (.reduce id))
    (h' : a.Asks g state i symbol action) (hne : action ≠ .reduce id) : i.Conflicting g j := by
  cases h with
  | reduce exhausted other =>
      generalize hlast : j.lookahead = last at h'
      cases h' with
      | shift terminal expected _ =>
          rw [← hlast] at terminal expected
          exact .shiftReduce terminal expected exhausted
      | reduce exhausted' _ =>
          have hrules : i.rule ≠ j.rule := by
            intro heq
            exact hne (congrArg Action.reduce heq)
          exact .reduceReduce exhausted' exhausted hrules hlast.symm
      | accept accepting =>
          refine .acceptReduce accepting exhausted ?_ hlast
          rw [accepting]
          exact other

/-- **A state has a conflict** exactly if two of its items are of one of the kinds. -/
theorem hasConflict_iff :
    a.HasConflict g state ↔ ∃ i j, a.Holds state i ∧ a.Holds state j ∧ i.Conflicting g j := by
  constructor
  · intro h
    obtain ⟨i, j, hi, hj, symbol, action, action', hask, hask', hne⟩ := h
    rcases exists_reduce_of_ne ha hg hask hask' hne with ⟨id, rfl⟩ | ⟨id, rfl⟩
    · exact ⟨j, i, hj, hi, conflicting_of_ne hask hask' hne.symm⟩
    · exact ⟨i, j, hi, hj, conflicting_of_ne hask' hask hne⟩
  · intro h
    obtain ⟨i, j, hi, hj, hconflict⟩ := h
    exact ⟨i, j, hi, hj, disagree_of_conflicting ha hg hi hconflict⟩

/-! ## Rows -/

/-- Items whose demands are entered do not disagree. -/
theorem not_disagree_of_place {items : List Item} {filled : List (Nat × Action)}
    (hitems : ∀ i ∈ items, a.Holds state i)
    (h : place [] (items.filterMap (Item.demand g (a.movesFrom state))) = .ok filled)
    (hi : i ∈ items) (hj : j ∈ items) : ¬ a.Disagree g state i j := by
  have hcell : ∀ {k : Item} {symbol : Nat} {action : Action}, k ∈ items →
      a.Asks g state k symbol action → filled.lookup symbol = some action := by
    intro k symbol action hk hask
    have hdemand := (demand_eq_iff_asks ha hg (hitems k hk)).2 hask
    exact (lookup_place h).2 (Or.inr (List.mem_filterMap.2 ⟨k, hk, hdemand⟩))
  rintro ⟨symbol, action, action', hask, hask', hne⟩
  have hcells := hcell hi hask
  rw [hcell hj hask'] at hcells
  exact hne (Option.some.inj hcells).symm

/-- A row that is filled has no conflict. -/
theorem not_hasConflict_of_ofState {row : Row} (hs : a.states[state]? = some s)
    (h : Row.ofState g state s (a.movesFrom state) = .ok row) : ¬ a.HasConflict g state := by
  have hplace := (Table.IsCanonical.cells_of_ofState h).1
  have hmem : ∀ {i : Item}, a.Holds state i → i ∈ s.toList := by
    rintro i ⟨s', hs', hi⟩
    rw [hs] at hs'
    exact Option.some.inj hs' ▸ OrdSet.mem_toList.2 hi
  rintro ⟨i, j, hi, hj, hdisagree⟩
  exact not_disagree_of_place ha hg (fun k hk => ⟨s, hs, OrdSet.mem_toList.1 hk⟩) hplace
    (hmem hi) (hmem hj) hdisagree

/-- **A row that fails** after rows without conflicts reports the first conflict. -/
theorem exists_firstConflict_of_ofState {e : Error} (hs : a.states[state]? = some s)
    (hfirst : ∀ earlier < state, ¬ a.HasConflict g earlier)
    (h : Row.ofState g state s (a.movesFrom state) = .error e) :
    ∃ symbol existing demanded,
      e = .conflict state (g.symbols.name symbol) existing demanded ∧
      a.FirstConflict g state symbol existing demanded := by
  unfold Row.ofState at h
  cases hplace : place [] (s.toList.filterMap (Item.demand g (a.movesFrom state))) with
  | ok actions =>
      rw [hplace] at h
      cases h
  | error clash =>
      rw [hplace] at h
      refine ⟨clash.symbol, clash.existing, clash.demanded, (Except.error.inj h).symm, ?_⟩
      obtain ⟨before, i, behind, filled, hitems, hdemand, hplaced, hlookup, hdiffer⟩ :=
        exists_first_item_of_place_eq_error hplace
      have hholds : ∀ {j : Item}, j ∈ s → a.Holds state j := fun hj => ⟨s, hs, hj⟩
      have hmem : ∀ {j : Item}, j ∈ before ↔ j ∈ s ∧ compare j i = .lt :=
        OrdSet.mem_before_iff hitems
      have hi : i ∈ s := by
        rw [← OrdSet.mem_toList, hitems]
        simp
      have hask := (demand_eq_iff_asks ha hg (hholds hi)).1 hdemand
      have hexisting : ∃ j, a.Holds state j ∧ compare j i = .lt ∧
          a.Asks g state j clash.symbol clash.existing := by
        rcases (lookup_place hplaced).1 hlookup with hnone | hearlier
        · cases hnone
        · obtain ⟨j, hj, hdemand'⟩ := List.mem_filterMap.1 hearlier
          obtain ⟨hj, hlt⟩ := hmem.1 hj
          exact ⟨j, hholds hj, hlt, (demand_eq_iff_asks ha hg (hholds hj)).1 hdemand'⟩
      obtain ⟨j, hj, hlt, hask'⟩ := hexisting
      refine
        { hasConflict := ⟨j, i, hj, hholds hi, _, _, _, hask', hask, hdiffer⟩
          first_state := hfirst
          first_item := ⟨i, hholds hi, hask, ⟨j, hj, hlt, hask'⟩, ?_⟩
          differ := hdiffer
          reduces := exists_reduce_of_ne ha hg hask' hask hdiffer }
      intro k l hk hl hbeforek hbeforel
      have hin : ∀ {k : Item}, a.Holds state k → compare k i = .lt → k ∈ before := by
        rintro k ⟨s', hs', hk⟩ hlt
        rw [hs] at hs'
        exact hmem.2 ⟨Option.some.inj hs' ▸ hk, hlt⟩
      exact not_disagree_of_place ha hg (fun k hk => hholds (hmem.1 hk).1) hplaced
        (hin hk hbeforek) (hin hl hbeforel)

/-! ## There is one first conflict -/

/-- **The first conflict is determined**: state, symbol and actions. -/
theorem FirstConflict.unique {state' symbol' : Nat} {existing demanded existing' demanded' : Action}
    (h : a.FirstConflict g state symbol existing demanded)
    (h' : a.FirstConflict g state' symbol' existing' demanded') :
    state = state' ∧ symbol = symbol' ∧ existing = existing' ∧ demanded = demanded' := by
  have hstate : state = state' := by
    rcases Nat.lt_trichotomy state state' with hlt | heq | hgt
    · exact absurd h.hasConflict (h'.first_state _ hlt)
    · exact heq
    · exact absurd h'.hasConflict (h.first_state _ hgt)
  subst hstate
  obtain ⟨i, hi, hask, ⟨j, hj, hlt, hold⟩, hbefore⟩ := h.first_item
  obtain ⟨i', hi', hask', ⟨j', hj', hlt', hold'⟩, hbefore'⟩ := h'.first_item
  have hitem : i = i' := by
    cases hcompare : compare i i' with
    | eq => exact Std.LawfulEqOrd.eq_of_compare hcompare
    | lt =>
        exact absurd ⟨symbol, existing, demanded, hold, hask, h.differ⟩
          (hbefore' j i hj hi (Std.TransCmp.lt_trans hlt hcompare) hcompare)
    | gt =>
        have hgt : compare i' i = .lt := Std.OrientedCmp.gt_iff_lt.1 hcompare
        exact absurd ⟨symbol', existing', demanded', hold', hask', h'.differ⟩
          (hbefore j' i' hj' hi' (Std.TransCmp.lt_trans hlt' hgt) hgt)
  subst hitem
  obtain ⟨rfl, rfl⟩ := asks_unique ha hg hi hask hask'
  refine ⟨rfl, rfl, ?_, rfl⟩
  by_contra hne
  exact hbefore j j' hj hj' hlt hlt' ⟨symbol, existing, existing', hold, hold', hne⟩

end Canonical

end Automaton

/-! ## Tables -/

namespace Table

variable {g : Grammar} {e : Error}

/-- The error of a table is that of the first row that fails. -/
theorem exists_first_row_of_ofAnalysis {a : Analysis} (h : ofAnalysis a = .error e) :
    ∃ (state : Nat) (s : ItemSet), a.automaton.states[state]? = some s ∧
      Row.ofState a.grammar state s (a.automaton.movesFrom state) = .error e ∧
      ∀ earlier < state, ∃ (s : ItemSet) (row : Row),
        a.automaton.states[earlier]? = some s ∧
        Row.ofState a.grammar earlier s (a.automaton.movesFrom earlier) = .ok row := by
  unfold ofAnalysis at h
  rcases cases_of_bind_eq_error h with hrows | ⟨rows, _, ht⟩
  · obtain ⟨before, ⟨s, state⟩, after, hsplit, hrow, hbefore⟩ :=
      exists_first_of_mapM_eq_error hrows
    have hstates : ∀ k : Nat, a.automaton.states.toList.zipIdx[k]?
        = a.automaton.states[k]?.map fun s => (s, k) := by
      intro k
      simp [List.getElem?_zipIdx]
    have hstate := hstates before.length
    rw [hsplit, List.getElem?_append_right (Nat.le_refl _), Nat.sub_self] at hstate
    obtain ⟨s', hs', heq⟩ := Option.map_eq_some_iff.1 hstate.symm
    obtain ⟨rfl, rfl⟩ := Prod.mk.inj heq
    refine ⟨_, s', hs', hrow, ?_⟩
    intro earlier hlt
    have hentry := hstates earlier
    rw [hsplit, List.getElem?_append_left hlt] at hentry
    have hget : before[earlier]? = some before[earlier] := List.getElem?_eq_getElem hlt
    rw [hget] at hentry
    obtain ⟨s, hs, heq⟩ := Option.map_eq_some_iff.1 hentry.symm
    obtain ⟨row, hok⟩ := hbefore _ (List.mem_of_getElem? hget)
    rw [← heq] at hok
    exact ⟨s, row, hs, hok⟩
  · cases ht

/-- **A grammar without a table** has a first conflict, and it is reported. -/
theorem exists_firstConflict_of_build (hg : g.WellFormed) (h : build g = .error e) :
    ∃ state symbol existing demanded,
      e = .conflict state (g.augment.symbols.name symbol) existing demanded ∧
      (g.augment.automaton g.augment.first).FirstConflict g.augment state symbol existing
        demanded := by
  have ha := Grammar.isCanonical_automaton hg.isAugmented
  obtain ⟨state, s, hs, hrow, hbefore⟩ :=
    exists_first_row_of_ofAnalysis (a := g.analysis) h
  rw [Grammar.automaton_analysis] at hs hrow hbefore
  have hfirst : ∀ earlier < state,
      ¬ (g.augment.automaton g.augment.first).HasConflict g.augment earlier := by
    intro earlier hlt
    obtain ⟨s, row, hs, hok⟩ := hbefore earlier hlt
    exact Automaton.not_hasConflict_of_ofState ha hg.isAugmented hs hok
  exact ⟨state, Automaton.exists_firstConflict_of_ofState ha hg.isAugmented hs hfirst hrow⟩

/-- A grammar with a table has no conflict. -/
theorem not_hasConflict_of_build {t : Table} (hg : g.WellFormed) (h : build g = .ok t)
    (state : Nat) :
    ¬ (g.augment.automaton g.augment.first).HasConflict g.augment state := by
  have ht : t.IsCanonical := isCanonical_build hg h
  obtain ⟨⟨hgrammar, -, hautomaton⟩, -⟩ := rows_of_ofAnalysis_eq_ok (a := g.analysis) h
  rw [Grammar.automaton_analysis] at hautomaton
  intro hconflict
  obtain ⟨i, j, ⟨s, hs, -⟩, -⟩ := id hconflict
  rw [← hautomaton] at hs
  obtain ⟨row, -, hofState⟩ := ht.row hs
  have hnot := Automaton.not_hasConflict_of_ofState ht.collection ht.augmented hs hofState
  rw [hautomaton, hgrammar] at hnot
  exact hnot hconflict

/-- A table is refused if and only if some state has a conflict. -/
theorem exists_error_iff_hasConflict (hg : g.WellFormed) :
    (∃ e, build g = .error e) ↔
      ∃ state, (g.augment.automaton g.augment.first).HasConflict g.augment state := by
  constructor
  · intro h
    obtain ⟨e, h⟩ := h
    obtain ⟨state, _, _, _, -, hfirst⟩ := exists_firstConflict_of_build hg h
    exact ⟨state, hfirst.hasConflict⟩
  · intro h
    obtain ⟨state, hconflict⟩ := h
    cases hbuilt : build g with
    | error e => exact ⟨e, rfl⟩
    | ok t => exact absurd hconflict (not_hasConflict_of_build hg hbuilt state)

/-- **Conflicts are reported** if and only if there are any: a grammar text has no table
exactly if two items of a state of its canonical collection are in conflict; the error is
then the first conflict. -/
theorem build_refused_iff {text : String} (read : Grammar.ofText text = .ok g) :
    ((∃ e, build g = .error e) ↔
      ∃ state, (g.augment.automaton g.augment.first).HasConflict g.augment state) ∧
    (∀ state, (g.augment.automaton g.augment.first).HasConflict g.augment state ↔
      ∃ i j, (g.augment.automaton g.augment.first).Holds state i ∧
        (g.augment.automaton g.augment.first).Holds state j ∧
        i.Conflicting g.augment j) ∧
    ∀ e, build g = .error e ↔ ∃ state symbol existing demanded,
      e = .conflict state (g.augment.symbols.name symbol) existing demanded ∧
      (g.augment.automaton g.augment.first).FirstConflict g.augment state symbol existing
        demanded := by
  have hg : g.WellFormed := Grammar.wellFormed_ofText read
  have ha := Grammar.isCanonical_automaton hg.isAugmented
  refine ⟨exists_error_iff_hasConflict hg, fun state => ?_, fun e => ?_⟩
  · exact Automaton.hasConflict_iff ha hg.isAugmented
  · constructor
    · exact exists_firstConflict_of_build hg
    · intro h
      obtain ⟨state, symbol, existing, demanded, rfl, hfirst⟩ := h
      obtain ⟨e, hbuilt⟩ := (exists_error_iff_hasConflict hg).2 ⟨state, hfirst.hasConflict⟩
      obtain ⟨state', symbol', existing', demanded', rfl, hfirst'⟩ :=
        exists_firstConflict_of_build hg hbuilt
      obtain ⟨rfl, rfl, rfl, rfl⟩ := hfirst.unique ha hg.isAugmented hfirst'
      exact hbuilt

/-- So it is with an `else` that may belong to either of two conditions. -/
theorem build_refused_of_dangling_else :
    ∃ g, Grammar.ofText "S -> if S | if S else S | a" = .ok g ∧
      build g = .error (.conflict 7 "else" (.reduce 1) (.shift 9)) ∧
      ∃ symbol, g.augment.symbols.name symbol = "else" ∧
        (g.augment.automaton g.augment.first).FirstConflict g.augment 7 symbol (.reduce 1)
          (.shift 9) := by
  have hrefused : (Grammar.ofText "S -> if S | if S else S | a").bind build
      = .error (.conflict 7 "else" (.reduce 1) (.shift 9)) := by
    decide +kernel
  cases read : Grammar.ofText "S -> if S | if S else S | a" with
  | error e =>
      have hread : (Grammar.ofText "S -> if S | if S else S | a").toOption.isSome = true := by
        decide +kernel
      rw [read] at hread
      cases hread
  | ok g =>
      rw [read, Except.bind] at hrefused
      obtain ⟨state, symbol, existing, demanded, heq, hfirst⟩ :=
        ((build_refused_iff read).2.2 _).1 hrefused
      obtain ⟨rfl, hname, rfl, rfl⟩ := Error.conflict.inj heq
      exact ⟨g, rfl, hrefused, symbol, hname.symm, hfirst⟩

end Table

end CanonicalLR
