import CanonicalLR.Proofs.Items.Goto
import Mathlib.Data.Finset.Powerset

/-!
# The canonical collection

The walk over the states expands each of them once, in the order in which they
are met, and stops when none is left. This module says what it leaves behind:
state 0 is the closure of the start item, every state has exactly the moves
over the symbols that its items expect, and each move leads to the state that
goto names.

## Main definitions

* `Exploration.IsSound` — what the walk has found so far is right.
* `Automaton.IsCanonical` — what is true of the automaton of a grammar.

## Main results

* `rounds_induction` — what every expansion keeps, the whole walk keeps.
* `IsSound.expand`, `IsSound.rounds` — one more expansion, and the whole walk,
  find nothing wrong.
* `IsSound.size_le` — there are no more states than sets of items.
* `isCanonical_automaton` — the walk expands all states.
* `eq_of_getElem?_states` — no item set is two states.
-/

namespace CanonicalLR

/-! ## Meeting states -/

namespace Numbering

variable {α : Type} [Ord α] [Std.TransOrd α] [Std.LawfulEqOrd α] {n : Numbering α}
  {a b : α} {i : Nat}

/-- What stands under a number after a meeting stood there before, or it is the
new value and has the next number. -/
theorem getElem?_meet_cases (h : (n.meet a).2.values[i]? = some b) :
    n.values[i]? = some b ∨ (i = n.size ∧ b = a) := by
  simp only [meet] at h
  split at h
  · exact Or.inl h
  · rw [push, Array.getElem?_push] at h
    by_cases hi : i = n.values.size
    · rw [if_pos hi] at h
      exact Or.inr ⟨hi, (Option.some.inj h).symm⟩
    · rw [if_neg hi] at h
      exact Or.inl h

omit [Std.TransOrd α] [Std.LawfulEqOrd α] in
theorem lt_size_of_getElem? (h : n.values[i]? = some a) : i < n.size := by
  obtain ⟨hlt, _⟩ := Array.getElem?_eq_some_iff.1 h
  exact hlt

/-- The first value that is met stands under 0. -/
theorem values_meet_empty : ((empty : Numbering α).meet a).2.values = #[a] := by
  simp only [meet]
  split
  next i h =>
    have hnone := number?_eq_some_iff.1 h
    simp [empty] at hnone
  next => rfl

theorem getElem?_meet_empty :
    ((empty : Numbering α).meet a).2.values[i]? = some b ↔ i = 0 ∧ b = a := by
  rw [values_meet_empty]
  cases i with
  | zero => simp [eq_comm]
  | succ i => simp

end Numbering

namespace Exploration

variable {g : Grammar} {first : SymbolSets} {s t : ItemSet} {symbols : List Nat}
  {met : Numbering ItemSet} {e : Exploration} {symbol state : Nat}

/-! ## Following symbols -/

theorem follow_cons :
    follow g first s (symbol :: symbols) met =
      ((symbol, (met.meet (s.goto g first symbol)).1)
          :: (follow g first s symbols (met.meet (s.goto g first symbol)).2).1,
        (follow g first s symbols (met.meet (s.goto g first symbol)).2).2) := rfl

/-- There is one move for each symbol, in order. -/
theorem map_fst_follow :
    (follow g first s symbols met).1.map Prod.fst = symbols := by
  induction symbols generalizing met with
  | nil => rfl
  | cons symbol symbols ih =>
      rw [follow_cons, List.map_cons, ih]

/-- A move leads to the state that goto names. -/
theorem getElem?_of_mem_follow
    (h : (symbol, state) ∈ (follow g first s symbols met).1) :
    (follow g first s symbols met).2.values[state]? = some (s.goto g first symbol) := by
  induction symbols generalizing met with
  | nil => cases h
  | cons head symbols ih =>
      rw [follow_cons] at h ⊢
      rcases List.mem_cons.1 h with heq | h
      · obtain ⟨rfl, hstate⟩ := Prod.mk.inj heq
        have hmet := Numbering.getElem?_meet (n := met) (a := s.goto g first symbol)
        rw [hstate, getElem?_follow (Numbering.lt_size_of_getElem? hmet)]
        exact hmet
      · exact ih h

/-- A state that is new after some symbols have been followed is the goto over
one of them, and has a higher number than all that were met before. -/
theorem getElem?_follow_cases
    (h : (follow g first s symbols met).2.values[state]? = some t) :
    met.values[state]? = some t ∨
      (met.size ≤ state ∧ ∃ symbol ∈ symbols, t = s.goto g first symbol) := by
  induction symbols generalizing met with
  | nil => exact Or.inl h
  | cons symbol symbols ih =>
      rcases ih h with h | ⟨hle, other, hmem, heq⟩
      · rcases Numbering.getElem?_meet_cases h with h | ⟨hstate, heq⟩
        · exact Or.inl h
        · exact Or.inr ⟨hstate.ge, symbol, List.mem_cons_self, heq⟩
      · have hsize := Nat.le_trans Numbering.size_le_meet hle
        exact Or.inr ⟨hsize, other, List.mem_cons_of_mem _ hmem, heq⟩

/-! ## What one expansion keeps -/

/-- What the walk has found so far is right. -/
structure IsSound (g : Grammar) (e : Exploration) : Prop where
  start : e.met.values[0]? = some (ItemSet.kernel.closure g g.first)
  expanded_le : e.expanded ≤ e.met.size
  items : ∀ {state : Nat} {s : ItemSet}, e.met.values[state]? = some s →
    ∀ i ∈ s, i ∈ g.items
  symbols : ∀ {state : Nat} {s : ItemSet} {moves : List (Nat × Nat)},
    e.met.values[state]? = some s → e.moves[state]? = some moves →
      moves.map Prod.fst = g.inColumnOrder (s.expected g)
  target : ∀ {state symbol next : Nat} {s : ItemSet} {moves : List (Nat × Nat)},
    e.met.values[state]? = some s → e.moves[state]? = some moves → (symbol, next) ∈ moves →
      e.met.values[next]? = some (s.goto g g.first symbol)
  origin : ∀ {state : Nat} {t : ItemSet}, e.met.values[state]? = some t → state = 0 ∨
    ∃ earlier < state, ∃ s symbol, e.met.values[earlier]? = some s ∧
      symbol ∈ s.expected g ∧ t = s.goto g g.first symbol

/-- **An expansion** finds nothing wrong. -/
theorem IsSound.expand (hg : g.IsAugmented) (he : e.IsSound g)
    (hs : e.met.values[e.expanded]? = some s) : (e.expand g g.first s).IsSound g := by
  have hlt := Numbering.lt_size_of_getElem? hs
  have hold : ∀ {state : Nat} {t : ItemSet}, e.met.values[state]? = some t →
      (e.expand g g.first s).met.values[state]? = some t := by
    intro state t ht
    rw [getElem?_expand (Numbering.lt_size_of_getElem? ht), ht]
  have hcases : ∀ {state : Nat} {t : ItemSet} {moves : List (Nat × Nat)},
      (e.expand g g.first s).met.values[state]? = some t →
      (e.expand g g.first s).moves[state]? = some moves →
      (e.met.values[state]? = some t ∧ e.moves[state]? = some moves) ∨
        (t = s ∧ moves = (follow g g.first s (g.inColumnOrder (s.expected g)) e.met).1) := by
    intro state t moves ht hmoves
    unfold Exploration.expand at hmoves
    rw [Array.getElem?_push] at hmoves
    by_cases hstate : state = e.moves.size
    · rw [if_pos hstate] at hmoves
      rw [hstate, show e.moves.size = e.expanded from rfl, hold hs] at ht
      exact Or.inr ⟨(Option.some.inj ht).symm, (Option.some.inj hmoves).symm⟩
    · rw [if_neg hstate] at hmoves
      have hbelow : state < e.moves.size := (Array.getElem?_eq_some_iff.1 hmoves).1
      have hle : e.moves.size ≤ e.met.size := he.expanded_le
      rw [getElem?_expand (Nat.lt_of_lt_of_le hbelow hle)] at ht
      exact Or.inl ⟨ht, hmoves⟩
  refine
    { start := hold he.start
      expanded_le := ?_
      items := ?_
      symbols := ?_
      target := ?_
      origin := ?_ }
  · rw [expanded_expand]
    exact Nat.le_trans hlt size_le_expand
  · intro state t ht
    rcases getElem?_follow_cases ht with ht | ⟨_, symbol, _, rfl⟩
    · exact he.items ht
    · intro i hi
      exact hg.mem_items_of_mem_goto (he.items hs) hi
  · intro state t moves ht hmoves
    rcases hcases ht hmoves with ⟨ht, hmoves⟩ | ⟨rfl, rfl⟩
    · exact he.symbols ht hmoves
    · exact map_fst_follow
  · intro state symbol next t moves ht hmoves hmem
    rcases hcases ht hmoves with ⟨ht, hmoves⟩ | ⟨rfl, rfl⟩
    · exact hold (he.target ht hmoves hmem)
    · exact getElem?_of_mem_follow hmem
  · intro state t ht
    rcases getElem?_follow_cases ht with ht | ⟨hle, symbol, hmem, rfl⟩
    · refine (he.origin ht).imp_right ?_
      intro h
      rcases h with ⟨earlier, hbelow, s, symbol, hearlier, hexp, heq⟩
      exact ⟨earlier, hbelow, s, symbol, hold hearlier, hexp, heq⟩
    · exact Or.inr ⟨e.expanded, Nat.lt_of_lt_of_le hlt hle, s, symbol, hold hs,
        hg.mem_inColumnOrder_expected.1 hmem, rfl⟩

/-- What every expansion of a next state keeps, the steps of the walk keep. -/
theorem steps_induction {p : Exploration → Prop} {cap : Nat}
    (keeps : ∀ (e : Exploration) (s : ItemSet), e.met.values[e.expanded]? = some s → p e →
      p (e.expand g first s)) (he : p e) : p (e.steps g first cap) := by
  induction cap generalizing e with
  | zero => exact he
  | succ cap ih =>
      unfold Exploration.steps
      cases hs : e.met.values[e.expanded]? with
      | none => exact he
      | some s => exact ih (keeps e s hs he)

/-- What every expansion of a next state keeps, the whole walk keeps. -/
theorem rounds_induction {p : Exploration → Prop} {more cap : Nat}
    (keeps : ∀ (e : Exploration) (s : ItemSet), e.met.values[e.expanded]? = some s → p e →
      p (e.expand g first s)) (he : p e) : p (e.rounds g first more cap) := by
  induction more generalizing cap e with
  | zero => exact he
  | succ more ih =>
      have hnext : p (e.steps g first cap) := steps_induction keeps he
      unfold Exploration.rounds
      by_cases hdone : (e.steps g first cap).isComplete = true
      · simp only [if_pos hdone]
        exact hnext
      · simp only [if_neg hdone]
        exact ih hnext

theorem IsSound.steps (hg : g.IsAugmented) {cap : Nat} (he : e.IsSound g) :
    (e.steps g g.first cap).IsSound g :=
  steps_induction (fun _ _ hs he => he.expand hg hs) he

/-- **The whole walk** finds nothing wrong. -/
theorem IsSound.rounds (hg : g.IsAugmented) {more cap : Nat} (he : e.IsSound g) :
    (e.rounds g g.first more cap).IsSound g :=
  rounds_induction (fun _ _ hs he => he.expand hg hs) he

/-! ## There are finitely many states -/

/-- The items of a state. -/
def members (e : Exploration) (state : Nat) : Finset Item :=
  (e.met.values.getD state ∅).toFinset

theorem getElem?_of_lt_size (h : state < e.met.size) :
    e.met.values[state]? = some (e.met.values.getD state ∅) := by
  have hlt : state < e.met.values.size := h
  simp [hlt]

/-- Two states with the same items have one number. -/
theorem members_inj {p q : Nat} (hp : p < e.met.size) (hq : q < e.met.size)
    (h : e.members p = e.members q) : p = q := by
  have hsame : e.met.values.getD p ∅ = e.met.values.getD q ∅ := by
    apply OrdSet.ext
    intro i
    rw [← OrdSet.mem_toFinset, ← OrdSet.mem_toFinset]
    exact Iff.of_eq (congrArg (i ∈ ·) h)
  have hpget := getElem?_of_lt_size hp
  rw [hsame] at hpget
  exact Numbering.getElem?_inj hpget (getElem?_of_lt_size hq)

/-- **There are no more states than sets of items**: no state is met twice. -/
theorem IsSound.size_le (he : e.IsSound g) : e.met.size ≤ 2 ^ g.itemCount := by
  have hmaps : ∀ state ∈ Finset.range e.met.size,
      e.members state ∈ g.items.toFinset.powerset := by
    intro state hstate
    have hs := getElem?_of_lt_size (Finset.mem_range.1 hstate)
    apply Finset.mem_powerset.2
    intro i hi
    exact List.mem_toFinset.2 (he.items hs i hi)
  have hcard : g.items.toFinset.card ≤ g.itemCount :=
    (List.toFinset_card_le g.items).trans_eq g.length_items
  calc e.met.size
      = (Finset.range e.met.size).card := (Finset.card_range _).symm
    _ ≤ g.items.toFinset.powerset.card :=
      Finset.card_le_card_of_injOn e.members hmaps fun p hp q hq =>
        members_inj (Finset.mem_range.1 hp) (Finset.mem_range.1 hq)
    _ = 2 ^ g.items.toFinset.card := Finset.card_powerset _
    _ ≤ 2 ^ g.itemCount := Nat.pow_le_pow_right (by decide) hcard

/-- One round more than there are items expands all states. -/
theorem isComplete_rounds (hg : g.IsAugmented) (he : e.IsSound g) :
    (e.rounds g g.first (g.itemCount + 1) 1).isComplete = true := by
  by_contra hnot
  have hunfinished : (e.rounds g g.first (g.itemCount + 1) 1).isComplete = false :=
    Bool.eq_false_iff.2 hnot
  have hmany := le_expanded_rounds hunfinished
  have hsound : (e.rounds g g.first (g.itemCount + 1) 1).IsSound g := he.rounds hg
  have hfew := hsound.size_le
  have hleft : (e.rounds g g.first (g.itemCount + 1) 1).expanded
      < (e.rounds g g.first (g.itemCount + 1) 1).met.size := by
    unfold isComplete at hunfinished
    simpa using hunfinished
  have hpow : Nat.pow 2 (g.itemCount + 1) = 2 * 2 ^ g.itemCount := Nat.pow_succ'
  have hpos : 0 < 2 ^ g.itemCount := Nat.pow_pos (by decide)
  omega

end Exploration

/-! ## The automaton -/

/-- What is true of the automaton of a grammar. -/
structure Automaton.IsCanonical (g : Grammar) (a : Automaton) : Prop where
  size_moves : a.moves.size = a.states.size
  start : a.states[0]? = some (ItemSet.kernel.closure g g.first)
  items : ∀ {state : Nat} {s : ItemSet}, a.states[state]? = some s → ∀ i ∈ s, i ∈ g.items
  symbols : ∀ {state : Nat} {s : ItemSet}, a.states[state]? = some s →
    (a.movesFrom state).map Prod.fst = g.inColumnOrder (s.expected g)
  target : ∀ {state symbol next : Nat} {s : ItemSet}, a.states[state]? = some s →
    (symbol, next) ∈ a.movesFrom state → a.states[next]? = some (s.goto g g.first symbol)
  origin : ∀ {state : Nat} {t : ItemSet}, a.states[state]? = some t → state = 0 ∨
    ∃ earlier < state, ∃ s symbol, a.states[earlier]? = some s ∧
      symbol ∈ s.expected g ∧ t = s.goto g g.first symbol

/-- What a complete walk leaves behind. -/
theorem Exploration.IsSound.isCanonical {g : Grammar} {e : Exploration} (he : e.IsSound g)
    (hdone : e.isComplete = true) : Automaton.IsCanonical g ⟨e.met.values, e.moves⟩ := by
  have hle : e.met.size ≤ e.moves.size := of_decide_eq_true hdone
  have hmoves : ∀ {state : Nat} {s : ItemSet}, e.met.values[state]? = some s →
      e.moves[state]? =
        some (Automaton.movesFrom ⟨e.met.values, e.moves⟩ state) := by
    intro state s hs
    have hlt : state < e.met.size := Numbering.lt_size_of_getElem? hs
    have hin : state < e.moves.size := by omega
    simp [Automaton.movesFrom, hin]
  exact
    { size_moves := Nat.le_antisymm he.expanded_le hle
      start := he.start
      items := he.items
      symbols := fun hs => he.symbols hs (hmoves hs)
      target := fun hs => he.target hs (hmoves hs)
      origin := he.origin }

namespace Grammar

variable {g : Grammar}

/-- The walk before it begins: state 0 has been met, and no state expanded. -/
def outset (g : Grammar) (first : SymbolSets) : Exploration :=
  ⟨(Numbering.empty.meet (ItemSet.kernel.closure g first)).2, #[]⟩

/-- The automaton is what the walk leaves behind. -/
theorem automaton_eq (g : Grammar) (first : SymbolSets) :
    g.automaton first =
      ⟨((g.outset first).rounds g first (g.itemCount + 1) 1).met.values,
        ((g.outset first).rounds g first (g.itemCount + 1) 1).moves⟩ := by
  simp only [automaton, outset]

/-- Nothing is wrong before the walk begins. -/
theorem isSound_outset (hg : g.IsAugmented) : (g.outset g.first).IsSound g := by
  refine
    { start := ?_
      expanded_le := Nat.zero_le _
      items := ?_
      symbols := ?_
      target := ?_
      origin := fun hs => Or.inl (Numbering.getElem?_meet_empty.1 hs).1 }
  · exact Numbering.getElem?_meet_empty.2 ⟨rfl, rfl⟩
  · intro state s hs i hi
    rw [(Numbering.getElem?_meet_empty.1 hs).2] at hi
    exact hg.mem_items_of_mem_closure (fun i => hg.kernel_subset_items) hi
  · intro state s moves _ hmoves
    simp [outset] at hmoves
  · intro state symbol next s moves _ hmoves
    simp [outset] at hmoves

/-- **The walk expands all states** and finds nothing wrong. -/
theorem isCanonical_automaton (hg : g.IsAugmented) :
    (g.automaton g.first).IsCanonical g := by
  have hsound := isSound_outset hg
  rw [automaton_eq]
  exact (hsound.rounds hg).isCanonical (Exploration.isComplete_rounds hg hsound)

/-- **No item set is two states.** -/
theorem eq_of_getElem?_states {first : SymbolSets} {s : ItemSet} {state other : Nat}
    (h : (g.automaton first).states[state]? = some s)
    (h' : (g.automaton first).states[other]? = some s) : state = other := by
  rw [automaton_eq] at h h'
  dsimp only at h h'
  exact Numbering.getElem?_inj h h'

/-- No item set stands twice among the states. -/
theorem nodup_states (g : Grammar) (first : SymbolSets) :
    (g.automaton first).states.toList.Nodup := by
  rw [List.nodup_iff_getElem?_ne_getElem?]
  intro p q hlt hq hsame
  rw [Array.getElem?_toList, Array.getElem?_toList] at hsame
  have hq' : q < (g.automaton first).states.size := hq
  rw [Array.getElem?_eq_getElem hq'] at hsame
  have heq := eq_of_getElem?_states hsame (Array.getElem?_eq_getElem hq')
  exact Nat.ne_of_lt hlt heq

end Grammar

/-! ## Moves -/

/-- No symbol stands twice in column order. -/
theorem Grammar.nodup_inColumnOrder {g : Grammar} {symbols : OrdSet Nat} :
    (g.inColumnOrder symbols).Nodup := by
  have hkind : ∀ kind,
      (symbols.toList.filter fun symbol => g.symbols.kind? symbol = some kind).Nodup :=
    fun kind => symbols.nodup_toList.filter _
  unfold inColumnOrder
  refine List.nodup_append.2 ⟨List.nodup_append.2 ⟨hkind _, hkind _, ?_⟩, hkind _, ?_⟩
  · intro a ha b hb heq
    simp_all
  · intro a ha b hb heq
    simp_all

/-- Where no key stands twice, an entry is found under its key. -/
theorem lookup_eq_some_iff_mem {entries : List (Nat × Nat)} {key value : Nat}
    (h : (entries.map Prod.fst).Nodup) :
    entries.lookup key = some value ↔ (key, value) ∈ entries := by
  induction entries with
  | nil => simp
  | cons entry entries ih =>
      obtain ⟨other, v⟩ := entry
      rw [List.map_cons, List.nodup_cons] at h
      rw [List.lookup_cons, List.mem_cons, Prod.mk.injEq]
      by_cases hkey : key = other
      · subst hkey
        have hrest : (key, value) ∉ entries :=
          fun hmem => h.1 (List.mem_map.2 ⟨_, hmem, rfl⟩)
        simp [hrest, eq_comm]
      · rw [beq_false_of_ne hkey]
        simp [hkey, ih h.2]

namespace Automaton.IsCanonical

variable {g : Grammar} {a : Automaton} {s : ItemSet} {state symbol next : Nat}

/-- What has a move is a state. -/
theorem exists_state (ha : a.IsCanonical g) (h : (symbol, next) ∈ a.movesFrom state) :
    ∃ s, a.states[state]? = some s := by
  have hlt : state < a.moves.size := by
    apply Nat.lt_of_not_le
    intro hle
    unfold movesFrom at h
    rw [Array.getElem?_eq_none hle] at h
    cases h
  rw [ha.size_moves] at hlt
  exact ⟨a.states[state], Array.getElem?_eq_getElem hlt⟩

/-- A state has a move over every symbol that an item of it expects. -/
theorem exists_move (ha : a.IsCanonical g) (hg : g.IsAugmented)
    (hs : a.states[state]? = some s) (h : symbol ∈ s.expected g) :
    ∃ next, (symbol, next) ∈ a.movesFrom state := by
  have hmem : symbol ∈ (a.movesFrom state).map Prod.fst := by
    rw [ha.symbols hs]
    exact hg.mem_inColumnOrder_expected.2 h
  obtain ⟨move, hmove, rfl⟩ := List.mem_map.1 hmem
  exact ⟨move.2, hmove⟩

/-- A state has no move over a symbol that none of its items expects. -/
theorem mem_expected_of_move (ha : a.IsCanonical g) (hg : g.IsAugmented)
    (hs : a.states[state]? = some s) (h : (symbol, next) ∈ a.movesFrom state) :
    symbol ∈ s.expected g := by
  have hmem := List.mem_map_of_mem (f := Prod.fst) h
  rw [ha.symbols hs] at hmem
  exact hg.mem_inColumnOrder_expected.1 hmem

/-- No state has two moves over one symbol. -/
theorem nodup_symbols (ha : a.IsCanonical g) (hs : a.states[state]? = some s) :
    ((a.movesFrom state).map Prod.fst).Nodup := by
  rw [ha.symbols hs]
  exact Grammar.nodup_inColumnOrder

end Automaton.IsCanonical

end CanonicalLR
