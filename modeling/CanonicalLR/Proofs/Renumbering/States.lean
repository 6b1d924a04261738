import CanonicalLR.Proofs.Automaton.Exact
import CanonicalLR.Proofs.Embedding.ItemSets
import CanonicalLR.Proofs.Renumbering.Grammar

/-!
# The states of renumbered grammars

An item of one grammar is an item of the other one with its rule and its lookahead
renumbered. What it expects and spawns is renumbered, and so are closures and gotos. The
walk through the collection meets the item sets in an order that depends on the numbers,
but it meets those that gotos reach, each once. So the states of one grammar are those of
the other one in another order, with the moves between them.

## Main definitions

* `Item.renumber`, `ItemSet.renumber` — items and sets of items in the other numbering.
* `Automaton.Renumbers` — one automaton in two numberings.

## Main results

* `spawns_renumber_iff`, `closure_renumber`, `goto_renumber` — items and item sets.
* `Grammar.Renumbers.exists_automaton` — renumbered grammars have renumbered automata.
* `holds_renumber`, `moves_renumber` — the items of the states, and their moves.
-/

namespace CanonicalLR

/-- The item with its rule and its lookahead renumbered. -/
def Item.renumber (ρ π : Equiv.Perm Nat) (i : Item) : Item :=
  ⟨π i.rule, i.position, ρ i.lookahead⟩

theorem Item.renumber_symm (ρ π : Equiv.Perm Nat) (i : Item) :
    (i.renumber ρ π).renumber ρ.symm π.symm = i := by
  unfold renumber
  rw [Equiv.symm_apply_apply, Equiv.symm_apply_apply]

theorem Item.renumber_injective (ρ π : Equiv.Perm Nat) :
    Function.Injective (Item.renumber ρ π) :=
  Function.LeftInverse.injective (Item.renumber_symm ρ π)

/-- The set with its items renumbered. -/
def ItemSet.renumber (ρ π : Equiv.Perm Nat) (s : ItemSet) : ItemSet :=
  s.image (Item.renumber ρ π)

section Images

variable {ρ π : Equiv.Perm Nat} {s : ItemSet} {i j : Item}

theorem ItemSet.mem_renumber : j ∈ s.renumber ρ π ↔ ∃ i ∈ s, i.renumber ρ π = j :=
  OrdSet.mem_image

theorem ItemSet.renumber_mem_renumber_iff : i.renumber ρ π ∈ s.renumber ρ π ↔ i ∈ s := by
  rw [mem_renumber]
  constructor
  · rintro ⟨j, hj, heq⟩
    exact Item.renumber_injective ρ π heq ▸ hj
  · exact fun hi => ⟨i, hi, rfl⟩

theorem ItemSet.renumber_symm (ρ π : Equiv.Perm Nat) (s : ItemSet) :
    (s.renumber ρ π).renumber ρ.symm π.symm = s := by
  apply OrdSet.ext
  intro i
  simp only [mem_renumber, exists_exists_and_eq_and, Item.renumber_symm, exists_eq_right]

theorem ItemSet.renumber_injective (ρ π : Equiv.Perm Nat) :
    Function.Injective (ItemSet.renumber ρ π) :=
  Function.LeftInverse.injective (ItemSet.renumber_symm ρ π)

theorem ItemSet.renumber_empty (ρ π : Equiv.Perm Nat) : ItemSet.renumber ρ π ∅ = ∅ := rfl

end Images

namespace Grammar.Renumbers

variable {ρ π : Equiv.Perm Nat} {g h : Grammar} {s : ItemSet} {i j : Item} {symbol l : Nat}
  (hr : Renumbers ρ π g h)

include hr

/-! ## Items -/

theorem rhs_renumber (i : Item) : (i.renumber ρ π).rhs h = (i.rhs g).map ρ := by
  unfold Item.rhs Item.renumber
  rw [hr.rule_renumber]
  rfl

theorem symbol?_renumber (i : Item) :
    (i.renumber ρ π).symbol? h = (i.symbol? g).map ρ := by
  unfold Item.symbol?
  rw [hr.rhs_renumber, List.getElem?_map]
  rfl

theorem symbol?_renumber_iff :
    (i.renumber ρ π).symbol? h = some (ρ symbol) ↔ i.symbol? g = some symbol := by
  rw [hr.symbol?_renumber, Option.map_eq_some_iff]
  simp only [ρ.apply_eq_iff_eq, exists_eq_right]

theorem tail_renumber (i : Item) : (i.renumber ρ π).tail h = (i.tail g).map ρ := by
  unfold Item.tail
  rw [hr.rhs_renumber, List.map_drop]
  rfl

theorem isExhausted_renumber (i : Item) :
    (i.renumber ρ π).isExhausted h = i.isExhausted g := by
  unfold Item.isExhausted
  rw [hr.rhs_renumber, List.length_map]
  rfl

theorem isAccepting_renumber (i : Item) :
    (i.renumber ρ π).isAccepting h = i.isAccepting g := by
  have hrule : (π i.rule == 0) = (i.rule == 0) := by
    rw [beq_eq_decide, beq_eq_decide, decide_eq_decide]
    nth_rewrite 1 [← hr.zero_eq]
    exact π.apply_eq_iff_eq
  have hlookahead : (ρ i.lookahead == endId) = (i.lookahead == endId) := by
    rw [beq_eq_decide, beq_eq_decide, decide_eq_decide]
    nth_rewrite 1 [← hr.end_eq]
    exact ρ.apply_eq_iff_eq
  unfold Item.isAccepting
  rw [hr.isExhausted_renumber]
  unfold Item.renumber
  dsimp only
  rw [hrule, hlookahead]

/-- **What an item spawns** is renumbered. -/
theorem spawns_renumber_iff :
    (i.renumber ρ π).Spawns h (ρ symbol) (ρ l) ↔ i.Spawns g symbol l := by
  have hlookaheads : ρ l ∈ h.first.lookaheads ((i.renumber ρ π).tail h) (ρ i.lookahead) ↔
      l ∈ g.first.lookaheads (i.tail g) i.lookahead := by
    rw [hr.tail_renumber, hr.mem_lookaheads_iff]
  constructor
  · intro hs
    exact ⟨hr.symbol?_renumber_iff.1 hs.expected,
      (hr.isNonTerminal_eq symbol).symm.trans hs.nonTerminal, hlookaheads.1 hs.mem_lookaheads⟩
  · intro hs
    exact ⟨hr.symbol?_renumber_iff.2 hs.expected,
      (hr.isNonTerminal_eq symbol).trans hs.nonTerminal, hlookaheads.2 hs.mem_lookaheads⟩

/-! ## Item sets -/

theorem kernel_renumber : ItemSet.kernel.renumber ρ π = ItemSet.kernel := by
  apply OrdSet.ext
  intro j
  rw [ItemSet.mem_renumber]
  unfold ItemSet.kernel
  simp only [OrdSet.mem_ofList, List.mem_singleton, exists_eq_left]
  unfold Item.renumber
  simp only [hr.zero_eq, hr.end_eq, eq_comm]

/-- What a set spawns is spawned, renumbered, by its image. -/
theorem spawned_renumber (hi : s.Spawned g i) :
    (s.renumber ρ π).Spawned h (i.renumber ρ π) := by
  induction hi with
  | base mem => exact .base (ItemSet.renumber_mem_renumber_iff.2 mem)
  | @spawn i r l _ rule spawns ih =>
      exact .spawn (r := r.renumber ρ π) ih (hr.renumber_mem_rules rule)
        (hr.spawns_renumber_iff.2 spawns)

/-- **The closure of an image** is the image of the closure. -/
theorem closure_renumber :
    (s.renumber ρ π).closure h h.first = ItemSet.renumber ρ π (s.closure g g.first) := by
  apply OrdSet.ext
  intro j
  rw [ItemSet.mem_closure hr.isAugmented', ItemSet.mem_renumber]
  constructor
  · intro hj
    have hback := hr.symm.spawned_renumber hj
    rw [ItemSet.renumber_symm] at hback
    exact ⟨_, (ItemSet.mem_closure hr.isAugmented).2 hback, Item.renumber_symm ρ.symm π.symm j⟩
  · rintro ⟨i, hi, rfl⟩
    exact hr.spawned_renumber ((ItemSet.mem_closure hr.isAugmented).1 hi)

theorem advance_renumber :
    (s.renumber ρ π).advance h (ρ symbol) = ItemSet.renumber ρ π (s.advance g symbol) := by
  apply OrdSet.ext
  intro j
  rw [hr.isAugmented'.mem_advance_iff, ItemSet.mem_renumber]
  simp only [hr.isAugmented.mem_advance_iff, ItemSet.mem_renumber]
  constructor
  · rintro ⟨_, ⟨i, hi, rfl⟩, hexp, rfl⟩
    exact ⟨i.moved, ⟨i, hi, hr.symbol?_renumber_iff.1 hexp, rfl⟩, rfl⟩
  · rintro ⟨_, ⟨i, hi, hexp, rfl⟩, rfl⟩
    exact ⟨i.renumber ρ π, ⟨i, hi, rfl⟩, hr.symbol?_renumber_iff.2 hexp, rfl⟩

/-- **The goto of an image** is the image of the goto. -/
theorem goto_renumber :
    (s.renumber ρ π).goto h h.first (ρ symbol)
      = ItemSet.renumber ρ π (s.goto g g.first symbol) := by
  unfold ItemSet.goto
  rw [hr.advance_renumber, hr.closure_renumber]

/-- What gotos reach is renumbered. -/
theorem obtained_renumber (hs : ItemSet.Obtained g s) :
    ItemSet.Obtained h (s.renumber ρ π) := by
  induction hs with
  | start =>
      rw [← hr.closure_renumber, hr.kernel_renumber]
      exact .start
  | @goto s symbol _ nonempty ih =>
      rw [← hr.goto_renumber]
      refine .goto ih ?_
      rw [hr.goto_renumber]
      rw [← ItemSet.renumber_empty ρ π]
      exact (ItemSet.renumber_injective ρ π).ne nonempty

end Grammar.Renumbers

/-! ## Automata -/

/-- `Renumbers ρ π σ g h a b`: the automata `a` of `g` and `b` of `h` are one automaton. The
grammars are renumbered, and a state of `a` has in `b` the number to which `σ` leads. -/
structure Automaton.Renumbers (ρ π σ : Equiv.Perm Nat) (g h : Grammar) (a b : Automaton) :
    Prop where
  grammar : Grammar.Renumbers ρ π g h
  isCanonical : a.IsCanonical g
  isCanonical' : b.IsCanonical h
  /-- No item set is two states. -/
  eq_of_states : ∀ {p q : Nat} {s : ItemSet}, a.states[p]? = some s →
    a.states[q]? = some s → p = q
  states_eq : ∀ state : Nat, b.states[σ state]? = (a.states[state]?).map (ItemSet.renumber ρ π)

namespace Grammar.Renumbers

variable {ρ π : Equiv.Perm Nat} {g h : Grammar} (hr : Renumbers ρ π g h)

include hr

/-- The states of one grammar are the images of those of the other one, in another order. -/
theorem perm_states :
    ((g.automaton g.first).states.toList.map (ItemSet.renumber ρ π)).Perm
      (h.automaton h.first).states.toList := by
  have hg := isCanonical_automaton hr.isAugmented
  have hh := isCanonical_automaton hr.isAugmented'
  have hmem : ∀ {k : Grammar} (s : ItemSet), s ∈ (k.automaton k.first).states.toList ↔
      ∃ state : Nat, (k.automaton k.first).states[state]? = some s := by
    intro k s
    simp only [List.mem_iff_getElem?, Array.getElem?_toList]
  rw [List.perm_ext_iff_of_nodup
    ((nodup_states g g.first).map (ItemSet.renumber_injective ρ π)) (nodup_states h h.first)]
  intro s
  rw [List.mem_map, hmem, hh.exists_state_iff_obtained hr.isAugmented']
  constructor
  · rintro ⟨s, hs, rfl⟩
    rw [hmem, hg.exists_state_iff_obtained hr.isAugmented] at hs
    exact hr.obtained_renumber hs
  · intro hs
    refine ⟨s.renumber ρ.symm π.symm, ?_, ItemSet.renumber_symm ρ.symm π.symm s⟩
    rw [hmem, hg.exists_state_iff_obtained hr.isAugmented]
    exact hr.symm.obtained_renumber hs

/-- **Renumbered grammars** have as many states. -/
theorem size_states :
    (g.automaton g.first).states.size = (h.automaton h.first).states.size := by
  simpa using hr.perm_states.length_eq

/-- **Renumbered grammars** have renumbered automata. -/
theorem exists_automaton : ∃ σ, Automaton.Renumbers ρ π σ g h
    (g.automaton g.first) (h.automaton h.first) := by
  obtain ⟨σ, hσ⟩ := exists_renumbering hr.perm_states
  refine ⟨σ,
    { grammar := hr
      isCanonical := isCanonical_automaton hr.isAugmented
      isCanonical' := isCanonical_automaton hr.isAugmented'
      eq_of_states := eq_of_getElem?_states
      states_eq := ?_ }⟩
  intro state
  have hstate := hσ state
  rw [List.getElem?_map, Array.getElem?_toList, Array.getElem?_toList] at hstate
  exact hstate

end Grammar.Renumbers

namespace Automaton.Renumbers

variable {ρ π σ : Equiv.Perm Nat} {g h : Grammar} {a b : Automaton} {s : ItemSet} {i : Item}
  {state symbol next : Nat} (hr : Renumbers ρ π σ g h a b)

include hr

/-- **The numberings** play the same part. -/
theorem symm : Renumbers ρ.symm π.symm σ.symm h g b a := by
  have hstates : ∀ state : Nat,
      a.states[σ.symm state]? = (b.states[state]?).map (ItemSet.renumber ρ.symm π.symm) := by
    intro state
    have himage := hr.states_eq (σ.symm state)
    rw [Equiv.apply_symm_apply] at himage
    rw [himage, Option.map_map]
    cases a.states[σ.symm state]? with
    | none => rfl
    | some s => exact congrArg some (s.renumber_symm ρ π).symm
  refine
    { grammar := hr.grammar.symm
      isCanonical := hr.isCanonical'
      isCanonical' := hr.isCanonical
      eq_of_states := ?_
      states_eq := hstates }
  intro p q s hp hq
  have hp' := hstates p
  have hq' := hstates q
  rw [hp] at hp'
  rw [hq] at hq'
  exact σ.symm.injective (hr.eq_of_states hp' hq')

/-- State 0 stays in front. -/
theorem zero_eq : σ 0 = 0 := by
  have hzero := hr.states_eq 0
  rw [hr.isCanonical.start, Option.map_some, ← hr.grammar.closure_renumber,
    hr.grammar.kernel_renumber] at hzero
  exact hr.symm.eq_of_states hzero hr.isCanonical'.start

theorem lt_size_iff : σ state < b.states.size ↔ state < a.states.size := by
  rw [← not_iff_not, Nat.not_lt, Nat.not_lt, ← Array.getElem?_eq_none_iff,
    ← Array.getElem?_eq_none_iff, hr.states_eq, Option.map_eq_none_iff]

/-- **The items of a state** are renumbered. -/
theorem holds_renumber (hi : a.Holds state i) : b.Holds (σ state) (i.renumber ρ π) := by
  obtain ⟨s, hs, hi⟩ := hi
  refine ⟨s.renumber ρ π, ?_, ItemSet.renumber_mem_renumber_iff.2 hi⟩
  rw [hr.states_eq, hs]
  rfl

/-- **The moves** are renumbered: they lead to the image of the goto, which is one state. -/
theorem moves_renumber (hm : a.Moves state symbol next) :
    b.Moves (σ state) (ρ symbol) (σ next) := by
  have hg := hr.grammar.isAugmented
  obtain ⟨s, hs⟩ := hr.isCanonical.exists_state hm
  obtain ⟨i, hi, hexp⟩ := hr.isCanonical.exists_holds_of_move hg hm
  obtain ⟨last, hlast⟩ := hr.isCanonical'.exists_next hr.grammar.isAugmented'
    (hr.holds_renumber hi) (hr.grammar.symbol?_renumber_iff.2 hexp)
  have hs' : b.states[σ state]? = some (s.renumber ρ π) := by
    rw [hr.states_eq, hs]
    rfl
  have hnext : b.states[σ next]? = some (ItemSet.renumber ρ π (s.goto g g.first symbol)) := by
    rw [hr.states_eq, hr.isCanonical.target hs hm]
    rfl
  have htarget := hr.isCanonical'.target hs' hlast
  rw [hr.grammar.goto_renumber] at htarget
  rw [hr.symm.eq_of_states hnext htarget]
  exact hlast

end Automaton.Renumbers

end CanonicalLR
