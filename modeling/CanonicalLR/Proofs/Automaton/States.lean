import CanonicalLR.Proofs.Automaton.Collection

/-!
# The items of the states, and the moves between them

The proofs about tables and parsers do not look into closures and gotos. They
know a state by the items that it holds and by its moves: what an item spawns
belongs to its state, a move takes the items along that expect its symbol, and
every item of a state has come in one of these two ways. From state 0 the moves
lead over a string of symbols to one state at most, and every item set of the
collection lies behind some string.

## Main definitions

* `Automaton.Holds`, `Automaton.Moves` — the items of a state, and its moves.
* `Automaton.Reached` — the state to which moves lead from state 0.

## Main results

* `holds_start`, `holds_of_spawns`, `exists_next`, `holds_moved` — what states hold.
* `holds_zero_iff`, `holds_next_iff` — they hold nothing else.
* `exists_predecessor`, `exists_next_lhs` — where the items of a state come from.
* `state_induction`, `holds_induction` — induction on the states, and on their items.
* `Reached.unique`, `exists_reached` — strings of symbols and states.
-/

namespace CanonicalLR

/-- No rule derives the added start symbol, so nothing spawns rule 0. -/
theorem Grammar.IsAugmented.id_ne_zero_of_spawns {g : Grammar} (hg : g.IsAugmented)
    {i : Item} {r : Rule} {l : Nat} (hr : r ∈ g.rules) (h : i.Spawns g r.lhs l) :
    r.id ≠ 0 := by
  intro hid
  have hmem : r.lhs ∈ (g.rule i.rule).rhs := List.mem_of_getElem? h.expected
  apply hg.ne_start_of_mem_rhs hmem
  obtain ⟨declared, hzero⟩ := hg.rule_zero
  rw [← hg.rule_eq_of_mem hr, hid, hzero]

namespace Automaton

/-! ## Items and moves -/

/-- An item belongs to a state. -/
def Holds (a : Automaton) (state : Nat) (i : Item) : Prop :=
  ∃ s, a.states[state]? = some s ∧ i ∈ s

/-- A move leads from one state to another over a symbol. -/
def Moves (a : Automaton) (state symbol next : Nat) : Prop :=
  (symbol, next) ∈ a.movesFrom state

namespace IsCanonical

variable {g : Grammar} {a : Automaton} {i j : Item} {state symbol next other l : Nat}
  {s : ItemSet} (ha : a.IsCanonical g) (hg : g.IsAugmented)

include ha

theorem mem_items (h : a.Holds state i) : i ∈ g.items := by
  obtain ⟨s, hs, hi⟩ := h
  exact ha.items hs i hi

/-- State 0 holds the start item. -/
theorem holds_start : a.Holds 0 ⟨0, 0, endId⟩ := by
  have hkernel : (⟨0, 0, endId⟩ : Item) ∈ ItemSet.kernel := by
    unfold ItemSet.kernel
    simp
  exact ⟨_, ha.start, ItemSet.subset_closure hkernel⟩

/-- Every state is the first one or lies behind a goto. -/
theorem exists_origin (hs : a.states[state]? = some s) :
    (state = 0 ∧ s = ItemSet.kernel.closure g g.first) ∨
      ∃ (before : ItemSet) (symbol : Nat), s = before.goto g g.first symbol := by
  rcases ha.origin hs with rfl | ⟨_, _, before, symbol, _, _, heq⟩
  · rw [ha.start] at hs
    exact Or.inl ⟨rfl, (Option.some.inj hs).symm⟩
  · exact Or.inr ⟨before, symbol, heq⟩

/-- **Induction on the states**: what holds of the first state, and of the goto from each state
of which it holds, holds of every state. A state is met from one with a smaller number. -/
theorem state_induction {P : ItemSet → Prop} (start : P (ItemSet.kernel.closure g g.first))
    (goto : ∀ (before : ItemSet) (symbol : Nat), symbol ∈ before.expected g → P before →
      P (before.goto g g.first symbol))
    (hs : a.states[state]? = some s) : P s := by
  induction state using Nat.strongRecOn generalizing s with
  | ind state ih =>
      rcases ha.origin hs with rfl | ⟨earlier, hlt, before, symbol, hbefore, hexp, rfl⟩
      · rw [ha.start] at hs
        exact Option.some.inj hs ▸ start
      · exact goto before symbol hexp (ih earlier hlt hbefore)

/-- A state has one move over a symbol at most. -/
theorem next_unique (h : a.Moves state symbol next) (h' : a.Moves state symbol other) :
    next = other := by
  obtain ⟨s, hs⟩ := ha.exists_state h
  have hnext := (lookup_eq_some_iff_mem (ha.nodup_symbols hs)).2 h
  have hother := (lookup_eq_some_iff_mem (ha.nodup_symbols hs)).2 h'
  rw [hnext] at hother
  exact Option.some.inj hother

include hg

/-- State 0 holds what the start item spawns, and nothing else. -/
theorem holds_zero_iff : a.Holds 0 i ↔ ItemSet.kernel.Spawned g i := by
  rw [← ItemSet.mem_closure hg]
  unfold Holds
  rw [ha.start]
  simp

/-- The target of a move holds what the items spawn that come over the move, and
nothing else. -/
theorem holds_next_iff (hs : a.states[state]? = some s) (h : a.Moves state symbol next) :
    a.Holds next i ↔ (s.advance g symbol).Spawned g i := by
  rw [← ItemSet.mem_closure hg]
  unfold Holds
  rw [ha.target hs h]
  simp [ItemSet.goto]

/-- A state holds what its items spawn. -/
theorem holds_of_spawns {r : Rule} (hi : a.Holds state i) (hr : r ∈ g.rules)
    (h : i.Spawns g r.lhs l) : a.Holds state ⟨r.id, 0, l⟩ := by
  obtain ⟨s, hs, hi⟩ := hi
  refine ⟨s, hs, ?_⟩
  rcases ha.exists_origin hs with ⟨_, rfl⟩ | ⟨before, symbol, rfl⟩
  · exact ItemSet.mem_closure_of_spawns hg hi hr h
  · exact ItemSet.mem_closure_of_spawns hg hi hr h

/-- A state has a move over each symbol that an item of it expects. -/
theorem exists_next (hi : a.Holds state i) (h : i.symbol? g = some symbol) :
    ∃ next, a.Moves state symbol next := by
  obtain ⟨s, hs, hi⟩ := hi
  exact ha.exists_move hg hs (ItemSet.mem_expected.2 ⟨i, hi, h⟩)

/-- A move is made by an item that expects its symbol. -/
theorem exists_holds_of_move (h : a.Moves state symbol next) :
    ∃ i, a.Holds state i ∧ i.symbol? g = some symbol := by
  obtain ⟨s, hs⟩ := ha.exists_state h
  have hexp := ha.mem_expected_of_move hg hs h
  obtain ⟨i, hi, hsymbol⟩ := ItemSet.mem_expected.1 hexp
  exact ⟨i, ⟨s, hs, hi⟩, hsymbol⟩

/-- A move takes the items that expect its symbol along. -/
theorem holds_moved (hi : a.Holds state i) (hexp : i.symbol? g = some symbol)
    (h : a.Moves state symbol next) : a.Holds next i.moved := by
  obtain ⟨s, hs, hi⟩ := hi
  exact ⟨_, ha.target hs h, hg.moved_mem_goto hi hexp⟩

/-! ## Where items come from -/

/-- The target of a move is a state, whose items come over the move or are spawned
in the state itself. -/
theorem cases_of_move (h : a.Moves state symbol next) (hj : a.Holds next j) :
    (∃ i, a.Holds state i ∧ i.symbol? g = some symbol ∧ j = i.moved) ∨
      ∃ i, a.Holds next i ∧ ∃ r ∈ g.rules, ∃ l,
        i.Spawns g r.lhs l ∧ j = ⟨r.id, 0, l⟩ := by
  obtain ⟨s, hs⟩ := ha.exists_state h
  have htarget := ha.target hs h
  obtain ⟨s', hs', hj⟩ := hj
  rw [htarget] at hs'
  obtain rfl := Option.some.inj hs'
  rcases hg.cases_of_mem_goto hj with ⟨i, hi, hexp, heq⟩ | ⟨i, hi, hspawned⟩
  · exact Or.inl ⟨i, ⟨s, hs, hi⟩, hexp, heq⟩
  · exact Or.inr ⟨i, ⟨_, htarget, hi⟩, hspawned⟩

/-- **An item past its start** was in the state before the move, one place behind. -/
theorem exists_predecessor (h : a.Moves state symbol next) (hj : a.Holds next j)
    (hpos : 0 < j.position) :
    ∃ i, a.Holds state i ∧ i.symbol? g = some symbol ∧ j = i.moved := by
  rcases ha.cases_of_move hg h hj with hold | ⟨i, _, r, _, l, _, rfl⟩
  · exact hold
  · exact absurd hpos (Nat.lt_irrefl 0)

/-- **Induction on the items of the states**: what holds of the start item, and is kept where
a dot moves and where a rule is spawned, holds of every item of a state. -/
theorem holds_induction {P : Item → Prop} (start : P ⟨0, 0, endId⟩)
    (moved : ∀ (i : Item) (symbol : Nat), P i → i.symbol? g = some symbol → P i.moved)
    (spawned : ∀ (i : Item) (r : Rule) (l : Nat), P i → r ∈ g.rules → i.Spawns g r.lhs l →
      P ⟨r.id, 0, l⟩)
    (h : a.Holds state i) : P i := by
  have hspawned : ∀ (s : ItemSet) (i : Item), (∀ j ∈ s, P j) → s.Spawned g i → P i := by
    intro s i hs hi
    induction hi with
    | base mem => exact hs _ mem
    | spawn _ hr hspawns ih => exact spawned _ _ _ ih hr hspawns
  obtain ⟨s, hs, hi⟩ := h
  refine ha.state_induction (P := fun s => ∀ i ∈ s, P i) ?_ ?_ hs i hi
  · intro i hi
    apply hspawned _ i _ ((ItemSet.mem_closure hg).1 hi)
    intro j hj
    unfold ItemSet.kernel at hj
    have heq : j = ⟨0, 0, endId⟩ := by simpa using hj
    exact heq ▸ start
  · intro before symbol _ ih i hi
    apply hspawned _ i _ ((ItemSet.mem_closure hg).1 hi)
    intro j hj
    obtain ⟨k, hk, hexp, rfl⟩ := hg.mem_advance_iff.1 hj
    exact moved k symbol (ih k hk) hexp

/-- The items of state 0 are at their start. -/
theorem position_eq_zero (h : a.Holds 0 i) : i.position = 0 := by
  cases (ha.holds_zero_iff hg).1 h with
  | base mem =>
      unfold ItemSet.kernel at mem
      have heq : i = ⟨0, 0, endId⟩ := by simpa using mem
      rw [heq]
  | spawn _ _ _ => rfl

/-- No move enters a state with rule 0 at its start. -/
theorem rule_ne_zero_of_move (h : a.Moves state symbol next) (hj : a.Holds next j)
    (hpos : j.position = 0) : j.rule ≠ 0 := by
  rcases ha.cases_of_move hg h hj with ⟨i, _, _, rfl⟩ | ⟨i, _, r, hr, l, hspawns, rfl⟩
  · exact absurd hpos (Nat.succ_ne_zero i.position)
  · exact hg.id_ne_zero_of_spawns hr hspawns

/-- An item at its start is the start item or is spawned. -/
theorem cases_of_position_eq_zero (hj : a.Holds state j) (hpos : j.position = 0) :
    j = ⟨0, 0, endId⟩ ∨ ∃ i, a.Holds state i ∧ ∃ r ∈ g.rules, ∃ l,
      i.Spawns g r.lhs l ∧ j = ⟨r.id, 0, l⟩ := by
  obtain ⟨s, hs, hj⟩ := hj
  rcases ha.exists_origin hs with ⟨_, rfl⟩ | ⟨before, symbol, rfl⟩
  · rcases ItemSet.cases_of_mem_closure hg hj with hj | ⟨i, hi, hspawned⟩
    · unfold ItemSet.kernel at hj
      exact Or.inl (by simpa using hj)
    · exact Or.inr ⟨i, ⟨_, hs, hi⟩, hspawned⟩
  · rcases hg.cases_of_mem_goto hj with ⟨i, _, _, rfl⟩ | ⟨i, hi, hspawned⟩
    · exact absurd hpos (Nat.succ_ne_zero i.position)
    · exact Or.inr ⟨i, ⟨_, hs, hi⟩, hspawned⟩

/-- **A rule at its start** is awaited: the state has a move over its left-hand side. -/
theorem exists_next_lhs (hj : a.Holds state j) (hpos : j.position = 0) (hrule : j.rule ≠ 0) :
    ∃ next, a.Moves state (g.rule j.rule).lhs next := by
  rcases ha.cases_of_position_eq_zero hg hj hpos with rfl | ⟨i, hi, r, hr, l, hspawns, rfl⟩
  · exact absurd rfl hrule
  · rw [hg.rule_eq_of_mem hr]
    exact ha.exists_next hg hi hspawns.expected

/-! ## Exhausted items -/

/-- An item of a state stands no further than at the end of its rule. -/
theorem position_le (h : a.Holds state i) : i.position ≤ (i.rhs g).length :=
  (hg.rule_mem_of_mem_items (ha.mem_items h)).2.1

/-- The dot of an exhausted item stands at the end of its rule. -/
theorem position_eq_of_isExhausted (h : a.Holds state i) (hend : i.isExhausted g = true) :
    i.position = (i.rhs g).length :=
  Nat.le_antisymm (ha.position_le hg h) (of_decide_eq_true hend)

/-- An exhausted item is known by its rule and its lookahead. -/
theorem eq_of_isExhausted (hi : a.Holds state i) (hj : a.Holds state j)
    (hend : i.isExhausted g = true) (hend' : j.isExhausted g = true)
    (hrule : i.rule = j.rule) (hl : i.lookahead = j.lookahead) : i = j := by
  have hpos := ha.position_eq_of_isExhausted hg hi hend
  have hpos' := ha.position_eq_of_isExhausted hg hj hend'
  unfold Item.rhs at hpos hpos'
  rw [hrule, ← hpos'] at hpos
  cases i
  cases j
  exact Item.mk.injEq .. ▸ ⟨hrule, hpos, hl⟩

/-- The accepting item is `[S' -> S •, $]`. -/
theorem isAccepting_iff (h : a.Holds state i) :
    i.isAccepting g = true ↔ i = ⟨0, 1, endId⟩ := by
  have hpos := ha.position_le hg h
  obtain ⟨declared, hzero⟩ := hg.rule_zero
  obtain ⟨rule, position, lookahead⟩ := i
  unfold Item.isAccepting Item.isExhausted
  simp only [Bool.and_eq_true, beq_iff_eq, decide_eq_true_eq, Item.mk.injEq]
  constructor
  · intro hparts
    rcases hparts with ⟨⟨rfl, rfl⟩, hend⟩
    unfold Item.rhs at hpos hend
    simp only [hzero, List.length_singleton] at hpos hend
    exact ⟨rfl, by omega, rfl⟩
  · intro hparts
    rcases hparts with ⟨rfl, rfl, rfl⟩
    unfold Item.rhs
    simp [hzero]

/-- What is reduced is a declared rule: rule 0 at its start has the lookahead `$`,
and the item is then the accepting one. -/
theorem rule_ne_zero_of_not_isAccepting (hstart : a.Holds state ⟨i.rule, 0, i.lookahead⟩)
    (hend : i.isExhausted g = true) (hnot : i.isAccepting g = false) : i.rule ≠ 0 := by
  intro hrule
  rcases ha.cases_of_position_eq_zero hg hstart rfl with
    heq | ⟨j, _, r, hr, l, hspawns, heq⟩
  · have hlookahead : i.lookahead = endId := congrArg Item.lookahead heq
    unfold Item.isAccepting at hnot
    simp [hrule, hlookahead, hend] at hnot
  · have hid : i.rule = r.id := congrArg Item.rule heq
    exact hg.id_ne_zero_of_spawns hr hspawns (hid ▸ hrule)

end IsCanonical

/-! ## Strings of symbols -/

/-- `a.Reached γ state`: moves lead from state 0 to `state`, over the symbols `γ` one
after the other. -/
inductive Reached (a : Automaton) : List Nat → Nat → Prop where
  | start : a.Reached [] 0
  | move {γ : List Nat} {state symbol next : Nat} (earlier : a.Reached γ state)
      (move : a.Moves state symbol next) : a.Reached (γ ++ [symbol]) next

variable {g : Grammar} {a : Automaton} {γ : List Nat} {state symbol next other : Nat}

/-- No move leads over no symbols, and a last one over the last symbol. -/
theorem Reached.cases_eq (h : a.Reached γ next) :
    (γ = [] ∧ next = 0) ∨ ∃ front state symbol, γ = front ++ [symbol] ∧
      a.Reached front state ∧ a.Moves state symbol next := by
  cases h with
  | start => exact Or.inl ⟨rfl, rfl⟩
  | move earlier move => exact Or.inr ⟨_, _, _, rfl, earlier, move⟩

theorem Reached.of_concat (h : a.Reached (γ ++ [symbol]) next) :
    ∃ state, a.Reached γ state ∧ a.Moves state symbol next := by
  rcases h.cases_eq with ⟨hnil, _⟩ | ⟨front, state, last, heq, earlier, move⟩
  · simp at hnil
  · obtain ⟨rfl, hlast⟩ := List.append_inj' heq rfl
    obtain rfl := List.singleton_inj.1 hlast
    exact ⟨state, earlier, move⟩

/-- **A string of symbols** leads to one state at most. -/
theorem Reached.unique (ha : a.IsCanonical g) (h : a.Reached γ state)
    (h' : a.Reached γ other) : state = other := by
  induction h generalizing other with
  | start =>
      rcases h'.cases_eq with ⟨_, rfl⟩ | ⟨front, _, symbol, heq, _⟩
      · rfl
      · simp at heq
  | move _ move ih =>
      obtain ⟨before, earlier, move'⟩ := h'.of_concat
      obtain rfl := ih earlier
      exact ha.next_unique move move'

/-- **Every item set** of the collection is reached over some string of symbols. -/
theorem IsCanonical.exists_reached (ha : a.IsCanonical g) (hg : g.IsAugmented)
    {s : ItemSet} (hs : a.states[state]? = some s) : ∃ γ t, a.Reached γ t ∧
      a.states[t]? = some s := by
  refine ha.state_induction (P := fun s => ∃ γ t, a.Reached γ t ∧ a.states[t]? = some s)
    ⟨[], 0, .start, ha.start⟩ ?_ hs
  intro before symbol hexp ih
  obtain ⟨γ, t, hreached, ht⟩ := ih
  obtain ⟨next, hmove⟩ := ha.exists_move hg ht hexp
  exact ⟨γ ++ [symbol], next, .move hreached hmove, ha.target ht hmove⟩

end Automaton

end CanonicalLR
