import CanonicalLR.Proofs.Automaton.Exact
import CanonicalLR.Proofs.Items.LeastClosure

/-!
# The walk ends

The walk over the states can be thought of as a loop with a queue: the state at the head of
the queue is expanded, and the states that are newly met go to its back. States that wait
always have the highest numbers, which is why the walk needs no queue beside it. The loop
ends with an empty queue after each state has stood at the head once, and there are no more
states than sets of items.

## Main definitions

* `Exploration.queue` — the states that wait to be expanded.
* `Exploration.Dequeues` — a run of the loop until its queue is empty.
* `Grammar.WalkEnds` — the loop ends, and how large what it builds can be.

## Main results

* `queue_expand` — an expansion takes the head from the queue and meets what goes to its back.
* `dequeues_of_rounds` — what the rounds find, the loop finds.
* `Dequeues.unique` — the loop has one run.
* `nodup_items` — no item is listed twice.
* `walkEnds_ofText` — the walk of every grammar text ends within its bound.
-/

namespace CanonicalLR

namespace Exploration

variable {g : Grammar} {first : SymbolSets} {s : ItemSet} {e last : Exploration}
  {cap more : Nat}

/-! ## The queue -/

/-- The states that wait to be expanded: those that have been met and not been expanded. -/
def queue (e : Exploration) : List Nat := List.range' e.expanded (e.met.size - e.expanded)

/-- A run of the loop: it expands the state at the head of its queue, puts the states that are
newly met to the back, and goes on until the queue is empty. The second list holds the states
that have been at the head, in order. -/
inductive Dequeues (g : Grammar) (first : SymbolSets) :
    List Nat → Exploration → List Nat → Exploration → Prop where
  | done (e : Exploration) : Dequeues g first [] e [] e
  | next {state : Nat} {waiting later : List Nat} {s : ItemSet} {e last : Exploration}
      (found : e.met.values[state]? = some s)
      (rest : Dequeues g first (waiting ++
        List.range' e.met.size ((e.expand g first s).met.size - e.met.size))
        (e.expand g first s) later last) :
      Dequeues g first (state :: waiting) e (state :: later) last

/-- **An expansion** takes the head from the queue, and what it meets goes to the back. -/
theorem queue_expand (h : e.expanded < e.met.size) :
    ∃ waiting, e.queue = e.expanded :: waiting ∧ (e.expand g first s).queue =
      waiting ++ List.range' e.met.size ((e.expand g first s).met.size - e.met.size) := by
  have hgrows : e.met.size ≤ (e.expand g first s).met.size := size_le_expand
  obtain ⟨others, hothers⟩ := Nat.exists_eq_add_of_lt h
  refine ⟨List.range' (e.expanded + 1) others, ?_, ?_⟩
  · unfold queue
    rw [hothers, show e.expanded + others + 1 - e.expanded = others + 1 by omega,
      List.range'_succ]
  · unfold queue
    rw [expanded_expand, show e.met.size = e.expanded + 1 + 1 * others by omega,
      List.range'_append]
    congr 1
    omega

/-! ## The loop and the rounds -/

/-- What an expansion of a next state has because the stage after it has it, the stage before
some steps has because the stage after them has it. -/
theorem of_steps {p : Exploration → Prop}
    (back : ∀ (e : Exploration) (s : ItemSet), e.met.values[e.expanded]? = some s →
      p (e.expand g first s) → p e) (h : p (e.steps g first cap)) : p e := by
  induction cap generalizing e with
  | zero => exact h
  | succ cap ih =>
      unfold Exploration.steps at h
      cases hs : e.met.values[e.expanded]? with
      | none =>
          simp only [hs] at h
          exact h
      | some s =>
          simp only [hs] at h
          exact back e s hs (ih h)

theorem of_rounds {p : Exploration → Prop}
    (back : ∀ (e : Exploration) (s : ItemSet), e.met.values[e.expanded]? = some s →
      p (e.expand g first s) → p e) (h : p (e.rounds g first more cap)) : p e := by
  induction more generalizing cap e with
  | zero => exact h
  | succ more ih =>
      unfold Exploration.rounds at h
      by_cases hdone : (e.steps g first cap).isComplete = true
      · simp only [if_pos hdone] at h
        exact of_steps back h
      · simp only [if_neg hdone] at h
        exact of_steps back (ih h)

/-- From a stage on the loop takes the states in the order of their numbers, up to the last. -/
def Finishes (g : Grammar) (first : SymbolSets) (last e : Exploration) : Prop :=
  e.met.size ≤ last.met.size ∧
    Dequeues g first e.queue e (List.range' e.expanded (last.met.size - e.expanded)) last

theorem finishes_of_isComplete (hdone : e.isComplete = true) : Finishes g first e e := by
  have hnone : e.met.size - e.expanded = 0 := Nat.sub_eq_zero_of_le (of_decide_eq_true hdone)
  refine ⟨Nat.le_refl _, ?_⟩
  unfold queue
  rw [hnone]
  exact .done e

theorem Finishes.of_expand (hs : e.met.values[e.expanded]? = some s)
    (h : Finishes g first last (e.expand g first s)) : Finishes g first last e := by
  obtain ⟨hle, hrest⟩ := h
  have hlt := Numbering.lt_size_of_getElem? hs
  obtain ⟨waiting, hqueue, hnext⟩ : ∃ waiting, e.queue = e.expanded :: waiting ∧
      (e.expand g first s).queue = waiting ++
        List.range' e.met.size ((e.expand g first s).met.size - e.met.size) := queue_expand hlt
  have hgrows : e.met.size ≤ (e.expand g first s).met.size := size_le_expand
  refine ⟨Nat.le_trans hgrows hle, ?_⟩
  obtain ⟨others, hothers⟩ : ∃ others, last.met.size = e.expanded + 1 + others :=
    Nat.exists_eq_add_of_le (by omega)
  rw [hnext, expanded_expand, hothers, Nat.add_sub_cancel_left] at hrest
  rw [hqueue, hothers, show e.expanded + 1 + others - e.expanded = others + 1 by omega,
    List.range'_succ]
  exact .next hs hrest

/-- **What the rounds find, the loop finds**, if they have expanded all states. -/
theorem dequeues_of_rounds (hdone : (e.rounds g first more cap).isComplete = true) :
    Dequeues g first e.queue e
      (List.range' e.expanded ((e.rounds g first more cap).met.size - e.expanded))
      (e.rounds g first more cap) :=
  (of_rounds (fun _ _ hs h => Finishes.of_expand hs h) (finishes_of_isComplete hdone)).2

/-- **The loop has one run**: it is determined which state is expanded next. -/
theorem Dequeues.unique {queue states states' : List Nat} {last' : Exploration}
    (h : Dequeues g first queue e states last) (h' : Dequeues g first queue e states' last') :
    states = states' ∧ last = last' := by
  induction h generalizing states' with
  | done e =>
      cases h'
      exact ⟨rfl, rfl⟩
  | next found rest ih =>
      cases h' with
      | next found' rest' =>
          obtain rfl := Option.some.inj (found.symm.trans found')
          obtain ⟨rfl, rfl⟩ := ih rest'
          exact ⟨rfl, rfl⟩

end Exploration

/-! ## How many items there are -/

namespace Grammar

variable {g : Grammar}

/-- No two rules have one number. -/
theorem IsAugmented.pairwise_id (hg : g.IsAugmented) :
    g.rules.toList.Pairwise fun r q => r.id ≠ q.id := by
  rw [List.pairwise_iff_getElem]
  intro i j hi hj hlt
  rw [Array.length_toList] at hi hj
  rw [Array.getElem_toList, Array.getElem_toList, hg.rule_id (Array.getElem?_eq_getElem hi),
    hg.rule_id (Array.getElem?_eq_getElem hj)]
  exact Nat.ne_of_lt hlt

/-- **No item is listed twice.** -/
theorem IsAugmented.nodup_items (hg : g.IsAugmented) : g.items.Nodup := by
  have hplace : ∀ id position : Nat,
      (g.actionColumns.map fun l => (⟨id, position, l⟩ : Item)).Nodup := fun id position =>
    hg.nodup_actionColumns.map fun _ _ hsame => congrArg Item.lookahead hsame
  unfold items
  rw [List.nodup_flatMap]
  constructor
  · intro r hr
    rw [List.nodup_flatMap]
    refine ⟨fun position _ => hplace r.id position, List.nodup_range.imp ?_⟩
    intro p q hne i hi hj
    obtain ⟨l, -, rfl⟩ := List.mem_map.1 hi
    obtain ⟨m, -, hsame⟩ := List.mem_map.1 hj
    exact hne (congrArg Item.position hsame).symm
  · refine hg.pairwise_id.imp ?_
    intro r q hne i hi hj
    obtain ⟨p, -, hi⟩ := List.mem_flatMap.1 hi
    obtain ⟨l, -, rfl⟩ := List.mem_map.1 hi
    obtain ⟨p', -, hj⟩ := List.mem_flatMap.1 hj
    obtain ⟨m, -, hsame⟩ := List.mem_map.1 hj
    exact hne (congrArg Item.rule hsame).symm

theorem length_items_eq (g : Grammar) : g.items.length = g.rules.foldl
    (fun count r => count + (r.rhs.length + 1) * (g.terminals.length + 1)) 0 := by
  have hcolumns : g.actionColumns.length = g.terminals.length + 1 := by
    unfold actionColumns
    rw [List.length_append, List.length_singleton]
  rw [length_items]
  unfold itemCount
  rw [hcolumns]

/-- The items of a grammar: a rule that exists, a place in it, and a terminal or `$`. -/
theorem IsAugmented.mem_items_iff (hg : g.IsAugmented) {i : Item} : i ∈ g.items ↔
    ∃ r, g.rules[i.rule]? = some r ∧ i.position ≤ r.rhs.length ∧
      (g.symbols.kind? i.lookahead = some .terminal ∨ i.lookahead = endId) := by
  rw [mem_items]
  unfold actionColumns terminals
  simp only [List.mem_append, SymbolTable.mem_idsOfKind, List.mem_singleton]
  constructor
  · rintro ⟨r, hr, hid, hposition, hlookahead⟩
    obtain ⟨k, hk⟩ := Array.getElem?_of_mem hr
    have hnumber := hg.rule_id hk
    exact ⟨r, by rw [hid, hnumber, hk], hposition, hlookahead⟩
  · rintro ⟨r, hr, hposition, hlookahead⟩
    exact ⟨r, Array.mem_of_getElem? hr, (hg.rule_id hr).symm, hposition, hlookahead⟩

/-! ## The walk of a grammar -/

/-- The loop over the states of an augmented grammar ends, and what it builds is bounded by
the number of items. -/
structure WalkEnds (g : Grammar) : Prop where
  /-- With state 0 in its queue the loop runs until the queue is empty, has every state at the
  head of the queue once, in the order of their numbers, and leaves the collection. -/
  dequeues : ∃ last, Exploration.Dequeues g g.first [0] (g.outset g.first)
    (List.range (g.automaton g.first).states.size) last ∧
      g.automaton g.first = ⟨last.met.values, last.moves⟩
  /-- It has no other run. -/
  dequeued_unique : ∀ states last,
    Exploration.Dequeues g g.first [0] (g.outset g.first) states last →
      states = List.range (g.automaton g.first).states.size
  /-- Every closure that is taken on the way ends by itself. -/
  closure_ends : ∀ s : ItemSet, (saturate (ItemSet.spawnPass g g.first) (ItemSet.spawnCap g s)
    (ItemSet.spawnedBy g g.first s)).Ends (ItemSet.spawnPass g g.first)
      (ItemSet.spawnedBy g g.first s)
  /-- The items have a rule, a place in it, and a terminal or `$` as their lookahead. -/
  mem_items_iff : ∀ i, i ∈ g.items ↔
    ∃ r, g.rules[i.rule]? = some r ∧ i.position ≤ r.rhs.length ∧
      (g.symbols.kind? i.lookahead = some .terminal ∨ i.lookahead = endId)
  /-- They are listed once each. -/
  nodup_items : g.items.Nodup
  /-- They are as many as the places in all rules, times the terminals and `$`. -/
  length_items : g.items.length = g.rules.foldl
    (fun count r => count + (r.rhs.length + 1) * (g.terminals.length + 1)) 0
  /-- There are no more states than sets of items. -/
  size_states_le : (g.automaton g.first).states.size ≤ 2 ^ g.items.length
  /-- A state holds items, and no more than there are. -/
  items : ∀ (state : Nat) (s : ItemSet), (g.automaton g.first).states[state]? = some s →
    s.size ≤ g.items.length ∧ ∀ i ∈ s, i ∈ g.items

theorem IsAugmented.walkEnds (hg : g.IsAugmented) : g.WalkEnds := by
  have ha := isCanonical_automaton hg
  have hsound := isSound_outset hg
  have hqueue : (g.outset g.first).queue = [0] := by
    unfold Exploration.queue Exploration.expanded outset Numbering.size
    rw [Numbering.values_meet_empty]
    rfl
  have hstart : (g.outset g.first).expanded = 0 := rfl
  have hsize : (g.automaton g.first).states.size
      = ((g.outset g.first).rounds g g.first (g.itemCount + 1) 1).met.size := by
    rw [automaton_eq, Numbering.size]
  have hrun := Exploration.dequeues_of_rounds (Exploration.isComplete_rounds hg hsound)
  rw [hqueue, hstart, Nat.sub_zero, ← hsize, ← List.range_eq_range'] at hrun
  refine
    { dequeues := ⟨_, hrun, automaton_eq g g.first⟩
      dequeued_unique := fun states last h => (h.unique hrun).1
      closure_ends := ItemSet.spawned_ends hg
      mem_items_iff := fun i => hg.mem_items_iff
      nodup_items := hg.nodup_items
      length_items := g.length_items_eq
      size_states_le := ?_
      items := ?_ }
  · rw [g.length_items, automaton_eq]
    exact (hsound.rounds hg).size_le
  · intro state s hs
    refine ⟨?_, ha.items hs⟩
    calc s.size ≤ g.items.toFinset.card :=
          OrdSet.size_le_card fun i hi => List.mem_toFinset.2 (ha.items hs i hi)
      _ ≤ g.items.length := List.toFinset_card_le _

/-- **The walk ends**: for every grammar that is read from a text, the loop over the states
has each state at the head of its queue once and ends, there are no more states than sets of
items, and every state is such a set. -/
theorem walkEnds_ofText {text : String} {g : Grammar} (read : ofText text = .ok g) :
    g.augment.WalkEnds ∧ g.augment.terminals = g.terminals :=
  ⟨(wellFormed_ofText read).isAugmented.walkEnds, terminals_augment⟩

/-- So it is with nested pairs: 8 states, where 21 items allow for many more. -/
theorem walkEnds_of_nested :
    ofText "S -> a S b | ε" = .ok nested ∧ nested.augment.WalkEnds ∧
      (nested.augment.automaton nested.augment.first).states.size = 8 ∧
      nested.augment.items.length = 21 :=
  ⟨ofText_nested, (walkEnds_ofText ofText_nested).1, by decide +kernel, by decide +kernel⟩

end Grammar

end CanonicalLR
