import CanonicalLR.Proofs.Grammar.Yield
import CanonicalLR.Proofs.Parser.Stack
import CanonicalLR.Proofs.Sets.First

/-!
# Derivations steer the parser

A derivation of a word, read bottom-up, is a run of the parser over this word.
Where an item of the top state goes on with the symbols that derive the word,
and the token behind the word may follow them, every terminal is shifted and
every rule of the derivation is reduced in its turn: the item that the
derivation asks for is spawned in the top state with just the lookahead at which
it will be exhausted. A cell holds one action, so the parser has no other way.

## Main definitions

* `Configuration.Gains` — symbols have been put on the stacks.
* `Configuration.IsReading` — an item of the top state, and a word that is pending.

## Main results

* `IsReading.shift`, `IsReading.spawn`, `IsReading.reduce` — what a derivation makes
  the parser do, one case for each of its parts.
* `IsReading.exists_reaches` — a derivation of a word is a run over this word.
* `exists_reaches_of_yields`, `exists_reaches_of_derivesRightmost` — a derivation of
  all tokens leads to acceptance.
-/

namespace CanonicalLR

namespace Configuration

variable {t : Table} {c d e : Configuration} {i : Item} {r : Rule} {symbol : Nat}
  {ids α β v w rest : List Nat}

/-! ## Symbols on the stacks -/

/-- The symbols `α` stand on top of the stacks of `c`, with a state for each. -/
structure Gains (c : Configuration) (α : List Nat) (d : Configuration) : Prop where
  states_eq : ∃ entered, entered.length = α.length ∧ d.states = entered ++ c.states
  symbols_eq : d.symbols = α.reverse ++ c.symbols

theorem Gains.refl : c.Gains [] c := ⟨⟨[], rfl, rfl⟩, rfl⟩

theorem Gains.trans (first : c.Gains α d) (second : d.Gains β e) : c.Gains (α ++ β) e := by
  obtain ⟨entered, hlength, hstates⟩ := first.states_eq
  obtain ⟨more, hmore, hlater⟩ := second.states_eq
  refine ⟨⟨more ++ entered, ?_, ?_⟩, ?_⟩
  · show (more ++ entered).length = (α ++ β).length
    rw [List.length_append, List.length_append]
    omega
  · show e.states = more ++ entered ++ c.states
    rw [hlater, hstates, List.append_assoc]
  · show e.symbols = (α ++ β).reverse ++ c.symbols
    rw [second.symbols_eq, first.symbols_eq, List.reverse_append, List.append_assoc]

/-! ## Items and words -/

/-- The top state holds the item `i`, and the tokens of the word `w` are pending. -/
structure IsReading (t : Table) (i : Item) (w : List Nat) (c : Configuration) : Prop where
  states_ne_nil : c.states ≠ []
  holds : t.automaton.Holds c.state i
  word : t.grammar.IsWord w
  pending_eq : c.pending = w.map t.grammar.symbols.name

/-- The column of a token that is the name of a terminal. -/
theorem lookahead?_of_pending_cons (ht : t.IsCanonical) {tokens : List String}
    (hkind : t.grammar.symbols.kind? symbol = some .terminal)
    (h : c.pending = t.grammar.symbols.name symbol :: tokens) :
    c.lookahead? t.grammar = some symbol := by
  have hterminal := ht.augmented.isTerminal_iff.2 (Or.inl hkind)
  unfold lookahead?
  rw [h]
  show (t.grammar.symbols.find? (t.grammar.symbols.name symbol)).filter _ = some symbol
  rw [ht.augmented.find?_name hkind, Option.filter_some, if_pos hterminal]

/-- The column of the next token of a word is its next symbol, or `$`. -/
theorem lookahead?_of_pending_eq (ht : t.IsCanonical) (hw : t.grammar.IsWord w)
    (h : c.pending = w.map t.grammar.symbols.name) :
    c.lookahead? t.grammar = some (w.headD endId) := by
  cases w with
  | nil =>
      unfold lookahead?
      rw [h]
      rfl
  | cons a w => exact lookahead?_of_pending_cons ht (hw a List.mem_cons_self) h

namespace IsReading

theorem lookahead?_eq (ht : t.IsCanonical) (h : c.IsReading t i w) :
    c.lookahead? t.grammar = some (w.headD endId) :=
  lookahead?_of_pending_eq ht h.word h.pending_eq

/-- A terminal of the derivation is shifted. -/
theorem shift (ht : t.IsCanonical) (h : c.IsReading t i (symbol :: w))
    (hexp : i.symbol? t.grammar = some symbol) :
    ∃ state, c.step t = .moved (.shift state) (c.shift symbol state) ∧
      c.Gains [symbol] (c.shift symbol state) ∧
      (c.shift symbol state).IsReading t i.moved w := by
  obtain ⟨state, hmove⟩ := ht.collection.exists_next ht.augmented h.holds hexp
  have hkind := h.word symbol List.mem_cons_self
  have hterminal := ht.augmented.isTerminal_iff.2 (Or.inl hkind)
  have hcell := ht.action?_eq_shift_iff.2 ⟨hterminal, hmove⟩
  refine ⟨state, step_of_shift ⟨h.lookahead?_eq ht, hcell⟩, ?_, ?_⟩
  · exact ⟨⟨[state], rfl, rfl⟩, rfl⟩
  · have hmoved := ht.collection.holds_moved ht.augmented h.holds hexp hmove
    refine ⟨List.cons_ne_nil _ _, hmoved, ?_, ?_⟩
    · intro a ha
      exact h.word a (List.mem_cons_of_mem _ ha)
    · show c.pending.tail = w.map t.grammar.symbols.name
      rw [h.pending_eq, List.map_cons, List.tail_cons]

/-- A rule of the derivation is at its start in the top state, with the lookahead
that stands behind what it derives. -/
theorem spawn (ht : t.IsCanonical) (hr : r ∈ t.grammar.rules) (h : c.IsReading t i w)
    (hexp : i.symbol? t.grammar = some r.lhs) {l : Nat}
    (hl : l ∈ t.grammar.first.lookaheads (i.tail t.grammar) i.lookahead) :
    r.id ≠ 0 ∧ c.IsReading t ⟨r.id, 0, l⟩ w := by
  have hspawns : i.Spawns t.grammar r.lhs l :=
    ⟨hexp, ht.augmented.lhs_isNonTerminal r hr, hl⟩
  refine ⟨ht.augmented.id_ne_zero_of_spawns hr hspawns, ?_⟩
  have hspawned := ht.collection.holds_of_spawns ht.augmented h.holds hr hspawns
  exact ⟨h.states_ne_nil, hspawned, h.word, h.pending_eq⟩

/-- A rule whose right-hand side has been read is reduced, and the item that went
on with its left-hand side moves its dot. -/
theorem reduce (ht : t.IsCanonical) (hr : r ∈ t.grammar.rules) (hid : r.id ≠ 0)
    (h : c.IsReading t i v) (hexp : i.symbol? t.grammar = some r.lhs)
    (hgains : c.Gains r.rhs d)
    (hd : d.IsReading t ⟨r.id, r.rhs.length, w.headD endId⟩ w) :
    ∃ e, d.step t = .moved (.reduce r.id) e ∧ c.Gains [r.lhs] e ∧
      e.IsReading t i.moved w := by
  have hrule : t.grammar.rule r.id = r := ht.augmented.rule_eq_of_mem hr
  obtain ⟨next, hmove⟩ := ht.collection.exists_next ht.augmented h.holds hexp
  have hcell : t.action? d.state (w.headD endId) = some (.reduce r.id) := by
    apply ht.action?_eq_reduce_iff.2
    refine ⟨⟨r.id, r.rhs.length, w.headD endId⟩, hd.holds, ?_, ?_, rfl, rfl⟩
    · show decide ((t.grammar.rule r.id).rhs.length ≤ r.rhs.length) = true
      rw [hrule]
      exact decide_eq_true (Nat.le_refl _)
    · unfold Item.isAccepting
      simp [hid]
  obtain ⟨entered, hlength, hstates⟩ := hgains.states_eq
  obtain ⟨below, hbelow⟩ : ∃ below, c.states = c.state :: below := by
    unfold state
    cases hc : c.states with
    | nil => exact absurd hc h.states_ne_nil
    | cons top below => exact ⟨below, rfl⟩
  let reduction : d.Reduction t r.id := {
    rule := r, popped := entered, state := c.state, below, rest := c.symbols, next
    rule_eq := by
      rw [← hrule] at hr
      rw [ht.augmented.getElem?_rules hr, hrule]
    states_eq := by rw [hstates, hbelow]
    length_popped := hlength
    symbols_eq := hgains.symbols_eq
    goto_eq := ht.goto?_eq_some_iff.2 ⟨ht.augmented.lhs_isNonTerminal r hr, hmove⟩ }
  refine ⟨reduction.after,
    step_of_reduce ⟨hd.lookahead?_eq ht, hcell⟩ reduction.reduce_eq, ?_, ?_⟩
  · refine ⟨⟨[next], rfl, ?_⟩, rfl⟩
    show next :: c.state :: below = [next] ++ c.states
    rw [hbelow]
    rfl
  · have hmoved := ht.collection.holds_moved ht.augmented h.holds hexp hmove
    exact ⟨List.cons_ne_nil _ _, hmoved, hd.word, hd.pending_eq⟩

/-- **A derivation of a word** is a run over this word: the parser makes the
reductions of the derivation, one after the other, and the item of the top state
moves its dot over the symbols from which the word was derived. Where the derivation
goes down to a rule, the run goes on with an item of this rule, and comes back to the
first item by the reduction. -/
theorem exists_reaches (ht : t.IsCanonical) (h : t.grammar.Yields ids α w)
    (hc : c.IsReading t i (w ++ rest)) (hα : i.remaining t.grammar = α ++ β)
    (hrest : rest.headD endId ∈ t.grammar.first.lookaheads β i.lookahead) :
    ∃ actions d, c.Reaches t actions d ∧ reductions actions = ids ∧ c.Gains α d ∧
      d.IsReading t (i.movedBy α.length) rest := by
  induction h generalizing c i β rest with
  | nil => exact ⟨[], c, .refl, rfl, .refl, hc⟩
  | @terminal a ids α w _ _ ih =>
      have hexp := Item.symbol?_of_remaining hα
      obtain ⟨state, hstep, hgains, hshifted⟩ := hc.shift ht hexp
      obtain ⟨actions, d, hreach, hids, hlater, hd⟩ :=
        ih hshifted (Item.remaining_moved hα) hrest
      refine ⟨.shift state :: actions, d, .head hstep hreach, hids, hgains.trans hlater, ?_⟩
      rw [Item.movedBy_moved] at hd
      exact hd
  | @rule r ids more v α w hr _ later ihInner ihLater =>
      have hexp : i.symbol? t.grammar = some r.lhs := Item.symbol?_of_remaining hα
      have hl : (w ++ rest).headD endId ∈
          t.grammar.first.lookaheads (i.tail t.grammar) i.lookahead := by
        rw [Item.tail_of_remaining hα]
        exact ht.augmented.headD_mem_lookaheads later hrest
      rw [List.append_assoc] at hc
      obtain ⟨hid, hspawned⟩ := hc.spawn ht hr hexp hl
      have hrhs : Item.remaining t.grammar ⟨r.id, 0, (w ++ rest).headD endId⟩ = r.rhs ++ [] := by
        unfold Item.remaining Item.rhs
        rw [ht.augmented.rule_eq_of_mem hr, List.drop_zero, List.append_nil]
      obtain ⟨inner, d, hinner, hids, hgains, hd⟩ :=
        ihInner hspawned hrhs (SymbolSets.mem_lookaheads_nil.2 rfl)
      unfold Item.movedBy at hd
      simp only [Nat.zero_add] at hd
      obtain ⟨e, hstep, hreduced, he⟩ := hc.reduce ht hr hid hexp hgains hd
      obtain ⟨actions, f, hreach, hmore, hlater, hf⟩ :=
        ihLater he (Item.remaining_moved hα) hrest
      refine ⟨inner ++ .reduce r.id :: actions, f,
        hinner.trans (.head hstep hreach), ?_, hreduced.trans hlater, ?_⟩
      · rw [reductions_append, hids, ← hmore]
        rfl
      · rw [Item.movedBy_moved] at hf
        exact hf

end IsReading

/-! ## Sentences -/

/-- **A derivation of all tokens** from the declared start symbol leads to
acceptance, by the reductions of the derivation. -/
theorem exists_reaches_of_yields (ht : t.IsCanonical)
    (h : t.grammar.Yields ids (t.grammar.rule 0).rhs w) :
    ∃ actions d, (initial (w.map t.grammar.symbols.name)).Reaches t actions d ∧
      d.step t = .accepted ∧ reductions actions = ids := by
  have hstart : (initial (w.map t.grammar.symbols.name)).IsReading t ⟨0, 0, endId⟩
      (w ++ []) := by
    rw [List.append_nil]
    exact ⟨List.cons_ne_nil _ _, ht.collection.holds_start, h.isWord, rfl⟩
  have hrhs : Item.remaining t.grammar ⟨0, 0, endId⟩ = (t.grammar.rule 0).rhs ++ [] := by
    rw [List.append_nil]
    rfl
  obtain ⟨actions, d, hreach, hids, _, hd⟩ :=
    hstart.exists_reaches ht h hrhs (SymbolSets.mem_lookaheads_nil.2 rfl)
  refine ⟨actions, d, hreach, step_eq_accepted_iff.2 ⟨endId, hd.lookahead?_eq ht, ?_⟩, hids⟩
  obtain ⟨declared, hzero⟩ := ht.augmented.rule_zero
  have hheld := hd.holds
  rw [hzero] at hheld
  exact ht.action?_eq_accept_iff.2 ⟨rfl, hheld⟩

end Configuration

/-- **A rightmost derivation of a word** in the declared grammar is a run over the
names of its symbols, which reduces by the rules of the derivation, read backwards. -/
theorem Table.exists_reaches_of_derivesRightmost {g : Grammar} {t : Table}
    {ids w : List Nat} (hg : g.WellFormed) (built : build g = .ok t) (hw : g.IsWord w)
    (h : g.DerivesRightmost ids [g.start] w) :
    ∃ actions d, (Configuration.initial (w.map g.symbols.name)).Reaches t actions d ∧
      d.step t = .accepted ∧ reductions actions = ids.reverse.map (· + 1) := by
  have hlhs : ∀ r ∈ g.rules, g.symbols.kind? r.lhs ≠ some .terminal := by
    intro r hr
    rw [hg.lhs_kind r hr]
    decide
  have hyields := (h.yields hlhs hw).augment
  have hgrammar : t.grammar = g.augment := grammar_of_build built
  have hnames : w.map t.grammar.symbols.name = w.map g.symbols.name := by
    rw [hgrammar]
    exact hw.map_name_augment
  rw [← hnames]
  apply Configuration.exists_reaches_of_yields (isCanonical_build hg built)
  rw [hgrammar, Grammar.rule_augment_zero]
  exact hyields

end CanonicalLR
