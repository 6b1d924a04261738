import CanonicalLR.Proofs.Automaton.ValidItems
import CanonicalLR.Proofs.Sets.FollowExact
import CanonicalLR.Proofs.Table.Exact

/-!
# Lookaheads and FOLLOW

The automaton is made without the FOLLOW sets. Every lookahead in it is nevertheless in
FOLLOW of the left-hand side of its rule: the start item begins so, a move changes neither
the rule nor the lookahead, and what a rule is spawned with is what the equations of FOLLOW
add. Where every non-terminal can be reached from the start symbol and derives a word,
nothing is in FOLLOW that is not a lookahead. Then each non-terminal is awaited in some
state with some lookahead, and what a pass for FOLLOW adds to a set is spawned by an item
that has its dot before the non-terminal.

## Main definitions

* `Grammar.IsReachable` — the start symbol leads to every non-terminal.
* `Automaton.Offers` — some state holds all rules of a symbol with a lookahead.

## Main results

* `lookahead_mem_follow` — lookaheads are in FOLLOW.
* `Offers.of_rule` — what a rule adds to a FOLLOW set is offered.
* `offers_of_mem_follow` — members of FOLLOW are lookaheads.
* `lookaheadsAgree_of_ofText` — the lookaheads and the FOLLOW sets of every grammar text.
-/

namespace CanonicalLR

open SymbolSets

/-! ## Reachable non-terminals -/

namespace Grammar

variable {g : Grammar} {α β : List Nat} {symbol : Nat}

/-- Every non-terminal stands in a form that the start symbol derives. -/
def IsReachable (g : Grammar) : Prop :=
  ∀ symbol, g.symbols.isNonTerminal symbol = true →
    ∃ α β, g.Derives [g.start] (α ++ symbol :: β)

/-- Augmentation keeps the non-terminals reachable. -/
theorem WellFormed.isReachable_augment (hg : g.WellFormed) (h : g.IsReachable) :
    g.augment.IsReachable := by
  intro symbol hsymbol
  rcases IsAugmented.isNonTerminal_iff.1 hsymbol with hk | hk
  · rcases kind?_augment_eq_some_iff.1 hk with hk | ⟨_, hk⟩
    · obtain ⟨α, β, hderives⟩ := h symbol (IsAugmented.isNonTerminal_iff.2 (Or.inl hk))
      exact ⟨α, β, g.derives_start_augment.trans hderives.augment⟩
    · cases hk
  · obtain rfl := hg.isAugmented.start_kind_iff.1 hk
    exact ⟨[], [], .refl _⟩

/-- In a productive grammar something can follow any string of symbols. -/
theorem IsProductive.exists_mem_lookaheads (hg : g.IsAugmented) (hp : g.IsProductive)
    (hβ : g.IsForm β) (b : Nat) : ∃ l, l ∈ g.first.lookaheads β b := by
  obtain ⟨ids, w, hyields⟩ := hp.exists_yields hβ
  cases w with
  | nil => exact ⟨b, mem_lookaheads.2 (Or.inr ⟨hg.headD_mem_ofSequence hyields, rfl⟩)⟩
  | cons l w =>
      have hne := hg.ne_epsilonId_of_terminal (hyields.isWord l List.mem_cons_self)
      exact ⟨l, mem_lookaheads.2 (Or.inl ⟨hg.headD_mem_ofSequence hyields, hne⟩)⟩

/-- A non-terminal that derives a word has a rule. -/
theorem IsProductive.exists_rule (hp : g.IsProductive)
    (hk : g.symbols.isNonTerminal symbol = true) : ∃ r, r ∈ g.rules ∧ r.lhs = symbol := by
  obtain ⟨w, hw, hderives⟩ := hp symbol hk
  rcases hderives.cases_singleton with rfl | ⟨r, hr, -⟩
  · exact absurd hk (IsAugmented.not_isNonTerminal_of_terminal (hw symbol List.mem_cons_self))
  · exact ⟨r, mem_rulesOf.1 hr⟩

end Grammar

/-! ## Lookaheads are in FOLLOW -/

namespace Automaton

variable {a : Automaton} {g : Grammar} {i : Item} {r : Rule} {state symbol l b : Nat}
  {α β : List Nat} (ha : a.IsCanonical g) (hg : g.IsAugmented)

section Canonical

include ha hg

/-- **Every lookahead** is in FOLLOW of the left-hand side. -/
theorem IsCanonical.lookahead_mem_follow (h : a.Holds state i) :
    i.lookahead ∈ g.follow.get (g.rule i.rule).lhs := by
  refine ha.holds_induction hg
    (P := fun i => i.lookahead ∈ g.follow.get (g.rule i.rule).lhs) ?_ ?_ ?_ h
  · obtain ⟨declared, hzero⟩ := hg.rule_zero
    rw [hzero]
    exact hg.endId_mem_follow_start
  · exact fun i symbol hi _ => hi
  · intro i r l hi hr hspawns
    obtain ⟨hrhs, -⟩ := Item.symbol?_eq_some_iff.1 hspawns.expected
    have hmem := Grammar.IsAugmented.rule_mem_of_mem_rhs
      (List.mem_of_getElem? hspawns.expected)
    rw [hg.rule_eq_of_mem hr]
    exact hg.mem_follow_of_rule hmem hrhs hspawns.nonTerminal
      (mem_followedBy_of_mem_lookaheads hi hspawns.mem_lookaheads)

end Canonical

/-! ## Members of FOLLOW are lookaheads -/

/-- A state that moves lead to holds all rules of the symbol at their start, with `l` as
their lookahead. -/
def Offers (a : Automaton) (g : Grammar) (symbol l : Nat) : Prop :=
  ∃ γ state, a.Reached γ state ∧
    ∀ r ∈ g.rules, r.lhs = symbol → a.Holds state ⟨r.id, 0, l⟩

section Canonical

include ha hg

/-- State 0 offers the end marker behind the start symbol. -/
theorem offers_start : a.Offers g g.start endId := by
  refine ⟨[], 0, .start, fun r hr hlhs => ?_⟩
  rw [hg.id_of_lhs_eq_start r hr hlhs]
  exact ha.holds_start

/-- **What a rule adds** to the FOLLOW set of a symbol in it is offered: the moves over what
stands before the symbol lead to a state that awaits it. -/
theorem Offers.of_rule (hr : r ∈ g.rules) (hrhs : r.rhs = α ++ symbol :: β)
    (h : a.Offers g r.lhs b) (hl : l ∈ g.first.lookaheads β b) : a.Offers g symbol l := by
  obtain ⟨γ, state, hreached, hholds⟩ := h
  obtain ⟨next, hnext, hheld⟩ :=
    exists_reached_of_rule ha hg hr hreached (hholds r hr rfl) hrhs
  have hremaining : Item.remaining g ⟨r.id, α.length, b⟩ = symbol :: β :=
    Item.remaining_of_rhs_eq hg hr hrhs
  have hawaits : a.Awaits g next symbol l := by
    refine ⟨_, hheld, Item.symbol?_of_remaining hremaining, ?_⟩
    rw [Item.tail_of_remaining hremaining]
    exact hl
  refine ⟨γ ++ α, next, hnext, fun q hq hlhs => ?_⟩
  subst hlhs
  exact hawaits.holds ha hg hq

/-- In a productive grammar the non-terminals of a form are offered with some lookahead if
those are from which it is derived. -/
theorem exists_offers_of_derives (hp : g.IsProductive) (hderives : g.Derives α β)
    (h : ∀ symbol ∈ α, g.symbols.isNonTerminal symbol = true → ∃ l, a.Offers g symbol l) :
    ∀ symbol ∈ β, g.symbols.isNonTerminal symbol = true → ∃ l, a.Offers g symbol l := by
  induction hderives with
  | refl => exact h
  | @step r front back _ hr _ ih =>
      apply ih
      intro symbol hmem hk
      rcases List.mem_append.1 hmem with hmem | hmem
      · rcases List.mem_append.1 hmem with hmem | hmem
        · exact h symbol (List.mem_append_left _ hmem) hk
        · obtain ⟨before, rest, hrhs⟩ := List.append_of_mem hmem
          have hlhs : r.lhs ∈ front ++ r.lhs :: back :=
            List.mem_append_right _ List.mem_cons_self
          obtain ⟨b, hb⟩ := h r.lhs hlhs (hg.lhs_isNonTerminal r hr)
          obtain ⟨l, hl⟩ := hp.exists_mem_lookaheads hg (hg.isForm_of_rhs_eq hr hrhs) b
          exact ⟨l, hb.of_rule ha hg hr hrhs hl⟩
      · exact h symbol (List.mem_append_right _ (List.mem_cons_of_mem _ hmem)) hk

/-- Where every non-terminal is reachable and productive, each is offered. -/
theorem exists_offers (hreach : g.IsReachable) (hp : g.IsProductive)
    (hk : g.symbols.isNonTerminal symbol = true) : ∃ l, a.Offers g symbol l := by
  obtain ⟨front, back, hderives⟩ := hreach symbol hk
  have hstart : ∀ other ∈ [g.start], g.symbols.isNonTerminal other = true →
      ∃ l, a.Offers g other l := by
    intro other hmem _
    rw [List.mem_singleton.1 hmem]
    exact ⟨endId, offers_start ha hg⟩
  have hmem : symbol ∈ front ++ symbol :: back :=
    List.mem_append_right _ List.mem_cons_self
  exact exists_offers_of_derives ha hg hp hderives hstart symbol hmem hk

/-- **Members of FOLLOW** are offered, if every non-terminal is reachable and productive:
so it is with the end marker behind the start symbol, and each rule that a pass uses keeps
it so. -/
theorem offers_of_mem_follow (hreach : g.IsReachable) (hp : g.IsProductive)
    (h : l ∈ g.follow.get symbol) : a.Offers g symbol l := by
  have hkeeps : ∀ s : SymbolSets, (∀ symbol l, l ∈ s.get symbol → a.Offers g symbol l) →
      ∀ symbol l, l ∈ (g.followPass g.first s).get symbol → a.Offers g symbol l := by
    intro s hs
    refine Grammar.followPass_induction
      (P := fun s => ∀ symbol l, l ∈ s.get symbol → a.Offers g symbol l) ?_ hs
    intro s r α β symbol hs hr hrhs hk other l hl
    rcases mem_of_mem_get_extend hl with hold | ⟨rfl, hnew⟩
    · exact hs other l hold
    · rcases mem_followedBy.1 hnew with hstarts | ⟨hnull, hafter⟩
      · obtain ⟨b, hb⟩ := exists_offers ha hg hreach hp (hg.lhs_isNonTerminal r hr)
        exact hb.of_rule ha hg hr hrhs (mem_lookaheads.2 (Or.inl hstarts))
      · exact (hs r.lhs l hafter).of_rule ha hg hr hrhs
          (mem_lookaheads.2 (Or.inr ⟨hnull, rfl⟩))
  have hseed : ∀ symbol l, l ∈ g.followSeed.get symbol → a.Offers g symbol l := by
    intro symbol l hl
    obtain ⟨rfl, rfl⟩ := hg.mem_get_followSeed.1 hl
    exact offers_start ha hg
  exact saturate_invariant hkeeps g.passCap hseed symbol l h

/-- **The lookaheads of a non-terminal** are its FOLLOW set, if every non-terminal is
reachable and productive. -/
theorem mem_follow_iff_exists_holds (hreach : g.IsReachable) (hp : g.IsProductive)
    (hk : g.symbols.isNonTerminal symbol = true) :
    l ∈ g.follow.get symbol ↔
      ∃ state i, a.Holds state i ∧ (g.rule i.rule).lhs = symbol ∧ i.lookahead = l := by
  constructor
  · intro h
    obtain ⟨γ, state, -, hholds⟩ := offers_of_mem_follow ha hg hreach hp h
    obtain ⟨r, hr, hlhs⟩ := hp.exists_rule hk
    refine ⟨state, _, hholds r hr hlhs, ?_, rfl⟩
    rw [hg.rule_eq_of_mem hr]
    exact hlhs
  · intro h
    obtain ⟨state, i, hi, rfl, rfl⟩ := h
    exact ha.lookahead_mem_follow hg hi

end Canonical

end Automaton

/-! ## Grammar texts -/

/-- The table keeps the FOLLOW sets of the augmented grammar. -/
theorem Table.follow_of_build {g : Grammar} {t : Table} (built : Table.build g = .ok t) :
    t.follow = g.augment.follow := by
  unfold Table.build Table.ofAnalysis at built
  obtain ⟨rows, -, ht⟩ := exists_of_bind_eq_ok built
  obtain rfl := Except.ok.inj ht
  rfl

namespace Grammar

/-- The lookaheads of a declared grammar, in its canonical collection and in its table, are
what the FOLLOW sets of the augmented grammar allow for. -/
structure LookaheadsAgree (g : Grammar) : Prop where
  /-- The lookahead of every item of a state is in FOLLOW of its left-hand side. -/
  lookahead_mem_follow : ∀ state i, (g.augment.automaton g.augment.first).Holds state i →
    i.lookahead ∈ g.augment.follow.get (g.augment.rule i.rule).lhs
  /-- It is a declared terminal or the end marker. -/
  terminal_or_end : ∀ state i, (g.augment.automaton g.augment.first).Holds state i →
    g.symbols.kind? i.lookahead = some .terminal ∨ i.lookahead = endId
  /-- The reductions of a table stand under symbols that follow the left-hand side. -/
  mem_follow_of_reduce : ∀ t, Table.build g = .ok t → ∀ state symbol id,
    t.action? state symbol = some (.reduce id) → symbol ∈ t.follow.get (t.grammar.rule id).lhs
  /-- If every non-terminal is reachable and productive, the lookaheads of the rules of a
  non-terminal, in all states together, are its FOLLOW set. -/
  mem_follow_iff : g.IsReachable → g.IsProductive →
    ∀ symbol, g.augment.symbols.isNonTerminal symbol = true → ∀ l,
      (l ∈ g.augment.follow.get symbol ↔
        ∃ state i, (g.augment.automaton g.augment.first).Holds state i ∧
          (g.augment.rule i.rule).lhs = symbol ∧ i.lookahead = l)

/-- **Lookaheads and FOLLOW** agree for every grammar text. -/
theorem lookaheadsAgree_of_ofText {text : String} {g : Grammar}
    (read : ofText text = .ok g) : g.LookaheadsAgree := by
  have hwell := wellFormed_ofText read
  have hg : g.augment.IsAugmented := hwell.isAugmented
  have ha := isCanonical_automaton hg
  refine
    { lookahead_mem_follow := fun _ _ hi => ha.lookahead_mem_follow hg hi
      terminal_or_end := ?_
      mem_follow_of_reduce := ?_
      mem_follow_iff := ?_ }
  · intro state i hi
    rcases hg.terminal_or_end_of_mem_follow (ha.lookahead_mem_follow hg hi) with hk | hend
    · rcases kind?_augment_eq_some_iff.1 hk with hk | ⟨_, hk⟩
      · exact Or.inl hk
      · cases hk
    · exact Or.inr hend
  · intro t built state symbol id hcell
    have ht := Table.isCanonical_build hwell built
    obtain ⟨i, hi, -, -, rfl, rfl⟩ := ht.action?_eq_reduce_iff.1 hcell
    rw [Table.follow_of_build built, (Table.origin_of_build built).1]
    rw [(Table.origin_of_build built).2.2] at hi
    exact ha.lookahead_mem_follow hg hi
  · intro hreach hp symbol hk l
    exact Automaton.mem_follow_iff_exists_holds ha hg (hwell.isReachable_augment hreach)
      (hwell.isProductive_augment hp) hk

/-- So it is with nested pairs, whose only non-terminal is the start symbol. The empty pair
is reduced before the second half of a pair and before the end. -/
theorem lookaheadsAgree_of_nested :
    ofText "S -> a S b | ε" = .ok nested ∧ nested.LookaheadsAgree ∧ nested.IsReachable ∧
      nested.IsProductive ∧ (nested.augment.follow.get 2).toList = [1, 4] ∧
      ∀ l ∈ [1, 4], ∃ state i,
        (nested.augment.automaton nested.augment.first).Holds state i ∧
          (nested.augment.rule i.rule).lhs = 2 ∧ i.lookahead = l := by
  have hagree := lookaheadsAgree_of_ofText ofText_nested
  have hreach : nested.IsReachable := by
    intro symbol hsymbol
    rw [eq_of_isNonTerminal_nested hsymbol]
    exact ⟨[], [], .refl _⟩
  have hfollow : (nested.augment.follow.get 2).toList = [1, 4] := by decide +kernel
  refine ⟨ofText_nested, hagree, hreach, isProductive_nested, hfollow, fun l hl => ?_⟩
  apply (hagree.mem_follow_iff hreach isProductive_nested 2 (by decide) l).1
  rw [← OrdSet.mem_toList, hfollow]
  exact hl

end Grammar

end CanonicalLR
