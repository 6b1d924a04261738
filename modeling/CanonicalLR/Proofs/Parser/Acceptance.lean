import CanonicalLR.Proofs.Parser.Prefixes
import CanonicalLR.Proofs.Parser.Replay
import CanonicalLR.Proofs.Table.Exact

/-!
# Acceptance is unique and final

Rule 0 is spawned nowhere, so `[S' -> • S, $]` belongs to state 0 alone, and no move leads
back there. The item `[S' -> S •, $]` therefore belongs to one state, the one behind the move
over `S` from state 0, and the table accepts in this state only. On the stack nothing but `S`
stands below it, however often `S` occurs elsewhere. A trace that ends in acceptance shows
this stack twice, with all tokens shifted.

## Main definitions

* `Table.AcceptsOnlyIn` — the one state in which a table accepts.
* `Trace.ClosesOn` — the last two steps of a trace show one stack and no token.
* `Trace.shifts` — how many steps of a trace show a shift.

## Main results

* `holds_accepting_iff` — the accepting item belongs to one state.
* `Reaches.consumed_eq` — as many tokens are consumed as are shifted.
* `cells_of_accepted` — the stack on which the parser accepts.
* `acceptance_of_build` — for every table, and for every accepted input.
-/

namespace CanonicalLR

/-! ## The accepting state -/

namespace Automaton

variable {g : Grammar} {declared state : Nat}

/-- The start item expects the declared start symbol. -/
theorem symbol?_start_item (hzero : g.rule 0 = ⟨0, g.start, [declared]⟩) :
    Item.symbol? g ⟨0, 0, endId⟩ = some declared := by
  unfold Item.symbol? Item.rhs
  rw [hzero]
  rfl

/-- The start item is spawned nowhere, and no dot moves to its start. It belongs to state 0. -/
theorem eq_zero_of_holds_start (hg : g.IsAugmented)
    (hi : (g.automaton g.first).Holds state ⟨0, 0, endId⟩) : state = 0 := by
  have ha := Grammar.isCanonical_automaton hg
  by_contra hne
  obtain ⟨s, hs, -⟩ := id hi
  obtain ⟨earlier, -, symbol, henters⟩ := exists_move_to hg hs hne
  exact ha.rule_ne_zero_of_move hg henters hi rfl rfl

/-- **The accepting item** belongs to the state behind the move over the declared start
symbol from state 0, and to no other. -/
theorem holds_accepting_iff (hg : g.IsAugmented) (hzero : g.rule 0 = ⟨0, g.start, [declared]⟩) :
    (g.automaton g.first).Holds state ⟨0, 1, endId⟩ ↔
      (g.automaton g.first).Moves 0 declared state := by
  have ha := Grammar.isCanonical_automaton hg
  have hexpects := symbol?_start_item hzero
  constructor
  · intro hi
    have hne : state ≠ 0 := by
      rintro rfl
      exact absurd (ha.position_eq_zero hg hi) (Nat.succ_ne_zero 0)
    obtain ⟨s, hs, -⟩ := id hi
    obtain ⟨earlier, -, symbol, hmove⟩ := exists_move_to hg hs hne
    obtain ⟨i, hstart, hexp, hmoved⟩ := ha.exists_predecessor hg hmove hi Nat.one_pos
    have hbehind : Item.moved ⟨0, 0, endId⟩ = i.moved := hmoved
    obtain rfl : ⟨0, 0, endId⟩ = i := Item.moved_injective hbehind
    rw [hexpects] at hexp
    obtain rfl := Option.some.inj hexp
    rw [← eq_zero_of_holds_start hg hstart]
    exact hmove
  · intro hmove
    exact ha.holds_moved hg ha.holds_start hexpects hmove

/-- There is a move over the declared start symbol from state 0. -/
theorem exists_accepting_move (hg : g.IsAugmented)
    (hzero : g.rule 0 = ⟨0, g.start, [declared]⟩) :
    ∃ state, (g.automaton g.first).Moves 0 declared state := by
  have ha := Grammar.isCanonical_automaton hg
  exact ha.exists_next hg ha.holds_start (symbol?_start_item hzero)

end Automaton

namespace Table

variable {g : Grammar} {t : Table} {state symbol f : Nat}

/-- The cells that hold acceptance, row by row. -/
def acceptCells (t : Table) : List (Nat × Nat) :=
  ((List.range t.rows.size).product t.grammar.actionColumns).filter fun cell =>
    t.action? cell.1 cell.2 = some .accept

/-- The table accepts in one state only, the one that GOTO names over the declared start
symbol in state 0, and under `$`. -/
structure AcceptsOnlyIn (g : Grammar) (t : Table) (f : Nat) : Prop where
  goto_start : t.goto? 0 g.start = some f
  accept_iff : ∀ state symbol : Nat,
    t.action? state symbol = some .accept ↔ state = f ∧ symbol = endId
  /-- Of all cells of the table one holds acceptance. -/
  acceptCells_eq : t.acceptCells = [(f, endId)]

section Built

variable (hg : g.WellFormed) (built : build g = .ok t)

include hg built

/-- A move over the declared start symbol from state 0 leads to where the table accepts. -/
theorem action?_eq_accept_iff_move : t.action? state symbol = some .accept ↔
    symbol = endId ∧ t.automaton.Moves 0 g.start state := by
  have ht : t.IsCanonical := isCanonical_build hg built
  obtain ⟨-, -, hautomaton⟩ := origin_of_build built
  rw [ht.action?_eq_accept_iff, hautomaton,
    Automaton.holds_accepting_iff hg.isAugmented g.rule_augment_zero]

/-- **The table accepts** in one cell. -/
theorem exists_acceptsOnlyIn : ∃ f, t.AcceptsOnlyIn g f := by
  have ht : t.IsCanonical := isCanonical_build hg built
  obtain ⟨hgrammar, -, hautomaton⟩ := origin_of_build built
  obtain ⟨f, hmove⟩ := Automaton.exists_accepting_move hg.isAugmented g.rule_augment_zero
  rw [← hautomaton] at hmove
  have hiff : ∀ state symbol : Nat,
      t.action? state symbol = some .accept ↔ state = f ∧ symbol = endId := by
    intro state symbol
    rw [action?_eq_accept_iff_move hg built, and_comm]
    refine and_congr_left fun _ => ⟨fun h => ht.collection.next_unique h hmove, ?_⟩
    rintro rfl
    exact hmove
  refine ⟨f, ?_, hiff, ?_⟩
  · have hkind : g.augment.symbols.kind? g.start = some .nonTerminal := by
      rw [Grammar.kind?_augment (Grammar.lt_size_of_kind? hg.start_kind), hg.start_kind]
    refine ht.goto?_eq_some_iff.2 ⟨?_, hmove⟩
    rw [hgrammar]
    exact Grammar.IsAugmented.isNonTerminal_iff.2 (Or.inl hkind)
  · have hnodup : t.acceptCells.Nodup :=
      (List.nodup_range.product ht.augmented.nodup_actionColumns).filter _
    refine eq_singleton_of_mem_iff hnodup ?_
    rintro ⟨state, symbol⟩
    unfold acceptCells
    rw [List.mem_filter, List.pair_mem_product, List.mem_range, decide_eq_true_eq,
      Prod.mk.injEq, ← hiff]
    refine and_iff_right_of_imp fun hcell => ?_
    exact ⟨lt_size_rows_of_action? hcell, mem_actionColumns_of_action? hg built hcell⟩

end Built

end Table

/-! ## Shifts -/

/-- Does the step show a shift? -/
def StepAction.isShift : StepAction → Bool
  | .shift _ => true
  | .start | .reduce _ _ _ | .accept => false

theorem Action.isShift_shown (g : Grammar) (action : Action) :
    (action.shown g).isShift = action.isShift := by
  cases action with
  | shift state => rfl
  | reduce id => rfl
  | accept => rfl

namespace Configuration

variable {t : Table} {c d : Configuration} {actions : List Action} {tokens : List String}
  {limit : Nat}

/-- **As many tokens are consumed** as are shifted. -/
theorem Reaches.consumed_eq (h : (initial tokens).Reaches t actions d) :
    d.consumed = actions.countP Action.isShift := by
  induction h with
  | refl => rfl
  | tail _ hstep ih =>
      rw [List.countP_append, ← ih]
      rcases cases_of_step_eq_moved hstep with
        ⟨symbol, state, -, rfl, rfl⟩ | ⟨symbol, id, -, rfl, hreduce⟩
      · rfl
      · exact (cursor_of_reduce hreduce).1

/-! ## The last two steps -/

/-- A run that accepts shows the configuration in which it accepts twice. -/
theorem exists_last_two_of_accepted (h : (c.run t limit).ending = .accepted)
    (shown : StepAction) :
    ∃ actions d front last, c.Reaches t actions d ∧ d.step t = .accepted ∧
      c.shown t.grammar shown :: c.shownMoves t limit
        = front ++ [d.shown t.grammar last, d.shown t.grammar .accept] := by
  induction limit generalizing c shown with
  | zero => cases h
  | succ limit ih =>
      rw [run] at h
      cases hstep : c.step t with
      | moved action after =>
          rw [hstep] at h
          obtain ⟨actions, d, front, last, hlater, hd, hshown⟩ := ih h (action.shown t.grammar)
          refine ⟨action :: actions, d, c.shown t.grammar shown :: front, last,
            .head hstep hlater, hd, ?_⟩
          rw [shownMoves_of_moved hstep, hshown, List.cons_append]
      | accepted =>
          refine ⟨[], c, [], shown, .refl, hstep, ?_⟩
          rw [shownMoves_of_accepted hstep, List.nil_append]
      | failed error =>
          rw [hstep] at h
          cases h

end Configuration

/-! ## Accepted inputs -/

/-- The last two steps of a trace show the same stack and no token that remains; the last one
is acceptance, and no other is. -/
def Trace.ClosesOn (stack : List StackCell) (trace : Trace) : Prop :=
  ∃ front before last, trace = front ++ [before, last] ∧
    (before.stack = stack ∧ before.input = [endName]) ∧
    (last.stack = stack ∧ last.input = [endName]) ∧
    last.action = .accept ∧ ∀ step ∈ front ++ [before], step.action ≠ .accept

/-- How many steps show a shift. -/
def Trace.shifts (trace : Trace) : Nat := trace.countP fun step => step.action.isShift

namespace Table

open CanonicalLR.Configuration

variable {text : String} {g : Grammar} {t : Table} {f limit : Nat} {input : String}
  {trace : Trace} {d : Configuration} {actions : List Action}

/-- A trace shows as many shifts as its run makes. -/
theorem shifts_traceOf (t : Table) (limit : Nat) (input : String) :
    (t.traceOf limit input).shifts
      = ((t.runOf limit input).moves.map (·.action)).countP Action.isShift := by
  have hshown : ∀ action : Action, (action.shown t.grammar).isShift = action.isShift :=
    Action.isShift_shown t.grammar
  have hactions := congrArg (List.countP StepAction.isShift) (map_action_traceOf t limit input)
  rw [List.countP_map, List.countP_cons_of_neg (by simp [StepAction.isShift]), List.countP_map]
    at hactions
  unfold Trace.shifts
  simpa only [Function.comp_def, hshown] using hactions

section Built

variable (hg : g.WellFormed) (built : build g = .ok t)

include hg built

/-- **The stack on which the parser accepts** shows state 0, the declared start symbol and
the accepting state. -/
theorem cells_of_accepted (hf : t.AcceptsOnlyIn g f) (hs : Stacked t d.states d.symbols)
    (hd : d.step t = .accepted) :
    d.cells t.grammar = [.state 0, .symbol (g.symbols.name g.start), .state f] := by
  have ht : t.IsCanonical := isCanonical_build hg built
  obtain ⟨symbol, hread⟩ := step_eq_accepted_iff.1 hd
  obtain ⟨-, hsymbols⟩ := hs.symbols_eq_of_accept ht hread.2
  have htop : d.state = f := ((hf.accept_iff _ _).1 hread.2).1
  have hname : t.grammar.symbols.name g.start = g.symbols.name g.start := by
    rw [grammar_of_build built]
    exact Grammar.name_augment (Grammar.lt_size_of_kind? hg.start_kind)
  rw [grammar_of_build built, Grammar.rule_augment_zero] at hsymbols
  obtain ⟨states, symbols, consumed, pending⟩ := d
  obtain rfl : symbols = [g.start] := hsymbols
  cases hs with
  | push earlier move =>
      cases earlier with
      | bottom =>
          obtain rfl := htop
          unfold cells spelled
          simp [hname, state]

/-- **An accepted input** is shown by a trace that closes on the accepting stack. -/
theorem closesOn_of_accepted (hf : t.AcceptsOnlyIn g f)
    (h : t.parse limit input = .accepted trace) :
    trace.ClosesOn [.state 0, .symbol (g.symbols.name g.start), .state f] := by
  have ht : t.IsCanonical := isCanonical_build hg built
  obtain ⟨hfree, rfl, hending⟩ := ending_of_accepted h
  obtain ⟨actions, d, front, last, hreach, hd, hshown⟩ :=
    exists_last_two_of_accepted hending .start
  have htrace : t.traceOf limit input
      = front ++ [d.shown t.grammar last, d.shown t.grammar .accept] := hshown
  have hstack := cells_of_accepted hg built hf (hreach.stacked ht) hd
  obtain ⟨-, hpending, -⟩ := hreach.of_accepted ht hfree hd
  have hinput : d.pending ++ [endName] = [endName] := by rw [hpending, List.nil_append]
  refine ⟨front, _, _, htrace, ⟨hstack, hinput⟩, ⟨hstack, hinput⟩, rfl, ?_⟩
  have hbefore : front ++ [d.shown t.grammar last] = (t.traceOf limit input).dropLast := by
    rw [htrace, List.append_cons front _ [d.shown t.grammar .accept], List.dropLast_concat]
  rw [hbefore]
  exact (accept_last_traceOf t limit input).1

/-- **An accepted input** has each of its tokens shifted once. -/
theorem shifts_of_accepted (h : t.parse limit input = .accepted trace) :
    trace.shifts = (Text.wordsOf input).length := by
  obtain ⟨hfree, rfl, hending⟩ := ending_of_accepted h
  obtain ⟨actions, d, hreach, hd, hmoves⟩ := exists_reaches_of_ending_accepted hending
  have hmoves : (t.runOf limit input).moves.map (·.action) = actions ++ [.accept] := hmoves
  obtain ⟨-, -, hall⟩ := hreach.of_accepted (isCanonical_build hg built) hfree hd
  have hconsumed := hreach.consumed_eq
  rw [hall] at hconsumed
  rw [shifts_traceOf, hmoves, List.countP_append, hconsumed]
  rfl

end Built

/-- **Acceptance is unique and final**: the table of a grammar text accepts in one cell only,
and the trace of every accepted input closes on the start symbol between state 0 and the
state of this cell, with each token shifted once. -/
theorem acceptance_of_build (read : Grammar.ofText text = .ok g) (built : build g = .ok t) :
    ∃ f, t.AcceptsOnlyIn g f ∧ ∀ limit input trace, t.parse limit input = .accepted trace →
      trace.ClosesOn [.state 0, .symbol (g.symbols.name g.start), .state f] ∧
        trace.shifts = (Text.wordsOf input).length := by
  have hg : g.WellFormed := Grammar.wellFormed_ofText read
  obtain ⟨f, hf⟩ := exists_acceptsOnlyIn hg built
  exact ⟨f, hf, fun limit input trace h =>
    ⟨closesOn_of_accepted hg built hf h, shifts_of_accepted hg built h⟩⟩

/-- So it is with nested pairs, where the start symbol also occurs inside of itself. -/
theorem acceptance_of_nested :
    ∃ t f trace, Grammar.ofText "S -> a S b | ε" = .ok Grammar.nested ∧
      build Grammar.nested = .ok t ∧ t.AcceptsOnlyIn Grammar.nested f ∧
      t.parse 10 "a a b b" = .accepted trace ∧
      trace.ClosesOn [.state 0, .symbol "S", .state f] ∧ trace.shifts = 4 := by
  obtain ⟨g, t, read, built, haccepted⟩ := exists_table "S -> a S b | ε"
    (fun t => (t.parse 10 "a a b b").isAccepted) (by decide +kernel)
  obtain rfl := Except.ok.inj (read.symm.trans Grammar.ofText_nested)
  obtain ⟨trace, htrace⟩ := ParseResult.exists_of_isAccepted haccepted
  obtain ⟨f, hf, hall⟩ := acceptance_of_build read built
  obtain ⟨hcloses, hshifts⟩ := hall 10 "a a b b" trace htrace
  have hwords : (Text.wordsOf "a a b b").length = 4 := by decide +kernel
  exact ⟨t, f, trace, read, built, hf, htrace, hcloses, hshifts.trans hwords⟩

end Table

end CanonicalLR
