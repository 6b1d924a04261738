import CanonicalLR.Log
import CanonicalLR.Proofs.Grammar.Declared
import CanonicalLR.Proofs.Parser.Soundness

/-!
# Traces can be replayed

A trace shows names and cells, not the stacks of the machine. It is nevertheless all that is
needed to check a run: each step follows from the one before by the action for the state and
the token that this one shows, the cells that a reduction takes off spell its rule, and a
trace without acceptance ends where that action is missing. What the parser reports about
its decisions is what its trace shows of them.

## Main definitions

* `Table.actionOn` — the action for a state and a token, found by its name.
* `Step.Shows` — the state and the token that a step shows.
* `Step.Performs`, `Step.LeadsTo` — a step of a trace follows from the one before.
* `Trace.IsReplay`, `Trace.IsStuck` — a trace that can be replayed, and why it stopped.
* `Event.Reports` — an event reports the decision between two steps.

## Main results

* `Step.LeadsTo.unique` — only one step follows from a step.
* `Configuration.cells_append` — what is shown of a stack that stands on another.
* `leadsTo_of_moved`, `leadsTo_of_accepted` — one move.
* `isChain_run`, `forall₂_events` — a whole run.
* `parse_replays` — every trace of every parse can be replayed.
-/

namespace CanonicalLR

/-! ## Replays -/

/-- The ACTION cell of a state and a token; a word that is no terminal of the grammar has
none. -/
def Table.actionOn (t : Table) (state : Nat) (token : String) : Option Action :=
  ((t.grammar.symbols.find? token).filter t.grammar.symbols.isTerminal).bind (t.action? state)

/-- A step shows a state on top of its stack, and a token before all others. -/
structure Step.Shows (s : Step) (state : Nat) (token : String) : Prop where
  top : s.stack.getLast? = some (.state state)
  first : s.input.head? = some token

theorem Step.Shows.unique {s : Step} {state state' : Nat} {token token' : String}
    (h : s.Shows state token) (h' : s.Shows state' token') : state = state' ∧ token = token' := by
  have htop := h.top.symm.trans h'.top
  have hfirst := h.first.symm.trans h'.first
  exact ⟨StackCell.state.inj (Option.some.inj htop), Option.some.inj hfirst⟩

/-- What an action does to the stack and the input that are shown. -/
inductive Step.Performs (t : Table) (before after : Step) : Action → Prop where
  | shift {next : Nat} {token : String} (input : before.input = token :: after.input)
      (stack : after.stack = before.stack ++ [.symbol token, .state next])
      (action : after.action = .shift next) : Step.Performs t before after (.shift next)
  | reduce {id uncovered next : Nat} {r : Rule} {kept popped : List StackCell}
      (rule : t.grammar.rules[id]? = some r)
      (parts : before.stack = kept ++ [.state uncovered] ++ popped)
      (length : popped.length = 2 * r.rhs.length)
      (spelled : popped.filterMap StackCell.symbol? = r.rhs.map t.grammar.symbols.name)
      (goto : t.goto? uncovered r.lhs = some next) (input : after.input = before.input)
      (stack : after.stack = kept ++ [.state uncovered]
        ++ [.symbol (t.grammar.symbols.name r.lhs), .state next])
      (action : after.action = .reduce id (r.render t.grammar.symbols) popped.length) :
      Step.Performs t before after (.reduce id)
  | accept (input : after.input = before.input) (stack : after.stack = before.stack)
      (action : after.action = .accept) : Step.Performs t before after .accept

/-- A step follows from the one before by the action for the state and the token that are
shown there. -/
def Step.LeadsTo (t : Table) (before after : Step) : Prop :=
  ∃ state token action, before.Shows state token ∧ t.actionOn state token = some action ∧
    Step.Performs t before after action

/-- An action does only one thing. -/
theorem Step.Performs.unique {t : Table} {before after after' : Step} {action : Action}
    (h : Step.Performs t before after action) (h' : Step.Performs t before after' action) :
    after = after' := by
  obtain ⟨stack, input, shown⟩ := after
  obtain ⟨stack', input', shown'⟩ := after'
  cases h with
  | shift hinput hstack haction =>
      obtain ⟨hinput', hstack', haction'⟩ := h'
      dsimp only at *
      obtain ⟨rfl, rfl⟩ := List.cons.inj (hinput.symm.trans hinput')
      rw [hstack, hstack', haction, haction']
  | reduce hrule hparts hlength _ hgoto hinput hstack haction =>
      obtain - | ⟨hrule', hparts', hlength', -, hgoto', hinput', hstack', haction'⟩ := h'
      dsimp only at *
      obtain rfl := Option.some.inj (hrule.symm.trans hrule')
      obtain ⟨hfront, rfl⟩ := List.append_inj' (hparts.symm.trans hparts')
        (hlength.trans hlength'.symm)
      obtain ⟨rfl, huncovered⟩ := List.append_inj' hfront rfl
      obtain rfl := StackCell.state.inj (List.singleton_injective huncovered)
      obtain rfl := Option.some.inj (hgoto.symm.trans hgoto')
      rw [hstack, hstack', hinput, hinput', haction, haction']
  | accept hinput hstack haction =>
      obtain - | - | ⟨hinput', hstack', haction'⟩ := h'
      dsimp only at *
      rw [hstack, hstack', hinput, hinput', haction, haction']

/-- **A replay has no choice**: only one step follows from a step. -/
theorem Step.LeadsTo.unique {t : Table} {before after after' : Step}
    (h : Step.LeadsTo t before after) (h' : Step.LeadsTo t before after') : after = after' := by
  obtain ⟨state, token, action, hshows, hcell, hafter⟩ := h
  obtain ⟨state', token', action', hshows', hcell', hafter'⟩ := h'
  obtain ⟨rfl, rfl⟩ := hshows.unique hshows'
  obtain rfl := Option.some.inj (hcell.symm.trans hcell')
  exact hafter.unique hafter'

/-- A trace starts in state 0 with all tokens and the end marker, each later step follows
from the one before, and acceptance is the last step. -/
structure Trace.IsReplay (t : Table) (tokens : List String) (trace : Trace) : Prop where
  start : trace.head? = some ⟨[.state 0], tokens ++ [endName], .start⟩
  leads : trace.IsChain (Step.LeadsTo t)
  accept_last : ∀ step ∈ trace.dropLast, step.action ≠ .accept

/-- A trace ends without acceptance because there is no action for the state and the token
of its last step; the token and its place are reported. -/
structure Trace.IsStuck (t : Table) (tokens : List String) (trace : Trace) (error : Error) :
    Prop where
  not_accept : ∀ step ∈ trace, step.action ≠ .accept
  missing : ∃ last state token position expecting, trace.getLast? = some last ∧
    last.Shows state token ∧ t.actionOn state token = none ∧
    error = .unexpectedToken token position expecting ∧
    position ≤ tokens.length ∧ last.input = (tokens ++ [endName]).drop position

/-- An event reports the state, the token and the action of the decision between two
steps, in a record such as `#0 id :: s4`. -/
def Event.Reports (t : Table) (event : Event) (before after : Step) : Prop :=
  ∃ state token action, before.Shows state token ∧ t.actionOn state token = some action ∧
    after.action = action.shown t.grammar ∧ event.level = .trace ∧
    ∃ written, action.IsWritten written ∧
      event.message = "#" ++ toString state ++ " " ++ token ++ " :: " ++ written

/-! ## Stacks as they are shown -/

/-- The cells of some symbols, each with the state that was entered over it. -/
def enteredCells (g : Grammar) (symbols states : List Nat) : List StackCell :=
  (symbols.zip states).flatMap fun cell => [.symbol (g.symbols.name cell.1), .state cell.2]

theorem length_enteredCells (g : Grammar) {symbols states : List Nat}
    (h : symbols.length = states.length) :
    (enteredCells g symbols states).length = 2 * symbols.length := by
  induction symbols generalizing states with
  | nil => rfl
  | cons symbol symbols ih =>
      cases states with
      | nil => cases h
      | cons state states =>
          have hrest := ih (Nat.succ.inj h)
          unfold enteredCells at hrest ⊢
          rw [List.zip_cons_cons, List.flatMap_cons, List.length_append, hrest]
          simp only [List.length_cons, List.length_nil]
          omega

namespace Configuration

variable {t : Table} {g : Grammar} {c d : Configuration} {action : Action}

/-- **A stack that stands on another** is shown behind it. -/
theorem cells_append (popped entered : List Nat) (hd : d.states.length = d.symbols.length + 1)
    (hstates : c.states = popped ++ d.states) (hsymbols : c.symbols = entered ++ d.symbols) :
    c.cells g = d.cells g ++ enteredCells g entered.reverse popped.reverse := by
  unfold cells spelled enteredCells
  rw [hstates, hsymbols, List.reverse_append, List.reverse_append]
  cases hbottom : d.states.reverse with
  | nil =>
      rw [← List.length_reverse, hbottom] at hd
      cases hd
  | cons bottom above =>
      have hlength : d.symbols.reverse.length = above.length := by
        have hcount : d.states.reverse.length = above.length + 1 := by rw [hbottom]; rfl
        rw [List.length_reverse] at hcount ⊢
        omega
      dsimp only [List.cons_append]
      rw [List.zip_append hlength, List.flatMap_append]

/-- The top state is shown last. -/
theorem exists_cells_eq (h : c.states.length = c.symbols.length + 1) :
    ∃ front, c.cells g = front ++ [.state c.state] := by
  unfold state
  cases hsymbols : c.symbols with
  | nil =>
      rw [hsymbols] at h
      obtain ⟨bottom, hstates⟩ := List.length_eq_one_iff.1 h
      refine ⟨[], ?_⟩
      unfold cells spelled
      rw [hsymbols, hstates]
      rfl
  | cons symbol symbols =>
      cases hstates : c.states with
      | nil =>
          rw [hstates] at h
          cases h
      | cons top states =>
          rw [hstates, hsymbols] at h
          have hbelow : states.length = symbols.length + 1 := Nat.succ.inj h
          let d : Configuration := ⟨states, symbols, c.consumed, c.pending⟩
          have hcells : c.cells g = d.cells g ++ enteredCells g [symbol] [top] :=
            cells_append [top] [symbol] hbelow hstates hsymbols
          refine ⟨d.cells g ++ [.symbol (g.symbols.name symbol)], ?_⟩
          rw [hcells, List.append_assoc]
          rfl

/-- A configuration is shown with its state and its next token. -/
theorem shows_shown (h : c.states.length = c.symbols.length + 1) (shown : StepAction) :
    (c.shown g shown).Shows c.state c.next := by
  constructor
  · obtain ⟨front, hcells⟩ := exists_cells_eq (g := g) h
    show (c.cells g).getLast? = some (.state c.state)
    rw [hcells, List.getLast?_concat]
  · show (c.pending ++ [endName]).head? = some (c.pending.headD endName)
    cases c.pending <;> rfl

/-! ## One move -/

/-- A decision is the cell that is read. -/
theorem decision?_eq_some_iff :
    c.decision? t = some action ↔ ∃ symbol, c.Reads t symbol action :=
  Option.bind_eq_some_iff

/-- A move is what was decided. -/
theorem decision?_of_moved (hstep : c.step t = .moved action d) : c.decision? t = some action := by
  rw [decision?_eq_some_iff]
  rcases cases_of_step_eq_moved hstep with
    ⟨symbol, next, hread, rfl, -⟩ | ⟨symbol, id, hread, rfl, -⟩
  · exact ⟨symbol, hread⟩
  · exact ⟨symbol, hread⟩

/-- **A reduction** is shown as one. -/
theorem performs_of_reduce {id : Nat} (r : c.Reduction t id)
    (hr : Stacked t (r.state :: r.below) r.rest) (shown : StepAction) :
    Step.Performs t (c.shown t.grammar shown)
      (r.after.shown t.grammar ((Action.reduce id).shown t.grammar)) (.reduce id) := by
  let base : Configuration := ⟨r.state :: r.below, r.rest, c.consumed, c.pending⟩
  obtain ⟨kept, hkept⟩ : ∃ kept, base.cells t.grammar = kept ++ [.state r.state] :=
    exists_cells_eq hr.length_eq
  have hlength : r.rule.rhs.length = r.popped.reverse.length := by
    rw [List.length_reverse, r.length_popped]
  have hbefore := cells_append (d := base) (g := t.grammar) r.popped r.rule.rhs.reverse
    hr.length_eq r.states_eq r.symbols_eq
  rw [List.reverse_reverse, hkept] at hbefore
  have hafter : r.after.cells t.grammar
      = base.cells t.grammar ++ enteredCells t.grammar [r.rule.lhs] [r.next] :=
    cells_append [r.next] [r.rule.lhs] hr.length_eq rfl rfl
  rw [hkept] at hafter
  refine .reduce r.rule_eq hbefore (length_enteredCells t.grammar hlength)
    (filterMap_symbol?_flatMap t.grammar hlength) r.goto_eq rfl hafter ?_
  show StepAction.reduce id ((t.grammar.rule id).render t.grammar.symbols)
    (2 * (t.grammar.rule id).rhs.length) = _
  rw [Grammar.rule_of_getElem? r.rule_eq, length_enteredCells t.grammar hlength]

section OneMove

variable (ht : t.IsCanonical) (hend : t.grammar.symbols.find? endName = some endId)

include ht hend

/-- The end marker is looked up as the tokens are. -/
theorem lookahead?_eq (c : Configuration) :
    c.lookahead? t.grammar
      = (t.grammar.symbols.find? c.next).filter t.grammar.symbols.isTerminal := by
  unfold lookahead? next
  cases c.pending with
  | nil =>
      have hterminal : t.grammar.symbols.isTerminal endId = true :=
        ht.augmented.isTerminal_iff.2 (Or.inr rfl)
      show some endId = (t.grammar.symbols.find? endName).filter _
      rw [hend, Option.filter_some_pos hterminal]
  | cons token rest => rfl

/-- The action for what is shown is the decision. -/
theorem actionOn_next (c : Configuration) : t.actionOn c.state c.next = c.decision? t := by
  unfold Table.actionOn decision?
  rw [lookahead?_eq ht hend c]

/-- A symbol is read under the name of the token. -/
theorem name_of_reads {symbol : Nat} (hread : c.Reads t symbol action) :
    t.grammar.symbols.name symbol = c.next := by
  have hsymbol := hread.1
  rw [lookahead?_eq ht hend c] at hsymbol
  exact (SymbolTable.find?_eq_some_iff.1 (Option.filter_eq_some_iff.1 hsymbol).1).2.1

theorem actionOn_of_reads {symbol : Nat} (hread : c.Reads t symbol action) :
    t.actionOn c.state c.next = some action := by
  rw [actionOn_next ht hend]
  exact decision?_eq_some_iff.2 ⟨symbol, hread⟩

variable (hs : Stacked t c.states c.symbols)

include hs

/-- **A shift** is shown as one. -/
theorem performs_of_shift {symbol next : Nat} (hread : c.Reads t symbol (.shift next))
    (shown : StepAction) :
    Step.Performs t (c.shown t.grammar shown) ((c.shift symbol next).shown t.grammar (.shift next))
      (.shift next) := by
  obtain ⟨-, token, rest, hpending⟩ := hread.exists_pending ht
  have hcells : (c.shift symbol next).cells t.grammar
      = c.cells t.grammar ++ enteredCells t.grammar [symbol] [next] :=
    cells_append [next] [symbol] hs.length_eq rfl rfl
  have hinput : c.pending ++ [endName] = c.next :: (c.pending.tail ++ [endName]) := by
    unfold Configuration.next
    rw [hpending]
    rfl
  rw [← name_of_reads ht hend hread] at hinput
  exact .shift hinput hcells rfl

/-- **One move** is shown by two steps of which the second follows from the first. -/
theorem leadsTo_of_moved (hstep : c.step t = .moved action d) (shown : StepAction) :
    Step.LeadsTo t (c.shown t.grammar shown) (d.shown t.grammar (action.shown t.grammar)) := by
  have hshows := c.shows_shown (g := t.grammar) hs.length_eq shown
  rcases cases_of_step_eq_moved hstep with
    ⟨symbol, next, hread, rfl, rfl⟩ | ⟨symbol, id, hread, rfl, hreduce⟩
  · exact ⟨_, _, _, hshows, actionOn_of_reads ht hend hread,
      performs_of_shift ht hend hs hread shown⟩
  · obtain ⟨r, hr⟩ := hs.exists_reduction ht hread.2
    rw [r.reduce_eq] at hreduce
    obtain rfl := Except.ok.inj hreduce
    exact ⟨_, _, _, hshows, actionOn_of_reads ht hend hread, performs_of_reduce r hr shown⟩

/-- **Acceptance** shows the same stacks once more. -/
theorem leadsTo_of_accepted (hstep : c.step t = .accepted) (shown : StepAction) :
    Step.LeadsTo t (c.shown t.grammar shown) (c.shown t.grammar .accept) := by
  obtain ⟨symbol, hread⟩ := step_eq_accepted_iff.1 hstep
  exact ⟨_, _, _, shows_shown hs.length_eq shown, actionOn_of_reads ht hend hread,
    .accept rfl rfl rfl⟩

/-- **A failure** has no action for what is shown. -/
theorem actionOn_of_failed {error : Error} (hstep : c.step t = .failed error) :
    t.actionOn c.state c.next = none := by
  rw [actionOn_next ht hend, Option.eq_none_iff_forall_ne_some]
  intro action hdecision
  obtain ⟨symbol, hread⟩ := decision?_eq_some_iff.1 hdecision
  exact hs.step_ne_failed_of_reads ht hread error hstep

/-- A decision is reported as it is shown. -/
theorem reports_of_decision (hdecision : c.decision? t = some action) (shown : StepAction)
    (after : Configuration) :
    (Event.decided c.state c.next action).Reports t (c.shown t.grammar shown)
      (after.shown t.grammar (action.shown t.grammar)) :=
  ⟨c.state, c.next, action, shows_shown hs.length_eq shown,
    (actionOn_next ht hend c).trans hdecision, rfl, rfl, action.render, action.isWritten_render,
    rfl⟩

end OneMove

/-! ## Whole runs -/

/-- The steps of a run behind the one that shows its start. -/
def shownMoves (t : Table) (limit : Nat) (c : Configuration) : Trace :=
  (c.run t limit).moves.map fun move => move.after.shown t.grammar (move.action.shown t.grammar)

variable {limit : Nat}

theorem shownMoves_of_moved (hstep : c.step t = .moved action d) :
    c.shownMoves t (limit + 1)
      = d.shown t.grammar (action.shown t.grammar) :: d.shownMoves t limit := by
  unfold shownMoves
  rw [run, hstep]
  rfl

theorem shownMoves_of_accepted (hstep : c.step t = .accepted) :
    c.shownMoves t (limit + 1) = [c.shown t.grammar .accept] := by
  unfold shownMoves
  rw [run, hstep]
  rfl

theorem shownMoves_of_failed {error : Error} (hstep : c.step t = .failed error) :
    c.shownMoves t (limit + 1) = [] := by
  unfold shownMoves
  rw [run, hstep]
  rfl

section WholeRun

variable (ht : t.IsCanonical) (hend : t.grammar.symbols.find? endName = some endId)

include ht hend

/-- **A whole run** is shown by steps that follow from one another. -/
theorem isChain_run (limit : Nat) (hs : Stacked t c.states c.symbols) (shown : StepAction) :
    (c.shown t.grammar shown :: c.shownMoves t limit).IsChain (Step.LeadsTo t) := by
  induction limit generalizing c shown with
  | zero => exact .singleton _
  | succ limit ih =>
      cases hstep : c.step t with
      | moved action d =>
          rw [shownMoves_of_moved hstep]
          exact .cons_cons (leadsTo_of_moved ht hend hs hstep shown) (ih (hs.step ht hstep) _)
      | accepted =>
          rw [shownMoves_of_accepted hstep]
          exact .cons_cons (leadsTo_of_accepted ht hend hs hstep shown) (.singleton _)
      | failed error =>
          rw [shownMoves_of_failed hstep]
          exact .singleton _

/-- **The events of a whole run** report the decisions between its steps. -/
theorem forall₂_events (limit : Nat) (hs : Stacked t c.states c.symbols)
    (shown : StepAction) :
    List.Forall₂ (fun event steps => Event.Reports t event steps.1 steps.2)
      (c.events t limit)
      ((c.shown t.grammar shown :: c.shownMoves t limit).zip (c.shownMoves t limit)) := by
  induction limit generalizing c shown with
  | zero => exact .nil
  | succ limit ih =>
      rw [events]
      cases hstep : c.step t with
      | moved action d =>
          have hdecision : c.decision? t = some action := decision?_of_moved hstep
          rw [shownMoves_of_moved hstep, hdecision]
          exact .cons (reports_of_decision ht hend hs hdecision shown d)
            (ih (hs.step ht hstep) _)
      | accepted =>
          have hdecision : c.decision? t = some .accept :=
            decision?_eq_some_iff.2 (step_eq_accepted_iff.1 hstep)
          rw [shownMoves_of_accepted hstep, hdecision]
          exact .cons (reports_of_decision ht hend hs hdecision shown c) .nil
      | failed error =>
          have hdecision : c.decision? t = none := by
            rw [← actionOn_next ht hend]
            exact actionOn_of_failed ht hend hs hstep
          rw [shownMoves_of_failed hstep, hdecision]
          exact .nil

end WholeRun

/-- Moves shift and reduce. -/
theorem Reaches.ne_accept {actions : List Action} (h : c.Reaches t actions d) :
    ∀ action ∈ actions, action ≠ .accept := by
  induction h with
  | refl => exact List.forall_mem_nil _
  | tail _ hstep ih =>
      intro action hmem
      rcases List.mem_append.1 hmem with hmem | hmem
      · exact ih action hmem
      · rw [List.mem_singleton.1 hmem]
        rcases cases_of_step_eq_moved hstep with ⟨-, -, -, rfl, -⟩ | ⟨-, -, -, rfl, -⟩
        · nofun
        · nofun

/-- A run that fails shows last the configuration in which it failed. -/
theorem exists_getLast?_of_failed {error : Error}
    (h : (c.run t limit).ending = .failed error) (shown : StepAction) :
    ∃ actions d last, c.Reaches t actions d ∧ d.step t = .failed error ∧
      (c.shown t.grammar shown :: c.shownMoves t limit).getLast?
        = some (d.shown t.grammar last) := by
  induction limit generalizing c shown with
  | zero => cases h
  | succ limit ih =>
      rw [run] at h
      cases hstep : c.step t with
      | moved action after =>
          rw [hstep] at h
          obtain ⟨actions, d, last, hlater, hd, hlast⟩ := ih h (action.shown t.grammar)
          refine ⟨action :: actions, d, last, .head hstep hlater, hd, ?_⟩
          rw [shownMoves_of_moved hstep, List.getLast?_cons_cons]
          exact hlast
      | accepted =>
          rw [hstep] at h
          cases h
      | failed error' =>
          rw [hstep] at h
          obtain rfl := Ending.failed.inj h
          refine ⟨[], c, shown, .refl, hstep, ?_⟩
          rw [shownMoves_of_failed hstep]
          rfl

end Configuration

/-! ## Traces -/

theorem Action.shown_eq_accept_iff {g : Grammar} {action : Action} :
    action.shown g = .accept ↔ action = .accept := by
  cases action with
  | shift state => exact ⟨nofun, nofun⟩
  | reduce id => exact ⟨nofun, nofun⟩
  | accept => exact ⟨fun _ => rfl, fun _ => rfl⟩

namespace Table

variable {t : Table} {limit : Nat} {input : String}

/-- The actions that a trace shows are those of its run. -/
theorem map_action_traceOf (t : Table) (limit : Nat) (input : String) :
    (t.traceOf limit input).map (·.action)
      = .start :: ((t.runOf limit input).moves.map (·.action)).map (Action.shown t.grammar) := by
  unfold traceOf Run.trace
  rw [List.map_cons, List.map_map, List.map_map]
  rfl

/-- A trace of moves that shift and reduce shows no acceptance. -/
theorem action_ne_accept {g : Grammar} {actions : List Action} {trace : Trace}
    (h : ∀ action ∈ actions, action ≠ .accept)
    (htrace : trace.map (·.action) = .start :: actions.map (Action.shown g)) :
    ∀ step ∈ trace, step.action ≠ .accept := by
  intro step hstep haccept
  have hmem : step.action ∈ trace.map (·.action) := List.mem_map_of_mem hstep
  rw [htrace, haccept] at hmem
  rcases List.mem_cons.1 hmem with hmem | hmem
  · cases hmem
  · obtain ⟨action, haction, hshown⟩ := List.mem_map.1 hmem
    exact h action haction (Action.shown_eq_accept_iff.1 hshown)

/-- **Acceptance** is shown as the last step, and only there. -/
theorem accept_last_traceOf (t : Table) (limit : Nat) (input : String) :
    (∀ step ∈ (t.traceOf limit input).dropLast, step.action ≠ .accept) ∧
      ((t.runOf limit input).ending = .accepted ∨
        ∀ step ∈ t.traceOf limit input, step.action ≠ .accept) := by
  have hactions := map_action_traceOf t limit input
  obtain ⟨actions, d, hreach, hending⟩ :=
    Configuration.exists_reaches_of_run t limit (Configuration.initial (Text.wordsOf input))
  have hne := hreach.ne_accept
  have hnot : (t.runOf limit input).moves.map (·.action) = actions →
      ∀ step ∈ t.traceOf limit input, step.action ≠ .accept := by
    intro hmoves
    rw [hmoves] at hactions
    exact action_ne_accept hne hactions
  rcases hending with ⟨hend, -, hmoves⟩ | ⟨error, -, -, hmoves⟩ | ⟨-, -, hmoves⟩
  · refine ⟨action_ne_accept (g := t.grammar) hne ?_, Or.inl hend⟩
    have hmoves : (t.runOf limit input).moves.map (·.action) = actions ++ [.accept] := hmoves
    rw [List.map_dropLast, hactions, hmoves, List.map_append, ← List.cons_append]
    exact List.dropLast_concat
  · exact ⟨fun step hstep => hnot hmoves step (List.mem_of_mem_dropLast hstep),
      Or.inr (hnot hmoves)⟩
  · exact ⟨fun step hstep => hnot hmoves step (List.mem_of_mem_dropLast hstep),
      Or.inr (hnot hmoves)⟩

/-- A trace ends with acceptance exactly if its run does. -/
theorem isAccepted_traceOf_iff :
    (t.traceOf limit input).isAccepted = true ↔ (t.runOf limit input).ending = .accepted := by
  constructor
  · intro haccepted
    refine (accept_last_traceOf t limit input).2.resolve_right fun hnot => ?_
    unfold Trace.isAccepted at haccepted
    obtain ⟨last, hlast, haction⟩ := (Option.any_eq_true _ _).1 haccepted
    exact hnot last (List.mem_of_getLast? hlast) (of_decide_eq_true haction)
  · intro hending
    obtain ⟨actions, d, -, -, hmoves⟩ := Configuration.exists_reaches_of_ending_accepted hending
    exact Run.isAccepted_trace t.grammar _ hmoves

/-- The trace of a parse is that of the run on the words, and tells whether it accepted. -/
theorem cases_of_trace? {trace : Trace} (h : (t.parse limit input).trace? = some trace) :
    endName ∉ Text.wordsOf input ∧ trace = t.traceOf limit input ∧
      ((t.parse limit input).isAccepted = true ↔ (t.runOf limit input).ending = .accepted) := by
  by_cases hend : endName ∈ Text.wordsOf input
  · rw [parse_of_mem_words hend] at h
    cases h
  refine ⟨hend, ?_⟩
  rcases parse_cases t limit hend with
    ⟨hending, hparse⟩ | ⟨error, hending, hparse⟩ | ⟨hending, hparse⟩
  · rw [hparse] at h ⊢
    exact ⟨(Option.some.inj h).symm, fun _ => hending, fun _ => rfl⟩
  · rw [hparse] at h ⊢
    rw [hending]
    exact ⟨(Option.some.inj h).symm, nofun, nofun⟩
  · rw [hparse] at h ⊢
    rw [hending]
    exact ⟨(Option.some.inj h).symm, nofun, nofun⟩

/-- A parse accepts as its run does. -/
theorem ending_of_accepted {trace : Trace} (h : t.parse limit input = .accepted trace) :
    endName ∉ Text.wordsOf input ∧ trace = t.traceOf limit input ∧
      (t.runOf limit input).ending = .accepted := by
  have htrace : (t.parse limit input).trace? = some trace := by
    rw [h]
    rfl
  obtain ⟨hfree, heq, hending⟩ := cases_of_trace? htrace
  rw [h] at hending
  exact ⟨hfree, heq, hending.1 rfl⟩

/-- A parse fails with a trace as its run does. -/
theorem ending_of_failed {error : Error} {trace : Trace}
    (h : t.parse limit input = .failed error (some trace)) :
    trace = t.traceOf limit input ∧ (t.runOf limit input).ending = .failed error := by
  have htrace : (t.parse limit input).trace? = some trace := by
    rw [h]
    rfl
  obtain ⟨hfree, heq, -⟩ := cases_of_trace? htrace
  refine ⟨heq, ?_⟩
  rcases parse_cases t limit hfree with ⟨_, hparse⟩ | ⟨error', hending, hparse⟩ | ⟨_, hparse⟩
  · rw [hparse] at h
    cases h
  · rw [hparse] at h
    rw [hending, (ParseResult.failed.inj h).1]
  · rw [hparse] at h
    cases h

section Built

variable (ht : t.IsCanonical) (hend : t.grammar.symbols.find? endName = some endId)

include ht hend

theorem isReplay_traceOf (limit : Nat) (input : String) :
    (t.traceOf limit input).IsReplay t (Text.wordsOf input) where
  start := rfl
  leads := Configuration.isChain_run ht hend limit .bottom .start
  accept_last := (accept_last_traceOf t limit input).1

/-- **A run that fails** is stuck where its trace ends. -/
theorem isStuck_traceOf {error : Error} (h : (t.runOf limit input).ending = .failed error) :
    (t.traceOf limit input).IsStuck t (Text.wordsOf input) error := by
  obtain ⟨actions, d, last, hreach, hd, hlast⟩ :=
    Configuration.exists_getLast?_of_failed h .start
  have hs : Stacked t d.states d.symbols := hreach.stacked ht
  obtain ⟨hconsumed, hpending⟩ := hreach.isAt ht
  refine ⟨(accept_last_traceOf t limit input).2.resolve_left (by rw [h]; nofun), _, d.state,
    d.next, d.consumed, _, hlast, d.shows_shown hs.length_eq last,
    Configuration.actionOn_of_failed ht hend hs hd, hs.eq_unexpected_of_step_eq_failed ht hd,
    hconsumed, ?_⟩
  show d.pending ++ [endName] = (Text.wordsOf input ++ [endName]).drop d.consumed
  rw [List.drop_append_of_le_length hconsumed, hpending]

end Built

/-- The end marker is found by its name. -/
theorem find?_endName_of_build {g : Grammar} (hg : g.WellFormed) (built : build g = .ok t) :
    t.grammar.symbols.find? endName = some endId := by
  have hlt : endId < g.symbols.size := Grammar.lt_size_of_kind? hg.kind?_endId
  have hname : g.augment.symbols.name endId = endName := by
    rw [Grammar.name_augment hlt, hg.name_endId]
  rw [grammar_of_build built, ← hname]
  exact hg.find?_augment_name hlt

/-! ## Logs -/

/-- The events of a parse are the decisions of the run on the words. -/
theorem parseEvents_eq (hfree : endName ∉ Text.wordsOf input) :
    t.parseEvents limit input
      = (Configuration.initial (Text.wordsOf input)).events t limit := by
  obtain ⟨tokens, htokens, htexts, -⟩ := exists_tokens t hfree
  unfold parseEvents
  rw [htokens, ← htexts]

end Table

theorem Configuration.level_of_mem_events {t : Table} {limit : Nat} {c : Configuration}
    {event : Event} (h : event ∈ c.events t limit) : event.level = .trace := by
  induction limit generalizing c with
  | zero => cases h
  | succ limit ih =>
      rw [events] at h
      cases hdecision : c.decision? t with
      | none =>
          rw [hdecision] at h
          cases h
      | some action =>
          rw [hdecision] at h
          rcases List.mem_cons.1 h with rfl | h
          · rfl
          · cases hstep : c.step t with
            | moved action after =>
                rw [hstep] at h
                exact ih h
            | accepted =>
                rw [hstep] at h
                cases h
            | failed error =>
                rw [hstep] at h
                cases h

namespace Table

variable {text : String} {g : Grammar} {t : Table} {limit : Nat} {input : String}

/-- The details of a log are the decisions of the parser. -/
theorem filter_events_ofText (read : Grammar.ofText text = .ok g) (built : build g = .ok t)
    (hfree : endName ∉ Text.wordsOf input) :
    (Log.ofText limit text (some input)).events.filter (fun event => event.level = .trace)
      = (Configuration.initial (Text.wordsOf input)).events t limit := by
  have hlog : (Log.ofText limit text (some input)).events
      = (g.readEvent :: g.analysis.events)
        ++ t.filledEvent :: (Configuration.initial (Text.wordsOf input)).events t limit := by
    unfold build at built
    unfold Log.ofText
    simp only [read, built, Option.elim_some, parseEvents_eq hfree]
  have hdecisions := List.filter_eq_self.2
    fun event (hevent : event ∈ (Configuration.initial (Text.wordsOf input)).events t limit) =>
      decide_eq_true (Configuration.level_of_mem_events hevent)
  rw [hlog]
  exact hdecisions

/-- **Traces can be replayed**: with the table of a grammar text, each step of a trace
follows from the one before by the action for the state and the token that are shown there,
the trace ends in acceptance exactly if the input is accepted, it ends where the reported
action is missing if the input is refused, and the log reports the decision of each step. -/
theorem parse_replays (read : Grammar.ofText text = .ok g) (built : build g = .ok t)
    (limit : Nat) (input : String) :
    (∀ trace, (t.parse limit input).trace? = some trace →
      trace.IsReplay t (Text.wordsOf input) ∧
      ((t.parse limit input).isAccepted = true ↔ trace.isAccepted = true) ∧
      List.Forall₂ (fun event steps => Event.Reports t event steps.1 steps.2)
        ((Log.ofText limit text (some input)).events.filter fun event => event.level = .trace)
        (trace.zip trace.tail)) ∧
    ∀ error trace, t.parse limit input = .failed error (some trace) →
      trace.IsStuck t (Text.wordsOf input) error := by
  have hg : g.WellFormed := Grammar.wellFormed_ofText read
  have ht : t.IsCanonical := isCanonical_build hg built
  have hend := find?_endName_of_build hg built
  refine ⟨fun trace htrace => ?_, fun error trace hfailed => ?_⟩
  · obtain ⟨hfree, rfl, haccepted⟩ := cases_of_trace? htrace
    refine ⟨isReplay_traceOf ht hend limit input,
      haccepted.trans isAccepted_traceOf_iff.symm, ?_⟩
    rw [filter_events_ofText read built hfree]
    exact Configuration.forall₂_events ht hend limit .bottom .start
  · obtain ⟨rfl, hending⟩ := ending_of_failed hfailed
    exact isStuck_traceOf ht hend hending

/-- So it is with an accepted and a refused input of a grammar with an empty rule; the records
of the accepted one are written out. -/
theorem parse_replays_of_empty_rule :
    ∃ g t trace error cut, Grammar.ofText "S -> a S | ε" = .ok g ∧ build g = .ok t ∧
      t.parse 10 "a a" = .accepted trace ∧ trace.IsReplay t (Text.wordsOf "a a") ∧
      trace.isAccepted = true ∧
      List.Forall₂ (fun event steps => Event.Reports t event steps.1 steps.2)
        ((Log.ofText 10 "S -> a S | ε" (some "a a")).events.filter
          fun event => event.level = .trace)
        (trace.zip trace.tail) ∧
      ((Log.ofText 10 "S -> a S | ε" (some "a a")).events.filter
          fun event => event.level = .trace).map Event.message
        = ["#0 a :: s1", "#1 a :: s1", "#1 $ :: r2", "#3 $ :: r1", "#3 $ :: r1",
          "#2 $ :: acc"] ∧
      t.parse 10 "a b" = .failed error (some cut) ∧
      cut.IsReplay t (Text.wordsOf "a b") ∧ cut.IsStuck t (Text.wordsOf "a b") error := by
  obtain ⟨g, t, read, built, hends⟩ := exists_table "S -> a S | ε"
    (fun t => (t.parse 10 "a a").isAccepted &&
      ((t.parse 10 "a b").error?.isSome && (t.parse 10 "a b").trace?.isSome))
    (by decide +kernel)
  rw [Bool.and_eq_true, Bool.and_eq_true] at hends
  obtain ⟨haccepted, herror, hcut⟩ := hends
  obtain ⟨trace, htrace⟩ := ParseResult.exists_of_isAccepted haccepted
  obtain ⟨error, herror⟩ := Option.isSome_iff_exists.1 herror
  obtain ⟨cut?, hfailed⟩ := ParseResult.exists_of_error?_eq herror
  rw [hfailed] at hcut
  obtain ⟨cut, rfl⟩ := Option.isSome_iff_exists.1 hcut
  obtain ⟨hreplay, hiff, hlog⟩ := (parse_replays read built 10 "a a").1 trace
    (by rw [htrace]; rfl)
  obtain ⟨hreplays, hstuck⟩ := parse_replays read built 10 "a b"
  exact ⟨g, t, trace, error, cut, read, built, htrace, hreplay, hiff.1 haccepted, hlog,
    by decide +kernel, hfailed, (hreplays cut (by rw [hfailed]; rfl)).1,
    hstuck error cut hfailed⟩

end Table

end CanonicalLR
