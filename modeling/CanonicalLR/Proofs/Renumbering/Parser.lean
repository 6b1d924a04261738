import CanonicalLR.Proofs.Parser.Stack
import CanonicalLR.Proofs.Renumbering.Table

/-!
# Parsing with the tables of renumbered grammars

The stacks of the two parsers hold the same states and symbols under other numbers, so each
decision of the one is a decision of the other. Where a chain of moves of the one ends, in
acceptance or at an unexpected token, a chain of the other ends in the same way, and where
the one runs for ever, so does the other. What is shown of a reduction has names and no
numbers in it.

## Main definitions

* `Configuration.renumber` — a configuration in the other numbering.
* `Trace.labels` — the reductions of a trace as they are shown.
* `Table.ParsesAlike` — two tables come to the same with an input.

## Main results

* `reads_renumber`, `step_renumber` — one decision.
* `reaches_renumber` — a chain of moves.
* `parsesAlike` — renumbered tables come to the same with every input.
-/

namespace CanonicalLR

open CanonicalLR.Configuration

/-- The configuration with its states and symbols renumbered. -/
def Configuration.renumber (ρ σ : Equiv.Perm Nat) (c : Configuration) : Configuration :=
  ⟨c.states.map σ, c.symbols.map ρ, c.consumed, c.pending⟩

theorem Configuration.renumber_symm (ρ σ : Equiv.Perm Nat) (c : Configuration) :
    (c.renumber ρ σ).renumber ρ.symm σ.symm = c := by
  unfold renumber
  rw [map_symm_map, map_symm_map]

/-! ## Labels -/

/-- The label of a reduction that is shown. -/
def StepAction.label? : StepAction → Option String
  | .reduce _ label _ => some label
  | _ => none

/-- The labels of the reductions of a trace, in order. -/
def Trace.labels (trace : Trace) : List String :=
  trace.filterMap fun step => step.action.label?

theorem Action.label?_shown (g : Grammar) (action : Action) :
    (action.shown g).label?
      = action.reduction?.map fun id => (g.rule id).render g.symbols := by
  cases action <;> rfl

/-- The labels of a trace are the texts of the rules by which it reduces. -/
theorem Run.labels_trace (g : Grammar) (start : Configuration) (run : Run) :
    (run.trace g start).labels
      = (run.trace g start).reductions.map fun id => (g.rule id).render g.symbols := by
  have hstart : (start.shown g .start).action.label? = none := rfl
  have hmove : (fun step : Step => step.action.label?)
      ∘ (fun move : Move => move.after.shown g (move.action.shown g))
        = fun move => (Action.reduction? move.action).map fun id =>
            (g.rule id).render g.symbols :=
    funext fun move => Action.label?_shown g move.action
  rw [Run.reductions_trace]
  unfold Run.trace Trace.labels reductions
  rw [List.filterMap_cons_none (f := fun step : Step => step.action.label?) hstart,
    List.filterMap_map, List.filterMap_map, List.map_filterMap, hmove]
  rfl

/-! ## Outcomes without a limit -/

/-- Two tables come to the same with an input, up to the order in which what is expected is
listed. -/
inductive Table.ParsesAlike (t t' : Table) (input : String) : Prop where
  /-- From some limit on both accept, after reductions with the same labels. -/
  | accepted (bound : Nat) (labels : List String)
      (first : ∀ limit, bound ≤ limit →
        ∃ trace, t.parse limit input = .accepted trace ∧ trace.labels = labels)
      (second : ∀ limit, bound ≤ limit →
        ∃ trace, t'.parse limit input = .accepted trace ∧ trace.labels = labels)
  /-- From some limit on both fail on one token at one position, where they expect the
  same. -/
  | failed (bound : Nat) (token : String) (position : Nat) (expecting expecting' : List String)
      (perm : expecting.Perm expecting')
      (first : ∀ limit, bound ≤ limit → ∃ trace, t.parse limit input
        = .failed (.unexpectedToken token position expecting) (some trace))
      (second : ∀ limit, bound ≤ limit → ∃ trace, t'.parse limit input
        = .failed (.unexpectedToken token position expecting') (some trace))
  /-- Both run for ever. -/
  | endless (first : ∀ limit, ∃ trace, t.parse limit input = .unfinished trace)
      (second : ∀ limit, ∃ trace, t'.parse limit input = .unfinished trace)

/-- A parse is never finished if no chain of moves comes to an end. -/
theorem Table.parse_unfinished {t : Table} {input : String} (hfree : endName ∉ Text.wordsOf input)
    (haccepted : ∀ actions d, (initial (Text.wordsOf input)).Reaches t actions d →
      d.step t ≠ .accepted)
    (hfailed : ∀ actions d error, (initial (Text.wordsOf input)).Reaches t actions d →
      d.step t ≠ .failed error) (limit : Nat) :
    ∃ trace, t.parse limit input = .unfinished trace := by
  rcases parse_cases t limit hfree with ⟨hending, -⟩ | ⟨error, hending, -⟩ | ⟨-, hparse⟩
  · obtain ⟨actions, d, hreach, hd, -⟩ := exists_reaches_of_ending_accepted hending
    exact absurd hd (haccepted actions d hreach)
  · obtain ⟨actions, d, hreach, hd, -⟩ := exists_reaches_of_ending_failed hending
    exact absurd hd (hfailed actions d error hreach)
  · exact ⟨_, hparse⟩

namespace Table.Renumbers

variable {ρ π σ : Equiv.Perm Nat} {t t' : Table} {c d : Configuration} {action : Action}
  {actions : List Action} {symbol id : Nat} (hr : Renumbers ρ π σ t t')

include hr

/-! ## One decision -/

theorem state_renumber (c : Configuration) : (c.renumber ρ σ).state = σ c.state := by
  unfold Configuration.state Configuration.renumber
  cases c.states with
  | nil => exact hr.automaton.zero_eq.symm
  | cons state states => rfl

/-- **The next token** heads the same column. -/
theorem lookahead?_renumber (c : Configuration) :
    (c.renumber ρ σ).lookahead? t'.grammar = (c.lookahead? t.grammar).map ρ := by
  have hgrammar := hr.automaton.grammar
  unfold Configuration.lookahead? Configuration.renumber
  cases c.pending with
  | nil => exact congrArg some hgrammar.end_eq.symm
  | cons token pending =>
      dsimp only
      rw [hgrammar.find?_renumber]
      cases t.grammar.symbols.find? token with
      | none => rfl
      | some symbol =>
          rw [Option.map_some, Option.filter_some, Option.filter_some, hgrammar.isTerminal_eq]
          cases t.grammar.symbols.isTerminal symbol <;> rfl

theorem reads_renumber (h : c.Reads t symbol action) :
    (c.renumber ρ σ).Reads t' (ρ symbol) (action.renumber π σ) := by
  obtain ⟨hlookahead, hcell⟩ := h
  refine ⟨?_, ?_⟩
  · rw [hr.lookahead?_renumber, hlookahead]
    rfl
  · rw [hr.state_renumber]
    exact hr.action?_eq_some hcell

/-- **A reduction** takes as much off the stacks and pushes the image of its symbol. -/
theorem reduce_renumber (h : c.reduce t id = .ok d) :
    (c.renumber ρ σ).reduce t' (π id) = .ok (d.renumber ρ σ) := by
  have hrule := hr.automaton.grammar.rule_renumber id
  let states := c.states.drop (t.grammar.rule id).rhs.length
  have hgoto : ((states.map σ).head?.bind fun state =>
        t'.goto? state (ρ (t.grammar.rule id).lhs))
      = (states.head?.bind fun state => t.goto? state (t.grammar.rule id).lhs).map σ := by
    cases states with
    | nil => rfl
    | cons state states => exact hr.goto?_renumber
  unfold Configuration.reduce at h ⊢
  rw [hrule]
  unfold Rule.renumber Configuration.renumber
  dsimp only at h ⊢
  rw [List.length_map, ← List.map_drop, ← List.map_drop, hgoto]
  cases hnext : states.head?.bind fun state => t.goto? state (t.grammar.rule id).lhs with
  | some next =>
      rw [hnext] at h
      rw [← Except.ok.inj h]
      rfl
  | none =>
      rw [hnext] at h
      cases h

/-- **One move** of both parsers. -/
theorem step_renumber (h : c.step t = .moved action d) :
    (c.renumber ρ σ).step t' = .moved (action.renumber π σ) (d.renumber ρ σ) := by
  rcases cases_of_step_eq_moved h with
    ⟨symbol, state, hread, rfl, rfl⟩ | ⟨symbol, id, hread, rfl, hreduce⟩
  · rw [step_of_shift (hr.reads_renumber hread)]
    rfl
  · exact step_of_reduce (hr.reads_renumber hread) (hr.reduce_renumber hreduce)

theorem accepted_renumber (h : c.step t = .accepted) : (c.renumber ρ σ).step t' = .accepted := by
  obtain ⟨symbol, hread⟩ := step_eq_accepted_iff.1 h
  exact step_eq_accepted_iff.2 ⟨ρ symbol, hr.reads_renumber hread⟩

/-- A step that fails with one table fails with the other one: it would else be a step of
the first one as well. -/
theorem exists_failed_renumber {error : Error} (h : c.step t = .failed error) :
    ∃ error', (c.renumber ρ σ).step t' = .failed error' := by
  cases hstep : (c.renumber ρ σ).step t' with
  | failed error' => exact ⟨error', rfl⟩
  | accepted =>
      have hback := hr.symm.accepted_renumber hstep
      rw [renumber_symm, h] at hback
      cases hback
  | moved action after =>
      have hback := hr.symm.step_renumber hstep
      rw [renumber_symm, h] at hback
      cases hback

/-! ## Whole runs -/

/-- **A chain of moves** of both parsers. -/
theorem reaches_renumber (h : c.Reaches t actions d) :
    (c.renumber ρ σ).Reaches t' (actions.map (Action.renumber π σ)) (d.renumber ρ σ) := by
  induction h with
  | refl => exact .refl
  | tail _ hstep ih =>
      rw [List.map_append, List.map_singleton]
      exact .tail ih (hr.step_renumber hstep)

theorem initial_renumber (tokens : List String) :
    (initial tokens).renumber ρ σ = initial tokens := by
  unfold initial Configuration.renumber
  rw [List.map_singleton, hr.automaton.zero_eq, List.map_nil]

/-- The reductions of a chain have the same texts. -/
theorem render_reductions_renumber (actions : List Action) :
    (reductions (actions.map (Action.renumber π σ))).map
        (fun id => (t'.grammar.rule id).render t'.grammar.symbols)
      = (reductions actions).map fun id => (t.grammar.rule id).render t.grammar.symbols := by
  have hgrammar := hr.automaton.grammar
  have hrender : ∀ id, (t'.grammar.rule (π id)).render t'.grammar.symbols
      = (t.grammar.rule id).render t.grammar.symbols := by
    intro id
    rw [hgrammar.rule_renumber]
    unfold Rule.render Rule.isEmpty SymbolTable.spell Rule.renumber
    dsimp only
    rw [hgrammar.name_eq, List.isEmpty_map, List.map_map, hgrammar.name_comp]
  unfold reductions
  rw [List.filterMap_map, List.map_filterMap, List.map_filterMap]
  apply List.filterMap_congr
  intro action _
  cases action with
  | reduce id => exact congrArg some (hrender id)
  | shift state => rfl
  | accept => rfl

/-- What a state expects has the same names. -/
theorem perm_names_expects (state : Nat) :
    ((t.expects state).map t.grammar.symbols.name).Perm
      ((t'.expects (σ state)).map t'.grammar.symbols.name) := by
  have hperm := (hr.perm_expects state).map t'.grammar.symbols.name
  rw [List.map_map, hr.automaton.grammar.name_comp] at hperm
  exact hperm

section Input

variable {input : String} (hfree : endName ∉ Text.wordsOf input)

include hfree

/-- A chain that ends in acceptance is one of both parsers. -/
theorem parsesAlike_of_accepted (h : (initial (Text.wordsOf input)).Reaches t actions d)
    (hd : d.step t = .accepted) : t.ParsesAlike t' input := by
  have h' := hr.reaches_renumber h
  rw [hr.initial_renumber] at h'
  have hd' := hr.accepted_renumber hd
  refine .accepted (actions.length + 1)
    ((reductions actions).map fun id => (t.grammar.rule id).render t.grammar.symbols) ?_ ?_
  · intro limit hlimit
    obtain ⟨hparse, -, hreductions⟩ := parse_of_reaches hfree h hd hlimit
    refine ⟨_, hparse, ?_⟩
    unfold traceOf at hreductions ⊢
    rw [Run.labels_trace, hreductions]
  · intro limit hlimit
    rw [← List.length_map (Action.renumber π σ)] at hlimit
    obtain ⟨hparse, -, hreductions⟩ := parse_of_reaches hfree h' hd' hlimit
    refine ⟨_, hparse, ?_⟩
    unfold traceOf at hreductions ⊢
    rw [Run.labels_trace, hreductions, hr.render_reductions_renumber]

/-- A chain that ends where a step fails is one of both parsers. -/
theorem parsesAlike_of_failed {error : Error}
    (h : (initial (Text.wordsOf input)).Reaches t actions d)
    (hd : d.step t = .failed error) : t.ParsesAlike t' input := by
  have h' := hr.reaches_renumber h
  rw [hr.initial_renumber] at h'
  obtain ⟨error', hd'⟩ := hr.exists_failed_renumber hd
  have ht := hr.isCanonical
  have ht' := hr.isCanonical'
  obtain rfl := Stacked.eq_unexpected_of_step_eq_failed ht (h.stacked ht) hd
  obtain rfl := Stacked.eq_unexpected_of_step_eq_failed ht' (h'.stacked ht') hd'
  have hperm := hr.perm_names_expects d.state
  rw [← hr.state_renumber] at hperm
  refine .failed (actions.length + 1) d.next d.consumed _ _ hperm ?_ ?_
  · intro limit hlimit
    exact ⟨_, parse_of_reaches_failed hfree h hd hlimit⟩
  · intro limit hlimit
    rw [← List.length_map (Action.renumber π σ)] at hlimit
    exact ⟨_, parse_of_reaches_failed hfree h' hd' hlimit⟩

/-- **Renumbered tables** come to the same with every input. -/
theorem parsesAlike : t.ParsesAlike t' input := by
  by_cases haccepted : ∃ actions d,
      (initial (Text.wordsOf input)).Reaches t actions d ∧ d.step t = .accepted
  · obtain ⟨actions, d, h, hd⟩ := haccepted
    exact hr.parsesAlike_of_accepted hfree h hd
  by_cases hfailed : ∃ actions d error,
      (initial (Text.wordsOf input)).Reaches t actions d ∧ d.step t = .failed error
  · obtain ⟨actions, d, error, h, hd⟩ := hfailed
    exact hr.parsesAlike_of_failed hfree h hd
  refine .endless ?_ ?_
  · exact parse_unfinished hfree
      (fun actions d h hd => haccepted ⟨actions, d, h, hd⟩)
      (fun actions d error h hd => hfailed ⟨actions, d, error, h, hd⟩)
  · refine parse_unfinished hfree (fun actions d h hd => ?_) (fun actions d error h hd => ?_)
    · have hback := hr.symm.reaches_renumber h
      rw [hr.symm.initial_renumber] at hback
      exact haccepted ⟨_, _, hback, hr.symm.accepted_renumber hd⟩
    · have hback := hr.symm.reaches_renumber h
      rw [hr.symm.initial_renumber] at hback
      obtain ⟨error', hd'⟩ := hr.symm.exists_failed_renumber hd
      exact hfailed ⟨_, _, error', hback, hd'⟩

end Input

end Table.Renumbers

end CanonicalLR
