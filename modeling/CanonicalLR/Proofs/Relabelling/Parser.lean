import CanonicalLR.Proofs.Embedding.Parser
import CanonicalLR.Proofs.Grammar.Productive
import CanonicalLR.Proofs.Parser.Prefixes
import CanonicalLR.Proofs.Parser.Replay
import CanonicalLR.Proofs.Relabelling.Table

/-!
# Parsing under other names

The parser looks at a token once, to find the column that it names, and at names never
again but to show what it does. So over the images of some words the table under other names
makes the same decisions, and all that is shown is shown under these names: stacks, remaining
input, rule texts, and the token and the expected terminals of an error.

## Main definitions

* `Step.relabel`, `ParseResult.relabel` — a step and the result of a parse under other names.
* `Grammar.ComputesAlike` — grammars of which the same is computed under other names.

## Main results

* `Relabels.step_relabel` — one decision.
* `Relabels.run_relabel`, `Relabels.parse_relabel` — whole runs.
* `Grammar.computesAlike_of_relabels` — names are labels, and nothing else.
-/

namespace CanonicalLR

open CanonicalLR.Configuration

/-! ## Results under other names -/

section Relabel

variable (ρ : String → String)

/-- The configuration over the images of its tokens. -/
def Configuration.relabel (c : Configuration) : Configuration :=
  { c with pending := c.pending.map ρ }

/-- The outcome of a decision under other names. -/
def StepResult.relabel : StepResult → StepResult
  | .moved action after => .moved action (after.relabel ρ)
  | .accepted => .accepted
  | .failed error => .failed (error.relabel ρ)

/-- The cell under other names. -/
def StackCell.relabel : StackCell → StackCell
  | .state number => .state number
  | .symbol name => .symbol (ρ name)

/-- The action under other names. -/
def StepAction.relabel : StepAction → StepAction
  | .start => .start
  | .shift state => .shift state
  | .reduce rule label popped => .reduce rule (relabelRule ρ label) popped
  | .accept => .accept

/-- The step with all names replaced; states and numbers are kept. -/
def Step.relabel (s : Step) : Step :=
  ⟨s.stack.map (StackCell.relabel ρ), s.input.map ρ, s.action.relabel ρ⟩

/-- The trace with all names replaced. -/
def Trace.relabel (trace : Trace) : Trace := trace.map (Step.relabel ρ)

/-- The end of a run under other names. -/
def Ending.relabel : Ending → Ending
  | .accepted => .accepted
  | .failed error => .failed (error.relabel ρ)
  | .unfinished => .unfinished

/-- The result of a parse with all names replaced. -/
def ParseResult.relabel : ParseResult → ParseResult
  | .accepted trace => .accepted (trace.relabel ρ)
  | .failed error trace => .failed (error.relabel ρ) (trace.map (Trace.relabel ρ))
  | .unfinished trace => .unfinished (trace.relabel ρ)

end Relabel

/-- A move takes no token that was not pending. -/
theorem Configuration.mem_pending_of_step {t : Table} {c after : Configuration}
    {action : Action} {token : String} (h : c.step t = .moved action after)
    (hmem : token ∈ after.pending) : token ∈ c.pending := by
  rcases cases_of_step_eq_moved h with ⟨symbol, state, -, -, rfl⟩ | ⟨symbol, id, -, -, hreduce⟩
  · exact List.mem_of_mem_tail hmem
  · rw [(cursor_of_reduce hreduce).2] at hmem
    exact hmem

namespace Table.Relabels

variable {ρ : String → String} {t t' : Table} {state symbol id limit : Nat} {action : Action}
  {c after : Configuration} {input input' : String} (ht : Relabels ρ t t')

include ht

/-! ## What is read and expected -/

theorem action?_eq : t'.action? = t.action? := by
  funext state symbol
  unfold action?
  rw [ht.rows_eq]

theorem goto?_eq : t'.goto? = t.goto? := by
  funext state symbol
  unfold goto?
  rw [ht.rows_eq]

theorem name_of_isTerminal (h : t.grammar.symbols.isTerminal symbol = true) :
    t'.grammar.symbols.name symbol = ρ (t.grammar.symbols.name symbol) :=
  (ht.name_eq (Grammar.IsAugmented.lt_size_of_isTerminal h)
    (ht.isCanonical.augmented.ne_start_of_isTerminal h)).1

/-- **The image of a token** heads the same column. -/
theorem lookahead?_relabel (hw : ∀ word ∈ c.pending, IsWordText word) :
    (c.relabel ρ).lookahead? t'.grammar = c.lookahead? t.grammar := by
  unfold lookahead? Configuration.relabel
  cases hpending : c.pending with
  | nil => rfl
  | cons token pending =>
      rw [hpending] at hw
      exact ht.filter_find?_eq (hw token List.mem_cons_self)

/-- **What a state expects** has other names. -/
theorem names_expects (state : Nat) :
    (t'.expects state).map t'.grammar.symbols.name
      = ((t.expects state).map t.grammar.symbols.name).map ρ := by
  have hexpects : t'.expects state = t.expects state := by
    unfold expects
    rw [ht.same.actionColumns_eq, ht.action?_eq]
  rw [hexpects, List.map_map]
  apply List.map_congr_left
  intro symbol hmem
  obtain ⟨action, hcell⟩ := (mem_expects.1 hmem).2
  exact ht.name_of_isTerminal (ht.isCanonical.isTerminal_of_action? hcell)

theorem unexpected_relabel (c : Configuration) :
    (c.relabel ρ).unexpected t' = (c.unexpected t).relabel ρ := by
  have hstate : (c.relabel ρ).state = c.state := rfl
  have hnext : (c.relabel ρ).next = ρ c.next := by
    unfold next Configuration.relabel
    cases c.pending with
    | nil => exact ht.endName_eq.symm
    | cons token pending => rfl
  unfold unexpected
  rw [hstate, hnext, ht.names_expects]
  rfl

/-! ## Decisions -/

/-- What is read is the same. -/
theorem reads_relabel_iff (hw : ∀ word ∈ c.pending, IsWordText word) :
    (c.relabel ρ).Reads t' symbol action ↔ c.Reads t symbol action := by
  have hstate : (c.relabel ρ).state = c.state := rfl
  unfold Reads
  rw [ht.lookahead?_relabel hw, ht.action?_eq, hstate]

/-- A reduction pushes the same symbol and the same state. -/
theorem reduce_relabel (hcell : t.action? state symbol = some (.reduce id)) :
    (c.relabel ρ).reduce t' id
      = ((c.reduce t id).map (Configuration.relabel ρ)).mapError (Error.relabel ρ) := by
  obtain ⟨hrule, hne⟩ := ht.isCanonical.rule_of_action?_eq_reduce hcell
  have hname := (ht.name_eq (ht.isCanonical.augmented.lhs_lt_size hrule) hne).1
  unfold Configuration.reduce
  rw [ht.same.rule_eq, ht.goto?_eq]
  unfold Configuration.relabel
  dsimp only
  cases (c.states.drop (t.grammar.rule id).rhs.length).head?.bind fun state =>
      t.goto? state (t.grammar.rule id).lhs with
  | some next => rfl
  | none =>
      dsimp only
      rw [hname]
      rfl

/-- **One decision** under other names. -/
theorem step_relabel (hw : ∀ word ∈ c.pending, IsWordText word) :
    (c.relabel ρ).step t' = (c.step t).relabel ρ := by
  by_cases hread : ∃ symbol action, c.Reads t symbol action
  · obtain ⟨symbol, action, hread⟩ := hread
    have hread' := (ht.reads_relabel_iff hw).2 hread
    cases action with
    | shift next =>
        have hshift : (c.relabel ρ).shift symbol next = (c.shift symbol next).relabel ρ := by
          unfold Configuration.shift Configuration.relabel
          rw [List.map_tail]
        rw [step_of_shift hread, step_of_shift hread', hshift]
        rfl
    | accept =>
        rw [step_eq_accepted_iff.2 ⟨symbol, hread⟩, step_eq_accepted_iff.2 ⟨symbol, hread'⟩]
        rfl
    | reduce id =>
        have hreduce := ht.reduce_relabel (c := c) hread.2
        unfold step
        simp only [hread.1, hread.2, hread'.1, hread'.2, hreduce]
        cases c.reduce t id with
        | ok after => rfl
        | error error => rfl
  · have hnot : ∀ symbol action, ¬ c.Reads t symbol action :=
      fun symbol action h => hread ⟨symbol, action, h⟩
    have hnot' : ∀ symbol action, ¬ (c.relabel ρ).Reads t' symbol action :=
      fun symbol action h => hnot symbol action ((ht.reads_relabel_iff hw).1 h)
    rw [step_of_not_reads hnot, step_of_not_reads hnot', ht.unexpected_relabel]
    rfl

/-! ## What is shown -/

theorem shown_relabel (hc : c.IsNamed t.grammar) (action : StepAction) :
    (c.relabel ρ).shown t'.grammar (action.relabel ρ)
      = (c.shown t.grammar action).relabel ρ := by
  have hcells : (c.relabel ρ).cells t'.grammar
      = (c.cells t.grammar).map (StackCell.relabel ρ) := by
    have hstates : (c.relabel ρ).states = c.states := rfl
    have hspelled : (c.relabel ρ).spelled = c.spelled := rfl
    unfold cells
    rw [hstates, hspelled]
    cases c.states.reverse with
    | nil => rfl
    | cons bottom entered =>
        dsimp only
        rw [List.map_cons, List.map_flatMap]
        congr 1
        apply List.flatMap_congr
        rintro ⟨symbol, state⟩ hmem
        obtain ⟨hlt, hne⟩ := hc symbol (List.mem_reverse.1 (List.of_mem_zip hmem).1)
        exact congrArg (fun name => [StackCell.symbol name, StackCell.state state])
          (ht.name_eq hlt hne).1
  unfold Configuration.shown
  rw [hcells]
  unfold Step.relabel Configuration.relabel
  rw [List.map_append, List.map_singleton, ht.endName_eq]

/-- A reduction shows the same rule. -/
theorem shown_action_relabel (h : c.step t = .moved action after) :
    action.shown t'.grammar = (action.shown t.grammar).relabel ρ := by
  rcases cases_of_step_eq_moved h with
    ⟨terminal, state, -, rfl, -⟩ | ⟨terminal, id, hread, rfl, -⟩
  · rfl
  · obtain ⟨hrule, hne⟩ := ht.isCanonical.rule_of_action?_eq_reduce hread.2
    have hg := ht.isCanonical.augmented
    have hlabel := relabelRule_render (u := t'.grammar.symbols) ht.epsilonName_eq
      (r := t.grammar.rule id) fun symbol hmem => by
        rcases List.mem_cons.1 hmem with rfl | hmem
        · exact ht.name_eq (hg.lhs_lt_size hrule) hne
        · exact ht.name_eq (hg.lt_size_of_mem_rhs hrule symbol hmem)
            (hg.ne_start_of_mem_rhs hmem)
    unfold Action.shown StepAction.relabel
    dsimp only
    rw [ht.same.rule_eq, hlabel]

/-! ## Runs -/

/-- **Two runs** end in the same way, and show the same under other names. -/
theorem run_relabel (limit : Nat) (hc : c.IsNamed t.grammar)
    (hw : ∀ word ∈ c.pending, IsWordText word) :
    ((c.relabel ρ).run t' limit).ending = (c.run t limit).ending.relabel ρ ∧
      (c.relabel ρ).shownMoves t' limit = (c.shownMoves t limit).map (Step.relabel ρ) := by
  induction limit generalizing c with
  | zero => exact ⟨rfl, rfl⟩
  | succ limit ih =>
      have hstep' := ht.step_relabel hw
      cases hstep : c.step t with
      | moved action after =>
          rw [hstep] at hstep'
          have hafter := ht.isCanonical.isNamed_of_step hc hstep
          obtain ⟨hending, hmoves⟩ := ih hafter fun word hmem =>
            hw word (mem_pending_of_step hstep hmem)
          refine ⟨?_, ?_⟩
          · rw [run, run, hstep, hstep']
            exact hending
          · rw [shownMoves_of_moved hstep', shownMoves_of_moved hstep, hmoves, List.map_cons,
              ht.shown_action_relabel hstep, ht.shown_relabel hafter]
      | accepted =>
          rw [hstep] at hstep'
          refine ⟨?_, ?_⟩
          · rw [run, run, hstep, hstep']
            rfl
          · rw [shownMoves_of_accepted hstep', shownMoves_of_accepted hstep, List.map_singleton,
              ← ht.shown_relabel hc]
            rfl
      | failed error =>
          rw [hstep] at hstep'
          refine ⟨?_, ?_⟩
          · rw [run, run, hstep, hstep']
            rfl
          · rw [shownMoves_of_failed hstep', shownMoves_of_failed hstep, List.map_nil]

/-- An input is refused as a whole if that over the images of its words is. -/
theorem endName_mem_iff (hwords : Text.wordsOf input' = (Text.wordsOf input).map ρ) :
    endName ∈ Text.wordsOf input' ↔ endName ∈ Text.wordsOf input := by
  rw [hwords, List.mem_map]
  constructor
  · rintro ⟨word, hmem, hword⟩
    have hend : IsWordText endName := isWordText_of_all (by decide) (by decide)
    rw [← ht.endName_eq] at hword
    rwa [← ht.injOn (isWordText_of_mem_words hmem) hend hword]
  · intro hmem
    exact ⟨endName, hmem, ht.endName_eq⟩

/-- **Over the images of its words** an input is parsed in the same way. -/
theorem parse_relabel (hwords : Text.wordsOf input' = (Text.wordsOf input).map ρ) :
    t'.parse limit input' = (t.parse limit input).relabel ρ := by
  by_cases hend : endName ∈ Text.wordsOf input
  · rw [parse_of_mem_words hend, parse_of_mem_words ((ht.endName_mem_iff hwords).2 hend)]
    exact congrArg (fun name => ParseResult.failed (.reservedSymbol name) none)
      ht.endName_eq.symm
  have hnamed : (initial (Text.wordsOf input)).IsNamed t.grammar := nofun
  have hinitial : (initial (Text.wordsOf input)).relabel ρ = initial (Text.wordsOf input') := by
    rw [hwords]
    rfl
  obtain ⟨hending, hmoves⟩ := ht.run_relabel limit hnamed fun word hmem =>
    isWordText_of_mem_words hmem
  have hstart := ht.shown_relabel hnamed .start
  rw [hinitial] at hending hmoves hstart
  have hending' : (t'.runOf limit input').ending = (t.runOf limit input).ending.relabel ρ :=
    hending
  have htrace : t'.traceOf limit input' = (t.traceOf limit input).relabel ρ :=
    congrArg₂ List.cons hstart hmoves
  obtain ⟨tokens, htokens, htexts, hrun⟩ := exists_tokens t hend
  obtain ⟨tokens', htokens', htexts', hrun'⟩ :=
    exists_tokens t' (mt (ht.endName_mem_iff hwords).1 hend)
  unfold traceOf at htrace
  unfold parse
  simp only [htokens, htokens', htexts, htexts', hrun, hrun', htrace, hending']
  cases (t.runOf limit input).ending with
  | accepted => rfl
  | failed error => rfl
  | unfinished => rfl

end Table.Relabels

/-! ## Names are labels -/

namespace Grammar

/-- What becomes of two grammars of which the second one has the names that a map of words
gives to the symbols of the first one. -/
inductive BuildAlike (ρ : String → String) (g h : Grammar) : Prop where
  /-- Both are refused, for the same two actions in the same state on one symbol. -/
  | conflict {state : Nat} {symbol : String} {existing demanded : Action}
      (refused : Table.build g = .error (.conflict state symbol existing demanded))
      (refused' : Table.build h = .error (.conflict state (ρ symbol) existing demanded)) :
      BuildAlike ρ g h
  /-- Both have a table, which is the same but for the grammar that it keeps. What the one
  does on some words, the other does on their images. -/
  | table {t t' : Table} (built : Table.build g = .ok t) (built' : Table.build h = .ok t')
      (same : t' = { t with grammar := h.augment })
      (actions : ∀ state symbol, t'.action? state symbol = t.action? state symbol)
      (gotos : ∀ state symbol, t'.goto? state symbol = t.goto? state symbol)
      (parse : ∀ limit words, (∀ word ∈ words, IsWordText word) →
        t'.parse limit (" ".intercalate (words.map ρ))
          = (t.parse limit (" ".intercalate words)).relabel ρ) :
      BuildAlike ρ g h

/-- All that is computed of the two grammars is the same but for the names. -/
structure ComputesAlike (ρ : String → String) (g h : Grammar) : Prop where
  first : h.analysis.first = g.analysis.first
  follow : h.analysis.follow = g.analysis.follow
  automaton : h.analysis.automaton = g.analysis.automaton
  build : BuildAlike ρ g h

/-- **Names are only labels**: of a grammar under other names the same is computed, and the
same comes of parsing words under these names. -/
theorem computesAlike_of_relabels {ρ : String → String} {text text' : String} {g h : Grammar}
    (read : ofText text = .ok g) (read' : ofText text' = .ok h) (hr : Relabels ρ g h) :
    ComputesAlike ρ g h := by
  have hg := wellFormed_ofText read
  have hh := wellFormed_ofText read'
  have hanalysis := hr.analysis_eq
  refine ⟨by rw [hanalysis], by rw [hanalysis], by rw [hanalysis], ?_⟩
  rcases hr.build_cases hg hh with
    ⟨state, symbol, existing, demanded, hbuilt, hbuilt'⟩ | ⟨t, t', hbuilt, hbuilt', hsame, ht⟩
  · exact .conflict hbuilt hbuilt'
  · refine .table hbuilt hbuilt' hsame (fun state symbol => by rw [ht.action?_eq])
      (fun state symbol => by rw [ht.goto?_eq]) fun limit words hwords => ?_
    have himages : ∀ word ∈ words.map ρ, IsWordText word := by
      intro word hmem
      obtain ⟨source, hsource, rfl⟩ := List.mem_map.1 hmem
      exact hr.bijOn.mapsTo (hwords source hsource)
    exact ht.parse_relabel (by
      rw [Text.wordsOf_intercalate himages, Text.wordsOf_intercalate hwords])

/-- To exchange two words is a bijection of words. -/
theorem bijOn_swap {a b : String} (ha : IsWordText a) (hb : IsWordText b) :
    Set.BijOn (Equiv.swap a b) {name | IsWordText name} {name | IsWordText name} := by
  have hword : ∀ {name}, IsWordText name → IsWordText (Equiv.swap a b name) := by
    intro name hname
    rw [Equiv.swap_apply_def]
    split
    · exact hb
    · split
      · exact ha
      · exact hname
  refine (Equiv.swap a b).bijOn fun name => ⟨fun himage => ?_, hword⟩
  rw [← Equiv.swap_apply_self a b name]
  exact hword himage

/-- The grammar `S -> S' S b | ε` of nested pairs, with the first name that augmentation
tries. -/
def nestedPrimed : Grammar :=
  { nested with
    symbols := ⟨#[⟨"ε", .epsilon⟩, ⟨"$", .endMarker⟩, ⟨"S", .nonTerminal⟩, ⟨"S'", .terminal⟩,
      ⟨"b", .terminal⟩]⟩ }

/-- So it is where a terminal takes the name of the added start symbol, which then has one
prime more. -/
theorem computesAlike_of_primed_terminal :
    ofText "S -> a S b | ε" = .ok nested ∧ ofText "S -> S' S b | ε" = .ok nestedPrimed ∧
      nested.augment.symbols.name nested.augment.start = "S'" ∧
      nestedPrimed.augment.symbols.name nestedPrimed.augment.start = "S''" ∧
      Relabels (Equiv.swap "a" "S'") nested nestedPrimed ∧
      ComputesAlike (Equiv.swap "a" "S'") nested nestedPrimed := by
  have read : ofText "S -> S' S b | ε" = .ok nestedPrimed := by decide +kernel
  have hr : Relabels (Equiv.swap "a" "S'") nested nestedPrimed :=
    { rules_eq := rfl
      start_eq := rfl
      kind?_eq := by
        have hkinds : nestedPrimed.symbols.symbols.toList.map (·.kind)
            = nested.symbols.symbols.toList.map (·.kind) := rfl
        funext id
        unfold SymbolTable.kind?
        rw [← Array.getElem?_toList, ← Array.getElem?_toList, ← List.getElem?_map,
          ← List.getElem?_map, hkinds]
      bijOn := bijOn_swap (isWordText_of_all (by decide) (by decide))
        (isWordText_of_all (by decide) (by decide))
      name_eq := by decide +kernel }
  exact ⟨ofText_nested, read, by decide +kernel, by decide +kernel, hr,
    computesAlike_of_relabels ofText_nested read hr⟩

end Grammar

end CanonicalLR
