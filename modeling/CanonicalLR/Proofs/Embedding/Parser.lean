import CanonicalLR.Proofs.Embedding.Table
import CanonicalLR.Proofs.Parser.Run
import CanonicalLR.Proofs.Table.Exact

/-!
# Parsing with the tables of embedded grammars

The tables of a grammar and of a larger one send the parser through the same states. The
stacks hold the same symbols under other numbers, and a token that only the larger
grammar knows is refused as a token that no grammar knows. A trace shows names and no
numbers of symbols, so the two traces are equal.

## Main definitions

* `Configuration.rename` — a configuration in the other numbering.
* `Configuration.IsNamed` — the symbols on the stack have names that are kept.

## Main results

* `expects_rename` — the terminals that a state expects.
* `step_rename` — one decision with both tables.
* `run_rename` — two runs that show the same.
* `parse_rename` — both tables parse every input in the same way.
-/

namespace CanonicalLR

/-- The configuration with its symbols renumbered. -/
def Configuration.rename (ρ : Nat → Nat) (c : Configuration) : Configuration :=
  ⟨c.states, c.symbols.map ρ, c.consumed, c.pending⟩

/-- The outcome of a decision with its symbols renumbered. -/
def StepResult.rename (ρ : Nat → Nat) : StepResult → StepResult
  | .moved action after => .moved action (after.rename ρ)
  | .accepted => .accepted
  | .failed error => .failed error

/-- The symbols on the stack are symbols of the grammar, and none is the added start
symbol. -/
def Configuration.IsNamed (g : Grammar) (c : Configuration) : Prop :=
  ∀ symbol ∈ c.symbols, symbol < g.symbols.size ∧ symbol ≠ g.start

/-- A reduction pushes the left-hand side onto what it leaves of the stack. -/
theorem Configuration.symbols_of_reduce {t : Table} {c after : Configuration} {id : Nat}
    (h : c.reduce t id = .ok after) :
    after.symbols
      = (t.grammar.rule id).lhs :: c.symbols.drop (t.grammar.rule id).rhs.length := by
  unfold reduce at h
  dsimp only at h
  cases hgoto : (c.states.drop (t.grammar.rule id).rhs.length).head?.bind fun state =>
      t.goto? state (t.grammar.rule id).lhs with
  | none =>
      rw [hgoto] at h
      cases h
  | some next =>
      rw [hgoto] at h
      rw [← Except.ok.inj h]

namespace Table.IsCanonical

variable {t : Table} {state symbol id : Nat} {action : Action} {c after : Configuration}
  (ht : t.IsCanonical)

include ht

/-- What is reduced is a declared rule. -/
theorem rule_of_action?_eq_reduce (h : t.action? state symbol = some (.reduce id)) :
    t.grammar.rule id ∈ t.grammar.rules ∧
      (t.grammar.rule id).lhs ≠ t.grammar.start := by
  obtain ⟨i, hi, hend, hnot, -, rfl⟩ := ht.action?_eq_reduce_iff.1 h
  have hrule : i.rule ≠ 0 :=
    (ht.collection.isAccepting_eq_false_iff ht.augmented hi hend).1 hnot
  have hmem := (ht.augmented.rule_mem_of_mem_items (ht.collection.mem_items hi)).1
  refine ⟨hmem, ?_⟩
  intro hlhs
  have hid := ht.augmented.id_of_lhs_eq_start _ hmem hlhs
  rw [ht.augmented.id_rule] at hid
  exact hrule hid

/-- No decision puts the added start symbol on the stack. -/
theorem isNamed_of_step (hc : c.IsNamed t.grammar) (h : c.step t = .moved action after) :
    after.IsNamed t.grammar := by
  intro symbol hmem
  rcases Configuration.cases_of_step_eq_moved h with
    ⟨terminal, state, hread, rfl, rfl⟩ | ⟨terminal, id, hread, rfl, hreduce⟩
  · rcases List.mem_cons.1 hmem with rfl | hmem
    · have hterminal := ht.isTerminal_of_action? hread.2
      exact ⟨Grammar.IsAugmented.lt_size_of_isTerminal hterminal,
        ht.augmented.ne_start_of_isTerminal hterminal⟩
    · exact hc symbol hmem
  · obtain ⟨hrule, hne⟩ := ht.rule_of_action?_eq_reduce hread.2
    rw [Configuration.symbols_of_reduce hreduce] at hmem
    rcases List.mem_cons.1 hmem with rfl | hmem
    · exact ⟨Grammar.IsAugmented.lt_size_of_isNonTerminal
        (ht.augmented.lhs_isNonTerminal _ hrule), hne⟩
    · exact hc symbol (List.mem_of_mem_drop hmem)

end Table.IsCanonical

namespace Table.Renames

variable {ρ : Nat → Nat} {t t' : Table} {state symbol other id limit : Nat} {action : Action}
  {c : Configuration} (ht : Renames ρ t t')

include ht

/-! ## What is read and expected -/

/-- The next token heads the same column in both tables. -/
theorem lookahead?_rename_iff (hterminal : t.grammar.symbols.isTerminal symbol = true) :
    (c.rename ρ).lookahead? t'.grammar = some (ρ symbol) ↔
      c.lookahead? t.grammar = some symbol := by
  have hlt := Grammar.IsAugmented.lt_size_of_isTerminal hterminal
  have hne := ht.embeds.isAugmented.ne_start_of_isTerminal hterminal
  unfold Configuration.lookahead? Configuration.rename
  cases c.pending with
  | nil =>
      dsimp only
      rw [← ht.embeds.end_eq, Option.some.injEq, Option.some.injEq,
        ht.embeds.strictMono.injective.eq_iff, ht.embeds.end_eq]
  | cons token pending =>
      dsimp only
      rw [Option.filter_eq_some_iff, Option.filter_eq_some_iff, ht.embeds.find?_iff hlt hne,
        ht.embeds.isTerminal_eq hlt]

/-- **What is read** with the larger table is what is read with the smaller one. -/
theorem reads_rename_iff :
    (c.rename ρ).Reads t' other action ↔
      ∃ symbol, ρ symbol = other ∧ c.Reads t symbol action := by
  unfold Configuration.Reads
  constructor
  · rintro ⟨hlookahead, hcell⟩
    obtain ⟨symbol, rfl, hsmaller⟩ := ht.action?_eq_some_iff.1 hcell
    have hterminal := ht.isCanonical.isTerminal_of_action? hsmaller
    exact ⟨symbol, rfl, (ht.lookahead?_rename_iff hterminal).1 hlookahead, hsmaller⟩
  · rintro ⟨symbol, rfl, hlookahead, hcell⟩
    have hterminal := ht.isCanonical.isTerminal_of_action? hcell
    exact ⟨(ht.lookahead?_rename_iff hterminal).2 hlookahead,
      ht.action?_eq_some_iff.2 ⟨symbol, rfl, hcell⟩⟩

/-- **What a state expects** is the same, in the same order. -/
theorem expects_rename : t'.expects state = (t.expects state).map ρ := by
  have hfilled : ∀ symbol, (t'.action? state (ρ symbol)).isSome
      = (t.action? state symbol).isSome := by
    intro symbol
    rw [ht.action?_rename]
  have hterminals : t'.grammar.terminals.filter (fun other => (t'.action? state other).isSome)
      = (t.grammar.terminals.filter fun symbol =>
          (t.action? state symbol).isSome).map ρ := by
    have ascending : ∀ g : Grammar, g.terminals.Pairwise fun a b => compare a b = .lt :=
      fun g => (List.pairwise_lt_range.imp fun hlt => Nat.compare_eq_lt.2 hlt).filter _
    refine OrdSet.eq_of_mem_iff ((ascending _).filter _)
      (((ascending _).filter _).map ρ fun {a b} => compare_strictMono ht.embeds.strictMono) ?_
    intro other
    unfold Grammar.terminals
    simp only [List.mem_map, List.mem_filter, SymbolTable.mem_idsOfKind]
    constructor
    · rintro ⟨hkind, hsome⟩
      obtain ⟨action, hcell⟩ := Option.isSome_iff_exists.1 hsome
      obtain ⟨symbol, rfl, hsmaller⟩ := ht.action?_eq_some_iff.1 hcell
      have hterminal := ht.isCanonical.isTerminal_of_action? hsmaller
      rw [ht.embeds.kind?_eq (Grammar.IsAugmented.lt_size_of_isTerminal hterminal)] at hkind
      exact ⟨symbol, ⟨hkind, Option.isSome_iff_exists.2 ⟨action, hsmaller⟩⟩, rfl⟩
    · rintro ⟨symbol, ⟨hkind, hsome⟩, rfl⟩
      rw [ht.embeds.kind?_eq (Grammar.lt_size_of_kind? hkind), hfilled]
      exact ⟨hkind, hsome⟩
  have hend : [endId].filter (fun other => (t'.action? state other).isSome)
      = ([endId].filter fun symbol => (t.action? state symbol).isSome).map ρ := by
    have hfilled := hfilled endId
    rw [ht.embeds.end_eq] at hfilled
    rw [List.filter_singleton, List.filter_singleton, hfilled]
    cases (t.action? state endId).isSome with
    | true => exact congrArg (fun id => [id]) ht.embeds.end_eq.symm
    | false => rfl
  unfold expects Grammar.actionColumns
  rw [List.filter_append, List.filter_append, List.map_append, hterminals, hend]

theorem unexpected_rename : (c.rename ρ).unexpected t' = c.unexpected t := by
  have hnames : (t'.expects c.state).map t'.grammar.symbols.name
      = (t.expects c.state).map t.grammar.symbols.name := by
    rw [ht.expects_rename, List.map_map]
    apply List.map_congr_left
    intro symbol hmem
    obtain ⟨action, hcell⟩ := (mem_expects.1 hmem).2
    exact ht.embeds.name_of_isTerminal (ht.isCanonical.isTerminal_of_action? hcell)
  have hstate : (c.rename ρ).state = c.state := rfl
  unfold Configuration.unexpected
  rw [hstate, hnames]
  rfl

/-! ## Decisions -/

/-- A reduction takes as much off the stacks and pushes the image of its symbol. -/
theorem reduce_rename (hcell : t.action? state symbol = some (.reduce id)) :
    (c.rename ρ).reduce t' id = (c.reduce t id).map (Configuration.rename ρ) := by
  obtain ⟨hrule, hne⟩ := ht.isCanonical.rule_of_action?_eq_reduce hcell
  have hlt := ht.embeds.isAugmented.lhs_lt_size hrule
  have hgoto : ∀ state, t'.goto? state (ρ (t.grammar.rule id).lhs)
      = t.goto? state (t.grammar.rule id).lhs := fun state => ht.goto?_rename
  unfold Configuration.reduce
  rw [ht.embeds.rule_rename hrule]
  unfold Rule.rename Configuration.rename
  dsimp only
  rw [List.length_map]
  simp only [hgoto]
  cases (c.states.drop (t.grammar.rule id).rhs.length).head?.bind fun state =>
      t.goto? state (t.grammar.rule id).lhs with
  | some next =>
      dsimp only [Except.map]
      rw [List.map_cons, List.map_drop]
  | none =>
      dsimp only [Except.map]
      rw [ht.embeds.name_eq hlt hne]

/-- **One decision** with both tables. -/
theorem step_rename : (c.rename ρ).step t' = (c.step t).rename ρ := by
  by_cases hread : ∃ symbol action, c.Reads t symbol action
  · obtain ⟨symbol, action, hread⟩ := hread
    have hread' : (c.rename ρ).Reads t' (ρ symbol) action :=
      ht.reads_rename_iff.2 ⟨symbol, rfl, hread⟩
    cases action with
    | shift next =>
        rw [Configuration.step_of_shift hread, Configuration.step_of_shift hread']
        rfl
    | accept =>
        rw [Configuration.step_eq_accepted_iff.2 ⟨symbol, hread⟩,
          Configuration.step_eq_accepted_iff.2 ⟨ρ symbol, hread'⟩]
        rfl
    | reduce id =>
        have hreduce := ht.reduce_rename (c := c) hread.2
        unfold Configuration.step
        simp only [hread.1, hread.2, hread'.1, hread'.2, hreduce]
        cases c.reduce t id with
        | ok after => rfl
        | error error => rfl
  · have hnot : ∀ symbol action, ¬ c.Reads t symbol action :=
      fun symbol action h => hread ⟨symbol, action, h⟩
    have hnot' : ∀ other action, ¬ (c.rename ρ).Reads t' other action := by
      intro other action h
      obtain ⟨symbol, -, h⟩ := ht.reads_rename_iff.1 h
      exact hnot symbol action h
    rw [Configuration.step_of_not_reads hnot, Configuration.step_of_not_reads hnot',
      ht.unexpected_rename]
    rfl

/-! ## What is shown -/

theorem shown_rename (hc : c.IsNamed t.grammar) (action : StepAction) :
    (c.rename ρ).shown t'.grammar action = c.shown t.grammar action := by
  have hname : ∀ symbol ∈ c.spelled, t'.grammar.symbols.name (ρ symbol)
      = t.grammar.symbols.name symbol := by
    intro symbol hmem
    obtain ⟨hlt, hne⟩ := hc symbol (List.mem_reverse.1 hmem)
    exact ht.embeds.name_eq hlt hne
  have hspelled : (c.rename ρ).spelled = c.spelled.map ρ := (List.map_reverse ..).symm
  have hcells : (c.rename ρ).cells t'.grammar = c.cells t.grammar := by
    have hstates : (c.rename ρ).states = c.states := rfl
    unfold Configuration.cells
    rw [hspelled, hstates]
    cases c.states.reverse with
    | nil => rfl
    | cons bottom entered =>
        dsimp only
        rw [List.zip_map_left, List.flatMap_map]
        congr 1
        apply List.flatMap_congr
        rintro ⟨symbol, state⟩ hmem
        exact congrArg (fun name => [StackCell.symbol name, StackCell.state state])
          (hname symbol (List.of_mem_zip hmem).1)
  unfold Configuration.shown
  rw [hcells]
  rfl

/-- A reduction shows the same rule. -/
theorem shown_action_rename {after : Configuration} (h : c.step t = .moved action after) :
    action.shown t'.grammar = action.shown t.grammar := by
  rcases Configuration.cases_of_step_eq_moved h with
    ⟨terminal, state, -, rfl, -⟩ | ⟨terminal, id, hread, rfl, -⟩
  · rfl
  · obtain ⟨hrule, hne⟩ := ht.isCanonical.rule_of_action?_eq_reduce hread.2
    have hlhs := ht.embeds.name_eq (ht.embeds.isAugmented.lhs_lt_size hrule) hne
    have hrhs : ((t.grammar.rule id).rhs.map ρ).map t'.grammar.symbols.name
        = (t.grammar.rule id).rhs.map t.grammar.symbols.name := by
      rw [List.map_map]
      apply List.map_congr_left
      intro symbol hmem
      exact ht.embeds.name_eq
        (ht.embeds.isAugmented.lt_size_of_mem_rhs hrule symbol hmem)
        (ht.embeds.isAugmented.ne_start_of_mem_rhs hmem)
    unfold Action.shown
    dsimp only
    rw [ht.embeds.rule_rename hrule]
    unfold Rule.render Rule.isEmpty SymbolTable.spell Rule.rename
    simp only [hlhs, hrhs, List.isEmpty_map, List.length_map]

/-! ## Runs -/

/-- **Two runs** end in the same way, and their moves show the same. -/
theorem run_rename (limit : Nat) (hc : c.IsNamed t.grammar) :
    ((c.rename ρ).run t' limit).ending = (c.run t limit).ending ∧
      ((c.rename ρ).run t' limit).moves.map
          (fun move => move.after.shown t'.grammar (move.action.shown t'.grammar))
        = (c.run t limit).moves.map
          fun move => move.after.shown t.grammar (move.action.shown t.grammar) := by
  induction limit generalizing c with
  | zero => exact ⟨rfl, rfl⟩
  | succ limit ih =>
      rw [Configuration.run, Configuration.run, ht.step_rename]
      cases hstep : c.step t with
      | moved action after =>
          have hafter := ht.isCanonical.isNamed_of_step hc hstep
          obtain ⟨hending, hmoves⟩ := ih hafter
          refine ⟨hending, ?_⟩
          simp only [StepResult.rename, List.map_cons, hmoves, ht.shown_rename hafter,
            ht.shown_action_rename hstep]
      | accepted =>
          refine ⟨rfl, ?_⟩
          simp only [StepResult.rename, List.map_cons, List.map_nil, ht.shown_rename hc]
          rfl
      | failed error => exact ⟨rfl, rfl⟩

/-- **Both tables** parse every input in the same way. -/
theorem parse_rename (limit : Nat) (input : String) :
    t'.parse limit input = t.parse limit input := by
  unfold parse
  cases Token.ofInput input with
  | error error => rfl
  | ok tokens =>
      have hnamed : (Configuration.initial (tokens.map (·.text))).IsNamed t.grammar := by
        intro symbol hmem
        cases hmem
      obtain ⟨hending, hmoves⟩ := ht.run_rename limit hnamed
      have hstart := ht.shown_rename hnamed .start
      have hrename : (Configuration.initial (tokens.map (·.text))).rename ρ
          = Configuration.initial (tokens.map (·.text)) := rfl
      rw [hrename] at hending hmoves hstart
      unfold runOn Run.trace
      dsimp only
      rw [hending, hmoves, hstart]

end Table.Renames

end CanonicalLR
