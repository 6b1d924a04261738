import CanonicalLR.Proofs.Parser.Continuations

/-!
# Errors are exact and immediate

A token is refused where the parser comes to it, before any reduction, and it is
the first token with which the input leaves the beginnings of sentences. The
names that are expected in its place are those that lead on to a sentence, so
nothing is offered that would be refused and nothing is left out.

## Main definitions

* `Grammar.Pinpoints` — what is reported of an unexpected token is exact.

## Main results

* `exists_expects_eq` — what is expected where the parser comes to a token.
* `parse_pinpoints` — every report of an unexpected token is exact, and the step before
  it is a shift or the start.
-/

namespace CanonicalLR

/-- A token at a position among the words is where these leave the beginnings of
sentences, and the expected names are those that would have led on to a sentence. -/
structure Grammar.Pinpoints (g : Grammar) (words : List String) (token : String)
    (position : Nat) (expecting : List String) : Prop where
  /-- The token stands at the position, the end marker behind all words. -/
  token_eq : (words ++ [endName])[position]? = some token
  /-- The words before it begin a sentence. -/
  isViable : g.IsViable (words.take position)
  /-- With the word at the position they begin none. -/
  not_isViable : position < words.length → ¬ g.IsViable (words.take (position + 1))
  /-- All words together are no sentence. -/
  not_generates : ¬ g.Generates words
  /-- No name is expected twice. -/
  nodup : expecting.Nodup
  /-- The names stand in the order of the ACTION columns. -/
  sublist : expecting.Sublist (g.augment.actionColumns.map g.augment.symbols.name)
  /-- The terminals that lead on to a sentence are expected, and `$` behind them if the
  words before the position are a sentence. -/
  expecting_eq : ∃ (terminals : List Nat) (ending : List String),
    expecting = terminals.map g.symbols.name ++ ending ∧
    (∀ symbol, symbol ∈ terminals ↔ g.symbols.kind? symbol = some .terminal ∧
      g.IsViable (words.take position ++ [g.symbols.name symbol])) ∧
    (ending = [endName] ∧ g.Generates (words.take position) ∨
      ending = [] ∧ ¬ g.Generates (words.take position))

namespace Grammar

variable {g : Grammar} {ids : List Nat}

/-- Different declared symbols have different names. -/
theorem WellFormed.nodup_map_name (hg : g.WellFormed) (hids : ids.Nodup)
    (hlt : ∀ id ∈ ids, id < g.symbols.size) : (ids.map g.symbols.name).Nodup :=
  List.Nodup.map_on (fun _ hx _ hy heq => hg.eq_of_name_eq (hlt _ hx) (hlt _ hy) heq) hids

end Grammar

namespace Table

variable {t : Table} {g : Grammar} {limit position : Nat} {input text token : String}
  {tokens expecting : List String} {actions : List Action} {c : Configuration}

section Built

variable (hg : g.WellFormed) (built : build g = .ok t)

include hg built

/-- **What is expected** where the parser comes to a token: the terminals with which a
sentence goes on, and the end marker if one ends there. -/
theorem exists_expects_eq (hp : g.IsProductive)
    (h : Configuration.Arrives t tokens actions c) :
    ∃ terminals ending, t.expects c.state = terminals ++ ending ∧
      (∀ symbol, symbol ∈ terminals ↔ g.symbols.kind? symbol = some .terminal ∧
        g.IsViable (tokens.take c.consumed ++ [g.symbols.name symbol])) ∧
      (ending = [endId] ∧ g.Generates (tokens.take c.consumed) ∨
        ending = [] ∧ ¬ g.Generates (tokens.take c.consumed)) := by
  have hfilled : ∀ symbol, (t.action? c.state symbol).isSome = true ↔
      g.Continues (tokens.take c.consumed) symbol := by
    intro symbol
    rw [Option.isSome_iff_exists]
    exact exists_action?_iff_continues hg built hp h
  refine ⟨g.terminals.filter fun symbol => (t.action? c.state symbol).isSome,
    [endId].filter fun symbol => (t.action? c.state symbol).isSome, ?_, ?_, ?_⟩
  · unfold expects Grammar.actionColumns
    rw [List.filter_append, grammar_of_build built, Grammar.terminals_augment]
  · intro symbol
    rw [List.mem_filter, hfilled]
    unfold Grammar.terminals
    rw [SymbolTable.mem_idsOfKind]
    constructor
    · intro hmem
      exact ⟨hmem.1, (hg.continues_terminal_iff hmem.1).1 hmem.2⟩
    · intro hmem
      exact ⟨hmem.1, (hg.continues_terminal_iff hmem.1).2 hmem.2⟩
  · rw [← hg.continues_endId_iff, ← hfilled]
    cases hend : (t.action? c.state endId).isSome with
    | true => exact Or.inl ⟨List.filter_cons_of_pos hend, rfl⟩
    | false => exact Or.inr ⟨List.filter_cons_of_neg (by simp [hend]), by simp⟩

/-- The names of what is expected are those of declared symbols, none twice. -/
theorem nodup_names_expects (state : Nat) :
    (t.expects state).map t.grammar.symbols.name = (t.expects state).map g.symbols.name ∧
      ((t.expects state).map g.symbols.name).Nodup := by
  have ht : t.IsCanonical := isCanonical_build hg built
  have hdeclared : ∀ symbol ∈ t.expects state, symbol < g.symbols.size := by
    intro symbol hmem
    have hcolumn := (mem_expects.1 hmem).1
    rw [grammar_of_build built] at hcolumn
    unfold Grammar.actionColumns at hcolumn
    rcases List.mem_append.1 hcolumn with hterminal | hend
    · rw [Grammar.terminals_augment] at hterminal
      exact Grammar.lt_size_of_kind? (SymbolTable.mem_idsOfKind.1 hterminal)
    · rw [List.mem_singleton.1 hend]
      exact Grammar.lt_size_of_kind? hg.kind?_endId
  refine ⟨List.map_congr_left fun symbol hmem => ?_, ?_⟩
  · rw [grammar_of_build built]
    exact Grammar.name_augment (hdeclared symbol hmem)
  · exact hg.nodup_map_name (ht.augmented.nodup_actionColumns.filter _) hdeclared

/-- What is reported where the parser comes to a token and fails is exact. -/
theorem pinpoints_of_arrives (hp : g.IsProductive) (hfree : endName ∉ tokens)
    (hnot : ¬ g.Generates tokens) (h : Configuration.Arrives t tokens actions c)
    (hfailed : c.step t = .failed (c.unexpected t)) :
    g.Pinpoints tokens c.next c.consumed
      ((t.expects c.state).map t.grammar.symbols.name) := by
  have ht : t.IsCanonical := isCanonical_build hg built
  have hat := h.reaches.isAt ht
  obtain ⟨hnames, hnodup⟩ := nodup_names_expects hg built c.state
  have hsublist : ((t.expects c.state).map t.grammar.symbols.name).Sublist
      (g.augment.actionColumns.map g.augment.symbols.name) := by
    rw [← grammar_of_build built]
    exact List.filter_sublist.map _
  rw [hnames] at hsublist ⊢
  refine
    { token_eq := ?_
      isViable := isViable_of_reaches hg built hp h.reaches
      not_isViable := ?_
      not_generates := hnot
      nodup := hnodup
      sublist := hsublist
      expecting_eq := ?_ }
  · unfold Configuration.next
    rw [hat.pending_eq]
    rcases Nat.lt_or_eq_of_le hat.consumed_le with hlt | hend
    · rw [List.getElem?_append_left hlt, List.getElem?_eq_getElem hlt,
        List.drop_eq_getElem_cons hlt, List.headD_cons]
    · rw [hend, List.getElem?_concat_length, List.drop_length, List.headD_nil]
  · intro hlt hviable
    obtain ⟨symbol, action, hread⟩ :=
      (exists_reads_iff hg built hp hfree h).2 (Or.inr ⟨hlt, hviable⟩)
    exact (h.reaches.stacked ht).step_ne_failed_of_reads ht hread _ hfailed
  · obtain ⟨terminals, ending, hexpects, hmem, hending⟩ := exists_expects_eq hg built hp h
    refine ⟨terminals, ending.map g.symbols.name, ?_, hmem, ?_⟩
    · rw [hexpects, List.map_append]
    · rcases hending with ⟨rfl, hgenerates⟩ | ⟨rfl, hother⟩
      · exact Or.inl ⟨by rw [List.map_singleton, hg.name_endId], hgenerates⟩
      · exact Or.inr ⟨rfl, hother⟩

/-- A run that fails has not been given a sentence. -/
theorem not_generates_of_failed {error : Error}
    (h : (Configuration.initial tokens).Reaches t actions c)
    (hfailed : c.step t = .failed error) : ¬ g.Generates tokens := by
  intro hgenerates
  obtain ⟨w, hw, rfl⟩ := hgenerates
  obtain ⟨more, d, hreach, hd⟩ := exists_reaches_of_isSentence hg built hw
  obtain ⟨-, rfl⟩ := h.unique_of_stuck (by simp [hfailed]) hreach (by simp [hd])
  rw [hfailed] at hd
  cases hd

/-- **A run that fails** does so where the parser comes to a token. -/
theorem arrives_of_failed {error : Error} (hp : g.IsProductive) (hfree : endName ∉ tokens)
    (h : (Configuration.initial tokens).Reaches t actions c)
    (hfailed : c.step t = .failed error) : Configuration.Arrives t tokens actions c := by
  have hnot := not_generates_of_failed hg built h hfailed
  obtain ⟨more, d, harrives, hd⟩ := exists_arrives_failed hg built hp hfree hnot
  obtain ⟨rfl, rfl⟩ := h.unique_of_stuck (by simp [hfailed]) harrives.reaches (by simp [hd])
  exact harrives

end Built

/-- **Errors are exact and immediate**: if every non-terminal of a grammar text derives a
word, an unexpected token is the first one with which the input leaves the beginnings of
sentences, the expected names are those that lead on to a sentence, and the last step
before is a shift or the start. -/
theorem parse_pinpoints {trace : Option Trace} (read : Grammar.ofText text = .ok g)
    (built : build g = .ok t) (productive : g.IsProductive)
    (failed : t.parse limit input
      = .failed (.unexpectedToken token position expecting) trace) :
    g.Pinpoints (Text.wordsOf input) token position expecting ∧
      ∃ steps last, trace = some steps ∧ steps.getLast? = some last ∧
        (last.action = .start ∨ ∃ state, last.action = .shift state) := by
  have hg : g.WellFormed := Grammar.wellFormed_ofText read
  have ht : t.IsCanonical := isCanonical_build hg built
  rcases exists_reaches_of_failed failed with
    hreserved | ⟨hfree, rfl, actions, c, hreach, hfailed, hmoves⟩
  · cases hreserved
  have herror := (hreach.stacked ht).eq_unexpected_of_step_eq_failed ht hfailed
  have harrives := arrives_of_failed hg built productive hfree hreach hfailed
  have hnot := not_generates_of_failed hg built hreach hfailed
  refine ⟨?_, ?_⟩
  · rw [herror] at hfailed
    obtain ⟨rfl, rfl, rfl⟩ := Error.unexpectedToken.inj herror
    exact pinpoints_of_arrives hg built productive hfree hnot harrives hfailed
  · have hlast := Run.getLast?_trace t.grammar
      (Configuration.initial (Text.wordsOf input)) (t.runOf limit input)
    rw [hmoves] at hlast
    obtain ⟨last, hstep, haction⟩ := Option.map_eq_some_iff.1 hlast
    refine ⟨_, last, rfl, hstep, ?_⟩
    rcases harrives.cases_getLast? with rfl | ⟨state, hshift⟩
    · exact Or.inl haction
    · rw [hshift] at haction
      exact Or.inr ⟨state, haction⟩

/-- So it is with a closing symbol too many: only the end may stand in its place. -/
theorem parse_pinpoints_of_nested :
    ∃ t trace, Grammar.ofText "S -> a S b | ε" = .ok Grammar.nested ∧
      build Grammar.nested = .ok t ∧ Grammar.nested.IsProductive ∧
      t.parse 10 "a b b" = .failed (.unexpectedToken "b" 2 ["$"]) trace ∧
      Grammar.nested.Pinpoints (Text.wordsOf "a b b") "b" 2 ["$"] ∧
      ∃ steps last, trace = some steps ∧ steps.getLast? = some last ∧
        (last.action = .start ∨ ∃ state, last.action = .shift state) := by
  obtain ⟨g, t, read, built, herror⟩ := exists_table "S -> a S b | ε"
    (fun t => (t.parse 10 "a b b").error? = some (.unexpectedToken "b" 2 ["$"]))
    (by decide +kernel)
  obtain rfl := Except.ok.inj (read.symm.trans Grammar.ofText_nested)
  obtain ⟨trace, failed⟩ := ParseResult.exists_of_error?_eq (of_decide_eq_true herror)
  have hp := Grammar.isProductive_nested
  exact ⟨t, trace, read, built, hp, failed, parse_pinpoints read built hp failed⟩

end Table

end CanonicalLR
