import CanonicalLR.Proofs.Grammar.Yield
import CanonicalLR.Proofs.Parser.Discipline

/-!
# The parser is sound

At every moment the symbols on the stack derive exactly the tokens consumed so
far, by the reductions made so far. When the parser accepts, the stack holds
the start symbol alone and no token is left, so the reductions, read backwards,
are a rightmost derivation of the input.

## Main definitions

* `Configuration.Consumes` — what the stack derives stands before what is pending.
* `Step.symbols` — the grammar symbols that a step shows.

## Main results

* `Consumes.step`, `Reaches.consumes` — one move, and a whole run, keep this.
* `Stacked.symbols_eq_of_accept`, `Reaches.of_accepted` — on acceptance the stack holds the
  start symbol, and no token is left.
* `parse_sound` — an accepted input is derived by the reductions of its trace, and
  every step of every trace shows what derives the tokens consumed.
-/

namespace CanonicalLR

namespace Configuration

variable {t : Table} {c d : Configuration} {action : Action} {actions : List Action}
  {tokens rest : List String} {token : String} {ids w : List Nat} {symbol : Nat}

/-! ## What the stack derives -/

/-- The symbols on the stack derive the word `w` by the reductions `ids`, and this
word stands before the pending tokens. -/
structure Consumes (t : Table) (tokens : List String) (ids w : List Nat)
    (c : Configuration) : Prop where
  yields : t.grammar.Yields ids c.spelled w
  tokens_eq : w.map t.grammar.symbols.name ++ c.pending = tokens

/-- The column that is read for a pending token is that of a terminal with its name. -/
theorem Reads.name_eq (h : c.Reads t symbol action) (hpending : c.pending = token :: rest) :
    t.grammar.symbols.name symbol = token ∧
      t.grammar.symbols.isTerminal symbol = true := by
  have hsymbol := h.1
  unfold lookahead? at hsymbol
  rw [hpending] at hsymbol
  obtain ⟨hfind, hterminal⟩ := Option.filter_eq_some_iff.1 hsymbol
  exact ⟨(SymbolTable.find?_eq_some_iff.1 hfind).2.1, hterminal⟩

/-- A shift moves a token from what is pending to what has been consumed. -/
theorem Consumes.shift (ht : t.IsCanonical) (h : c.Consumes t tokens ids w) {state : Nat}
    (hread : c.Reads t symbol (.shift state)) :
    (c.shift symbol state).Consumes t tokens ids (w ++ [symbol]) := by
  obtain ⟨hne, token, rest, hpending⟩ := hread.exists_pending ht
  obtain ⟨hname, hterminal⟩ := hread.name_eq hpending
  have hkind := (ht.augmented.isTerminal_iff.1 hterminal).resolve_right hne
  have hword : t.grammar.Yields [] [symbol] [symbol] := .terminal hkind .nil
  refine ⟨?_, ?_⟩
  · have hall := h.yields.append hword
    rw [List.append_nil] at hall
    show t.grammar.Yields ids (symbol :: c.symbols).reverse (w ++ [symbol])
    rw [List.reverse_cons]
    exact hall
  · show (w ++ [symbol]).map t.grammar.symbols.name ++ c.pending.tail = tokens
    rw [← h.tokens_eq, hpending, List.tail_cons, List.map_append, List.append_assoc,
      List.map_singleton, hname]
    rfl

/-- A reduction is made last, and consumes nothing. -/
theorem Consumes.reduce (ht : t.IsCanonical) (h : c.Consumes t tokens ids w) {id : Nat}
    (r : c.Reduction t id) : r.after.Consumes t tokens (ids ++ [id]) w := by
  have hid : r.rule.id = id := ht.augmented.rule_id r.rule_eq
  have hspelled : c.spelled = r.rest.reverse ++ r.rule.rhs ++ [] := by
    unfold spelled
    rw [r.symbols_eq, List.reverse_append, List.reverse_reverse, List.append_nil]
  have hyields := h.yields
  rw [hspelled] at hyields
  obtain ⟨first, second, v, rfl, hsecond, hreduced⟩ :=
    hyields.replace (Array.mem_of_getElem? r.rule_eq)
  obtain ⟨rfl, -⟩ := hsecond.eq_nil
  refine ⟨?_, h.tokens_eq⟩
  show t.grammar.Yields (first ++ [] ++ [id]) (r.rule.lhs :: r.rest).reverse w
  rw [hid] at hreduced
  rw [List.append_nil, List.reverse_cons]
  exact hreduced

/-- **One move** keeps what the stack derives in step with the tokens. -/
theorem Consumes.step (ht : t.IsCanonical) (hs : Stacked t c.states c.symbols)
    (h : c.Consumes t tokens ids w) (hstep : c.step t = .moved action d) :
    ∃ v, d.Consumes t tokens (ids ++ reductions [action]) v := by
  rcases cases_of_step_eq_moved hstep with
    ⟨symbol, state, hread, rfl, rfl⟩ | ⟨symbol, id, hread, rfl, hreduce⟩
  · have hshift := h.shift ht hread
    rw [← List.append_nil ids] at hshift
    exact ⟨_, hshift⟩
  · obtain ⟨r, _⟩ := hs.exists_reduction ht hread.2
    rw [r.reduce_eq] at hreduce
    obtain rfl := Except.ok.inj hreduce
    exact ⟨w, h.reduce ht r⟩

/-- **A whole run** keeps it in step. -/
theorem Reaches.consumes (ht : t.IsCanonical) (h : (initial tokens).Reaches t actions d) :
    ∃ w, d.Consumes t tokens (reductions actions) w := by
  induction h with
  | refl => exact ⟨[], .nil, rfl⟩
  | tail earlier hstep ih =>
      obtain ⟨w, hw⟩ := ih
      rw [reductions_append]
      exact hw.step ht (earlier.stacked ht) hstep

end Configuration

/-! ## Acceptance -/

namespace Stacked

variable {t : Table} {states symbols : List Nat} {state symbol : Nat} {below : List Nat}

/-- The symbols on the stack are terminals and declared non-terminals. -/
theorem kind?_of_mem (ht : t.IsCanonical) (h : Stacked t states symbols) :
    ∀ symbol ∈ symbols, t.grammar.symbols.kind? symbol = some .terminal ∨
      t.grammar.symbols.kind? symbol = some .nonTerminal := by
  induction h with
  | bottom =>
      intro symbol hmem
      cases hmem
  | push _ move ih =>
      intro symbol hmem
      rcases List.mem_cons.1 hmem with rfl | hmem
      · obtain ⟨i, _, hexp⟩ := ht.collection.exists_holds_of_move ht.augmented move
        exact ht.augmented.kind?_of_mem_rhs (List.mem_of_getElem? hexp)
      · exact ih symbol hmem

/-- Only the state at the bottom holds rule 0 at its start. -/
theorem eq_nil_of_holds_start (ht : t.IsCanonical) (h : Stacked t (state :: below) symbols)
    {l : Nat} (hi : t.automaton.Holds state ⟨0, 0, l⟩) : symbols = [] := by
  cases h with
  | bottom => rfl
  | push _ move => exact absurd rfl (ht.collection.rule_ne_zero_of_move ht.augmented move hi rfl)

/-- **On acceptance** the stack holds the declared start symbol alone. -/
theorem symbols_eq_of_accept (ht : t.IsCanonical) (h : Stacked t states symbols)
    (hcell : t.action? (states.headD 0) symbol = some .accept) :
    symbol = endId ∧ symbols = (t.grammar.rule 0).rhs := by
  obtain ⟨rfl, hi⟩ := ht.action?_eq_accept_iff.1 hcell
  obtain ⟨popped, state, below, rest, -, -, hsymbols, hstacked, hstart⟩ :=
    h.exists_start ht hi
  have hrest := hstacked.eq_nil_of_holds_start ht hstart
  obtain ⟨declared, hzero⟩ := ht.augmented.rule_zero
  refine ⟨rfl, ?_⟩
  rw [hsymbols, hrest, List.append_nil]
  unfold Item.rhs
  simp only [hzero]
  rfl

end Stacked

/-- When the parser accepts, no token is pending. -/
theorem Configuration.pending_eq_nil_of_reads_end {t : Table} {c : Configuration}
    {tokens : List String} {ids w : List Nat} {action : Action} (ht : t.IsCanonical)
    (hfree : endName ∉ tokens) (h : c.Consumes t tokens ids w)
    (hread : c.Reads t endId action) : c.pending = [] := by
  cases hpending : c.pending with
  | nil => rfl
  | cons token rest =>
      have hname := (hread.name_eq hpending).1
      rw [ht.augmented.end_name] at hname
      have htokens := h.tokens_eq
      rw [hpending] at htokens
      apply absurd _ hfree
      rw [hname, ← htokens]
      exact List.mem_append_right _ List.mem_cons_self

/-- **When the parser accepts**, the declared start symbol is alone on the stack, and all
tokens have been consumed. -/
theorem Configuration.Reaches.of_accepted {t : Table} {d : Configuration}
    {actions : List Action} {tokens : List String} (ht : t.IsCanonical) (hfree : endName ∉ tokens)
    (h : (initial tokens).Reaches t actions d) (hd : d.step t = .accepted) :
    d.symbols = (t.grammar.rule 0).rhs ∧ d.pending = [] ∧ d.consumed = tokens.length := by
  obtain ⟨symbol, hread⟩ := step_eq_accepted_iff.1 hd
  obtain ⟨rfl, hsymbols⟩ := (h.stacked ht).symbols_eq_of_accept ht hread.2
  obtain ⟨w, hw⟩ := h.consumes ht
  have hpending := pending_eq_nil_of_reads_end ht hfree hw hread
  obtain ⟨hle, hdrop⟩ := h.isAt ht
  rw [hpending, eq_comm, List.drop_eq_nil_iff] at hdrop
  exact ⟨hsymbols, hpending, Nat.le_antisymm hle hdrop⟩

/-! ## Shown stacks -/

/-- The name that a stack cell shows, if it shows a symbol. -/
def StackCell.symbol? : StackCell → Option String
  | .state _ => none
  | .symbol name => some name

/-- The grammar symbols that a step shows on the stack, from bottom to top. -/
def Step.symbols (s : Step) : List String := s.stack.filterMap StackCell.symbol?

theorem filterMap_symbol?_flatMap (g : Grammar) {symbols states : List Nat}
    (h : symbols.length = states.length) :
    (((symbols.zip states).flatMap fun entry : Nat × Nat =>
      [StackCell.symbol (g.symbols.name entry.1), .state entry.2]).filterMap
        StackCell.symbol?) = symbols.map g.symbols.name := by
  induction symbols generalizing states with
  | nil => rfl
  | cons symbol symbols ih =>
      cases states with
      | nil => cases h
      | cons state states =>
          have hlater := ih (Nat.succ.inj h)
          rw [List.zip_cons_cons, List.flatMap_cons, List.filterMap_append, hlater]
          rfl

/-- A step shows the symbols that are on the stack. -/
theorem Configuration.symbols_shown (g : Grammar) (action : StepAction) {c : Configuration}
    (h : c.states.length = c.symbols.length + 1) :
    (c.shown g action).symbols = c.spelled.map g.symbols.name := by
  have hspelled : c.spelled.length = c.symbols.length := List.length_reverse
  unfold Step.symbols shown cells
  cases hstates : c.states.reverse with
  | nil =>
      rw [List.reverse_eq_nil_iff.1 hstates] at h
      cases h
  | cons bottom entered =>
      have hlength : c.spelled.length = entered.length := by
        have hcount := congrArg List.length hstates
        rw [List.length_reverse, List.length_cons] at hcount
        omega
      exact filterMap_symbol?_flatMap g hlength

/-! ## Soundness -/

namespace Table

variable {t : Table} {g : Grammar} {limit : Nat} {input : String}

/-- What the stack derives in the augmented grammar, it derives in the declared one. -/
theorem exists_declared_yields {c : Configuration} {tokens : List String} {ids w : List Nat}
    (hg : g.WellFormed) (built : build g = .ok t) (hs : Stacked t c.states c.symbols)
    (h : c.Consumes t tokens ids w) :
    ∃ declared : List Nat, ids = declared.map (· + 1) ∧ g.Yields declared c.spelled w ∧
      w.map g.symbols.name ++ c.pending = tokens ∧
      c.spelled.map t.grammar.symbols.name = c.spelled.map g.symbols.name := by
  have ht : t.IsCanonical := isCanonical_build hg built
  have hgrammar : t.grammar = g.augment := grammar_of_build built
  have hdeclared : ∀ symbol ∈ c.spelled, symbol < g.symbols.size := by
    intro symbol hsymbol
    have hkind := hs.kind?_of_mem ht symbol (List.mem_reverse.1 hsymbol)
    rw [hgrammar] at hkind
    rcases hkind with hk | hk
    · exact Grammar.lt_size_of_kind?_augment hk (by decide)
    · exact Grammar.lt_size_of_kind?_augment hk (by decide)
  have hyields := h.yields
  have htokens := h.tokens_eq
  rw [hgrammar] at hyields htokens
  obtain ⟨declared, hids, hall⟩ :=
    hyields.of_augment hg fun symbol hsymbol => Nat.ne_of_lt (hdeclared symbol hsymbol)
  rw [hall.isWord.map_name_augment] at htokens
  refine ⟨declared, hids, hall, htokens, ?_⟩
  apply List.map_congr_left
  intro symbol hsymbol
  rw [hgrammar]
  exact Grammar.name_augment (hdeclared symbol hsymbol)

/-- An accepted input is derived by the reductions of its trace, read backwards. -/
theorem derivesRightmost_of_accepted {trace : Trace} (hg : g.WellFormed)
    (built : build g = .ok t) (h : t.parse limit input = .accepted trace) :
    ∃ ids w : List Nat, trace.reductions = ids.map (· + 1) ∧ g.IsWord w ∧
      w.map g.symbols.name = Text.wordsOf input ∧
      g.DerivesRightmost ids.reverse [g.start] w := by
  have ht : t.IsCanonical := isCanonical_build hg built
  have hfree : endName ∉ Text.wordsOf input := by
    intro hmem
    rw [parse_of_mem_words hmem] at h
    cases h
  obtain ⟨actions, c, hreach, hc, hreductions⟩ := exists_reaches_of_accepted h
  obtain ⟨hsymbols, hpending, -⟩ := hreach.of_accepted ht hfree hc
  obtain ⟨w, hw⟩ := hreach.consumes ht
  obtain ⟨ids, hids, hyields, htokens, -⟩ :=
    exists_declared_yields hg built (hreach.stacked ht) hw
  have hspelled : c.spelled = [g.start] := by
    unfold Configuration.spelled
    rw [hsymbols, grammar_of_build built, Grammar.rule_augment_zero]
    rfl
  rw [hspelled] at hyields
  rw [hpending, List.append_nil] at htokens
  exact ⟨ids, w, hreductions.trans hids, hyields.isWord, htokens, hyields.derivesRightmost⟩

/-- A step shows symbols that derive the tokens consumed before it. -/
theorem derives_of_mem_trace {trace : Trace} {step : Step} (hg : g.WellFormed)
    (built : build g = .ok t) (h : (t.parse limit input).trace? = some trace)
    (hstep : step ∈ trace) :
    ∃ α w : List Nat, step.symbols = α.map g.symbols.name ∧ g.IsWord w ∧ g.Derives α w ∧
      w.map g.symbols.name ++ step.input = Text.wordsOf input ++ [endName] := by
  have ht : t.IsCanonical := isCanonical_build hg built
  obtain ⟨actions, c, shown, hreach, rfl⟩ := exists_reaches_of_mem_trace h hstep
  have hs := hreach.stacked ht
  obtain ⟨w, hw⟩ := hreach.consumes ht
  obtain ⟨ids, -, hyields, htokens, hnames⟩ := exists_declared_yields hg built hs hw
  refine ⟨c.spelled, w, ?_, hyields.isWord, hyields.derivesRightmost.derives, ?_⟩
  · rw [Configuration.symbols_shown t.grammar shown hs.length_eq, hnames]
  · show w.map g.symbols.name ++ (c.pending ++ [endName]) = _
    rw [← List.append_assoc, htokens]

/-- **Soundness**: an accepted input is derived from the start symbol by the
reductions of its trace, read backwards; and at every step of every trace the
symbols on the stack derive the tokens consumed so far. -/
theorem parse_sound {text : String} (read : Grammar.ofText text = .ok g)
    (built : build g = .ok t) (limit : Nat) (input : String) :
    (∀ trace, t.parse limit input = .accepted trace →
      ∃ ids w : List Nat, trace.reductions = ids.map (· + 1) ∧ g.IsWord w ∧
        w.map g.symbols.name = Text.wordsOf input ∧
        g.DerivesRightmost ids.reverse [g.start] w) ∧
    ∀ trace, (t.parse limit input).trace? = some trace → ∀ step ∈ trace,
      ∃ α w : List Nat, step.symbols = α.map g.symbols.name ∧ g.IsWord w ∧ g.Derives α w ∧
        w.map g.symbols.name ++ step.input = Text.wordsOf input ++ [endName] := by
  have hg : g.WellFormed := Grammar.wellFormed_ofText read
  refine ⟨?_, ?_⟩
  · intro trace haccepted
    exact derivesRightmost_of_accepted hg built haccepted
  · intro trace htrace step hstep
    exact derives_of_mem_trace hg built htrace hstep

/-- So it is with a grammar that has an empty rule, and an input that it accepts. -/
theorem parse_sound_of_empty_rule :
    ∃ g t trace, Grammar.ofText "S -> a S | ε" = .ok g ∧ build g = .ok t ∧
      t.parse 10 "a a" = .accepted trace ∧
      ∃ ids w : List Nat, trace.reductions = ids.map (· + 1) ∧ g.IsWord w ∧
        w.map g.symbols.name = Text.wordsOf "a a" ∧
        g.DerivesRightmost ids.reverse [g.start] w := by
  obtain ⟨g, t, read, built, haccepted⟩ := exists_table "S -> a S | ε"
    (fun t => (t.parse 10 "a a").isAccepted) (by decide +kernel)
  obtain ⟨trace, htrace⟩ := ParseResult.exists_of_isAccepted haccepted
  exact ⟨g, t, trace, read, built, htrace, (parse_sound read built 10 "a a").1 trace htrace⟩

end Table

end CanonicalLR
