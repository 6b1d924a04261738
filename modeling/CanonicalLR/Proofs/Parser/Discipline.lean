import CanonicalLR.Proofs.Grammar.WellFormed
import CanonicalLR.Proofs.Parser.Stack

/-!
# The parser never breaks its stacks

Three places of the parser would hide a broken stack: taking symbols off stops
when the stack is empty, the top of an empty stack is read as state 0, and a
missing GOTO entry is reported as an error of its own. None of this ever
happens with a table that was built, whatever the grammar and the input.

## Main definitions

* `Configuration.Spells` — the stacks are ready for a reduction by a rule.
* `Configuration.Disciplined` — the stacks, the cursor and the cells are in order.

## Main results

* `Reaches.disciplined` — every configuration that moves lead to is in order.
* `parse_disciplined` — so is every configuration of every parse, and no parse
  ends with a missing GOTO entry.
-/

namespace CanonicalLR

namespace Configuration

/-! ## Discipline -/

/-- The stacks are ready for a reduction by a rule: its right-hand side lies on
top, nothing is missing, and there is a state to go to from below. -/
structure Spells (t : Table) (c : Configuration) (r : Rule) : Prop where
  length_le_symbols : r.rhs.length ≤ c.symbols.length
  length_lt_states : r.rhs.length < c.states.length
  popped_eq : (c.symbols.take r.rhs.length).reverse = r.rhs
  exists_goto : ∃ below next, (c.states.drop r.rhs.length).head? = some below ∧
    t.goto? below r.lhs = some next

/-- The stacks, the cursor and the cells of a configuration are in order. -/
structure Disciplined (t : Table) (tokens : List String) (c : Configuration) : Prop where
  /-- There is one more state than there are symbols. -/
  length_states : c.states.length = c.symbols.length + 1
  /-- State 0 is at the bottom. -/
  bottom : c.states.getLast? = some 0
  /-- Each state is entered from the one below, over the symbol between them. -/
  entered : ∀ {k symbol : Nat}, c.symbols[k]? = some symbol →
    ∃ below state, c.states[k + 1]? = some below ∧ c.states[k]? = some state ∧
      (t.action? below symbol = some (.shift state) ∨ t.goto? below symbol = some state)
  /-- Every state has a row. -/
  lt_size : ∀ state ∈ c.states, state < t.rows.size
  /-- The cursor never passes the end marker behind the tokens. -/
  isAt : c.IsAt tokens
  /-- A shift reads a token, and enters a state that has a row. -/
  shift : ∀ {symbol state : Nat}, c.Reads t symbol (.shift state) →
    symbol ≠ endId ∧ c.consumed < tokens.length ∧ state < t.rows.size
  /-- A reduction finds its rule on the stacks. -/
  reduce : ∀ {symbol id : Nat}, c.Reads t symbol (.reduce id) →
    ∃ r, t.grammar.rules[id]? = some r ∧ c.Spells t r
  /-- No step misses a GOTO entry. -/
  step_ne : ∀ state symbol, c.step t ≠ .failed (.missingGoto state symbol)

variable {t : Table} {c d : Configuration} {actions : List Action} {tokens : List String}
  {id : Nat}

/-- The parts of a reduction are what the parser takes off and finds below. -/
theorem Reduction.spells (r : c.Reduction t id) : c.Spells t r.rule := by
  have hdrop : c.states.drop r.rule.rhs.length = r.state :: r.below := by
    rw [r.states_eq, ← r.length_popped, List.drop_left]
  refine
    { length_le_symbols := ?_
      length_lt_states := ?_
      popped_eq := ?_
      exists_goto := ⟨r.state, r.next, by rw [hdrop]; rfl, r.goto_eq⟩ }
  · show r.rule.rhs.length ≤ c.symbols.length
    rw [r.symbols_eq, List.length_append, List.length_reverse]
    omega
  · show r.rule.rhs.length < c.states.length
    rw [r.states_eq, List.length_append, r.length_popped, List.length_cons]
    omega
  · show (c.symbols.take r.rule.rhs.length).reverse = r.rule.rhs
    rw [r.symbols_eq, ← List.length_reverse, List.take_left, List.reverse_reverse]

/-- **Every configuration that moves lead to** is in order. -/
theorem Reaches.disciplined (ht : t.IsCanonical)
    (h : (initial tokens).Reaches t actions c) : c.Disciplined t tokens := by
  have hstacked := h.stacked ht
  have hat := h.isAt ht
  refine
    { length_states := hstacked.length_eq
      bottom := hstacked.getLast?_eq
      entered := ?_
      lt_size := hstacked.lt_size ht
      isAt := hat
      shift := ?_
      reduce := ?_
      step_ne := ?_ }
  · intro k symbol hk
    obtain ⟨below, state, hbelow, hstate, hmove⟩ := hstacked.move_of_getElem? hk
    exact ⟨below, state, hbelow, hstate, ht.shift_or_goto_of_move hmove⟩
  · intro symbol state hread
    obtain ⟨hne, token, rest, hpending⟩ := hread.exists_pending ht
    have hentered := (hstacked.shift ht hread.2).lt_size ht state List.mem_cons_self
    exact ⟨hne, hat.consumed_lt hpending, hentered⟩
  · intro symbol id hread
    obtain ⟨r, _⟩ := hstacked.exists_reduction ht hread.2
    exact ⟨r.rule, r.rule_eq, r.spells⟩
  · intro state symbol hstep
    have heq := hstacked.eq_unexpected_of_step_eq_failed ht hstep
    unfold unexpected at heq
    cases heq

end Configuration

namespace Table

/-! ## Parses -/

/-- No parse ends with a missing GOTO entry. -/
theorem IsCanonical.parse_ne_missingGoto {t : Table} (ht : t.IsCanonical) (limit : Nat)
    (input : String) (state : Nat) (symbol : String) (trace : Option Trace) :
    t.parse limit input ≠ .failed (.missingGoto state symbol) trace := by
  intro hfailed
  rcases exists_reaches_of_failed hfailed with heq | ⟨-, -, actions, d, hreach, hd, -⟩
  · cases heq
  · exact (hreach.disciplined ht).step_ne state symbol hd

/-- **Stack discipline**: with the table of a grammar text, every configuration of
every parse is in order, and no parse ends with a missing GOTO entry. -/
theorem parse_disciplined {text : String} {g : Grammar} {t : Table}
    (read : Grammar.ofText text = .ok g) (built : build g = .ok t) (input : String) :
    (∀ actions c, (Configuration.initial (Text.wordsOf input)).Reaches t actions c →
      c.Disciplined t (Text.wordsOf input)) ∧
    ∀ limit state symbol trace,
      t.parse limit input ≠ .failed (.missingGoto state symbol) trace := by
  have ht : t.IsCanonical := isCanonical_build (Grammar.wellFormed_ofText read) built
  refine ⟨fun actions c hreach => hreach.disciplined ht, ?_⟩
  intro limit state symbol trace
  exact ht.parse_ne_missingGoto limit input state symbol trace

/-- So it is with a grammar that has an empty rule. -/
theorem parse_disciplined_of_empty_rule :
    ∃ g t, Grammar.ofText "S -> a S | ε" = .ok g ∧ build g = .ok t ∧
      (∀ actions c, (Configuration.initial (Text.wordsOf "a a")).Reaches t actions c →
        c.Disciplined t (Text.wordsOf "a a")) ∧
      ∀ limit state symbol trace,
        t.parse limit "a a" ≠ .failed (.missingGoto state symbol) trace := by
  obtain ⟨g, t, read, built, -⟩ := exists_table "S -> a S | ε" (fun _ => true) (by decide +kernel)
  exact ⟨g, t, read, built, parse_disciplined read built "a a"⟩

end Table

end CanonicalLR
