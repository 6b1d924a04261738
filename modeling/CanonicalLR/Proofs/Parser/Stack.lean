import CanonicalLR.Proofs.Parser.Run
import CanonicalLR.Proofs.Table.Cells

/-!
# The stacks of the parser

A reduction takes as many symbols off the stack as its rule has on the right; it
never looks whether they are the right ones. They are, because the states below
the top remember how each item of the top state was begun: an item whose dot
stands behind `p` symbols has these symbols on top of the stack, and the state
below them holds the same item with its dot at the start. That state is also
the one which awaits the left-hand side, so GOTO always names a state.

## Main definitions

* `Stacked` — states and symbols that moves of the table join, from state 0 up.
* `Configuration.Reduction` — the parts of the stacks in a reduction.
* `Configuration.IsAt` — the cursor stands among the tokens.

## Main results

* `Stacked.exists_start` — an item of the top state is spelled by the stack.
* `Stacked.exists_reduction` — a reduction finds its right-hand side on the stack
  and the state to go to.
* `Stacked.step`, `Reaches.stacked` — one move, and a whole run, keep the stacks
  joined.
* `IsAt.step`, `Reaches.isAt` — they keep the cursor among the tokens.
-/

namespace CanonicalLR

/-! ## Joined stacks -/

/-- Two stacks, top first: state 0 at the bottom, and every other state is the
target of the move over the symbol beside it from the state below. -/
inductive Stacked (t : Table) : List Nat → List Nat → Prop where
  | bottom : Stacked t [0] []
  | push {state symbol next : Nat} {below rest : List Nat}
      (earlier : Stacked t (state :: below) rest) (move : t.automaton.Moves state symbol next) :
      Stacked t (next :: state :: below) (symbol :: rest)

namespace Stacked

variable {t : Table} {states symbols : List Nat} {i : Item}

theorem length_eq (h : Stacked t states symbols) : states.length = symbols.length + 1 := by
  induction h with
  | bottom => rfl
  | push _ _ ih =>
      rw [List.length_cons, ih, List.length_cons]

theorem getLast?_eq (h : Stacked t states symbols) : states.getLast? = some 0 := by
  induction h with
  | bottom => rfl
  | push _ _ ih =>
      rw [List.getLast?_cons_cons]
      exact ih

theorem lt_size (ht : t.IsCanonical) (h : Stacked t states symbols) :
    ∀ state ∈ states, state < t.rows.size := by
  have hstates : ∀ {state : Nat} {s : ItemSet}, t.automaton.states[state]? = some s →
      state < t.rows.size := by
    intro state s hs
    rw [ht.size_rows]
    exact (Array.getElem?_eq_some_iff.1 hs).1
  induction h with
  | bottom =>
      intro state hstate
      rw [List.mem_singleton.1 hstate]
      exact hstates ht.collection.start
  | push _ move ih =>
      intro state hstate
      rcases List.mem_cons.1 hstate with rfl | hstate
      · obtain ⟨s, hs⟩ := ht.collection.exists_state move
        exact hstates (ht.collection.target hs move)
      · exact ih state hstate

/-- The states beside a symbol are joined by a move. -/
theorem move_of_getElem? (h : Stacked t states symbols) {k symbol : Nat}
    (hk : symbols[k]? = some symbol) :
    ∃ below state, states[k + 1]? = some below ∧ states[k]? = some state ∧
      t.automaton.Moves below symbol state := by
  induction h generalizing k with
  | bottom => cases hk
  | @push state _ next _ _ _ move ih =>
      cases k with
      | zero =>
          obtain rfl := Option.some.inj hk
          exact ⟨state, next, rfl, rfl, move⟩
      | succ k => exact ih hk

/-! ## Items are spelled by the stack -/

/-- **An item of the top state** was begun in a state below: the symbols before its
dot stand on top of that state. -/
theorem exists_start (ht : t.IsCanonical) (h : Stacked t states symbols)
    (hi : t.automaton.Holds (states.headD 0) i) :
    ∃ popped state below rest, states = popped ++ state :: below ∧
      popped.length = i.position ∧
      symbols = ((i.rhs t.grammar).take i.position).reverse ++ rest ∧
      Stacked t (state :: below) rest ∧ t.automaton.Holds state ⟨i.rule, 0, i.lookahead⟩ := by
  have hstart : ∀ {i : Item}, i.position = 0 → (⟨i.rule, 0, i.lookahead⟩ : Item) = i := by
    intro i hpos
    rw [← hpos]
  induction h generalizing i with
  | bottom =>
      have hpos : i.position = 0 := ht.collection.position_eq_zero ht.augmented hi
      refine ⟨[], 0, [], [], rfl, hpos.symm, by simp [hpos], .bottom, ?_⟩
      rw [hstart hpos]
      exact hi
  | @push state symbol next below rest earlier move ih =>
      by_cases hpos : i.position = 0
      · refine ⟨[], next, state :: below, symbol :: rest, rfl, hpos.symm, by simp [hpos],
          .push earlier move, ?_⟩
        rw [hstart hpos]
        exact hi
      · obtain ⟨j, hj, hexp, rfl⟩ :=
          ht.collection.exists_predecessor ht.augmented move hi (Nat.pos_of_ne_zero hpos)
        obtain ⟨popped, start, below', rest', hstates, hpopped, hsymbols, hstacked, hheld⟩ :=
          ih hj
        have htake : (j.moved.rhs t.grammar).take j.moved.position
            = (j.rhs t.grammar).take j.position ++ [symbol] := by
          show (j.rhs t.grammar).take (j.position + 1) = _
          rw [List.take_add_one, show (j.rhs t.grammar)[j.position]? = some symbol from hexp]
          rfl
        refine ⟨next :: popped, start, below', rest', ?_, ?_, ?_, hstacked, hheld⟩
        · show next :: state :: below = (next :: popped) ++ start :: below'
          rw [hstates, List.cons_append]
        · show (next :: popped).length = j.position + 1
          rw [List.length_cons, hpopped]
        · show symbol :: rest = ((j.moved.rhs t.grammar).take j.moved.position).reverse ++ rest'
          rw [htake, hsymbols]
          simp

end Stacked

/-! ## Reductions -/

namespace Configuration

variable {t : Table} {c d : Configuration} {symbol id : Nat}

/-- The parts of the stacks in a reduction: the right-hand side of the rule and
the states entered over it on top, then the state that is uncovered, and the
state to which it goes over the left-hand side. -/
structure Reduction (t : Table) (c : Configuration) (id : Nat) where
  rule : Rule
  popped : List Nat
  state : Nat
  below : List Nat
  rest : List Nat
  next : Nat
  rule_eq : t.grammar.rules[id]? = some rule
  states_eq : c.states = popped ++ state :: below
  length_popped : popped.length = rule.rhs.length
  symbols_eq : c.symbols = rule.rhs.reverse ++ rest
  goto_eq : t.goto? state rule.lhs = some next

/-- The configuration after a reduction. -/
def Reduction.after (r : c.Reduction t id) : Configuration :=
  { c with states := r.next :: r.state :: r.below, symbols := r.rule.lhs :: r.rest }

/-- The parser takes the right-hand side off and goes on from below. -/
theorem Reduction.reduce_eq (r : c.Reduction t id) : c.reduce t id = .ok r.after := by
  have hstates : c.states.drop r.rule.rhs.length = r.state :: r.below := by
    rw [r.states_eq, ← r.length_popped, List.drop_left]
  have hsymbols : c.symbols.drop r.rule.rhs.length = r.rest := by
    rw [r.symbols_eq, ← List.length_reverse, List.drop_left]
  unfold reduce
  rw [Grammar.rule_of_getElem? r.rule_eq]
  simp only [hstates, hsymbols, List.head?_cons, Option.bind_some, r.goto_eq]
  rfl

end Configuration

namespace Stacked

variable {t : Table} {c d : Configuration} {symbol id : Nat} {action : Action}

/-- **A reduction** finds its right-hand side on the stack, and a state to go to. -/
theorem exists_reduction (ht : t.IsCanonical) (h : Stacked t c.states c.symbols)
    (hcell : t.action? c.state symbol = some (.reduce id)) :
    ∃ r : c.Reduction t id, Stacked t (r.state :: r.below) r.rest := by
  obtain ⟨i, hi, hend, hnot, -, rfl⟩ := ht.action?_eq_reduce_iff.1 hcell
  obtain ⟨popped, state, below, rest, hstates, hpopped, hsymbols, hstacked, hstart⟩ :=
    h.exists_start ht hi
  have hrule : i.rule ≠ 0 :=
    ht.collection.rule_ne_zero_of_not_isAccepting ht.augmented hstart hend hnot
  have hmem := (ht.augmented.rule_mem_of_mem_items (ht.collection.mem_items hi)).1
  have hpos : i.position = (t.grammar.rule i.rule).rhs.length :=
    ht.collection.position_eq_of_isExhausted ht.augmented hi hend
  obtain ⟨next, hmove⟩ := ht.collection.exists_next_lhs ht.augmented hstart rfl hrule
  have hgoto : t.goto? state (t.grammar.rule i.rule).lhs = some next :=
    ht.goto?_eq_some_iff.2 ⟨ht.augmented.lhs_isNonTerminal _ hmem, hmove⟩
  rw [show i.rhs t.grammar = (t.grammar.rule i.rule).rhs from rfl, hpos, List.take_length]
    at hsymbols
  exact ⟨{
    rule := t.grammar.rule i.rule, popped, state, below, rest, next
    rule_eq := ht.augmented.getElem?_rules hmem
    states_eq := hstates
    length_popped := hpopped.trans hpos
    symbols_eq := hsymbols
    goto_eq := hgoto }, hstacked⟩

theorem shift (ht : t.IsCanonical) (h : Stacked t c.states c.symbols)
    {state : Nat} (hcell : t.action? c.state symbol = some (.shift state)) :
    Stacked t (c.shift symbol state).states (c.shift symbol state).symbols := by
  have hmove := (ht.action?_eq_shift_iff.1 hcell).2
  unfold Configuration.state at hmove
  unfold Configuration.shift
  cases hstates : c.states with
  | nil =>
      have hlength := h.length_eq
      rw [hstates] at hlength
      cases hlength
  | cons top below =>
      rw [hstates] at h hmove
      exact .push h hmove

theorem reduce (ht : t.IsCanonical) (r : c.Reduction t id)
    (h : Stacked t (r.state :: r.below) r.rest) :
    Stacked t r.after.states r.after.symbols :=
  .push h (ht.goto?_eq_some_iff.1 r.goto_eq).2

/-- **One move** keeps the stacks joined. -/
theorem step (ht : t.IsCanonical) (h : Stacked t c.states c.symbols)
    (hstep : c.step t = .moved action d) : Stacked t d.states d.symbols := by
  rcases Configuration.cases_of_step_eq_moved hstep with
    ⟨symbol, state, hread, -, rfl⟩ | ⟨symbol, id, hread, -, hreduce⟩
  · exact h.shift ht hread.2
  · obtain ⟨r, hr⟩ := h.exists_reduction ht hread.2
    rw [r.reduce_eq] at hreduce
    obtain rfl := Except.ok.inj hreduce
    exact .reduce ht r hr

/-- **MissingGoto is out of reach**: a step fails only on a token without action. -/
theorem eq_unexpected_of_step_eq_failed (ht : t.IsCanonical)
    (h : Stacked t c.states c.symbols) {error : Error} (hstep : c.step t = .failed error) :
    error = c.unexpected t := by
  rcases Configuration.cases_of_step_eq_failed hstep with heq | ⟨symbol, id, hread, hreduce⟩
  · exact heq
  · obtain ⟨r, _⟩ := h.exists_reduction ht hread.2
    rw [r.reduce_eq] at hreduce
    cases hreduce

/-- A step never fails on a token with an action. -/
theorem step_ne_failed_of_reads (ht : t.IsCanonical) (h : Stacked t c.states c.symbols)
    (hread : c.Reads t symbol action) (error : Error) : c.step t ≠ .failed error := by
  intro hstep
  cases action with
  | shift state =>
      rw [Configuration.step_of_shift hread] at hstep
      cases hstep
  | accept =>
      rw [Configuration.step_eq_accepted_iff.2 ⟨symbol, hread⟩] at hstep
      cases hstep
  | reduce id =>
      obtain ⟨r, _⟩ := h.exists_reduction ht hread.2
      rw [Configuration.step_of_reduce hread r.reduce_eq] at hstep
      cases hstep

end Stacked

/-! ## Runs -/

namespace Configuration

variable {t : Table} {c d : Configuration} {actions : List Action} {action : Action}
  {tokens : List String} {symbol state : Nat}

/-- A shift reads a token, never the end marker behind the last one. -/
theorem Reads.exists_pending (ht : t.IsCanonical) (h : c.Reads t symbol (.shift state)) :
    symbol ≠ endId ∧ ∃ token rest, c.pending = token :: rest := by
  have hne : symbol ≠ endId := ht.ne_endId_of_move (ht.action?_eq_shift_iff.1 h.2).2
  refine ⟨hne, ?_⟩
  have hsymbol := h.1
  unfold lookahead? at hsymbol
  cases hpending : c.pending with
  | nil =>
      rw [hpending] at hsymbol
      exact absurd (Option.some.inj hsymbol).symm hne
  | cons token rest => exact ⟨token, rest, rfl⟩

/-- The cursor stands before, between or behind the tokens, and what stands behind
it is pending. -/
structure IsAt (tokens : List String) (c : Configuration) : Prop where
  consumed_le : c.consumed ≤ tokens.length
  pending_eq : c.pending = tokens.drop c.consumed

/-- A token that is pending has not been counted. -/
theorem IsAt.consumed_lt (h : c.IsAt tokens) {token : String} {rest : List String}
    (hpending : c.pending = token :: rest) : c.consumed < tokens.length := by
  apply Nat.lt_of_not_le
  intro hle
  rw [h.pending_eq, List.drop_eq_nil_of_le hle] at hpending
  cases hpending

/-- One move keeps the cursor among the tokens. -/
theorem IsAt.step (ht : t.IsCanonical) (hs : Stacked t c.states c.symbols)
    (h : c.IsAt tokens) (hstep : c.step t = .moved action d) : d.IsAt tokens := by
  rcases cases_of_step_eq_moved hstep with
    ⟨symbol, state, hread, -, rfl⟩ | ⟨symbol, id, hread, -, hreduce⟩
  · obtain ⟨_, token, rest, hpending⟩ := hread.exists_pending ht
    refine ⟨h.consumed_lt hpending, ?_⟩
    show c.pending.tail = tokens.drop (c.consumed + 1)
    rw [h.pending_eq, List.tail_drop]
  · obtain ⟨r, _⟩ := hs.exists_reduction ht hread.2
    rw [r.reduce_eq] at hreduce
    obtain rfl := Except.ok.inj hreduce
    exact ⟨h.consumed_le, h.pending_eq⟩

/-- **A whole run** keeps the stacks joined. -/
theorem Reaches.stacked (ht : t.IsCanonical) (h : (initial tokens).Reaches t actions d) :
    Stacked t d.states d.symbols := by
  induction h with
  | refl => exact .bottom
  | tail _ hstep ih => exact ih.step ht hstep

/-- **A whole run** keeps the cursor among the tokens. -/
theorem Reaches.isAt (ht : t.IsCanonical) (h : (initial tokens).Reaches t actions d) :
    d.IsAt tokens := by
  induction h with
  | refl => exact ⟨Nat.zero_le _, rfl⟩
  | tail earlier hstep ih => exact ih.step ht (earlier.stacked ht) hstep

end Configuration

end CanonicalLR
