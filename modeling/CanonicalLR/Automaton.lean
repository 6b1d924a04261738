import CanonicalLR.ItemSet
import CanonicalLR.Numbering

/-!
# The canonical collection

The states of the parser are the item sets that goto reaches from the closure
of `[S' -> • S, $]`. They are numbered in the order in which a breadth-first
walk meets them, which takes the symbols of each state in column order. States
that are waiting to be expanded always have the highest numbers, so the walk
needs no queue beside it: it expands state 0, then state 1, and so on until no
state is left.

## Main definitions

* `Automaton` — the numbered states and the moves that leave each of them.
* `Automaton.edges` — the moves of all states, in order.
* `Exploration` — how far the walk has come; `steps` and `rounds` take it further.
* `Grammar.items` — all items whose lookahead is a terminal or `$`.
* `Grammar.automaton` — the canonical collection of an augmented grammar.

## Main results

* `mem_edges` — the edges that leave a state are its moves.
* `getElem?_expand` — no step of the walk renumbers a state.
* `le_expanded_rounds` — `n` rounds end the walk or expand `2 ^ n - 1` states.
* `length_items` — the number of items is a sum over the rules.
-/

namespace CanonicalLR

/-- A move from one state to another over a symbol. -/
structure Edge where
  source : Nat
  symbol : Nat
  target : Nat
  deriving DecidableEq, Repr

/-- Numbered item sets and the moves between them. -/
structure Automaton where
  states : Array ItemSet
  /-- The moves that leave each state, as symbol and target, in column order. -/
  moves : Array (List (Nat × Nat))
  deriving DecidableEq

namespace Automaton

/-- The moves that leave a state, as symbol and target, in column order. -/
def movesFrom (a : Automaton) (state : Nat) : List (Nat × Nat) :=
  (a.moves[state]?).getD []

/-- All edges, ordered by their source and then by column. -/
def edges (a : Automaton) : List Edge :=
  a.moves.toList.zipIdx.flatMap fun (moves, source) =>
    moves.map fun (symbol, target) => ⟨source, symbol, target⟩

theorem mem_edges {a : Automaton} {e : Edge} :
    e ∈ a.edges ↔ (e.symbol, e.target) ∈ a.movesFrom e.source := by
  simp only [edges, movesFrom, List.mem_flatMap, List.mem_map, Prod.exists,
    List.mk_mem_zipIdx_iff_getElem?, Array.getElem?_toList]
  constructor
  · rintro ⟨moves, source, hm, symbol, target, h, rfl⟩
    simpa [hm] using h
  · intro h
    cases hm : a.moves[e.source]? with
    | none => simp [hm] at h
    | some moves => exact ⟨moves, e.source, hm, e.symbol, e.target, by simpa [hm] using h, rfl⟩

end Automaton

/-! ## The walk -/

/-- How far the walk has come. -/
structure Exploration where
  /-- The states that have been met. -/
  met : Numbering ItemSet
  /-- The moves of the states that have been expanded. -/
  moves : Array (List (Nat × Nat))

namespace Exploration

/-- Follows symbols from a state, one after the other: the moves over them, and
the states that have been met by then. -/
def follow (g : Grammar) (first : SymbolSets) (s : ItemSet) :
    List Nat → Numbering ItemSet → List (Nat × Nat) × Numbering ItemSet
  | [], met => ([], met)
  | symbol :: symbols, met =>
    let (target, met) := met.meet (s.goto g first symbol)
    let (moves, met) := follow g first s symbols met
    ((symbol, target) :: moves, met)

/-- Expands the next state, which is the set `s`: follows every symbol that it
expects, in column order. -/
def expand (g : Grammar) (first : SymbolSets) (s : ItemSet) (e : Exploration) :
    Exploration :=
  let (moves, met) := follow g first s (g.inColumnOrder (s.expected g)) e.met
  ⟨met, e.moves.push moves⟩

/-- The states below this number have been expanded. -/
def expanded (e : Exploration) : Nat := e.moves.size

/-- Have all states been expanded? -/
def isComplete (e : Exploration) : Bool := e.met.size ≤ e.expanded

/-- Expands the next states, at most `cap` of them; states that are met on the
way are next ones, too. -/
def steps (g : Grammar) (first : SymbolSets) : Nat → Exploration → Exploration
  | 0, e => e
  | cap + 1, e =>
    match e.met.values[e.expanded]? with
    | none => e
    | some s => steps g first cap (e.expand g first s)

/-- Expands up to `cap` states, then twice as many, and so on, until all are
expanded, in at most so many rounds. -/
def rounds (g : Grammar) (first : SymbolSets) : Nat → Nat → Exploration → Exploration
  | 0, _, e => e
  | more + 1, cap, e =>
    let next := e.steps g first cap
    if next.isComplete then next else rounds g first more (2 * cap) next

/-! ## States keep their numbers -/

theorem size_le_follow {g : Grammar} {first : SymbolSets} {s : ItemSet}
    {symbols : List Nat} {met : Numbering ItemSet} :
    met.size ≤ (follow g first s symbols met).2.size := by
  induction symbols generalizing met with
  | nil => exact Nat.le_refl _
  | cons symbol symbols ih => exact Nat.le_trans Numbering.size_le_meet ih

theorem getElem?_follow {g : Grammar} {first : SymbolSets} {s : ItemSet}
    {symbols : List Nat} {met : Numbering ItemSet} {i : Nat} (h : i < met.size) :
    (follow g first s symbols met).2.values[i]? = met.values[i]? := by
  induction symbols generalizing met with
  | nil => rfl
  | cons symbol symbols ih =>
    exact (ih (Nat.lt_of_lt_of_le h Numbering.size_le_meet)).trans
      (Numbering.getElem?_meet_of_lt h)

theorem size_le_expand {g : Grammar} {first : SymbolSets} {s : ItemSet}
    {e : Exploration} : e.met.size ≤ (e.expand g first s).met.size :=
  size_le_follow

theorem getElem?_expand {g : Grammar} {first : SymbolSets} {s : ItemSet}
    {e : Exploration} {i : Nat} (h : i < e.met.size) :
    (e.expand g first s).met.values[i]? = e.met.values[i]? :=
  getElem?_follow h

theorem expanded_expand {g : Grammar} {first : SymbolSets} {s : ItemSet}
    {e : Exploration} : (e.expand g first s).expanded = e.expanded + 1 :=
  Array.size_push _

/-! ## Rounds are long enough -/

/-- Steps end the walk, or all of them are taken. -/
theorem expanded_steps {g : Grammar} {first : SymbolSets} {cap : Nat} {e : Exploration}
    (unfinished : (e.steps g first cap).isComplete = false) :
    (e.steps g first cap).expanded = e.expanded + cap := by
  induction cap generalizing e with
  | zero => rfl
  | succ cap ih =>
    simp only [steps] at unfinished ⊢
    split
    next done =>
      rw [done] at unfinished
      simp only [isComplete, decide_eq_false_iff_not, Nat.not_le] at unfinished
      rw [Array.getElem?_eq_getElem unfinished] at done
      cases done
    next s hs =>
      rw [hs] at unfinished
      rw [ih unfinished, expanded_expand, Nat.add_assoc, Nat.add_comm 1]

/-- Rounds end the walk or double their steps each time. -/
theorem le_expanded_rounds {g : Grammar} {first : SymbolSets} {more cap : Nat}
    {e : Exploration} (unfinished : (e.rounds g first more cap).isComplete = false) :
    e.expanded + (Nat.pow 2 more - 1) * cap ≤ (e.rounds g first more cap).expanded := by
  induction more generalizing cap e with
  | zero => simp [rounds]
  | succ more ih =>
    simp only [rounds] at unfinished ⊢
    split
    next done =>
      rw [if_pos done, done] at unfinished
      cases unfinished
    next left =>
      rw [if_neg left] at unfinished
      have later := ih unfinished
      rw [expanded_steps (by simpa using left)] at later
      have : Nat.pow 2 (more + 1) = 2 * Nat.pow 2 more := Nat.pow_succ'
      have : 0 < Nat.pow 2 more := Nat.pow_pos (by decide)
      have grow : (Nat.pow 2 (more + 1) - 1) * cap
          = cap + (Nat.pow 2 more - 1) * (2 * cap) := by
        obtain ⟨n, hn⟩ : ∃ n, Nat.pow 2 more = n + 1 := ⟨Nat.pow 2 more - 1, by omega⟩
        rw [‹Nat.pow 2 (more + 1) = _›, hn, Nat.add_sub_cancel,
          show 2 * (n + 1) - 1 = 2 * n + 1 by omega, Nat.add_mul, Nat.one_mul,
          Nat.mul_assoc, Nat.mul_left_comm, Nat.add_comm]
      omega

end Exploration

namespace Grammar

/-- The items of an augmented grammar: a rule of `n` symbols has `n + 1` places
for the dot, each with any terminal or `$` as its lookahead. -/
def items (g : Grammar) : List Item :=
  g.rules.toList.flatMap fun r =>
    (List.range (r.rhs.length + 1)).flatMap fun position =>
      g.actionColumns.map fun lookahead => ⟨r.id, position, lookahead⟩

theorem mem_items {g : Grammar} {i : Item} :
    i ∈ g.items ↔ ∃ r ∈ g.rules,
      i.rule = r.id ∧ i.position ≤ r.rhs.length ∧ i.lookahead ∈ g.actionColumns := by
  simp only [items, List.mem_flatMap, List.mem_range, List.mem_map, Nat.lt_succ_iff,
    Array.mem_toList_iff]
  constructor
  · rintro ⟨r, hr, position, hp, lookahead, hl, rfl⟩
    exact ⟨r, hr, rfl, hp, hl⟩
  · rintro ⟨r, hr, hid, hp, hl⟩
    exact ⟨r, hr, i.position, hp, i.lookahead, hl, by rw [← hid]⟩

/-- The number of items of an augmented grammar, counted without listing them. -/
def itemCount (g : Grammar) : Nat :=
  let columns := g.actionColumns.length
  g.rules.foldl (fun count r => count + (r.rhs.length + 1) * columns) 0

theorem length_items (g : Grammar) : g.items.length = g.itemCount := by
  have row : ∀ (id n : Nat), ((List.range n).flatMap fun position =>
      g.actionColumns.map fun lookahead => (⟨id, position, lookahead⟩ : Item)).length
        = n * g.actionColumns.length := by
    intro id n
    induction n with
    | zero => simp
    | succ n ih => simp [List.range_succ, List.flatMap_append, ih, Nat.succ_mul]
  have all : ∀ (rules : List Rule) (count : Nat),
      rules.foldl (fun count r => count + (r.rhs.length + 1) * g.actionColumns.length) count
        = count + (rules.flatMap fun r => (List.range (r.rhs.length + 1)).flatMap fun position =>
          g.actionColumns.map fun lookahead => (⟨r.id, position, lookahead⟩ : Item)).length := by
    intro rules count
    induction rules generalizing count with
    | nil => simp
    | cons r rules ih =>
      rw [List.foldl_cons, ih, List.flatMap_cons, List.length_append, row, Nat.add_assoc]
  simp only [itemCount, items]
  rw [← Array.foldl_toList, all, Nat.zero_add]

/-- The canonical collection of an augmented grammar. There are no more states
than sets of items, so one round more than there are items expands them all. -/
def automaton (g : Grammar) (first : SymbolSets) : Automaton :=
  let start := (Numbering.empty.meet (ItemSet.kernel.closure g first)).2
  let walk := Exploration.rounds g first (g.itemCount + 1) 1 ⟨start, #[]⟩
  ⟨walk.met.values, walk.moves⟩

end Grammar

end CanonicalLR
