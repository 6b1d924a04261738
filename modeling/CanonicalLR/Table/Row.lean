import CanonicalLR.Automaton
import CanonicalLR.Error

/-!
# Rows of a parsing table

Each state has a row. Its items demand actions: an item with a terminal after
its dot demands a shift along the edge over that terminal, and an exhausted
item demands a reduction (or acceptance) on its lookahead. Two items that
demand different actions on one symbol are in conflict, and the grammar then
has no table.

## Main definitions

* `Row` — the ACTION and GOTO cells of a state.
* `Item.demand` — the action an item asks for, and on which symbol.
* `place` — enters demands into cells, up to the first conflict.
* `Row.ofState` — the row of a state.

## Main results

* `lookup_place` — if no demand clashes, a cell holds exactly what was there
  before or is demanded.
-/

namespace CanonicalLR

/-- The filled cells of a state; no symbol has two cells of one sort. -/
structure Row where
  /-- The ACTION cells, in the order in which they were filled. -/
  actions : List (Nat × Action)
  /-- The GOTO cells, in column order. -/
  gotos : List (Nat × Nat)
  deriving DecidableEq, Repr

/-- The cell that an item asks to be filled, given the edges of its state. -/
def Item.demand (g : Grammar) (edges : List (Nat × Nat)) (i : Item) :
    Option (Nat × Action) :=
  match i.symbol? g with
  | some symbol =>
    if g.symbols.isTerminal symbol
    then (edges.lookup symbol).map fun target => (symbol, .shift target)
    else none
  | none =>
    if i.isAccepting g then some (endId, .accept) else some (i.lookahead, .reduce i.rule)

/-- Two different actions on one symbol: the one that is there and the one that
is demanded. -/
structure Clash where
  symbol : Nat
  existing : Action
  demanded : Action
  deriving DecidableEq, Repr

/-- Enters demands into cells one after the other. A demand for what a cell
holds already changes nothing; any other demand for a filled cell is a clash. -/
def place (cells : List (Nat × Action)) :
    List (Nat × Action) → Except Clash (List (Nat × Action))
  | [] => .ok cells
  | (symbol, action) :: demands =>
    match cells.lookup symbol with
    | none => place (cells ++ [(symbol, action)]) demands
    | some existing =>
      if existing = action then place cells demands
      else .error ⟨symbol, existing, action⟩

/-- The row of a state: its items are asked in order, and the edges over
non-terminals are its GOTO cells. -/
def Row.ofState (g : Grammar) (state : Nat) (s : ItemSet) (edges : List (Nat × Nat)) :
    Except Error Row :=
  match place [] (s.toList.filterMap (Item.demand g edges)) with
  | .ok actions =>
    .ok { actions, gotos := edges.filter fun edge => g.symbols.isNonTerminal edge.1 }
  | .error clash =>
    .error (.conflict state (g.symbols.name clash.symbol) clash.existing clash.demanded)

/-! ## The cells of a row -/

theorem lookup_append_singleton {cells : List (Nat × Action)} {symbol other : Nat}
    {action : Action} (h : cells.lookup symbol = none) :
    (cells ++ [(symbol, action)]).lookup other =
      if other = symbol then some action else cells.lookup other := by
  induction cells with
  | nil =>
    by_cases e : other = symbol
    · simp [e]
    · simp [List.lookup_cons, beq_false_of_ne e, e]
  | cons cell cells ih =>
    obtain ⟨key, value⟩ := cell
    simp only [List.cons_append, List.lookup_cons] at h ⊢
    by_cases hkey : symbol = key
    · simp [hkey] at h
    · have hkey' : (symbol == key) = false := by simpa using hkey
      rw [hkey'] at h
      have := ih (by simpa using h)
      by_cases e : other = key
      · subst e
        simp [Ne.symm hkey]
      · have e' : (other == key) = false := by simpa using e
        simp only [e']
        exact this

/-- **The cells of a row**: a cell is filled exactly by what was there before or
is demanded. -/
theorem lookup_place {cells demands filled : List (Nat × Action)} {symbol : Nat}
    {action : Action} (h : place cells demands = .ok filled) :
    filled.lookup symbol = some action ↔
      cells.lookup symbol = some action ∨ (symbol, action) ∈ demands := by
  induction demands generalizing cells with
  | nil =>
    cases h
    simp
  | cons demand demands ih =>
    obtain ⟨key, value⟩ := demand
    simp only [place] at h
    split at h
    next free =>
      rw [ih h, lookup_append_singleton free]
      by_cases e : symbol = key
      · subst e
        simp [free, eq_comm]
      · simp [e]
    next existing taken =>
      split at h
      next same =>
        subst same
        rw [ih h, List.mem_cons, Prod.mk.injEq]
        constructor
        · exact Or.imp_right Or.inr
        · rintro (h | ⟨rfl, rfl⟩ | h)
          · exact Or.inl h
          · exact Or.inl taken
          · exact Or.inr h
      · cases h

end CanonicalLR
