import CanonicalLR.Augmented
import CanonicalLR.OrdSet

/-!
# LR(1) items

An item `[A -> α • β, a]` is a rule with a dot in its right-hand side and a
lookahead: the parser has seen `α`, may go on with `β`, and may then reduce if
the next symbol is `a`. Items are ordered by rule, position and lookahead;
this is the order in which a state shows them and in which its row is filled.

## Main definitions

* `Item` — the numbers of rule, position and lookahead.
* `Rule.itemAt?` — the item of a rule with its dot at a position.
* `Item.symbol?`, `Item.tail`, `Item.next?` — the symbol after the dot, the
  symbols after that one, and the item with its dot one symbol further.
* `Item.render` — the text of an item.

## Main results

* The order of items is a total order that identifies only equal items
  (instances of `Std.TransOrd` and `Std.LawfulEqOrd`).
* `symbol?_eq_some_iff` — the symbol after the dot and the tail divide the
  right-hand side at the position.
* `symbol?_eq_none_iff` — no symbol follows the dot exactly when the item is
  exhausted.
-/

namespace CanonicalLR

/-- An LR(1) item. -/
structure Item where
  /-- The number of the rule. -/
  rule : Nat
  /-- How many symbols of the right-hand side stand before the dot. -/
  position : Nat
  /-- The number of the lookahead symbol. -/
  lookahead : Nat
  deriving DecidableEq, Repr

/-! ## Order -/

namespace Item

/-- The order by rule, then position, then lookahead. -/
def order : Item → Item → Ordering :=
  compareLex (compareOn rule) (compareLex (compareOn position) (compareOn lookahead))

instance : Ord Item := ⟨order⟩

instance : Std.TransOrd Item :=
  inferInstanceAs (Std.TransCmp (compareLex (compareOn rule)
    (compareLex (compareOn position) (compareOn lookahead))))

theorem eq_of_order_eq {i j : Item} (h : order i j = .eq) : i = j := by
  simp only [order, compareLex_eq_eq, compareOn, Nat.compare_eq_eq] at h
  obtain ⟨rule, position, lookahead⟩ := h
  cases i; cases j; simp_all

instance : Std.LawfulEqOrd Item where
  eq_of_compare := eq_of_order_eq

end Item

/-! ## The dot -/

/-- The item of a rule with its dot at a position, if there is such a place. -/
def Rule.itemAt? (r : Rule) (position lookahead : Nat) : Option Item :=
  if position ≤ r.rhs.length then some ⟨r.id, position, lookahead⟩ else none

namespace Item

/-- The right-hand side of the item's rule. -/
def rhs (g : Grammar) (i : Item) : List Nat := (g.rule i.rule).rhs

/-- Is the dot at or beyond the end? -/
def isExhausted (g : Grammar) (i : Item) : Bool := (i.rhs g).length ≤ i.position

/-- The symbol after the dot. -/
def symbol? (g : Grammar) (i : Item) : Option Nat := (i.rhs g)[i.position]?

/-- The symbols after the one that follows the dot. -/
def tail (g : Grammar) (i : Item) : List Nat := (i.rhs g).drop (i.position + 1)

/-- The item with its dot one symbol further. -/
def next? (g : Grammar) (i : Item) : Option Item :=
  (g.rule i.rule).itemAt? (i.position + 1) i.lookahead

/-- Is this `[S' -> S •, $]`, the item of an accepted input? -/
def isAccepting (g : Grammar) (i : Item) : Bool :=
  i.rule == 0 && i.lookahead == endId && i.isExhausted g

theorem symbol?_eq_some_iff {g : Grammar} {i : Item} {symbol : Nat} :
    i.symbol? g = some symbol ↔
      i.rhs g = (i.rhs g).take i.position ++ symbol :: i.tail g ∧
        i.position < (i.rhs g).length := by
  simp only [symbol?, tail]
  constructor
  · intro h
    obtain ⟨lt, rfl⟩ := List.getElem?_eq_some_iff.1 h
    exact ⟨by rw [List.getElem_cons_drop, List.take_append_drop], lt⟩
  · rintro ⟨h, lt⟩
    rw [h, List.getElem?_append_right (List.length_take_le ..)]
    simp [Nat.min_eq_left (Nat.le_of_lt lt)]

theorem symbol?_eq_none_iff {g : Grammar} {i : Item} :
    i.symbol? g = none ↔ i.isExhausted g = true := by
  simp [symbol?, isExhausted]

/-! ## Text -/

/-- The names of a right-hand side with the dot before the symbol at a
position, or behind them all. -/
def dotted (t : SymbolTable) (rhs : List Nat) (position : Nat) : String :=
  let before := (rhs.take position).map t.name
  let after := (rhs.drop position).map t.name
  " ".intercalate (before ++ "•" :: after)

/-- The item as `[A -> x • y, a]`. -/
def render (g : Grammar) (i : Item) : String :=
  let name := g.symbols.name
  "[" ++ name (g.rule i.rule).lhs ++ " -> "
    ++ dotted g.symbols (i.rhs g) i.position ++ ", " ++ name i.lookahead ++ "]"

end Item

end CanonicalLR
