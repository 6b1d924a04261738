import CanonicalLR.Grammar
import CanonicalLR.OrdSet

/-!
# Sets of symbols, one for each symbol of a grammar

FIRST sets, FOLLOW sets and the lookaheads with which a state spawns rules are
families of symbol sets indexed by symbol number. A family only ever grows at
one symbol at a time, by `extend`.

## Main definitions

* `SymbolSets.empty` — the family of empty sets.
* `SymbolSets.get` — the set of a symbol; empty for a number outside the family.
* `SymbolSets.extend` — the family with more members at one symbol.
* `SymbolSets.render` — one line for each non-terminal.

## Main results

* `get_empty`, `get_extend` — the empty family and an extension through `get`.
-/

namespace CanonicalLR

/-- A set of symbols for each symbol number. -/
structure SymbolSets where
  sets : Array (OrdSet Nat)
  deriving DecidableEq

namespace SymbolSets

/-- The family of empty sets for a number of symbols. -/
def empty (size : Nat) : SymbolSets := ⟨Array.replicate size ∅⟩

/-- The set of a symbol. -/
def get (s : SymbolSets) (symbol : Nat) : OrdSet Nat := (s.sets[symbol]?).getD ∅

/-- The family with more members in the set of one symbol. -/
def extend (s : SymbolSets) (symbol : Nat) (more : OrdSet Nat) : SymbolSets :=
  ⟨s.sets.modify symbol (· ∪ more)⟩

@[simp] theorem get_empty (size symbol : Nat) : (empty size).get symbol = ∅ := by
  simp only [get, empty, Array.getElem?_replicate]
  split <;> rfl

@[simp] theorem size_extend (s : SymbolSets) (symbol : Nat) (more : OrdSet Nat) :
    (s.extend symbol more).sets.size = s.sets.size := by
  simp [extend]

theorem get_extend {s : SymbolSets} {symbol other : Nat} {more : OrdSet Nat}
    (h : symbol < s.sets.size) :
    (s.extend symbol more).get other =
      if other = symbol then s.get symbol ∪ more else s.get other := by
  simp only [get, extend, Array.getElem?_modify]
  by_cases eq : other = symbol
  · subst eq
    rw [if_pos rfl, if_pos rfl, Array.getElem?_eq_getElem h]
    rfl
  · rw [if_neg (Ne.symm eq), if_neg eq]

/-- The set of each non-terminal, as `LABEL(X) = { a, b }`. -/
def render (s : SymbolSets) (label : String) (t : SymbolTable) : String :=
  let line := fun symbol =>
    label ++ "(" ++ t.name symbol ++ ") = \x7b "
      ++ ", ".intercalate ((s.get symbol).toList.map t.name) ++ " \x7d\n"
  String.join (((List.range t.size).filter t.isNonTerminal).map line)

end SymbolSets

end CanonicalLR
