import CanonicalLR.Saturation
import CanonicalLR.SymbolSets

/-!
# FIRST sets

FIRST of a sequence holds the terminals with which a word derived from it can
start, and `ε` if the sequence derives the empty word. The sets of the symbols
are the least ones that satisfy the rules: a terminal, `$` and `ε` start
themselves, and a non-terminal starts as any of its right-hand sides does.

## Main definitions

* `SymbolSets.ofSequence` — FIRST of a sequence, from FIRST of its symbols.
* `SymbolSets.followedBy`, `SymbolSets.lookaheads` — FIRST of a sequence followed
  by any one of some symbols, and by one symbol.
* `Grammar.firstSaturation` — the passes over the rules that find the sets.
* `Grammar.first` — the FIRST sets.

## Main results

* `ofSequence_append` — FIRST of a concatenation: the second part counts only
  if the first derives the empty word.
* `mem_ofSequence_singleton` — FIRST of one symbol is its set.
-/

namespace CanonicalLR

namespace SymbolSets

/-- FIRST of a sequence: the sets of its symbols without `ε`, up to and
including the first symbol that does not derive `ε`; `ε` if there is none. -/
def ofSequence (s : SymbolSets) : List Nat → OrdSet Nat
  | [] => OrdSet.empty.insert epsilonId
  | symbol :: rest =>
    let set := s.get symbol
    if epsilonId ∈ set then set.erase epsilonId ∪ s.ofSequence rest else set

/-- Does the symbol derive the empty word? -/
def isNullable (s : SymbolSets) (symbol : Nat) : Bool := epsilonId ∈ s.get symbol

/-- FIRST of a sequence followed by any one of some symbols that derive only
themselves: `ε` gives way to those symbols. -/
def followedBy (s : SymbolSets) (rest : List Nat) (after : OrdSet Nat) : OrdSet Nat :=
  let set := s.ofSequence rest
  if epsilonId ∈ set then set.erase epsilonId ∪ after else set

/-- FIRST of a sequence followed by a symbol that derives only itself. -/
def lookaheads (s : SymbolSets) (rest : List Nat) (after : Nat) : OrdSet Nat :=
  s.followedBy rest (OrdSet.empty.insert after)

theorem ofSequence_append (s : SymbolSets) (left right : List Nat) :
    s.ofSequence (left ++ right) =
      if epsilonId ∈ s.ofSequence left
      then (s.ofSequence left).erase epsilonId ∪ s.ofSequence right
      else s.ofSequence left := by
  induction left with
  | nil =>
    rw [if_pos (by simp [ofSequence])]
    exact OrdSet.ext fun a => by
      simp only [List.nil_append, ofSequence, OrdSet.mem_union, OrdSet.mem_erase,
        OrdSet.mem_insert]
      constructor
      · exact Or.inr
      · rintro (⟨h | h, ne⟩ | h)
        · exact absurd h ne
        · exact absurd h (OrdSet.not_mem_empty a)
        · exact h
  | cons symbol left ih =>
    simp only [List.cons_append, ofSequence]
    by_cases nullable : epsilonId ∈ s.get symbol
    · simp only [if_pos nullable, OrdSet.mem_union, OrdSet.mem_erase, ne_eq,
        not_true_eq_false, and_false, false_or, ih]
      split
      · exact OrdSet.ext fun a => by
          simp only [OrdSet.mem_union, OrdSet.mem_erase]
          constructor
          · rintro (h | h | h)
            · exact Or.inl ⟨Or.inl h, h.2⟩
            · exact Or.inl ⟨Or.inr h.1, h.2⟩
            · exact Or.inr h
          · rintro (⟨h | h, ne⟩ | h)
            · exact Or.inl h
            · exact Or.inr (Or.inl ⟨h, ne⟩)
            · exact Or.inr (Or.inr h)
      · rfl
    · simp only [if_neg nullable]

theorem mem_ofSequence_singleton {s : SymbolSets} {symbol a : Nat} :
    a ∈ s.ofSequence [symbol] ↔ a ∈ s.get symbol := by
  simp only [ofSequence]
  split
  next nullable =>
    simp only [OrdSet.mem_union, OrdSet.mem_erase, OrdSet.mem_insert]
    constructor
    · rintro (h | h | h)
      · exact h.1
      · exact h ▸ nullable
      · exact absurd h (OrdSet.not_mem_empty a)
    · intro h
      by_cases e : a = epsilonId
      · exact Or.inr (Or.inl e)
      · exact Or.inl ⟨h, e⟩
  · rfl

end SymbolSets

namespace Grammar

/-- FIRST before any rule is used: symbols without rules start themselves. -/
def firstSeed (g : Grammar) : SymbolSets :=
  ⟨(Array.range g.symbols.size).map fun symbol =>
    if g.symbols.isNonTerminal symbol then ∅ else OrdSet.empty.insert symbol⟩

/-- A pass over the rules in order; each rule sees what earlier ones added. -/
def firstPass (g : Grammar) (s : SymbolSets) : SymbolSets :=
  g.rules.foldl (fun s r => s.extend r.lhs (s.ofSequence r.rhs)) s

/-- More passes than the sets of symbols of a grammar can grow. -/
def passCap (g : Grammar) : Nat := g.symbols.size * g.symbols.size + 1

/-- The passes that find the FIRST sets. -/
def firstSaturation (g : Grammar) : Saturation SymbolSets :=
  saturate g.firstPass g.passCap g.firstSeed

/-- The FIRST sets of a grammar. -/
def first (g : Grammar) : SymbolSets := g.firstSaturation.value

end Grammar

end CanonicalLR
