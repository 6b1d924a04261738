import CanonicalLR.First

/-!
# FOLLOW sets

FOLLOW of a non-terminal holds the terminals that can stand right after it in a
sentential form, and `$` if it can stand at the end. For a rule `A -> α B β`,
whatever starts `β` follows `B`, and if `β` derives the empty word, whatever
follows `A` follows `B`.

## Main definitions

* `occurrences` — the symbols of a right-hand side, each with what stands
  after it.
* `Grammar.followSaturation` — the passes over the rules that find the sets.
* `Grammar.follow` — the FOLLOW sets.

## Main results

* `mem_occurrences` — an occurrence is a way to divide the sequence.
* `cases_of_append_eq_append_cons` — the occurrences in a concatenation.
-/

namespace CanonicalLR

/-- The symbols of a sequence from left to right, each with its rest. -/
def occurrences : List Nat → List (Nat × List Nat)
  | [] => []
  | symbol :: rest => (symbol, rest) :: occurrences rest

theorem mem_occurrences {word rest : List Nat} {symbol : Nat} :
    (symbol, rest) ∈ occurrences word ↔ ∃ before, word = before ++ symbol :: rest := by
  induction word with
  | nil => simp [occurrences]
  | cons a word ih =>
    simp only [occurrences, List.mem_cons, Prod.mk.injEq, ih]
    constructor
    · rintro (⟨rfl, rfl⟩ | ⟨before, rfl⟩)
      · exact ⟨[], rfl⟩
      · exact ⟨a :: before, rfl⟩
    · rintro ⟨before, h⟩
      cases before with
      | nil => simp_all
      | cons b before =>
        simp only [List.cons_append, List.cons.injEq] at h
        exact Or.inr ⟨before, h.2⟩

/-- A symbol of a concatenation stands in the second part or in the first. -/
theorem cases_of_append_eq_append_cons {front back left right : List Nat} {symbol : Nat}
    (h : front ++ back = left ++ symbol :: right) :
    (∃ between, left = front ++ between ∧ back = between ++ symbol :: right) ∨
      ∃ between, front = left ++ symbol :: between ∧ right = between ++ back := by
  rcases List.append_eq_append_iff.1 h with hback | ⟨between, hfront, hcons⟩
  · exact Or.inl hback
  · rcases List.cons_eq_append_iff.1 hcons with ⟨rfl, hback⟩ | ⟨rest, rfl, hright⟩
    · rw [List.append_nil] at hfront
      exact Or.inl ⟨[], by rw [hfront, List.append_nil], hback⟩
    · exact Or.inr ⟨rest, hfront, hright⟩

namespace Grammar

/-- FOLLOW before any rule is used: the end marker follows the start symbol. -/
def followSeed (g : Grammar) : SymbolSets :=
  (SymbolSets.empty g.symbols.size).extend g.start (OrdSet.empty.insert endId)

/-- Adds what one rule says about the non-terminals in it, from left to right. -/
def followRule (g : Grammar) (first follow : SymbolSets) (r : Rule) : SymbolSets :=
  (occurrences r.rhs).foldl (fun follow occurrence =>
    if g.symbols.isNonTerminal occurrence.1
    then follow.extend occurrence.1 (first.followedBy occurrence.2 (follow.get r.lhs))
    else follow) follow

/-- A pass over the rules in order; each rule sees what earlier ones added. -/
def followPass (g : Grammar) (first follow : SymbolSets) : SymbolSets :=
  g.rules.foldl (g.followRule first) follow

/-- The passes that find the FOLLOW sets from the FIRST sets. -/
def followSaturation (g : Grammar) (first : SymbolSets) : Saturation SymbolSets :=
  saturate (g.followPass first) g.passCap g.followSeed

/-- The FOLLOW sets of a grammar. -/
def follow (g : Grammar) : SymbolSets := (g.followSaturation g.first).value

end Grammar

end CanonicalLR
