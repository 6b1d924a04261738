import CanonicalLR.Proofs.Parser.Simulation

/-!
# Ambiguity is a conflict

Two rightmost derivations of one word are two runs of the parser over the same
tokens. A table gives each configuration one move, so the runs are the same and
the derivations use the same rules. An ambiguous grammar therefore has no table,
and what stands in the way is always a conflict.

## Main definitions

* `Grammar.IsAmbiguous` — a word has two rightmost derivations.

## Main results

* `derivesRightmost_unique` — a grammar with a table gives a word one rightmost
  derivation at most.
* `build_of_isAmbiguous` — building a table for an ambiguous grammar ends in a
  conflict.
-/

namespace CanonicalLR

/-- Some word has two rightmost derivations, by different lists of rules. -/
def Grammar.IsAmbiguous (g : Grammar) : Prop :=
  ∃ w first second, g.IsWord w ∧ g.DerivesRightmost first [g.start] w ∧
    g.DerivesRightmost second [g.start] w ∧ first ≠ second

namespace Table

variable {g : Grammar} {t : Table} {w first second : List Nat} {text : String}

/-- **A grammar with a table** gives a word one rightmost derivation at most. -/
theorem derivesRightmost_unique (hg : g.WellFormed) (built : build g = .ok t)
    (hw : g.IsWord w) (hfirst : g.DerivesRightmost first [g.start] w)
    (hsecond : g.DerivesRightmost second [g.start] w) : first = second := by
  obtain ⟨actions, d, hreach, hd, hids⟩ :=
    exists_reaches_of_derivesRightmost hg built hw hfirst
  obtain ⟨more, e, hother, he, hmore⟩ :=
    exists_reaches_of_derivesRightmost hg built hw hsecond
  have hactions : actions = more := hreach.actions_unique hd hother he
  rw [hactions, hmore] at hids
  have hinjective : Function.Injective fun id : Nat => id + 1 := fun _ _ => Nat.succ.inj
  exact (List.reverse_injective (List.map_injective_iff.2 hinjective hids)).symm

/-- **Ambiguity is always caught**: building a table for an ambiguous grammar ends in a
conflict; and if a grammar has a table, any two rightmost derivations of a word
from the declared start symbol use the same rules in the same order. -/
theorem build_of_isAmbiguous (read : Grammar.ofText text = .ok g) :
    (g.IsAmbiguous → ∃ state symbol existing demanded,
      build g = .error (.conflict state symbol existing demanded)) ∧
    ∀ t, build g = .ok t → ∀ w first second, g.IsWord w →
      g.DerivesRightmost first [g.start] w → g.DerivesRightmost second [g.start] w →
      first = second := by
  have hg : g.WellFormed := Grammar.wellFormed_ofText read
  refine ⟨?_, ?_⟩
  · intro hambiguous
    obtain ⟨w, first, second, hw, hfirst, hsecond, hne⟩ := hambiguous
    cases hbuilt : build g with
    | ok t => exact absurd (derivesRightmost_unique hg hbuilt hw hfirst hsecond) hne
    | error error =>
        obtain ⟨state, symbol, existing, demanded, rfl⟩ := exists_conflict_of_build hbuilt
        exact ⟨state, symbol, existing, demanded, rfl⟩
  · intro t built w first second hw hfirst hsecond
    exact derivesRightmost_unique hg built hw hfirst hsecond

/-- So it is with a symbol that derives itself: the word `a` has a derivation for
each number of turns. -/
theorem build_of_cyclic_rule :
    ∃ g, Grammar.ofText "S -> S | a" = .ok g ∧ g.IsAmbiguous ∧
      ∃ state symbol existing demanded,
        build g = .error (.conflict state symbol existing demanded) := by
  let symbols : SymbolTable :=
    ⟨#[⟨"ε", .epsilon⟩, ⟨"$", .endMarker⟩, ⟨"S", .nonTerminal⟩, ⟨"a", .terminal⟩]⟩
  let g : Grammar := ⟨symbols, #[⟨0, 2, [2]⟩, ⟨1, 2, [3]⟩], 2⟩
  have read : Grammar.ofText "S -> S | a" = .ok g := by decide +kernel
  have hturn : (⟨0, 2, [2]⟩ : Rule) ∈ g.rules := Array.mem_of_getElem? (i := 0) rfl
  have hlast : (⟨1, 2, [3]⟩ : Rule) ∈ g.rules := Array.mem_of_getElem? (i := 1) rfl
  have hempty : g.IsWord [] := by
    intro symbol hsymbol
    cases hsymbol
  have hword : g.IsWord [3] := by
    unfold Grammar.IsWord
    decide
  have hshort : g.DerivesRightmost [1] [2] [3] :=
    .cons (α := []) hlast hempty (.nil _)
  have hlong : g.DerivesRightmost [0, 1] [2] [3] :=
    .cons (α := []) hturn hempty hshort
  have hambiguous : g.IsAmbiguous := ⟨[3], [1], [0, 1], hword, hshort, hlong, by decide⟩
  exact ⟨g, read, hambiguous, (build_of_isAmbiguous read).1 hambiguous⟩

end Table

end CanonicalLR
