import CanonicalLR.Proofs.Grammar.FreshStart
import CanonicalLR.Proofs.Table.Cells

/-!
# A table keeps its grammar

A table holds the augmented grammar from which it was built, and everything else in it is
computed from that grammar. As augmentation loses nothing, the declared grammar can be read
off its table, so tables are the same exactly if their grammars are. This already holds when
tables are compared by what they show: cells by look-ups, and no order in which the cells of
a row were filled.

## Main definitions

* `Table.SameAs` — two tables show the same.

## Main results

* `sameAs_iff_of_build` — tables are the same exactly if their grammars are.
* `augmentsFreshly_and_lossless` — augmentation is fresh, and nothing is lost on the way to a
  table.
-/

namespace CanonicalLR

namespace Table

/-- The tables show the same: the grammar, its FIRST and FOLLOW sets, the states, the columns,
and a value in each cell. -/
structure SameAs (t t' : Table) : Prop where
  grammar : t.grammar = t'.grammar
  first : t.first = t'.first
  follow : t.follow = t'.follow
  states : t.automaton.states = t'.automaton.states
  actionColumns : t.grammar.actionColumns = t'.grammar.actionColumns
  gotoColumns : t.grammar.gotoColumns = t'.grammar.gotoColumns
  size_rows : t.rows.size = t'.rows.size
  actions : ∀ state symbol, t.action? state symbol = t'.action? state symbol
  gotos : ∀ state symbol, t.goto? state symbol = t'.goto? state symbol

theorem SameAs.refl (t : Table) : t.SameAs t :=
  ⟨rfl, rfl, rfl, rfl, rfl, rfl, rfl, fun _ _ => rfl, fun _ _ => rfl⟩

section Built

variable {g h : Grammar} {t t' : Table} (built : build g = .ok t) (built' : build h = .ok t')

include built built'

/-- Tables of one grammar are one table. -/
theorem eq_of_eq_grammar (heq : g = h) : t = t' := by
  subst heq
  exact Except.ok.inj (built.symm.trans built')

/-- The declared grammar can be read off its table. -/
theorem eq_of_grammar_eq (heq : t.grammar = t'.grammar) : g = h := by
  rw [grammar_of_build built, grammar_of_build built'] at heq
  exact Grammar.augment_injective heq

/-- **Tables are the same** exactly if their grammars are. -/
theorem sameAs_iff_of_build : t.SameAs t' ↔ g = h := by
  refine ⟨fun hsame => eq_of_grammar_eq built built' hsame.grammar, fun heq => ?_⟩
  rw [eq_of_eq_grammar built built' heq]
  exact .refl t'

theorem eq_iff_of_build : t = t' ↔ g = h :=
  ⟨fun heq => eq_of_grammar_eq built built' (congrArg Table.grammar heq),
    eq_of_eq_grammar built built'⟩

end Built

/-! ## Grammars and their tables -/

/-- **Augmentation** adds a start symbol with a fresh name, and nothing is lost by it or on the
way to a table. -/
theorem augmentsFreshly_and_lossless (g h : Grammar) :
    g.AugmentsFreshly ∧ (g.augment = h.augment ↔ g = h) ∧
      ∀ t t', build g = .ok t → build h = .ok t' →
        (t.SameAs t' ↔ g = h) ∧ (t = t' ↔ g = h) :=
  ⟨g.augmentsFreshly, Grammar.augment_injective.eq_iff, fun _ _ built built' =>
    ⟨sameAs_iff_of_build built built', eq_iff_of_build built built'⟩⟩

/-- So it is where two primed names are taken, one by a non-terminal and one by a terminal. A
text with one alternative a line declares the same grammar, and has the same table; the same
rules in another order have another one. -/
theorem augmentsFreshly_and_lossless_of_primed_names :
    ∃ g h k t t' u, Grammar.ofText "S -> S' S'' | a\nS' -> b" = .ok g ∧
      Grammar.ofText "S -> S' S''\nS -> a\nS' -> b" = .ok h ∧
      Grammar.ofText "S -> a | S' S''\nS' -> b" = .ok k ∧
      build g = .ok t ∧ build h = .ok t' ∧ build k = .ok u ∧
      g.AugmentsFreshly ∧ g.augment.symbols.name g.augment.start = "S'''" ∧
      t.SameAs t' ∧ ¬ t.SameAs u := by
  obtain ⟨g, t, read, built, hname⟩ := exists_table "S -> S' S'' | a\nS' -> b"
    (fun t => t.grammar.symbols.name t.grammar.start = "S'''") (by decide +kernel)
  obtain ⟨h, t', read', built', -⟩ :=
    exists_table "S -> S' S''\nS -> a\nS' -> b" (fun _ => true) (by decide +kernel)
  obtain ⟨k, u, read'', built'', -⟩ :=
    exists_table "S -> a | S' S''\nS' -> b" (fun _ => true) (by decide +kernel)
  have hsame : Grammar.ofText "S -> S' S'' | a\nS' -> b"
      = Grammar.ofText "S -> S' S''\nS -> a\nS' -> b" := by
    decide +kernel
  have hother : Grammar.ofText "S -> S' S'' | a\nS' -> b"
      ≠ Grammar.ofText "S -> a | S' S''\nS' -> b" := by
    decide +kernel
  rw [read, read'] at hsame
  rw [read, read''] at hother
  have hname := of_decide_eq_true hname
  rw [grammar_of_build built] at hname
  obtain ⟨hfresh, -, htables⟩ := augmentsFreshly_and_lossless g h
  obtain ⟨-, -, hothers⟩ := augmentsFreshly_and_lossless g k
  refine ⟨g, h, k, t, t', u, read, read', read'', built, built', built'', hfresh, hname, ?_, ?_⟩
  · exact (htables t t' built built').1.2 (Except.ok.inj hsame)
  · intro hsameAs
    exact hother (congrArg Except.ok ((hothers t u built built'').1.1 hsameAs))

end Table

end CanonicalLR
