import CanonicalLR.Proofs.Renumbering.States
import CanonicalLR.Proofs.Table.Conflicts
import CanonicalLR.Proofs.Table.Exact

/-!
# The tables of renumbered grammars

What the cells of a table hold is said by the items of its states and the moves between
them. So the cells of renumbered grammars are renumbered, and as no conflict depends on
the numbering, one of the grammars has a table exactly if the other one has.

## Main definitions

* `Action.renumber` — an action in the other numbering.
* `Table.Renumbers` — one table in two numberings.

## Main results

* `exists_build_iff_of_renumbers` — renumbered grammars both have tables, or neither has.
* `exists_renumbers_of_build` — the tables of renumbered grammars are renumbered.
* `action?_renumber`, `goto?_renumber` — the cells.
* `perm_expects` — what a state expects.
-/

namespace CanonicalLR

/-- The action with its state or its rule renumbered. -/
def Action.renumber (π σ : Equiv.Perm Nat) : Action → Action
  | .shift state => .shift (σ state)
  | .reduce id => .reduce (π id)
  | .accept => .accept

/-- **Conflicts** do not depend on the numbering. -/
theorem Automaton.Renumbers.isConflictFree {ρ π σ : Equiv.Perm Nat} {g h : Grammar}
    {a b : Automaton} (hr : Renumbers ρ π σ g h a b) (hb : b.IsConflictFree h) :
    a.IsConflictFree g := by
  refine ⟨fun {state i j} hi hj hend hend' hl => ?_, fun {state i j} hi hj hend hexp => ?_⟩
  · rw [← hr.grammar.isExhausted_renumber] at hend hend'
    have heq := hb.eq_of_isExhausted (hr.holds_renumber hi) (hr.holds_renumber hj) hend hend'
      (congrArg ρ hl)
    exact Item.renumber_injective ρ π heq
  · rw [← hr.grammar.isExhausted_renumber] at hend
    exact hb.symbol?_ne (hr.holds_renumber hi) (hr.holds_renumber hj) hend
      (hr.grammar.symbol?_renumber_iff.2 hexp)

namespace Table

/-- `Renumbers ρ π σ t t'`: the tables are one table. The automata are renumbered, and each
table belongs to its automaton. -/
structure Renumbers (ρ π σ : Equiv.Perm Nat) (t t' : Table) : Prop where
  isCanonical : t.IsCanonical
  isCanonical' : t'.IsCanonical
  automaton : Automaton.Renumbers ρ π σ t.grammar t'.grammar t.automaton t'.automaton

/-! ## Building the tables -/

section Build

variable {ρ π : Equiv.Perm Nat} {g h : Grammar} {t t' : Table} (hg : g.WellFormed)
  (hh : h.WellFormed) (hr : Grammar.Renumbers ρ π g.augment h.augment)

include hg hh hr

/-- **Renumbered grammars** both have tables, or neither has one. -/
theorem exists_build_iff_of_renumbers :
    (∃ t, build g = .ok t) ↔ ∃ t', build h = .ok t' := by
  obtain ⟨σ, ha⟩ := hr.exists_automaton
  rw [exists_build_iff_isConflictFree hg, exists_build_iff_isConflictFree hh]
  exact ⟨ha.symm.isConflictFree, ha.isConflictFree⟩

/-- **The tables** of renumbered grammars are renumbered. -/
theorem exists_renumbers_of_build (built : build g = .ok t) (built' : build h = .ok t') :
    ∃ σ, Renumbers ρ π σ t t' := by
  obtain ⟨σ, ha⟩ := hr.exists_automaton
  obtain ⟨hgrammar, -, hautomaton⟩ := origin_of_build built
  obtain ⟨hgrammar', -, hautomaton'⟩ := origin_of_build built'
  rw [← hautomaton, ← hautomaton', ← hgrammar, ← hgrammar'] at ha
  exact ⟨σ, isCanonical_build hg built, isCanonical_build hh built', ha⟩

end Build

namespace Renumbers

variable {ρ π σ : Equiv.Perm Nat} {t t' : Table} {state symbol next : Nat} {action : Action}
  (hr : Renumbers ρ π σ t t')

include hr

/-- **The numberings** play the same part. -/
theorem symm : Renumbers ρ.symm π.symm σ.symm t' t :=
  ⟨hr.isCanonical', hr.isCanonical, hr.automaton.symm⟩

theorem lt_size_rows_iff : σ state < t'.rows.size ↔ state < t.rows.size := by
  rw [hr.isCanonical'.size_rows, hr.isCanonical.size_rows]
  exact hr.automaton.lt_size_iff

/-! ## Cells -/

theorem action?_eq_some (hcell : t.action? state symbol = some action) :
    t'.action? (σ state) (ρ symbol) = some (action.renumber π σ) := by
  have ht := hr.isCanonical
  have ht' := hr.isCanonical'
  have hgrammar := hr.automaton.grammar
  cases action with
  | shift next =>
      obtain ⟨hterminal, hmove⟩ := ht.action?_eq_shift_iff.1 hcell
      exact ht'.action?_eq_shift_iff.2
        ⟨(hgrammar.isTerminal_eq symbol).trans hterminal, hr.automaton.moves_renumber hmove⟩
  | reduce id =>
      obtain ⟨i, hi, hend, hnot, rfl, rfl⟩ := ht.action?_eq_reduce_iff.1 hcell
      exact ht'.action?_eq_reduce_iff.2 ⟨i.renumber ρ π, hr.automaton.holds_renumber hi,
        (hgrammar.isExhausted_renumber i).trans hend,
        (hgrammar.isAccepting_renumber i).trans hnot, rfl, rfl⟩
  | accept =>
      obtain ⟨rfl, hi⟩ := ht.action?_eq_accept_iff.1 hcell
      have hi' := hr.automaton.holds_renumber hi
      unfold Item.renumber at hi'
      rw [hgrammar.zero_eq, hgrammar.end_eq] at hi'
      exact ht'.action?_eq_accept_iff.2 ⟨hgrammar.end_eq, hi'⟩

/-- **ACTION cells** are renumbered. -/
theorem action?_renumber :
    t'.action? (σ state) (ρ symbol) = (t.action? state symbol).map (Action.renumber π σ) := by
  refine eq_map_of_eq_some (fun _ => hr.action?_eq_some) fun _ hcell => ?_
  have hback := hr.symm.action?_eq_some hcell
  rw [Equiv.symm_apply_apply, Equiv.symm_apply_apply] at hback
  exact ⟨_, hback⟩

theorem goto?_eq_some (hcell : t.goto? state symbol = some next) :
    t'.goto? (σ state) (ρ symbol) = some (σ next) := by
  obtain ⟨hnonTerminal, hmove⟩ := hr.isCanonical.goto?_eq_some_iff.1 hcell
  exact hr.isCanonical'.goto?_eq_some_iff.2
    ⟨(hr.automaton.grammar.isNonTerminal_eq symbol).trans hnonTerminal,
      hr.automaton.moves_renumber hmove⟩

/-- **GOTO cells** are renumbered. -/
theorem goto?_renumber :
    t'.goto? (σ state) (ρ symbol) = (t.goto? state symbol).map σ := by
  refine eq_map_of_eq_some (fun _ => hr.goto?_eq_some) fun _ hcell => ?_
  have hback := hr.symm.goto?_eq_some hcell
  rw [Equiv.symm_apply_apply, Equiv.symm_apply_apply] at hback
  exact ⟨_, hback⟩

/-- **What a state expects** is renumbered, and stands in another order. -/
theorem perm_expects (state : Nat) :
    ((t.expects state).map ρ).Perm (t'.expects (σ state)) := by
  have hnodup : ∀ {t : Table} (state : Nat), t.IsCanonical → (t.expects state).Nodup :=
    fun _ ht => ht.augmented.nodup_actionColumns.filter _
  have hmem : ∀ {t : Table} {state symbol : Nat}, t.IsCanonical →
      (symbol ∈ t.expects state ↔ ∃ action, t.action? state symbol = some action) := by
    intro t state symbol ht
    rw [mem_expects]
    refine and_iff_right_of_imp ?_
    rintro ⟨action, hcell⟩
    exact ht.augmented.mem_actionColumns.2 (ht.isTerminal_of_action? hcell)
  rw [List.perm_ext_iff_of_nodup ((hnodup state hr.isCanonical).map ρ.injective)
    (hnodup _ hr.isCanonical')]
  intro other
  rw [List.mem_map, hmem hr.isCanonical']
  constructor
  · rintro ⟨symbol, hsymbol, rfl⟩
    obtain ⟨action, hcell⟩ := (hmem hr.isCanonical).1 hsymbol
    exact ⟨_, hr.action?_eq_some hcell⟩
  · rintro ⟨action, hcell⟩
    have hback := hr.symm.action?_eq_some hcell
    rw [Equiv.symm_apply_apply] at hback
    exact ⟨ρ.symm other, (hmem hr.isCanonical).2 ⟨_, hback⟩, ρ.apply_symm_apply other⟩

end Renumbers

end Table

end CanonicalLR
