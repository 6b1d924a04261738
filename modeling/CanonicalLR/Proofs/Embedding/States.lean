import CanonicalLR.Proofs.Automaton.Collection
import CanonicalLR.Proofs.Embedding.ItemSets

/-!
# The automata of embedded grammars

The walk through the item sets of the larger grammar starts from the image of the start
state, and from images it meets nothing but images, in the same order. So the walks go
side by side: the states of the larger grammar are the images of the states of the
smaller one, under the same numbers, and the moves are the same. The larger grammar
allows for more rounds, which change nothing once the walk is complete.

## Main definitions

* `Exploration.Renames` — two walks that have come equally far.
* `Automaton.rename` — an automaton in the other numbering.

## Main results

* `meet_map` — images are numbered as the values are.
* `Renames.steps`, `Renames.rounds` — the walks go side by side.
* `rounds_of_isComplete` — more rounds change nothing.
* `automaton_rename` — the automaton of the larger grammar.
-/

namespace CanonicalLR

/-- **Images are numbered** as the values are. -/
theorem Numbering.meet_map {α β : Type} [Ord α] [Std.TransOrd α] [Std.LawfulEqOrd α] [Ord β]
    [Std.TransOrd β] [Std.LawfulEqOrd β] {n : Numbering α} {n' : Numbering β} {f : α → β}
    (hf : Function.Injective f) (h : n'.values = n.values.map f) (a : α) :
    (n'.meet (f a)).1 = (n.meet a).1 ∧
      (n'.meet (f a)).2.values = (n.meet a).2.values.map f := by
  have hnumber : n'.number? (f a) = n.number? a := by
    apply Option.ext
    intro i
    rw [number?_eq_some_iff, number?_eq_some_iff, h, Array.getElem?_map,
      Option.map_eq_some_iff]
    constructor
    · rintro ⟨b, hb, heq⟩
      exact hf heq ▸ hb
    · intro ha
      exact ⟨a, ha, rfl⟩
  have hsize : n'.size = n.size := by
    unfold size
    rw [h, Array.size_map]
  simp only [meet]
  split
  next i hi =>
    rw [hnumber] at hi
    split
    next j hj =>
      rw [hi] at hj
      exact ⟨Option.some.inj hj, h⟩
    next hj =>
      rw [hi] at hj
      cases hj
  next hi =>
    rw [hnumber] at hi
    split
    next j hj =>
      rw [hi] at hj
      cases hj
    next hj =>
      refine ⟨hsize, ?_⟩
      show n'.values.push (f a) = (n.values.push a).map f
      rw [h, Array.map_push]

namespace Exploration

/-! ## More rounds -/

section Complete

variable {g : Grammar} {first : SymbolSets} {e : Exploration} {cap more : Nat}

theorem steps_of_isComplete (hdone : e.isComplete = true) : e.steps g first cap = e := by
  have hle : e.met.size ≤ e.expanded := of_decide_eq_true hdone
  have hnone : e.met.values[e.expanded]? = none := Array.getElem?_eq_none hle
  cases cap with
  | zero => rfl
  | succ cap => simp only [steps, hnone]

/-- **More rounds** change nothing once all states are expanded. -/
theorem rounds_of_isComplete (hdone : (e.rounds g first more cap).isComplete = true)
    (extra : Nat) : e.rounds g first (more + extra) cap = e.rounds g first more cap := by
  induction more generalizing cap e with
  | zero =>
      cases extra with
      | zero => rfl
      | succ extra =>
          have hsteps : e.steps g first cap = e := steps_of_isComplete hdone
          rw [Nat.zero_add]
          simp only [rounds, hsteps, if_pos (show e.isComplete = true from hdone)]
  | succ more ih =>
      rw [Nat.add_right_comm]
      simp only [rounds] at hdone ⊢
      split
      · rfl
      next hleft =>
        rw [if_neg hleft] at hdone
        exact ih hdone

end Complete

/-! ## Two walks -/

/-- Two walks that have come equally far, one in the numbering of a larger grammar. -/
structure Renames (ρ : Nat → Nat) (e e' : Exploration) : Prop where
  values : e'.met.values = e.met.values.map (ItemSet.rename ρ)
  moves : e'.moves = e.moves.map (List.map (Prod.map ρ id))

variable {ρ : Nat → Nat} {g h : Grammar} {s : ItemSet} {e e' : Exploration} {cap more : Nat}

theorem Renames.expanded_eq (hr : Renames ρ e e') : e'.expanded = e.expanded := by
  unfold expanded
  rw [hr.moves, Array.size_map]

theorem Renames.isComplete_eq (hr : Renames ρ e e') : e'.isComplete = e.isComplete := by
  unfold isComplete Numbering.size
  rw [hr.expanded_eq, hr.values, Array.size_map]

variable (he : Grammar.Embeds ρ g h)

include he

/-- From the image of a set the same symbols lead to images. -/
theorem follow_rename (hs : ∀ i ∈ s, i ∈ g.items) {met met' : Numbering ItemSet}
    (hmet : met'.values = met.values.map (ItemSet.rename ρ)) (symbols : List Nat) :
    (follow h h.first (s.rename ρ) (symbols.map ρ) met').1
        = (follow g g.first s symbols met).1.map (Prod.map ρ id) ∧
      (follow h h.first (s.rename ρ) (symbols.map ρ) met').2.values
        = (follow g g.first s symbols met).2.values.map (ItemSet.rename ρ) := by
  induction symbols generalizing met met' with
  | nil => exact ⟨rfl, hmet⟩
  | cons symbol symbols ih =>
      have hinj := ItemSet.rename_injective he.strictMono
      obtain ⟨hnumber, hvalues⟩ := Numbering.meet_map hinj hmet (s.goto g g.first symbol)
      obtain ⟨hmoves, hlater⟩ := ih hvalues
      rw [List.map_cons, follow_cons, follow_cons, he.goto_rename hs]
      refine ⟨?_, hlater⟩
      rw [hnumber, hmoves]
      rfl

/-- Expanding images goes side by side with expanding sets. -/
theorem Renames.expand (hr : Renames ρ e e') (hs : ∀ i ∈ s, i ∈ g.items) :
    Renames ρ (e.expand g g.first s) (e'.expand h h.first (s.rename ρ)) := by
  obtain ⟨hmoves, hvalues⟩ :=
    follow_rename he hs hr.values (g.inColumnOrder (s.expected g))
  rw [← he.inColumnOrder_expected_rename hs] at hmoves hvalues
  refine ⟨hvalues, ?_⟩
  unfold Exploration.expand
  dsimp only
  rw [hmoves, hr.moves, Array.map_push]

theorem Renames.steps (hr : Renames ρ e e') (hsound : e.IsSound g) :
    Renames ρ (e.steps g g.first cap) (e'.steps h h.first cap) := by
  induction cap generalizing e e' with
  | zero => exact hr
  | succ cap ih =>
      have hget : e'.met.values[e'.expanded]?
          = (e.met.values[e.expanded]?).map (ItemSet.rename ρ) := by
        rw [hr.expanded_eq, hr.values, Array.getElem?_map]
      simp only [Exploration.steps, hget]
      cases hs : e.met.values[e.expanded]? with
      | none => exact hr
      | some s =>
          exact ih (hr.expand he (hsound.items hs)) (hsound.expand he.isAugmented hs)

/-- **Two walks** through the states go side by side. -/
theorem Renames.rounds (hr : Renames ρ e e') (hsound : e.IsSound g) :
    Renames ρ (e.rounds g g.first more cap) (e'.rounds h h.first more cap) := by
  induction more generalizing cap e e' with
  | zero => exact hr
  | succ more ih =>
      have hnext : Renames ρ (e.steps g g.first cap) (e'.steps h h.first cap) :=
        hr.steps he hsound
      simp only [Exploration.rounds, hnext.isComplete_eq]
      split
      · exact hnext
      · exact ih hnext (hsound.steps he.isAugmented)

end Exploration

/-! ## Automata -/

/-- The automaton with its symbols renumbered. -/
def Automaton.rename (ρ : Nat → Nat) (a : Automaton) : Automaton :=
  ⟨a.states.map (ItemSet.rename ρ), a.moves.map (List.map (Prod.map ρ id))⟩

namespace Automaton

variable {ρ : Nat → Nat} {a : Automaton} {state : Nat}

theorem movesFrom_rename :
    (a.rename ρ).movesFrom state = (a.movesFrom state).map (Prod.map ρ id) := by
  unfold movesFrom rename
  rw [Array.getElem?_map]
  cases a.moves[state]? with
  | none => rfl
  | some moves => rfl

end Automaton

namespace Grammar.Embeds

variable {ρ : Nat → Nat} {g h : Grammar} (he : Embeds ρ g h)

include he

theorem renames_outset :
    Exploration.Renames ρ (g.outset g.first) (h.outset h.first) := by
  have hkernel : ItemSet.kernel.closure h h.first
      = ItemSet.rename ρ (ItemSet.kernel.closure g g.first) := by
    rw [← he.closure_rename fun i => he.isAugmented.kernel_subset_items, he.kernel_rename]
  constructor
  · unfold outset
    rw [Numbering.values_meet_empty, Numbering.values_meet_empty, hkernel]
    simp
  · unfold outset
    simp

/-- **The automaton of the larger grammar** is that of the smaller one. -/
theorem automaton_rename : h.automaton h.first = (g.automaton g.first).rename ρ := by
  have hsound := isSound_outset he.isAugmented
  have hsound' := isSound_outset he.isAugmented'
  have hdone := Exploration.isComplete_rounds he.isAugmented hsound
  have hdone' := Exploration.isComplete_rounds he.isAugmented' hsound'
  have hmore := Exploration.rounds_of_isComplete hdone (h.itemCount + 1)
  have hmore' := Exploration.rounds_of_isComplete hdone' (g.itemCount + 1)
  have hrounds : Exploration.Renames ρ
      ((g.outset g.first).rounds g g.first (g.itemCount + 1 + (h.itemCount + 1)) 1)
      ((h.outset h.first).rounds h h.first (g.itemCount + 1 + (h.itemCount + 1)) 1) :=
    he.renames_outset.rounds he hsound
  rw [hmore, Nat.add_comm (g.itemCount + 1), hmore'] at hrounds
  rw [automaton_eq, automaton_eq, hrounds.values, hrounds.moves]
  rfl

end Grammar.Embeds

end CanonicalLR
