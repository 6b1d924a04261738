import CanonicalLR.Proofs.Items.Closure

/-!
# Closing an item set item by item

The closure is computed by passes over the rules. It can as well be computed item by item:
all items of a set go on a stack, the item on top is taken off, and those of the items that
it spawns which are new go on the stack. The stack runs empty, after as many steps as the
closure has items, and what has been found then is the closure.

## Main definitions

* `Worklist` — what has been found, and the stack of items that are still to be looked at.
* `Worklist.next?` — looks at the item on top of the stack.
* `Worklist.Finds` — the steps to an empty stack.

## Main results

* `IsSound.next` — an item that has been found lies on the stack, or what it spawns has been
  found.
* `finds_closure` — the stack runs empty, and the closure has been found.
-/

namespace CanonicalLR

/-- A stage in closing a set item by item: what has been found, and the stack of those items
found whose own items have not been looked at. -/
structure Worklist where
  found : ItemSet
  pending : List Item

namespace Worklist

/-- The items of a set have been found, and all of them lie on the stack. -/
def start (s : ItemSet) : Worklist := ⟨s, s.toList.reverse⟩

/-- An item that is new has been found and goes on the stack. -/
def meet (w : Worklist) (i : Item) : Worklist :=
  if i ∈ w.found then w else ⟨w.found.insert i, i :: w.pending⟩

/-- Takes the item on top of the stack off and meets the items that it spawns. -/
def next? (g : Grammar) (first : SymbolSets) (w : Worklist) : Option Worklist :=
  match w.pending with
  | [] => none
  | i :: rest => some ((i.spawn g first).foldl meet ⟨w.found, rest⟩)

/-- So many steps lead from a stage to an empty stack, where a set has been found. -/
inductive Finds (g : Grammar) (first : SymbolSets) : Nat → Worklist → ItemSet → Prop where
  | done (found : ItemSet) : Finds g first 0 ⟨found, []⟩ found
  | step {steps : Nat} {w next : Worklist} {found : ItemSet} (taken : w.next? g first = some next)
      (later : Finds g first steps next found) : Finds g first (steps + 1) w found

variable {g : Grammar} {s : ItemSet} {w : Worklist} {i j : Item}

/-! ## Meeting items -/

theorem mem_found_meet : j ∈ (w.meet i).found ↔ j ∈ w.found ∨ j = i := by
  unfold meet
  by_cases h : i ∈ w.found
  · rw [if_pos h]
    exact (or_iff_left_of_imp fun heq => heq ▸ h).symm
  · rw [if_neg h, OrdSet.mem_insert]
    exact or_comm

/-- An item lies on the stack that did so before, or that is met and new. -/
theorem mem_pending_meet :
    j ∈ (w.meet i).pending ↔ j ∈ w.pending ∨ j = i ∧ i ∉ w.found := by
  unfold meet
  by_cases h : i ∈ w.found
  · rw [if_pos h]
    exact (or_iff_left fun hnew => hnew.2 h).symm
  · rw [if_neg h, List.mem_cons, or_comm]
    exact or_congr_right (and_iff_left h).symm

/-- As many items have been found as have gone on the stack. -/
theorem size_meet : (w.meet i).found.size + w.pending.length
    = w.found.size + (w.meet i).pending.length := by
  unfold meet
  by_cases h : i ∈ w.found
  · rw [if_pos h]
  · rw [if_neg h, OrdSet.size_insert, if_neg h, List.length_cons]
    omega

variable {items : List Item}

theorem mem_found_foldl_meet :
    j ∈ (items.foldl meet w).found ↔ j ∈ w.found ∨ j ∈ items := by
  induction items generalizing w with
  | nil => simp
  | cons i items ih => rw [List.foldl_cons, ih, mem_found_meet, List.mem_cons, or_assoc]

theorem mem_pending_foldl_meet :
    j ∈ (items.foldl meet w).pending ↔ j ∈ w.pending ∨ j ∈ items ∧ j ∉ w.found := by
  induction items generalizing w with
  | nil => simp
  | cons i items ih =>
      rw [List.foldl_cons, ih, mem_pending_meet, mem_found_meet, List.mem_cons]
      by_cases heq : j = i
      · rw [heq]
        simp
      · simp only [heq, false_and, or_false, false_or]

theorem size_foldl_meet : (items.foldl meet w).found.size + w.pending.length
    = w.found.size + (items.foldl meet w).pending.length := by
  induction items generalizing w with
  | nil => rfl
  | cons i items ih =>
      have hfirst := size_meet (w := w) (i := i)
      have hothers := ih (w := w.meet i)
      rw [List.foldl_cons]
      omega

/-! ## A step -/

/-- Every item that has been found belongs to the closure, and lies on the stack unless what
it spawns has been found as well. -/
structure IsSound (g : Grammar) (s : ItemSet) (w : Worklist) : Prop where
  seeds : ∀ i ∈ s, i ∈ w.found
  spawned : ∀ i ∈ w.found, s.Spawned g i
  pending : ∀ i ∈ w.pending, i ∈ w.found
  settled : ∀ i ∈ w.found, i ∈ w.pending ∨ ∀ j ∈ i.spawn g g.first, j ∈ w.found

theorem isSound_start (g : Grammar) (s : ItemSet) : (start s).IsSound g s where
  seeds _ hi := hi
  spawned _ hi := .base hi
  pending _ hi := List.mem_reverse.1 hi
  settled _ hi := Or.inl (List.mem_reverse.2 hi)

/-- What an item spawns, by the rules of the grammar. -/
theorem mem_spawn_iff : j ∈ i.spawn g g.first ↔
    ∃ r ∈ g.rules, ∃ l, i.Spawns g r.lhs l ∧ j = ⟨r.id, 0, l⟩ := by
  rw [Item.mem_spawn]
  constructor
  · rintro ⟨symbol, hexp, hnt, r, hr, l, hl, rfl⟩
    obtain ⟨hmem, rfl⟩ := Grammar.mem_rulesOf.1 hr
    exact ⟨r, hmem, l, ⟨hexp, hnt, hl⟩, rfl⟩
  · rintro ⟨r, hr, l, hspawns, rfl⟩
    exact ⟨r.lhs, hspawns.expected, hspawns.nonTerminal, r, Grammar.mem_rulesOf.2 ⟨hr, rfl⟩, l,
      hspawns.mem_lookaheads, rfl⟩

/-- **A step** looks at the item on top of the stack. -/
theorem IsSound.next {rest : List Item} (hw : w.IsSound g s) (h : w.pending = i :: rest) :
    ((i.spawn g g.first).foldl meet ⟨w.found, rest⟩).IsSound g s := by
  have htop : s.Spawned g i := hw.spawned i (hw.pending i (h ▸ List.mem_cons_self))
  refine
    { seeds := fun j hj => mem_found_foldl_meet.2 (Or.inl (hw.seeds j hj))
      spawned := ?_
      pending := ?_
      settled := ?_ }
  · intro j hj
    rcases mem_found_foldl_meet.1 hj with hold | hnew
    · exact hw.spawned j hold
    · obtain ⟨r, hr, l, hspawns, rfl⟩ := mem_spawn_iff.1 hnew
      exact .spawn htop hr hspawns
  · intro j hj
    rcases mem_pending_foldl_meet.1 hj with hold | ⟨hnew, -⟩
    · exact mem_found_foldl_meet.2 (Or.inl (hw.pending j (h ▸ List.mem_cons_of_mem i hold)))
    · exact mem_found_foldl_meet.2 (Or.inr hnew)
  · intro j hj
    by_cases hold : j ∈ w.found
    · rcases hw.settled j hold with hpending | hfound
      · rw [h] at hpending
        rcases List.mem_cons.1 hpending with rfl | hrest
        · exact Or.inr fun k hk => mem_found_foldl_meet.2 (Or.inr hk)
        · exact Or.inl (mem_pending_foldl_meet.2 (Or.inl hrest))
      · exact Or.inr fun k hk => mem_found_foldl_meet.2 (Or.inl (hfound k hk))
    · have hnew : j ∈ i.spawn g g.first := (mem_found_foldl_meet.1 hj).resolve_left hold
      exact Or.inl (mem_pending_foldl_meet.2 (Or.inr ⟨hnew, hold⟩))

/-! ## All steps -/

section Finds

variable (hg : g.IsAugmented)

include hg

/-- What has been found belongs to the closure. -/
theorem IsSound.size_le (hw : w.IsSound g s) : w.found.size ≤ (s.closure g g.first).size :=
  OrdSet.size_le_of_subset fun i hi => (ItemSet.mem_closure hg).2 (hw.spawned i hi)

/-- Where nothing is left on the stack, the closure has been found. -/
theorem IsSound.found_eq (hw : w.IsSound g s) (h : w.pending = []) :
    w.found = s.closure g g.first := by
  apply OrdSet.ext
  intro i
  rw [ItemSet.mem_closure hg]
  constructor
  · exact hw.spawned i
  · intro hi
    induction hi with
    | base mem => exact hw.seeds _ mem
    | spawn earlier rule spawns ih =>
        have hspawned := mem_spawn_iff.2 ⟨_, rule, _, spawns, rfl⟩
        rcases hw.settled _ ih with hpending | hfound
        · rw [h] at hpending
          cases hpending
        · exact hfound _ hspawned

/-- The items of the closure that have not been found, and those on the stack, are as many
as the steps to come: a step takes one from the stack, and what it finds it puts there. -/
theorem IsSound.finds (steps : Nat) (hw : w.IsSound g s)
    (hsteps : w.found.size + steps = (s.closure g g.first).size + w.pending.length) :
    Finds g g.first steps w (s.closure g g.first) := by
  induction steps generalizing w with
  | zero =>
      have hle := hw.size_le hg
      have hempty : w.pending = [] := List.length_eq_zero_iff.1 (by omega)
      have hfound := hw.found_eq hg hempty
      obtain ⟨found, pending⟩ := w
      obtain rfl : pending = [] := hempty
      obtain rfl : found = s.closure g g.first := hfound
      exact .done _
  | succ steps ih =>
      cases hpending : w.pending with
      | nil =>
          rw [hw.found_eq hg hpending, hpending, List.length_nil] at hsteps
          omega
      | cons i rest =>
          have htaken : w.next? g g.first
              = some ((i.spawn g g.first).foldl meet ⟨w.found, rest⟩) := by
            unfold next?
            rw [hpending]
          have hsize : ((i.spawn g g.first).foldl meet ⟨w.found, rest⟩).found.size + rest.length
              = w.found.size + ((i.spawn g g.first).foldl meet ⟨w.found, rest⟩).pending.length :=
            size_foldl_meet
          rw [hpending, List.length_cons] at hsteps
          exact .step htaken (ih (hw.next hpending) (by omega))

/-- **Closing item by item** ends, and what it finds is the closure. Each item of the closure
is looked at once. -/
theorem finds_closure (s : ItemSet) :
    Finds g g.first (s.closure g g.first).size (start s) (s.closure g g.first) := by
  refine (isSound_start g s).finds hg _ ?_
  show s.size + _ = _ + s.toList.reverse.length
  rw [List.length_reverse, Nat.add_comm]
  rfl

end Finds

end Worklist

end CanonicalLR
