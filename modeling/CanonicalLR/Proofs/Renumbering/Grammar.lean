import CanonicalLR.Proofs.Sets.FollowExact
import Mathlib.Data.List.Perm.Basic
import Mathlib.Logic.Equiv.Basic

/-!
# Renumbered grammars

Two grammars with the same symbols and the same rules in different orders are one grammar
in two numberings. All that is said of a grammar through its symbols and rules is then
said of the other one through their images. What is computed in an order that depends on
the numbers, such as the FIRST and FOLLOW sets, is renumbered because it is characterised
by derivations, which do not depend on any order.

The two numberings play the same part, so each fact is shown in one direction, and holds
in the other one by symmetry.

## Main definitions

* `placeIn` — where the entries of a list stand in a permuted one.
* `Rule.renumber` — a rule in the other numbering.
* `Grammar.Renumbers` — one grammar in two numberings.

## Main results

* `exists_renumbering` — permuted lists are one list in two numberings.
* `Renumbers.symm` — the numberings play the same part.
* `find?_renumber`, `rule_renumber` — symbols and rules.
* `derives_renumber` — derivations.
* `mem_first_iff`, `mem_lookaheads_iff`, `mem_follow_iff` — FIRST and FOLLOW.
-/

namespace CanonicalLR

/-! ## Permuted lists and mapped options -/

section Places

variable {α : Type} [DecidableEq α] {xs ys : List α}

/-- Where the entry with a number stands in a permuted list; other numbers are kept. -/
def placeIn (h : xs.Perm ys) (i : Nat) : Nat :=
  if hi : i < xs.length then h.idxBij ⟨i, hi⟩ else i

theorem getElem?_placeIn (h : xs.Perm ys) (i : Nat) : ys[placeIn h i]? = xs[i]? := by
  unfold placeIn
  split
  next hi =>
    rw [List.getElem?_eq_getElem hi, List.getElem?_eq_getElem (Fin.isLt _)]
    exact congrArg some (h.getElem_idxBij_eq_getElem ⟨i, hi⟩)
  next hi =>
    have hle : xs.length ≤ i := Nat.le_of_not_lt hi
    rw [List.getElem?_eq_none hle, List.getElem?_eq_none (h.length_eq ▸ hle)]

/-- Going back leads to the entry from which one came. -/
theorem placeIn_placeIn (h : xs.Perm ys) (i : Nat) : placeIn h.symm (placeIn h i) = i := by
  unfold placeIn
  by_cases hi : i < xs.length
  · rw [dif_pos hi, dif_pos (Fin.isLt _)]
    exact congrArg Fin.val h.idxBij_symm_idxBij
  · rw [dif_neg hi, dif_neg (h.length_eq ▸ hi)]

/-- **Permuted lists** are one list in two numberings. -/
theorem exists_renumbering (h : xs.Perm ys) :
    ∃ σ : Equiv.Perm Nat, ∀ i : Nat, ys[σ i]? = xs[i]? :=
  ⟨⟨placeIn h, placeIn h.symm, placeIn_placeIn h, placeIn_placeIn h.symm⟩, getElem?_placeIn h⟩

end Places

/-- A value that stands on one side exactly if its image stands on the other one. -/
theorem eq_map_of_eq_some {α β : Type} {f : α → β} {o : Option α} {o' : Option β}
    (h : ∀ a, o = some a → o' = some (f a)) (h' : ∀ b, o' = some b → ∃ a, o = some a) :
    o' = o.map f := by
  cases o with
  | some a => exact h a rfl
  | none =>
      refine Option.eq_none_iff_forall_ne_some.2 fun b hb => ?_
      obtain ⟨a, ha⟩ := h' b hb
      cases ha

/-! ## Renumbered grammars -/

/-- The rule with its symbols and itself renumbered. -/
def Rule.renumber (ρ π : Equiv.Perm Nat) (r : Rule) : Rule :=
  ⟨π r.id, ρ r.lhs, r.rhs.map ρ⟩

theorem map_symm_map (ρ : Equiv.Perm Nat) (α : List Nat) : (α.map ρ).map ρ.symm = α := by
  rw [List.map_map, Equiv.symm_comp_self, List.map_id]

theorem Rule.renumber_symm (ρ π : Equiv.Perm Nat) (r : Rule) :
    (r.renumber ρ π).renumber ρ.symm π.symm = r := by
  unfold renumber
  rw [map_symm_map, Equiv.symm_apply_apply, Equiv.symm_apply_apply]

/-- `Renumbers ρ π g h`: the augmented grammars `g` and `h` are one grammar. A symbol of
`g` has in `h` the number to which `ρ` leads, a rule that to which `π` leads. -/
structure Grammar.Renumbers (ρ π : Equiv.Perm Nat) (g h : Grammar) : Prop where
  isAugmented : g.IsAugmented
  isAugmented' : h.IsAugmented
  /-- No two symbols have one name. -/
  eq_of_name_eq : ∀ {i j : Nat}, i < g.symbols.size → j < g.symbols.size →
    g.symbols.name i = g.symbols.name j → i = j
  slot_eq : ∀ id : Nat, h.symbols.symbols[ρ id]? = g.symbols.symbols[id]?
  getElem?_rules : ∀ id : Nat, h.rules[π id]? = (g.rules[id]?).map (Rule.renumber ρ π)

namespace Grammar.Renumbers

open SymbolSets

variable {ρ π : Equiv.Perm Nat} {g h : Grammar} (hr : Renumbers ρ π g h)

/-! ## Symbols and rules -/

section Symbols

variable {id : Nat} {name : String}

include hr

theorem name_eq (id : Nat) : h.symbols.name (ρ id) = g.symbols.name id := by
  unfold SymbolTable.name
  rw [hr.slot_eq]

theorem name_comp : h.symbols.name ∘ ρ = g.symbols.name :=
  funext hr.name_eq

theorem kind?_eq (id : Nat) : h.symbols.kind? (ρ id) = g.symbols.kind? id := by
  unfold SymbolTable.kind?
  rw [hr.slot_eq]

theorem isTerminal_eq (id : Nat) : h.symbols.isTerminal (ρ id) = g.symbols.isTerminal id := by
  unfold SymbolTable.isTerminal
  rw [hr.kind?_eq]

theorem isNonTerminal_eq (id : Nat) :
    h.symbols.isNonTerminal (ρ id) = g.symbols.isNonTerminal id := by
  unfold SymbolTable.isNonTerminal
  rw [hr.kind?_eq]

theorem lt_size_iff : ρ id < h.symbols.size ↔ id < g.symbols.size := by
  rw [← not_iff_not, Nat.not_lt, Nat.not_lt, ← SymbolTable.kind?_eq_none_iff,
    ← SymbolTable.kind?_eq_none_iff, hr.kind?_eq]

/-- **The numberings** play the same part. -/
theorem symm : Renumbers ρ.symm π.symm h g where
  isAugmented := hr.isAugmented'
  isAugmented' := hr.isAugmented
  eq_of_name_eq := by
    intro i j hi hj hname
    have hname' : g.symbols.name (ρ.symm i) = g.symbols.name (ρ.symm j) := by
      rw [← hr.name_eq, ← hr.name_eq, Equiv.apply_symm_apply, Equiv.apply_symm_apply, hname]
    have hi' : ρ.symm i < g.symbols.size := by
      rw [← hr.lt_size_iff, Equiv.apply_symm_apply]
      exact hi
    have hj' : ρ.symm j < g.symbols.size := by
      rw [← hr.lt_size_iff, Equiv.apply_symm_apply]
      exact hj
    exact ρ.symm.injective (hr.eq_of_name_eq hi' hj' hname')
  slot_eq := fun id => by rw [← hr.slot_eq, Equiv.apply_symm_apply]
  getElem?_rules := by
    intro id
    have himage := hr.getElem?_rules (π.symm id)
    rw [Equiv.apply_symm_apply] at himage
    rw [himage, Option.map_map]
    cases g.rules[π.symm id]? with
    | none => rfl
    | some r => exact congrArg some (r.renumber_symm ρ π).symm

theorem epsilon_eq : ρ epsilonId = epsilonId := by
  apply hr.isAugmented'.epsilon_kind_iff.1
  rw [hr.kind?_eq]
  exact hr.isAugmented.epsilon_kind_iff.2 rfl

theorem end_eq : ρ endId = endId := by
  apply hr.isAugmented'.end_kind_iff.1
  rw [hr.kind?_eq]
  exact hr.isAugmented.end_kind_iff.2 rfl

theorem start_eq : ρ g.start = h.start := by
  apply hr.isAugmented'.start_kind_iff.1
  rw [hr.kind?_eq]
  exact hr.isAugmented.start_kind_iff.2 rfl

/-- A name leads to a symbol of that name: there is no earlier one. -/
theorem find?_eq_some_iff :
    g.symbols.find? name = some id ↔ id < g.symbols.size ∧ g.symbols.name id = name := by
  rw [SymbolTable.find?_eq_some_iff]
  refine ⟨fun h => ⟨h.1, h.2.1⟩, fun h => ⟨h.1, h.2, fun j hj hname => ?_⟩⟩
  have heq := hr.eq_of_name_eq (hj.trans h.1) h.1 (hname.trans h.2.symm)
  exact Nat.ne_of_lt hj heq

theorem find?_eq_some (hfind : g.symbols.find? name = some id) :
    h.symbols.find? name = some (ρ id) := by
  obtain ⟨hlt, hname⟩ := hr.find?_eq_some_iff.1 hfind
  exact hr.symm.find?_eq_some_iff.2 ⟨hr.lt_size_iff.2 hlt, (hr.name_eq id).trans hname⟩

/-- **A name** leads to the same symbol. -/
theorem find?_renumber (name : String) :
    h.symbols.find? name = (g.symbols.find? name).map ρ :=
  eq_map_of_eq_some (fun _ => hr.find?_eq_some) fun _ hfind => ⟨_, hr.symm.find?_eq_some hfind⟩

/-- **A rule** stands under its new number. -/
theorem rule_renumber (id : Nat) : h.rule (π id) = (g.rule id).renumber ρ π := by
  unfold rule
  rw [hr.getElem?_rules]
  cases g.rules[id]? with
  | some r => rfl
  | none =>
      unfold Rule.renumber
      simp only [Option.map_none, Option.getD_none, hr.epsilon_eq, List.map_nil]

theorem renumber_mem_rules {r : Rule} (h' : r ∈ g.rules) : r.renumber ρ π ∈ h.rules := by
  obtain ⟨id, hid⟩ := Array.getElem?_of_mem h'
  apply Array.mem_of_getElem? (i := π id)
  rw [hr.getElem?_rules, hid]
  rfl

/-- The start rule stays in front. -/
theorem zero_eq : π 0 = 0 := by
  obtain ⟨declared, hzero⟩ := hr.isAugmented.start_rule
  have himage : h.rules[π 0]? = some (Rule.renumber ρ π ⟨0, g.start, [declared]⟩) := by
    rw [hr.getElem?_rules, hzero]
    rfl
  have hid := hr.isAugmented'.id_of_lhs_eq_start _ (Array.mem_of_getElem? himage) hr.start_eq
  exact hid

end Symbols

/-! ## Derivations -/

section Derivations

variable {α β : List Nat} {symbol a : Nat}

include hr

/-- **Derivations** are renumbered. -/
theorem derives_renumber (hd : g.Derives α β) : h.Derives (α.map ρ) (β.map ρ) := by
  induction hd with
  | refl => exact .refl _
  | @step r front back _ rule _ ih =>
      rw [List.map_append, List.map_cons]
      have hrule := hr.renumber_mem_rules rule
      refine .step (r := r.renumber ρ π) hrule ?_
      simpa [Rule.renumber] using ih

/-- What follows a symbol follows its image. -/
theorem follows_renumber (hf : g.Follows symbol a) : h.Follows (ρ symbol) (ρ a) := by
  cases hf with
  | @terminal root _ front back hroot hkind derived =>
      have hderived := hr.derives_renumber derived
      rw [List.map_append, List.map_cons, List.map_cons] at hderived
      exact .terminal ((hr.isNonTerminal_eq root).trans hroot) ((hr.kind?_eq a).trans hkind)
        hderived
  | @finish front derived =>
      have hderived := hr.derives_renumber derived
      rw [List.map_append, List.map_singleton, List.map_singleton, hr.start_eq] at hderived
      rw [hr.end_eq]
      exact .finish hderived

/-! ## FIRST and FOLLOW -/

theorem mem_first_renumber (ha : a ∈ g.first.get symbol) :
    ρ a ∈ h.first.get (ρ symbol) := by
  have hg := hr.isAugmented
  have hh := hr.isAugmented'
  by_cases hk : g.symbols.isNonTerminal symbol = true
  · have hk' : h.symbols.isNonTerminal (ρ symbol) = true := (hr.isNonTerminal_eq symbol).trans hk
    rw [← mem_ofSequence_singleton] at ha ⊢
    apply (hh.mem_first_ofSequence_iff (IsAugmented.isForm_singleton hk')).2
    rcases (hg.mem_first_ofSequence_iff (IsAugmented.isForm_singleton hk)).1 ha with
      ⟨hkind, rest, hderives⟩ | ⟨rfl, hderives⟩
    · exact Or.inl ⟨(hr.kind?_eq a).trans hkind, rest.map ρ, hr.derives_renumber hderives⟩
    · exact Or.inr ⟨hr.epsilon_eq, hr.derives_renumber hderives⟩
  · rw [hg.first_get_eq hk] at ha
    obtain ⟨hlt, hk, rfl⟩ := mem_get_firstSeed.1 ha
    have hseed : ρ a ∈ h.firstSeed.get (ρ a) :=
      mem_get_firstSeed.2 ⟨hr.lt_size_iff.2 hlt, (hr.isNonTerminal_eq a).trans hk, rfl⟩
    exact (le_saturate h.le_firstPass).2 (ρ a) (ρ a) hseed

/-- **FIRST** of a symbol is renumbered. -/
theorem mem_first_iff : ρ a ∈ h.first.get (ρ symbol) ↔ a ∈ g.first.get symbol := by
  refine ⟨fun ha => ?_, hr.mem_first_renumber⟩
  have hback := hr.symm.mem_first_renumber ha
  rw [Equiv.symm_apply_apply, Equiv.symm_apply_apply] at hback
  exact hback

theorem apply_eq_epsilonId_iff : ρ a = epsilonId ↔ a = epsilonId := by
  rw [← hr.epsilon_eq, ρ.apply_eq_iff_eq, hr.epsilon_eq]

/-- FIRST of a sequence is renumbered. -/
theorem mem_ofSequence_iff : ρ a ∈ h.first.ofSequence (α.map ρ) ↔ a ∈ g.first.ofSequence α := by
  induction α with
  | nil => rw [List.map_nil, mem_ofSequence_nil, mem_ofSequence_nil, hr.apply_eq_epsilonId_iff]
  | cons symbol α ih =>
      have hnull : epsilonId ∈ h.first.get (ρ symbol) ↔ epsilonId ∈ g.first.get symbol := by
        rw [← hr.mem_first_iff, hr.epsilon_eq]
      rw [List.map_cons, mem_ofSequence_cons, mem_ofSequence_cons, hr.mem_first_iff, hnull, ih,
        Ne, hr.apply_eq_epsilonId_iff]

/-- **Lookaheads** are renumbered. -/
theorem mem_lookaheads_iff {b : Nat} :
    ρ a ∈ h.first.lookaheads (α.map ρ) (ρ b) ↔ a ∈ g.first.lookaheads α b := by
  have hnull : epsilonId ∈ h.first.ofSequence (α.map ρ) ↔ epsilonId ∈ g.first.ofSequence α := by
    rw [← hr.mem_ofSequence_iff, hr.epsilon_eq]
  rw [mem_lookaheads, mem_lookaheads, hr.mem_ofSequence_iff, hnull, Ne,
    hr.apply_eq_epsilonId_iff, ρ.apply_eq_iff_eq]

/-- **FOLLOW** of a symbol is renumbered. -/
theorem mem_follow_iff : ρ a ∈ h.follow.get (ρ symbol) ↔ a ∈ g.follow.get symbol := by
  cases hk : g.symbols.isNonTerminal symbol with
  | true =>
      have hk' : h.symbols.isNonTerminal (ρ symbol) = true := (hr.isNonTerminal_eq symbol).trans hk
      rw [hr.isAugmented.mem_follow_iff hk, hr.isAugmented'.mem_follow_iff hk']
      refine ⟨fun hf => ?_, hr.follows_renumber⟩
      have hback := hr.symm.follows_renumber hf
      rw [Equiv.symm_apply_apply, Equiv.symm_apply_apply] at hback
      exact hback
  | false =>
      have hk' : h.symbols.isNonTerminal (ρ symbol) = false :=
        (hr.isNonTerminal_eq symbol).trans hk
      rw [hr.isAugmented.follow_get_eq_empty hk, hr.isAugmented'.follow_get_eq_empty hk']
      exact iff_of_false (OrdSet.not_mem_empty _) (OrdSet.not_mem_empty _)

end Derivations

end Grammar.Renumbers

end CanonicalLR
