import CanonicalLR.Saturation
import CanonicalLR.SymbolSets
import Mathlib.Algebra.Order.BigOperators.Group.Finset
import Mathlib.Data.Finset.Card

/-!
# Growing families of symbol sets

FIRST sets, FOLLOW sets and spawned lookaheads are all found in the same way: a
pass over the rules extends a family of sets, and passes are repeated until one
changes nothing. Families are ordered by inclusion at every symbol, each pass
makes its argument larger, and the members come from a finite set. So the
total number of members is a rank that every change raises, and the repetition
ends on a family that no rule extends any further.

## Main definitions

* `OrdSet.toFinset` — the members of a set.
* The order of families by inclusion.
* `SymbolSets.weight` — the number of members of all sets.
* `SymbolSets.Within` — a family of a given size with members from a finite set.

## Main results

* `mem_get_extend` — the members after an extension.
* `saturate_fixed` — enough passes reach a family that the pass leaves alone.
* `eq_of_foldl_eq` — a pass that changes nothing changes nothing at any rule.
-/

namespace CanonicalLR

/-! ## Sizes of sets -/

namespace OrdSet

variable {α : Type} [Ord α] [Std.LawfulEqOrd α]

/-- No member is listed twice. -/
theorem nodup_toList (s : OrdSet α) : s.toList.Nodup := by
  refine s.ascending.imp fun {a b} hlt => ?_
  rintro rfl
  exact not_lt_self a hlt

/-- The members of a set. -/
def toFinset (s : OrdSet α) : Finset α := ⟨s.toList, s.nodup_toList⟩

@[simp] theorem mem_toFinset {s : OrdSet α} {a : α} : a ∈ s.toFinset ↔ a ∈ s := Iff.rfl

theorem card_toFinset (s : OrdSet α) : s.toFinset.card = s.size := rfl

theorem size_le_of_subset {s t : OrdSet α} (h : ∀ a ∈ s, a ∈ t) : s.size ≤ t.size := by
  rw [← card_toFinset, ← card_toFinset]
  apply Finset.card_le_card
  intro a ha
  exact h a ha

theorem size_le_card {s : OrdSet α} {U : Finset α} (h : ∀ a ∈ s, a ∈ U) :
    s.size ≤ U.card := by
  rw [← card_toFinset]
  apply Finset.card_le_card
  intro a ha
  exact h a ha

/-- A set with all members of another one and as many is that set. -/
theorem eq_of_subset_of_size_le [Std.TransOrd α] {s t : OrdSet α} (h : ∀ a ∈ s, a ∈ t)
    (hsize : t.size ≤ s.size) : s = t := by
  have hsub : s.toFinset ⊆ t.toFinset := fun a ha => h a ha
  have heq : s.toFinset = t.toFinset := Finset.eq_of_subset_of_card_le hsub hsize
  exact OrdSet.ext fun a => by
    rw [← mem_toFinset, heq, mem_toFinset]

omit [Std.LawfulEqOrd α] in
theorem exists_mem_of_not_isEmpty {s : OrdSet α} (h : (!s.isEmpty) = true) : ∃ a, a ∈ s := by
  have hne : s.toList ≠ [] := by simpa [isEmpty] using h
  exact List.exists_mem_of_ne_nil s.toList hne

end OrdSet

/-! ## Folds -/

section Fold

variable {σ ρ : Type} [PartialOrder σ] {f : σ → ρ → σ}

theorem le_foldl (grows : ∀ s r, s ≤ f s r) (rules : List ρ) (s : σ) :
    s ≤ rules.foldl f s := by
  induction rules generalizing s with
  | nil => exact le_refl s
  | cons r rules ih => exact (grows s r).trans (ih (f s r))

/-- A fold of growing steps that changes nothing changes nothing at any step. -/
theorem eq_of_foldl_eq (grows : ∀ s r, s ≤ f s r) {rules : List ρ} {s : σ}
    (h : rules.foldl f s = s) : ∀ r ∈ rules, f s r = s := by
  induction rules with
  | nil => intro r hr; cases hr
  | cons r rules ih =>
      have hlater : f s r ≤ rules.foldl f (f s r) := le_foldl grows rules _
      have hstep : f s r = s := le_antisymm (hlater.trans (le_of_eq h)) (grows s r)
      rw [List.foldl_cons, hstep] at h
      intro r' hr'
      rcases List.mem_cons.1 hr' with rfl | hr'
      · exact hstep
      · exact ih h r' hr'

end Fold

/-! ## Families -/

namespace SymbolSets

theorem get_eq_empty {s : SymbolSets} {symbol : Nat} (h : s.sets.size ≤ symbol) :
    s.get symbol = ∅ := by
  simp [get, Array.getElem?_eq_none h]

/-- Families of one size with the same sets are equal. -/
theorem ext_get {s t : SymbolSets} (hsize : s.sets.size = t.sets.size)
    (h : ∀ symbol, s.get symbol = t.get symbol) : s = t := by
  obtain ⟨s⟩ := s
  obtain ⟨t⟩ := t
  congr 1
  apply Array.ext hsize
  intro i hs ht
  have hi := h i
  simpa [get, hs, ht] using hi

/-- Families are ordered by inclusion at every symbol. -/
instance : PartialOrder SymbolSets where
  le s t := s.sets.size = t.sets.size ∧ ∀ symbol, ∀ a ∈ s.get symbol, a ∈ t.get symbol
  le_refl s := ⟨rfl, fun _ _ h => h⟩
  le_trans s t u hst htu :=
    ⟨hst.1.trans htu.1, fun symbol a h => htu.2 symbol a (hst.2 symbol a h)⟩
  le_antisymm s t hst hts :=
    ext_get hst.1 fun symbol => OrdSet.ext fun a => ⟨hst.2 symbol a, hts.2 symbol a⟩

theorem extend_of_size_le {s : SymbolSets} {symbol : Nat} (more : OrdSet Nat)
    (h : s.sets.size ≤ symbol) : s.extend symbol more = s := by
  apply ext_get (size_extend s symbol more)
  intro other
  simp only [get, extend, Array.getElem?_modify]
  by_cases heq : symbol = other
  · subst heq
    simp [Array.getElem?_eq_none h]
  · rw [if_neg heq]

/-- The members after an extension at a symbol of the family. -/
theorem mem_get_extend {s : SymbolSets} {symbol other a : Nat} {more : OrdSet Nat}
    (h : symbol < s.sets.size) :
    a ∈ (s.extend symbol more).get other ↔
      a ∈ s.get other ∨ (other = symbol ∧ a ∈ more) := by
  rw [get_extend h]
  by_cases heq : other = symbol
  · subst heq
    simp
  · simp [heq]

/-- A member after an extension was there before or has been added. -/
theorem mem_of_mem_get_extend {s : SymbolSets} {symbol other a : Nat} {more : OrdSet Nat}
    (h : a ∈ (s.extend symbol more).get other) :
    a ∈ s.get other ∨ (other = symbol ∧ a ∈ more) := by
  by_cases hlt : symbol < s.sets.size
  · exact (mem_get_extend hlt).1 h
  · rw [extend_of_size_le more (Nat.le_of_not_lt hlt)] at h
    exact Or.inl h

theorem le_extend (s : SymbolSets) (symbol : Nat) (more : OrdSet Nat) :
    s ≤ s.extend symbol more := by
  refine ⟨(size_extend s symbol more).symm, fun other a ha => ?_⟩
  by_cases hlt : symbol < s.sets.size
  · exact (mem_get_extend hlt).2 (Or.inl ha)
  · rw [extend_of_size_le more (Nat.le_of_not_lt hlt)]
    exact ha

/-- If an extension changes nothing, what it adds was there. -/
theorem mem_get_of_extend_eq {s : SymbolSets} {symbol a : Nat} {more : OrdSet Nat}
    (h : s.extend symbol more = s) (hlt : symbol < s.sets.size) (ha : a ∈ more) :
    a ∈ s.get symbol := by
  rw [← h]
  exact (mem_get_extend hlt).2 (Or.inr ⟨rfl, ha⟩)

/-! ## Weight -/

/-- The number of members of the first sets of a family. -/
def weight (size : Nat) (s : SymbolSets) : Nat :=
  ∑ symbol ∈ Finset.range size, (s.get symbol).size

/-- The family has a given size, and its members come from a finite set. -/
structure Within (size : Nat) (pool : Finset Nat) (s : SymbolSets) : Prop where
  size_eq : s.sets.size = size
  mem : ∀ {symbol a : Nat}, a ∈ s.get symbol → a ∈ pool

variable {size : Nat} {pool : Finset Nat} {s t : SymbolSets}

theorem Within.extend {symbol : Nat} {more : OrdSet Nat} (h : s.Within size pool)
    (hmore : ∀ a ∈ more, a ∈ pool) : (s.extend symbol more).Within size pool := by
  refine ⟨(size_extend s symbol more).trans h.size_eq, fun {other a} ha => ?_⟩
  rcases mem_of_mem_get_extend ha with ha | ⟨_, ha⟩
  · exact h.mem ha
  · exact hmore a ha

theorem Within.weight_le (h : s.Within size pool) :
    s.weight size ≤ size * pool.card := by
  have hset : ∀ symbol ∈ Finset.range size, (s.get symbol).size ≤ pool.card :=
    fun symbol _ => OrdSet.size_le_card fun a ha => h.mem ha
  calc s.weight size
      ≤ ∑ _symbol ∈ Finset.range size, pool.card := Finset.sum_le_sum hset
    _ = size * pool.card := by
      rw [Finset.sum_const_nat fun _ _ => rfl, Finset.card_range]

/-- A larger family that is another one has more members. -/
theorem weight_lt (hsize : s.sets.size = size) (hle : s ≤ t) (hne : t ≠ s) :
    s.weight size < t.weight size := by
  obtain ⟨symbol, hsymbol⟩ : ∃ symbol, s.get symbol ≠ t.get symbol := by
    by_contra hall
    rw [not_exists] at hall
    exact hne (ext_get hle.1.symm fun symbol => (not_not.1 (hall symbol)).symm)
  have hin : symbol ∈ Finset.range size := by
    rw [Finset.mem_range, ← hsize]
    by_contra hout
    apply hsymbol
    rw [get_eq_empty (Nat.le_of_not_lt hout),
      get_eq_empty (hle.1 ▸ Nat.le_of_not_lt hout)]
  apply Finset.sum_lt_sum
  · intro other _
    exact OrdSet.size_le_of_subset (hle.2 other)
  · refine ⟨symbol, hin, ?_⟩
    by_contra hge
    exact hsymbol (OrdSet.eq_of_subset_of_size_le (hle.2 symbol) (Nat.le_of_not_lt hge))

end SymbolSets

/-! ## Saturation -/

section Saturate

variable {pass : SymbolSets → SymbolSets} {size cap : Nat} {pool : Finset Nat}
  {s : SymbolSets}

theorem le_saturate (grows : ∀ s, s ≤ pass s) : s ≤ (saturate pass cap s).value :=
  saturate_invariant (fun t ht => ht.trans (grows t)) cap (le_refl s)

/-- **Enough passes** reach a family that the pass leaves alone. -/
theorem saturate_fixed (grows : ∀ s, s ≤ pass s)
    (within : ∀ s : SymbolSets, s.Within size pool → (pass s).Within size pool)
    (hs : s.Within size pool) (room : size * pool.card < cap) :
    pass (saturate pass cap s).value = (saturate pass cap s).value := by
  have climbs : ∀ s : SymbolSets, s.Within size pool → pass s ≠ s →
      s.weight size < (pass s).weight size :=
    fun s hs hne => SymbolSets.weight_lt hs.size_eq (grows s) hne
  have hroom : size * pool.card < s.weight size + cap := by omega
  exact (saturate_stable within climbs (fun s hs => hs.weight_le) hs hroom).1

end Saturate

end CanonicalLR
