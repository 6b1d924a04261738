import CanonicalLR.Proofs.Sets.Growth
import Mathlib.Logic.Function.Iterate

/-!
# The number of passes

The repetition of a pass is capped so that it is total. Here the cap is shown to do no
harm: the passes end by themselves, on the value that a repetition without a cap ends on,
and the last pass is the only one that changes nothing. Every other pass adds a member
somewhere. Where passes only add members of a small pool to the sets of a few symbols,
there are therefore no more passes than members to be added, and one.

## Main definitions

* `Saturation.Ends` — a repetition that ended by itself.
* `SymbolSets.GrownFrom` — a family that has gained members at some symbols only.

## Main results

* `saturate_ends`, `saturate_ends_of_climbs` — a repetition that stays below its cap, or
  whose passes climb below a bound, ended by itself.
* `saturate_ends_of_within` — so do passes that only add members of a pool.
* `GrownFrom.weight_le` — how many members such a family can have.
* `saturate_ends_of_grownFrom` — the number of passes.
-/

namespace CanonicalLR

/-! ## Repetitions without a cap -/

/-- Repeating a pass from `s` takes so many passes, of which the last one is the first
that changes nothing, and ends on the value. -/
structure Saturation.Ends {σ : Type} (result : Saturation σ) (pass : σ → σ) (s : σ) :
    Prop where
  passes_pos : 0 < result.passes
  value_eq : result.value = pass^[result.passes - 1] s
  unchanged : pass result.value = result.value
  changed : ∀ k, k + 1 < result.passes → pass (pass^[k] s) ≠ pass^[k] s

namespace Saturation.Ends

variable {σ : Type} {pass : σ → σ} {s : σ}

/-- Where the first pass changes nothing, it is the only one. -/
theorem of_unchanged (h : pass s = s) : (⟨s, 1⟩ : Saturation σ).Ends pass s where
  passes_pos := Nat.one_pos
  value_eq := rfl
  unchanged := h
  changed k hk := absurd hk (by simp)

/-- Where the first pass changes something, the others follow it. -/
theorem of_changed {later : Saturation σ} (h : pass s ≠ s) (hlater : later.Ends pass (pass s)) :
    (⟨later.value, later.passes + 1⟩ : Saturation σ).Ends pass s := by
  have hpos := hlater.passes_pos
  refine
    { passes_pos := Nat.succ_pos _
      value_eq := ?_
      unchanged := hlater.unchanged
      changed := ?_ }
  · show later.value = pass^[later.passes + 1 - 1] s
    rw [Nat.add_sub_cancel, hlater.value_eq, ← Function.iterate_succ_apply]
    congr 1
    omega
  · intro k hk
    cases k with
    | zero => exact h
    | succ k =>
        rw [Function.iterate_succ_apply]
        exact hlater.changed k (Nat.lt_of_succ_lt_succ hk)

end Saturation.Ends

section Repetition

variable {σ : Type} [DecidableEq σ] {pass : σ → σ} {cap : Nat} {s : σ}

/-- **A repetition that stays below its cap** ended by itself. -/
theorem saturate_ends (h : (saturate pass cap s).passes < cap) :
    (saturate pass cap s).Ends pass s := by
  induction cap generalizing s with
  | zero => exact absurd h (Nat.not_lt_zero _)
  | succ cap ih =>
      simp only [saturate] at h ⊢
      by_cases hstill : pass s = s
      · rw [if_pos hstill]
        exact .of_unchanged hstill
      · rw [if_neg hstill] at h ⊢
        exact .of_changed hstill (ih (Nat.lt_of_succ_lt_succ h))

/-- **A repetition whose passes climb** below a bound ends by itself, if its cap leaves room
for the climb. -/
theorem saturate_ends_of_climbs {inv : σ → Prop} {rank : σ → Nat} {bound : Nat}
    (keeps : ∀ s, inv s → inv (pass s))
    (climbs : ∀ s, inv s → pass s ≠ s → rank s < rank (pass s))
    (bounded : ∀ s, inv s → rank s ≤ bound) (h : inv s) (room : bound < rank s + cap) :
    (saturate pass cap s).Ends pass s := by
  induction cap generalizing s with
  | zero => exact absurd room (Nat.not_lt.2 (bounded s h))
  | succ cap ih =>
      simp only [saturate]
      by_cases hstill : pass s = s
      · rw [if_pos hstill]
        exact .of_unchanged hstill
      · rw [if_neg hstill]
        have hclimb := climbs s h hstill
        exact .of_changed hstill (ih (keeps s h) (by omega))

end Repetition

/-! ## Families that grow at some symbols -/

namespace SymbolSets

/-- The family is another one with more members at some symbols, whose sets hold members
of a pool only. -/
structure GrownFrom (s seed : SymbolSets) (columns pool : Finset Nat) : Prop where
  size_eq : s.sets.size = seed.sets.size
  get_eq : ∀ {symbol : Nat}, symbol ∉ columns → s.get symbol = seed.get symbol
  mem : ∀ {symbol a : Nat}, symbol ∈ columns → a ∈ s.get symbol → a ∈ pool

variable {seed s : SymbolSets} {columns pool : Finset Nat} {symbol : Nat} {more : OrdSet Nat}

/-- Members of the pool may be added at one of the symbols. -/
theorem GrownFrom.extend (hs : s.GrownFrom seed columns pool) (hsymbol : symbol ∈ columns)
    (hmore : ∀ a ∈ more, a ∈ pool) : (s.extend symbol more).GrownFrom seed columns pool := by
  refine ⟨(size_extend s symbol more).trans hs.size_eq, fun {other} hother => ?_,
    fun {other a} hother ha => ?_⟩
  · have hne : other ≠ symbol := fun heq => hother (heq ▸ hsymbol)
    by_cases hlt : symbol < s.sets.size
    · rw [get_extend hlt, if_neg hne, hs.get_eq hother]
    · rw [extend_of_size_le more (Nat.le_of_not_lt hlt), hs.get_eq hother]
  · rcases mem_of_mem_get_extend ha with ha | ⟨_, ha⟩
    · exact hs.mem hother ha
    · exact hmore a ha

/-- **A grown family** has the members that it started with and, at each symbol where it
grew, no more than there are in the pool. -/
theorem GrownFrom.weight_le (hs : s.GrownFrom seed columns pool) (size : Nat) :
    s.weight size ≤ columns.card * pool.card + seed.weight size := by
  have hgrown : ∀ symbol ∈ (Finset.range size).filter (· ∈ columns),
      (s.get symbol).size ≤ pool.card := by
    intro symbol hsymbol
    have hcolumn := (Finset.mem_filter.1 hsymbol).2
    exact OrdSet.size_le_card fun a ha => hs.mem hcolumn ha
  have hkept : ∀ symbol ∈ (Finset.range size).filter (· ∉ columns),
      (s.get symbol).size = (seed.get symbol).size := by
    intro symbol hsymbol
    rw [hs.get_eq (Finset.mem_filter.1 hsymbol).2]
  have hcard : ((Finset.range size).filter (· ∈ columns)).card ≤ columns.card :=
    Finset.card_le_card fun symbol hsymbol => (Finset.mem_filter.1 hsymbol).2
  have hsub : (Finset.range size).filter (· ∉ columns) ⊆ Finset.range size :=
    Finset.filter_subset _ _
  unfold weight
  rw [← Finset.sum_filter_add_sum_filter_not (Finset.range size) (· ∈ columns)
    fun symbol => (s.get symbol).size]
  apply Nat.add_le_add
  · calc ∑ symbol ∈ (Finset.range size).filter (· ∈ columns), (s.get symbol).size
        ≤ ((Finset.range size).filter (· ∈ columns)).card * pool.card :=
          Finset.sum_le_card_nsmul _ _ _ hgrown
      _ ≤ columns.card * pool.card := Nat.mul_le_mul_right _ hcard
  · rw [Finset.sum_congr rfl hkept]
    exact Finset.sum_le_sum_of_subset hsub

/-- **Passes that only add members of a pool** end by themselves, if the cap leaves room for
all of them. -/
theorem saturate_ends_of_within {pass : SymbolSets → SymbolSets} {size cap : Nat}
    (grows : ∀ s, s ≤ pass s)
    (within : ∀ s : SymbolSets, s.Within size pool → (pass s).Within size pool)
    (hseed : seed.Within size pool) (room : size * pool.card < cap) :
    (saturate pass cap seed).Ends pass seed := by
  have climbs : ∀ s : SymbolSets, s.Within size pool → pass s ≠ s →
      s.weight size < (pass s).weight size :=
    fun s hs hne => weight_lt hs.size_eq (grows s) hne
  have hroom : size * pool.card < seed.weight size + cap := by omega
  exact saturate_ends_of_climbs within climbs (fun s hs => hs.weight_le) hseed hroom

/-- **The number of passes** that only add members of a pool at some symbols: no more than
there are members to be added, and one that adds nothing. -/
theorem saturate_ends_of_grownFrom {pass : SymbolSets → SymbolSets} {cap : Nat}
    (grows : ∀ s, s ≤ pass s)
    (keeps : ∀ s : SymbolSets, s.GrownFrom seed columns pool →
      (pass s).GrownFrom seed columns pool)
    (hseed : seed.GrownFrom seed columns pool) (room : columns.card * pool.card + 1 < cap) :
    (saturate pass cap seed).passes ≤ columns.card * pool.card + 1 ∧
      (saturate pass cap seed).Ends pass seed := by
  have climbs : ∀ s : SymbolSets, s.GrownFrom seed columns pool → pass s ≠ s →
      s.weight seed.sets.size < (pass s).weight seed.sets.size :=
    fun s hs hne => weight_lt hs.size_eq (grows s) hne
  have bounded : ∀ s : SymbolSets, s.GrownFrom seed columns pool →
      s.weight seed.sets.size ≤ columns.card * pool.card + seed.weight seed.sets.size :=
    fun s hs => hs.weight_le _
  have hroom : columns.card * pool.card + seed.weight seed.sets.size
      < seed.weight seed.sets.size + cap := by
    omega
  have hstable := (saturate_stable keeps climbs bounded hseed hroom).2
  have hpasses : (saturate pass cap seed).passes ≤ columns.card * pool.card + 1 := by
    omega
  exact ⟨hpasses, saturate_ends (Nat.lt_of_le_of_lt hpasses room)⟩

end SymbolSets

end CanonicalLR
