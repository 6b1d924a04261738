/-!
# Saturation

FIRST and FOLLOW sets are found by repeating a pass over the rules until a pass
changes nothing. `saturate` repeats a pass and counts how often it ran, the
last pass that changes nothing included.

The number of passes is capped, so that the function is total for every pass.
`saturate_stable` is the reason why the cap does no harm: if every pass that
changes its argument raises a rank that stays below a bound, and the cap lies
above what is left to climb, then the repetition ends by itself.

## Main results

* `saturate_invariant` — what one pass keeps, the saturation keeps.
* `saturate_stable` — enough passes reach a value that the pass leaves alone,
  within the climb that the rank allows.
-/

namespace CanonicalLR

/-- The value on which a repeated pass ended, and the number of passes. -/
structure Saturation (σ : Type) where
  value : σ
  passes : Nat

/-- Repeats `pass` until it changes nothing, at most `cap` times. -/
def saturate {σ : Type} [DecidableEq σ] (pass : σ → σ) : Nat → σ → Saturation σ
  | 0, s => ⟨s, 0⟩
  | cap + 1, s =>
    let next := pass s
    if next = s then ⟨s, 1⟩
    else
      let later := saturate pass cap next
      ⟨later.value, later.passes + 1⟩

variable {σ : Type} [DecidableEq σ] {pass : σ → σ}

theorem saturate_invariant {inv : σ → Prop} (keeps : ∀ s, inv s → inv (pass s))
    (cap : Nat) {s : σ} (h : inv s) : inv (saturate pass cap s).value := by
  induction cap generalizing s with
  | zero => exact h
  | succ cap ih =>
    simp only [saturate]
    split
    · exact h
    · exact ih (keeps s h)

theorem saturate_stable {inv : σ → Prop} {rank : σ → Nat} {bound : Nat}
    (keeps : ∀ s, inv s → inv (pass s))
    (climbs : ∀ s, inv s → pass s ≠ s → rank s < rank (pass s))
    (bounded : ∀ s, inv s → rank s ≤ bound)
    {cap : Nat} {s : σ} (h : inv s) (room : bound < rank s + cap) :
    pass (saturate pass cap s).value = (saturate pass cap s).value ∧
      (saturate pass cap s).passes + rank s ≤ bound + 1 := by
  induction cap generalizing s with
  | zero => have := bounded s h; omega
  | succ cap ih =>
    simp only [saturate]
    split
    next still => exact ⟨still, by have := bounded s h; simp; omega⟩
    next moved =>
      have := climbs s h moved
      obtain ⟨stable, few⟩ := ih (keeps s h) (by omega)
      exact ⟨stable, by simp; omega⟩

end CanonicalLR
