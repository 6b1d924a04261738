import Std.Data.TreeMap

/-!
# Numberings

A numbering gives each value the next free number when it is met for the first
time, and the number it has when it is met again. The values stand in an array
under their numbers, and a search tree leads from a value back to its number.

## Main definitions

* `Numbering` — values, each under one number.
* `Numbering.number?` — the number of a value that has been met.
* `Numbering.meet` — the number of a value, and the numbering that has met it.

## Main results

* `number?_eq_some_iff` — a value has a number exactly where it stands.
* `getElem?_inj` — no value has two numbers.
* `getElem?_meet_of_lt`, `getElem?_meet` — meeting a value leaves the others
  under their numbers and puts the value under its own.
-/

namespace CanonicalLR

/-- Values, each under one number. -/
structure Numbering (α : Type) [Ord α] where
  /-- The values that have been met, in the order of their numbers. -/
  values : Array α
  /-- The number of each value. -/
  index : Std.TreeMap α Nat
  /-- The index leads to the place of a value. -/
  index_eq_some_iff (a : α) (i : Nat) : index[a]? = some i ↔ values[i]? = some a

namespace Numbering

variable {α : Type} [Ord α]

/-- The number of values that have been met. -/
def size (n : Numbering α) : Nat := n.values.size

/-- The number of a value that has been met. -/
def number? (n : Numbering α) (a : α) : Option Nat := n.index[a]?

theorem number?_eq_some_iff {n : Numbering α} {a : α} {i : Nat} :
    n.number? a = some i ↔ n.values[i]? = some a :=
  n.index_eq_some_iff a i

/-- No value has two numbers. -/
theorem getElem?_inj {n : Numbering α} {a : α} {i j : Nat}
    (hi : n.values[i]? = some a) (hj : n.values[j]? = some a) : i = j := by
  have hi := number?_eq_some_iff.2 hi
  rw [number?_eq_some_iff.2 hj] at hi
  exact (Option.some.inj hi).symm

variable [Std.TransOrd α]

/-- The numbering that has met no value. -/
def empty : Numbering α := ⟨#[], ∅, by simp⟩

instance : Inhabited (Numbering α) := ⟨empty⟩

variable [Std.LawfulEqOrd α]

/-- The numbering with one more value, which has not been met. -/
def push (n : Numbering α) (a : α) (fresh : n.number? a = none) : Numbering α where
  values := n.values.push a
  index := n.index.insert a n.values.size
  index_eq_some_iff b i := by
    rw [Std.TreeMap.getElem?_insert, Array.getElem?_push]
    by_cases hb : a = b
    · subst hb
      rw [if_pos Std.ReflOrd.compare_self, Option.some.injEq]
      split
      next hi => simp [hi]
      next hi =>
        refine ⟨fun h => absurd h.symm hi, fun h => ?_⟩
        rw [number?_eq_some_iff.2 h] at fresh
        cases fresh
    · rw [if_neg fun h => hb (Std.LawfulEqOrd.eq_of_compare h), n.index_eq_some_iff]
      split
      next hi => subst hi; simp [hb]
      · rfl

/-- The number of a value, and the numbering that has met it. -/
def meet (n : Numbering α) (a : α) : Nat × Numbering α :=
  match h : n.number? a with
  | some i => (i, n)
  | none => (n.size, n.push a h)

/-- Meeting a value leaves the others under their numbers. -/
theorem getElem?_meet_of_lt {n : Numbering α} {a : α} {i : Nat} (h : i < n.size) :
    (n.meet a).2.values[i]? = n.values[i]? := by
  simp only [meet]
  split
  · rfl
  · exact (Array.getElem?_push ..).trans (if_neg (Nat.ne_of_lt h))

/-- A value that has been met stands under its number. -/
theorem getElem?_meet {n : Numbering α} {a : α} :
    (n.meet a).2.values[(n.meet a).1]? = some a := by
  simp only [meet]
  split
  next h => exact number?_eq_some_iff.1 h
  · exact (Array.getElem?_push ..).trans (if_pos rfl)

theorem size_le_meet {n : Numbering α} {a : α} : n.size ≤ (n.meet a).2.size := by
  simp only [meet]
  split
  · exact Nat.le_refl _
  · simp [size, push]

end Numbering

end CanonicalLR
