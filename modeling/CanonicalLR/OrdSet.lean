/-!
# Finite sets in ascending order

A finite set is the strictly ascending list of its members. There is one such
list for each set, so two sets with the same members are equal as values:
`OrdSet.ext` is the extensionality principle on which equality of lookahead
sets and of automaton states rests. The list is also the order in which a set
is shown.

## Main definitions

* `OrdSet` — a strictly ascending list.
* `contains` — the test for membership, which reads no further than it must.
* `insert`, `erase`, `union`, `filter`, `ofList` — the set operations; a union
  merges the two lists in one walk.

## Main results

* `OrdSet.ext` — sets with the same members are equal.
* `contains_iff`, `mem_insert`, `mem_erase`, `mem_union`, `mem_filter`,
  `mem_ofList` — each operation through membership.
* `size_insert` — an insertion grows a set by one exactly when it adds a member.
-/

namespace CanonicalLR

/-- A finite set, held as the strictly ascending list of its members. -/
structure OrdSet (α : Type) [Ord α] where
  /-- The members in ascending order. -/
  toList : List α
  /-- Each member is smaller than all that follow it. -/
  ascending : toList.Pairwise fun a b => compare a b = .lt

namespace OrdSet

variable {α : Type} [Ord α]

/-! ## Membership and equality -/

instance : Membership α (OrdSet α) := ⟨fun s a => a ∈ s.toList⟩

theorem mem_toList {s : OrdSet α} {a : α} : a ∈ s.toList ↔ a ∈ s := Iff.rfl

theorem eq_of_toList_eq {s t : OrdSet α} (h : s.toList = t.toList) : s = t := by
  cases s; cases t; cases h; rfl

instance [DecidableEq α] : DecidableEq (OrdSet α) := fun s t =>
  if h : s.toList = t.toList then isTrue (eq_of_toList_eq h)
  else isFalse fun e => h (e ▸ rfl)

/-! ## Views -/

/-- The set without members. -/
def empty : OrdSet α := ⟨[], .nil⟩

instance : EmptyCollection (OrdSet α) := ⟨empty⟩

instance : Inhabited (OrdSet α) := ⟨∅⟩

/-- The number of members. -/
def size (s : OrdSet α) : Nat := s.toList.length

/-- Has the set no members? -/
def isEmpty (s : OrdSet α) : Bool := s.toList.isEmpty

@[simp] theorem toList_empty : (∅ : OrdSet α).toList = [] := rfl

@[simp] theorem not_mem_empty (a : α) : a ∉ (∅ : OrdSet α) := List.not_mem_nil

theorem isEmpty_iff {s : OrdSet α} : s.isEmpty = true ↔ s = ∅ := by
  constructor
  · intro h
    exact eq_of_toList_eq (by simpa [isEmpty] using h)
  · rintro rfl; rfl

/-! ## Selection -/

/-- The members that satisfy a test. -/
def filter (s : OrdSet α) (p : α → Bool) : OrdSet α :=
  ⟨s.toList.filter p, s.ascending.filter p⟩

@[simp] theorem mem_filter {s : OrdSet α} {p : α → Bool} {a : α} :
    a ∈ s.filter p ↔ a ∈ s ∧ p a = true := List.mem_filter

/-- The set without one member. -/
def erase [DecidableEq α] (s : OrdSet α) (a : α) : OrdSet α :=
  s.filter fun b => b != a

@[simp] theorem mem_erase [DecidableEq α] {s : OrdSet α} {a b : α} :
    b ∈ s.erase a ↔ b ∈ s ∧ b ≠ a := by
  simp [erase]

/-! ## Insertion into a list -/

/-- Puts an element into its place in an ascending list. -/
def insertInto (a : α) : List α → List α
  | [] => [a]
  | b :: s =>
    match compare a b with
    | .lt => a :: b :: s
    | .eq => b :: s
    | .gt => b :: insertInto a s

variable [Std.LawfulEqOrd α]

theorem mem_insertInto {a b : α} {s : List α} :
    b ∈ insertInto a s ↔ b = a ∨ b ∈ s := by
  induction s with
  | nil => simp [insertInto]
  | cons c s ih =>
    simp only [insertInto]
    split
    · simp
    next h =>
      have : a = c := Std.LawfulEqOrd.eq_of_compare h
      simp [this]
    · simp [ih, or_left_comm]

theorem not_lt_self (a : α) : compare a a ≠ .lt := by
  simp [Std.ReflOrd.compare_self]

/-! ## Merging of lists -/

/-- Merges an ascending list with one that starts with `a` and goes on so that
`rest` merges the remainder. -/
def mergeHead (a : α) (rest : List α → List α) : List α → List α
  | [] => a :: rest []
  | b :: t =>
    match compare a b with
    | .lt => a :: rest (b :: t)
    | .eq => a :: rest t
    | .gt => b :: mergeHead a rest t

/-- Merges two ascending lists; a member of both is kept once. -/
def merge : List α → List α → List α
  | [], t => t
  | a :: s, t => mergeHead a (merge s) t

theorem mem_mergeHead {a b : α} {s t : List α} {rest : List α → List α}
    (h : ∀ t, b ∈ rest t ↔ b ∈ s ∨ b ∈ t) :
    b ∈ mergeHead a rest t ↔ b = a ∨ b ∈ s ∨ b ∈ t := by
  induction t with
  | nil => simp [mergeHead, h]
  | cons c t ih =>
    simp only [mergeHead]
    split
    · simp [h]
    next heq =>
      have : a = c := Std.LawfulEqOrd.eq_of_compare heq
      subst this
      simp only [List.mem_cons, h]
      grind
    · simp only [List.mem_cons, ih]
      grind

theorem mem_merge {a : α} {s t : List α} : a ∈ merge s t ↔ a ∈ s ∨ a ∈ t := by
  induction s generalizing t with
  | nil => simp [merge]
  | cons b s ih =>
    rw [merge, mem_mergeHead (s := s) fun t => ih, List.mem_cons, or_assoc]

/-! ## The set operations -/

variable [Std.TransOrd α]

theorem ascending_insertInto (a : α) {s : List α}
    (h : s.Pairwise fun a b => compare a b = .lt) :
    (insertInto a s).Pairwise fun a b => compare a b = .lt := by
  induction s with
  | nil => simp [insertInto]
  | cons b s ih =>
    obtain ⟨below, rest⟩ := List.pairwise_cons.1 h
    simp only [insertInto]
    split
    next hlt =>
      refine List.pairwise_cons.2 ⟨fun c hc => ?_, h⟩
      rcases List.mem_cons.1 hc with rfl | hc
      · exact hlt
      · exact Std.TransCmp.lt_trans hlt (below c hc)
    · exact h
    next hgt =>
      refine List.pairwise_cons.2 ⟨fun c hc => ?_, ih rest⟩
      rcases mem_insertInto.1 hc with rfl | hc
      · exact Std.OrientedCmp.gt_iff_lt.1 hgt
      · exact below c hc

/-- The set with one more member. -/
def insert (s : OrdSet α) (a : α) : OrdSet α :=
  ⟨insertInto a s.toList, ascending_insertInto a s.ascending⟩

@[simp] theorem mem_insert {s : OrdSet α} {a b : α} :
    b ∈ s.insert a ↔ b = a ∨ b ∈ s := mem_insertInto

/-! ## Extensionality -/

/-- Ascending lists with the same members are equal. -/
theorem eq_of_mem_iff {s t : List α}
    (hs : s.Pairwise fun a b => compare a b = .lt)
    (ht : t.Pairwise fun a b => compare a b = .lt)
    (h : ∀ a, a ∈ s ↔ a ∈ t) : s = t := by
  induction s generalizing t with
  | nil => exact (List.eq_nil_iff_forall_not_mem.2 fun a ha => by simpa using (h a).2 ha).symm
  | cons a s ih =>
    cases t with
    | nil => exact absurd ((h a).1 (List.mem_cons_self ..)) List.not_mem_nil
    | cons b t =>
      obtain ⟨belowS, restS⟩ := List.pairwise_cons.1 hs
      obtain ⟨belowT, restT⟩ := List.pairwise_cons.1 ht
      have hab : a = b := by
        rcases List.mem_cons.1 ((h a).1 (List.mem_cons_self ..)) with hab | ha
        · exact hab
        rcases List.mem_cons.1 ((h b).2 (List.mem_cons_self ..)) with hba | hb
        · exact hba.symm
        exact absurd (Std.TransCmp.lt_trans (belowS b hb) (belowT a ha)) (not_lt_self a)
      subst hab
      congr 1
      refine ih restS restT fun c => ⟨fun hc => ?_, fun hc => ?_⟩
      · rcases List.mem_cons.1 ((h c).1 (List.mem_cons_of_mem _ hc)) with rfl | hc'
        · exact absurd (belowS c hc) (not_lt_self c)
        · exact hc'
      · rcases List.mem_cons.1 ((h c).2 (List.mem_cons_of_mem _ hc)) with rfl | hc'
        · exact absurd (belowT c hc) (not_lt_self c)
        · exact hc'

/-- **Extensionality**: sets with the same members are equal. -/
theorem ext {s t : OrdSet α} (h : ∀ a, a ∈ s ↔ a ∈ t) : s = t :=
  eq_of_toList_eq (eq_of_mem_iff s.ascending t.ascending h)

theorem ext_iff {s t : OrdSet α} : s = t ↔ ∀ a, a ∈ s ↔ a ∈ t :=
  ⟨fun h _ => h ▸ Iff.rfl, ext⟩

/-! ## Tests for membership -/

/-- Is an element in an ascending list? A greater member ends the search. -/
def isIn (a : α) : List α → Bool
  | [] => false
  | b :: s =>
    match compare a b with
    | .lt => false
    | .eq => true
    | .gt => isIn a s

/-- Is an element a member? -/
def contains (s : OrdSet α) (a : α) : Bool := isIn a s.toList

theorem isIn_iff {a : α} {s : List α} (h : s.Pairwise fun a b => compare a b = .lt) :
    isIn a s = true ↔ a ∈ s := by
  induction s with
  | nil => simp [isIn]
  | cons b s ih =>
    obtain ⟨below, rest⟩ := List.pairwise_cons.1 h
    simp only [isIn]
    split
    next hlt =>
      have hab : a ≠ b := fun e => not_lt_self b (e ▸ hlt)
      have has : a ∉ s := fun ha =>
        not_lt_self a (Std.TransCmp.lt_trans hlt (below a ha))
      simp [hab, has]
    next heq => simp [Std.LawfulEqOrd.eq_of_compare heq]
    next hgt =>
      have hab : a ≠ b := fun e => by
        subst e; simp [Std.ReflOrd.compare_self] at hgt
      simp [ih rest, hab]

theorem contains_iff {s : OrdSet α} {a : α} : s.contains a = true ↔ a ∈ s :=
  isIn_iff s.ascending

instance (a : α) (s : OrdSet α) : Decidable (a ∈ s) :=
  decidable_of_iff (s.contains a = true) contains_iff

/-! ## Lists as sets -/

/-- The set of the members of a list. The last ones go in first, so a list that
is ascending already is walked once. -/
def ofList (as : List α) : OrdSet α := as.foldr (fun a s => s.insert a) ∅

@[simp] theorem mem_ofList {as : List α} {a : α} : a ∈ ofList as ↔ a ∈ as := by
  induction as with
  | nil => simp [ofList]
  | cons b as ih =>
    rw [ofList, List.foldr_cons, mem_insert, List.mem_cons]
    exact or_congr_right ih

/-! ## Unions -/

theorem ascending_mergeHead {a : α} {s t : List α} {rest : List α → List α}
    (hs : (a :: s).Pairwise fun a b => compare a b = .lt)
    (ht : t.Pairwise fun a b => compare a b = .lt)
    (mem : ∀ t b, b ∈ rest t ↔ b ∈ s ∨ b ∈ t)
    (h : ∀ t, t.Pairwise (fun a b => compare a b = .lt) →
      (rest t).Pairwise fun a b => compare a b = .lt) :
    (mergeHead a rest t).Pairwise fun a b => compare a b = .lt := by
  obtain ⟨belowS, _⟩ := List.pairwise_cons.1 hs
  induction t with
  | nil =>
    refine List.pairwise_cons.2 ⟨fun c hc => belowS c ?_, h [] .nil⟩
    simpa [mem] using hc
  | cons b t ih =>
    obtain ⟨belowT, restT⟩ := List.pairwise_cons.1 ht
    simp only [mergeHead]
    split
    next hlt =>
      refine List.pairwise_cons.2 ⟨fun c hc => ?_, h _ ht⟩
      rcases (mem _ _).1 hc with hc | hc
      · exact belowS c hc
      rcases List.mem_cons.1 hc with rfl | hc
      · exact hlt
      · exact Std.TransCmp.lt_trans hlt (belowT c hc)
    next heq =>
      have : a = b := Std.LawfulEqOrd.eq_of_compare heq
      subst this
      refine List.pairwise_cons.2 ⟨fun c hc => ?_, h _ restT⟩
      exact ((mem _ _).1 hc).elim (belowS c) (belowT c)
    next hgt =>
      have hba : compare b a = .lt := Std.OrientedCmp.gt_iff_lt.1 hgt
      refine List.pairwise_cons.2 ⟨fun c hc => ?_, ih restT⟩
      rcases (mem_mergeHead (s := s) fun t => mem t c).1 hc with rfl | hc | hc
      · exact hba
      · exact Std.TransCmp.lt_trans hba (belowS c hc)
      · exact belowT c hc

theorem ascending_merge {s t : List α} (hs : s.Pairwise fun a b => compare a b = .lt)
    (ht : t.Pairwise fun a b => compare a b = .lt) :
    (merge s t).Pairwise fun a b => compare a b = .lt := by
  induction s generalizing t with
  | nil => exact ht
  | cons a s ih =>
    exact ascending_mergeHead hs ht (fun t b => mem_merge)
      fun t ht => ih (List.pairwise_cons.1 hs).2 ht

/-- The members of either set. -/
def union (s t : OrdSet α) : OrdSet α :=
  ⟨merge s.toList t.toList, ascending_merge s.ascending t.ascending⟩

instance : Union (OrdSet α) := ⟨union⟩

@[simp] theorem mem_union {s t : OrdSet α} {a : α} : a ∈ s ∪ t ↔ a ∈ s ∨ a ∈ t :=
  mem_merge

/-! ## Order -/

/-- Sets are ordered as their lists are, by the first member in which they differ. -/
instance : Ord (OrdSet α) := ⟨compareOn toList⟩

instance : Std.TransOrd (OrdSet α) :=
  inferInstanceAs (Std.TransCmp (compareOn toList))

instance : Std.LawfulEqOrd (OrdSet α) where
  eq_of_compare h := eq_of_toList_eq (Std.LawfulEqOrd.eq_of_compare (α := List α) h)

/-! ## Size -/

theorem length_insertInto [DecidableEq α] (a : α) {s : List α}
    (h : s.Pairwise fun a b => compare a b = .lt) :
    (insertInto a s).length = if a ∈ s then s.length else s.length + 1 := by
  induction s with
  | nil => simp [insertInto]
  | cons b s ih =>
    obtain ⟨below, rest⟩ := List.pairwise_cons.1 h
    simp only [insertInto]
    split
    next hlt =>
      have hab : a ≠ b := fun e => not_lt_self b (e ▸ hlt)
      have has : a ∉ s := fun ha =>
        not_lt_self a (Std.TransCmp.lt_trans hlt (below a ha))
      simp [hab, has]
    next heq => simp [Std.LawfulEqOrd.eq_of_compare heq]
    next hgt =>
      have hab : a ≠ b := fun e => by
        subst e; simp [Std.ReflOrd.compare_self] at hgt
      simp only [List.length_cons, ih rest, List.mem_cons, hab, false_or]
      split <;> rfl

theorem size_insert [DecidableEq α] (s : OrdSet α) (a : α) :
    (s.insert a).size = if a ∈ s then s.size else s.size + 1 := by
  have h := length_insertInto a s.ascending
  by_cases ha : a ∈ s
  · rw [if_pos ha]
    rwa [if_pos (mem_toList.2 ha)] at h
  · rw [if_neg ha]
    rwa [if_neg (mt mem_toList.1 ha)] at h

end OrdSet

end CanonicalLR
