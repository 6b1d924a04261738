import Mathlib.Data.List.Forall2

/-!
# Traversals that can fail

Reading a grammar text and filling the rows of a table are traversals of a list
by a function that can fail; the first failure ends them. A traversal that
succeeds has succeeded at every element, and one that fails has failed at some
element.

## Main results

* `exists_of_bind_eq_ok`, `cases_of_bind_eq_error` — two steps, one after the other.
* `forall₂_of_mapM_eq_ok` — the values of a successful traversal, in order.
* `exists_first_of_mapM_eq_error` — the failure of a traversal is that of the first
  element that fails.
* `mapM_eq_ok_iff`, `mapM_eq_error_iff` — when a traversal succeeds and how it fails.
* `mapM_map_eq`, `mapM_map_eq_ok` — a traversal of images.
* `mapM_eq_mapError` — two traversals that differ in their errors only.
-/

namespace CanonicalLR

variable {α β ε : Type} {f : α → Except ε β} {xs : List α} {ys : List β}

/-- Two steps succeed if the first one does, and the second one after it. -/
theorem exists_of_bind_eq_ok {x : Except ε α} {f : α → Except ε β} {b : β}
    (h : x >>= f = .ok b) : ∃ a, x = .ok a ∧ f a = .ok b := by
  cases x with
  | error e => cases h
  | ok a => exact ⟨a, rfl, h⟩

/-- Two steps fail if the first one does, or the second one after it. -/
theorem cases_of_bind_eq_error {x : Except ε α} {f : α → Except ε β} {e : ε}
    (h : x >>= f = .error e) : x = .error e ∨ ∃ a, x = .ok a ∧ f a = .error e := by
  cases x with
  | error e' =>
      obtain rfl : e' = e := Except.error.inj h
      exact Or.inl rfl
  | ok a => exact Or.inr ⟨a, rfl, h⟩

/-- A successful traversal succeeds at every element. -/
theorem forall₂_of_mapM_eq_ok (h : xs.mapM f = .ok ys) :
    List.Forall₂ (fun x y => f x = .ok y) xs ys := by
  induction xs generalizing ys with
  | nil =>
      have hys : ys = [] := by simpa [pure, Except.pure, eq_comm] using h
      rw [hys]
      exact .nil
  | cons x xs ih =>
      rw [List.mapM_cons] at h
      cases hx : f x with
      | error e => simp [hx, bind, Except.bind] at h
      | ok y =>
          cases hrest : xs.mapM f with
          | error e => simp [hx, hrest, bind, Except.bind] at h
          | ok rest =>
              have hys : ys = y :: rest := by
                simpa [hx, hrest, bind, Except.bind, pure, Except.pure, eq_comm] using h
              rw [hys]
              exact .cons hx (ih hrest)

/-- A traversal succeeds exactly if it succeeds at every element. -/
theorem mapM_eq_ok_iff :
    xs.mapM f = .ok ys ↔ List.Forall₂ (fun x y => f x = .ok y) xs ys := by
  refine ⟨forall₂_of_mapM_eq_ok, fun h => ?_⟩
  induction h with
  | nil => rfl
  | @cons x y xs ys hx _ ih =>
      rw [List.mapM_cons, hx, ih]
      rfl

/-- **The failure of a traversal** is the failure at the first element that fails. -/
theorem exists_first_of_mapM_eq_error {e : ε} (h : xs.mapM f = .error e) :
    ∃ before x after, xs = before ++ x :: after ∧ f x = .error e ∧
      ∀ y ∈ before, ∃ b, f y = .ok b := by
  induction xs with
  | nil => simp [pure, Except.pure] at h
  | cons x xs ih =>
      rw [List.mapM_cons] at h
      cases hx : f x with
      | error e' =>
          have he : e' = e := by simpa [hx, bind, Except.bind] using h
          exact ⟨[], x, xs, rfl, he ▸ hx, by simp⟩
      | ok y =>
          cases hrest : xs.mapM f with
          | error e' =>
              have he : e' = e := by simpa [hx, hrest, bind, Except.bind] using h
              obtain ⟨before, z, after, rfl, hz, hbefore⟩ := ih (he ▸ hrest)
              refine ⟨x :: before, z, after, rfl, hz, ?_⟩
              intro w hw
              rcases List.mem_cons.1 hw with rfl | hw
              · exact ⟨y, hx⟩
              · exact hbefore w hw
          | ok rest => simp [hx, hrest, bind, Except.bind, pure, Except.pure] at h

/-- A traversal fails as the first element does at which it fails. -/
theorem mapM_eq_error_iff {e : ε} :
    xs.mapM f = .error e ↔ ∃ before x after, xs = before ++ x :: after ∧ f x = .error e ∧
      ∀ y ∈ before, ∃ b, f y = .ok b := by
  refine ⟨exists_first_of_mapM_eq_error, ?_⟩
  rintro ⟨before, x, after, rfl, hx, hbefore⟩
  induction before with
  | nil =>
      rw [List.nil_append, List.mapM_cons, hx]
      rfl
  | cons y before ih =>
      obtain ⟨b, hb⟩ := hbefore y List.mem_cons_self
      rw [List.cons_append, List.mapM_cons, hb,
        ih fun z hz => hbefore z (List.mem_cons_of_mem _ hz)]
      rfl

/-- The failure of a traversal is the failure at one of the elements. -/
theorem exists_of_mapM_eq_error {e : ε} (h : xs.mapM f = .error e) :
    ∃ x ∈ xs, f x = .error e := by
  obtain ⟨before, x, after, rfl, hx, -⟩ := exists_first_of_mapM_eq_error h
  exact ⟨x, by simp, hx⟩

/-- **Two traversals** of which one comes to the images of what the other comes to. -/
theorem mapM_map_eq {α' β' : Type} {f' : α' → Except ε β'} {source : α → α'} {image : β → β'}
    (h : ∀ x ∈ xs, f' (source x) = (f x).map image) :
    (xs.map source).mapM f' = (xs.mapM f).map (List.map image) := by
  induction xs with
  | nil => rfl
  | cons x xs ih =>
      rw [List.map_cons, List.mapM_cons, List.mapM_cons, h x List.mem_cons_self,
        ih fun y hy => h y (List.mem_cons_of_mem _ hy)]
      cases f x with
      | error e => rfl
      | ok y =>
          cases xs.mapM f with
          | error e => rfl
          | ok rest => rfl

/-- **Two traversals** that succeed alike and of which one fails with the images of the errors
of the other. -/
theorem mapM_eq_mapError {ε' : Type} {f' : α → Except ε' β} {image : ε → ε'}
    (h : ∀ x ∈ xs, f' x = (f x).mapError image) :
    xs.mapM f' = (xs.mapM f).mapError image := by
  induction xs with
  | nil => rfl
  | cons x xs ih =>
      rw [List.mapM_cons, List.mapM_cons, h x List.mem_cons_self,
        ih fun y hy => h y (List.mem_cons_of_mem _ hy)]
      cases f x with
      | error e => rfl
      | ok y =>
          cases xs.mapM f with
          | error e => rfl
          | ok rest => rfl

/-- A traversal of images succeeds if they succeed as their sources do. -/
theorem mapM_map_eq_ok {α' : Type} (f' : α' → Except ε β) (source : α → α')
    (h : ∀ x ∈ xs, ∀ y, f x = .ok y → f' (source x) = .ok y) (hok : xs.mapM f = .ok ys) :
    (xs.map source).mapM f' = .ok ys := by
  induction xs generalizing ys with
  | nil =>
      rw [← Except.ok.inj hok]
      rfl
  | cons x xs ih =>
      rw [List.mapM_cons] at hok
      obtain ⟨y, hy, hok⟩ := exists_of_bind_eq_ok hok
      obtain ⟨rest, hrest, hok⟩ := exists_of_bind_eq_ok hok
      rw [List.map_cons, List.mapM_cons, h x List.mem_cons_self y hy,
        ih (fun z hz => h z (List.mem_cons_of_mem _ hz)) hrest, ← Except.ok.inj hok]
      rfl

/-- Every element on the right of a pointwise relation has its partner. -/
theorem exists_left_of_mem {r : α → β → Prop} (h : List.Forall₂ r xs ys) {y : β}
    (hy : y ∈ ys) : ∃ x ∈ xs, r x y := by
  induction h with
  | nil => cases hy
  | @cons x y' xs ys hxy _ ih =>
      rcases List.mem_cons.1 hy with rfl | hy
      · exact ⟨x, List.mem_cons_self, hxy⟩
      · obtain ⟨z, hz, hzy⟩ := ih hy
        exact ⟨z, List.mem_cons_of_mem _ hz, hzy⟩

/-- Partners stand at the same place. -/
theorem exists_getElem?_of_forall₂ {r : α → β → Prop} (h : List.Forall₂ r xs ys) {i : Nat}
    {x : α} (hx : xs[i]? = some x) : ∃ y, ys[i]? = some y ∧ r x y := by
  induction h generalizing i with
  | nil => simp at hx
  | @cons x' y xs ys hxy _ ih =>
      cases i with
      | zero =>
          have hx' : x' = x := by simpa using hx
          exact ⟨y, by simp, hx' ▸ hxy⟩
      | succ i => simpa using ih (by simpa using hx)

end CanonicalLR
