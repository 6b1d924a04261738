import CanonicalLR.Derivation
import CanonicalLR.Proofs.Grammar.Augmented

/-!
# Derivations read bottom-up

A shift-reduce parser meets a derivation from its leaves: it reads the word
from left to right and names a rule as soon as the right-hand side of the rule
has been read. `Grammar.Yields` describes a derivation in this order, with the
rules in the order of their reductions, and is the relation along which the
runs of the parser are followed. A rightmost derivation is the same thing read
backwards.

## Main definitions

* `Grammar.Yields` — symbols and a word derived from them, with the reductions.

## Main results

* `Yields.of_append` — what two strings of symbols yield together, they yield
  one after the other.
* `DerivesRightmost.yields`, `Yields.derivesRightmost` — a rightmost derivation of a
  word is its reductions, read backwards.
* `Derives.exists_yields` — every derivation of a word can be read bottom-up.
* `Yields.augment`, `Yields.of_augment` — a derivation in the declared grammar is one
  in the augmented grammar.
* `isSentence_of_augment` — the augmented grammar derives no other words.
-/

namespace CanonicalLR.Grammar

/-- `g.Yields ids α w`: the symbols `α` derive the word `w`, and reducing `w` to
`α` from left to right uses the rules with the numbers `ids` in this order. -/
inductive Yields (g : Grammar) : List Nat → List Nat → List Nat → Prop where
  | nil : g.Yields [] [] []
  | terminal {a : Nat} {ids α w : List Nat} (kind : g.symbols.kind? a = some .terminal)
      (later : g.Yields ids α w) : g.Yields ids (a :: α) (a :: w)
  | rule {r : Rule} {ids more v α w : List Nat} (rule : r ∈ g.rules)
      (inner : g.Yields ids r.rhs v) (later : g.Yields more α w) :
      g.Yields (ids ++ r.id :: more) (r.lhs :: α) (v ++ w)

variable {g : Grammar} {ids more α β v w : List Nat}

/-! ## Words -/

/-- What is yielded is a word. -/
theorem Yields.isWord (h : g.Yields ids α w) : g.IsWord w := by
  induction h with
  | nil => intro symbol hs; cases hs
  | terminal kind _ ih =>
      intro symbol hs
      rcases List.mem_cons.1 hs with rfl | hs
      · exact kind
      · exact ih symbol hs
  | rule _ _ _ ihInner ihLater => exact ihInner.append ihLater

/-- A word yields itself without reductions. -/
theorem IsWord.yields (h : g.IsWord w) : g.Yields [] w w := by
  induction w with
  | nil => exact .nil
  | cons a w ih =>
      have hw : g.IsWord w := fun symbol hs => h symbol (List.mem_cons_of_mem _ hs)
      exact .terminal (h a List.mem_cons_self) (ih hw)

/-- If no rule derives a terminal, a word yields nothing but itself. -/
theorem Yields.eq_of_isWord
    (hlhs : ∀ r ∈ g.rules, g.symbols.kind? r.lhs ≠ some .terminal)
    (h : g.Yields ids v w) (hv : g.IsWord v) : ids = [] ∧ w = v := by
  induction h with
  | nil => exact ⟨rfl, rfl⟩
  | terminal _ _ ih =>
      obtain ⟨hids, hw⟩ := ih fun symbol hs => hv symbol (List.mem_cons_of_mem _ hs)
      exact ⟨hids, by rw [hw]⟩
  | @rule r _ _ _ _ _ hr _ _ _ _ =>
      exact absurd (hv r.lhs List.mem_cons_self) (hlhs r hr)

/-! ## Division -/

/-- What two strings of symbols yield together, they yield one after the other. -/
theorem Yields.of_append (h : g.Yields ids (α ++ β) w) :
    ∃ first second u v, ids = first ++ second ∧ w = u ++ v ∧
      g.Yields first α u ∧ g.Yields second β v := by
  generalize hγ : α ++ β = γ at h
  induction h generalizing α with
  | nil =>
      obtain ⟨rfl, rfl⟩ := List.append_eq_nil_iff.1 hγ
      exact ⟨[], [], [], [], rfl, rfl, .nil, .nil⟩
  | @terminal a ids γ w kind later ih =>
      cases α with
      | nil =>
          obtain rfl : β = a :: γ := hγ
          exact ⟨[], ids, [], a :: w, rfl, rfl, .nil, .terminal kind later⟩
      | cons b α =>
          obtain ⟨rfl, htail⟩ := List.cons_eq_cons.1 hγ
          obtain ⟨first, second, u, v, rfl, rfl, hu, hv⟩ := ih htail
          exact ⟨first, second, b :: u, v, rfl, rfl, .terminal kind hu, hv⟩
  | @rule r inner more x γ w hr hinner later _ ih =>
      cases α with
      | nil =>
          obtain rfl : β = r.lhs :: γ := hγ
          exact ⟨[], _, [], _, rfl, rfl, .nil, .rule hr hinner later⟩
      | cons b α =>
          obtain ⟨rfl, htail⟩ := List.cons_eq_cons.1 hγ
          obtain ⟨first, second, u, v, rfl, rfl, hu, hv⟩ := ih htail
          refine ⟨inner ++ r.id :: first, second, x ++ u, v, ?_, ?_, .rule hr hinner hu, hv⟩
          · simp
          · simp

/-- Two yields side by side. -/
theorem Yields.append (left : g.Yields ids α v) (right : g.Yields more β w) :
    g.Yields (ids ++ more) (α ++ β) (v ++ w) := by
  induction left with
  | nil => exact right
  | terminal kind _ ih => exact .terminal kind ih
  | @rule r inner later x γ u hr hinner _ _ ih =>
      have h := Yields.rule hr hinner ih
      simpa using h

/-- No symbols yield the empty word, without reductions. -/
theorem Yields.eq_nil (h : g.Yields ids [] w) : ids = [] ∧ w = [] := by
  cases h
  exact ⟨rfl, rfl⟩

/-- Putting a left-hand side in the place of its right-hand side. -/
theorem Yields.replace {r : Rule} (hr : r ∈ g.rules)
    (h : g.Yields ids (α ++ r.rhs ++ β) w) :
    ∃ first second v, ids = first ++ second ∧ g.Yields second β v ∧
      g.Yields (first ++ r.id :: second) (α ++ r.lhs :: β) w := by
  obtain ⟨front, second, x, v, rfl, rfl, hfront, hβ⟩ := h.of_append
  obtain ⟨left, inner, y, z, rfl, rfl, hα, hrhs⟩ := hfront.of_append
  refine ⟨left ++ inner, second, v, rfl, hβ, ?_⟩
  have hreduced := hα.append (Yields.rule hr hrhs hβ)
  simpa using hreduced

/-! ## Derivations -/

/-- **A rightmost derivation of a word, read backwards**, is its reductions from
left to right. -/
theorem DerivesRightmost.yields
    (hlhs : ∀ r ∈ g.rules, g.symbols.kind? r.lhs ≠ some .terminal)
    (h : g.DerivesRightmost ids α w) (hw : g.IsWord w) : g.Yields ids.reverse α w := by
  induction h with
  | nil => exact hw.yields
  | cons hr hword _ ih =>
      obtain ⟨first, second, _, hids, hsecond, hreduced⟩ := (ih hw).replace hr
      obtain ⟨rfl, -⟩ := hsecond.eq_of_isWord hlhs hword
      rw [List.reverse_cons, hids, List.append_nil]
      exact hreduced

/-- Reductions, read backwards, are a rightmost derivation. -/
theorem Yields.derivesRightmost (h : g.Yields ids α w) :
    g.DerivesRightmost ids.reverse α w := by
  induction h with
  | nil => exact .nil []
  | @terminal a _ _ _ _ _ ih => exact ih.append_left [a]
  | @rule r ids more v α w hr _ later ihInner ihLater =>
      have hright : g.DerivesRightmost more.reverse (r.lhs :: α) (r.lhs :: w) :=
        ihLater.append_left [r.lhs]
      have hinner := ihInner.append_word later.isWord
      have hrule : g.DerivesRightmost (r.id :: ids.reverse) ([] ++ r.lhs :: w) (v ++ w) :=
        .cons hr later.isWord hinner
      have hall := hright.trans hrule
      simpa using hall

/-- Every derivation of a word can be read bottom-up. -/
theorem Derives.exists_yields (h : g.Derives α w) (hw : g.IsWord w) :
    ∃ ids, g.Yields ids α w := by
  induction h with
  | refl => exact ⟨[], hw.yields⟩
  | step hr _ ih =>
      obtain ⟨ids, hids⟩ := ih hw
      obtain ⟨first, second, _, -, -, hreduced⟩ := hids.replace hr
      exact ⟨_, hreduced⟩

/-! ## Augmentation -/

/-- A rightmost derivation from the added start symbol has not begun, or goes on
from the declared one. -/
theorem IsAugmented.cases_of_derivesRightmost_start (hg : g.IsAugmented)
    (h : g.DerivesRightmost ids [g.start] α) :
    α = [g.start] ∨ ∃ more, g.DerivesRightmost more (g.rule 0).rhs α := by
  generalize hφ : [g.start] = φ at h
  cases h with
  | nil => exact Or.inl rfl
  | @cons r ids front back γ hr _ later =>
      rcases List.singleton_eq_append_iff.1 hφ with ⟨rfl, hback⟩ | ⟨_, hback⟩
      · obtain ⟨hlhs, rfl⟩ := List.cons_eq_cons.1 hback
        have hid := hg.id_of_lhs_eq_start r hr hlhs
        rw [← hid, hg.rule_eq_of_mem hr]
        rw [List.nil_append, List.append_nil] at later
        exact Or.inr ⟨ids, later⟩
      · cases hback

/-- A word remains one in the augmented grammar. -/
theorem IsWord.augment (h : g.IsWord w) : g.augment.IsWord w :=
  fun symbol hmem => kind?_augment_eq_some_iff.2 (Or.inl (h symbol hmem))

/-- The terminals keep their names. -/
theorem IsWord.map_name_augment (h : g.IsWord w) :
    w.map g.augment.symbols.name = w.map g.symbols.name :=
  List.map_congr_left fun symbol hmem => name_augment (lt_size_of_kind? (h symbol hmem))

/-- A declared rule is one of the augmented grammar, with the next number. -/
theorem mem_rules_augment {r : Rule} (hr : r ∈ g.rules) :
    (⟨r.id + 1, r.lhs, r.rhs⟩ : Rule) ∈ g.augment.rules := by
  obtain ⟨i, hi⟩ := Array.getElem?_of_mem hr
  apply Array.mem_of_getElem? (i := i + 1)
  rw [getElem?_rules_augment]
  simp [hi]

/-- A derivation remains one in the augmented grammar. -/
theorem Derives.augment (h : g.Derives α β) : g.augment.Derives α β := by
  induction h with
  | refl => exact .refl _
  | @step r _ _ _ hr _ ih =>
      exact .step (r := ⟨r.id + 1, r.lhs, r.rhs⟩) (mem_rules_augment hr) ih

/-- A derivation remains one in the augmented grammar, where every declared rule
has the next number. -/
theorem Yields.augment (h : g.Yields ids α w) :
    g.augment.Yields (ids.map (· + 1)) α w := by
  induction h with
  | nil => exact .nil
  | terminal kind _ ih =>
      exact .terminal (kind?_augment_eq_some_iff.2 (Or.inl kind)) ih
  | @rule r ids more v α w hr _ _ ihInner ihLater =>
      have hreduced := Yields.rule (mem_rules_augment hr) ihInner ihLater
      simpa using hreduced

/-- A derivation in the augmented grammar is one of the declared grammar, unless it
derives the added start symbol. -/
theorem Yields.of_augment (hg : g.WellFormed) (h : g.augment.Yields ids α w)
    (hα : ∀ symbol ∈ α, symbol ≠ g.augment.start) :
    ∃ declared, ids = declared.map (· + 1) ∧ g.Yields declared α w := by
  induction h with
  | nil => exact ⟨[], rfl, .nil⟩
  | terminal kind _ ih =>
      obtain ⟨declared, hids, hyields⟩ :=
        ih fun symbol hs => hα symbol (List.mem_cons_of_mem _ hs)
      rcases kind?_augment_eq_some_iff.1 kind with kind | ⟨_, hk⟩
      · exact ⟨declared, hids, .terminal kind hyields⟩
      · cases hk
  | @rule r ids more v α w hr _ _ ihInner ihLater =>
      have hlhs : r.lhs ≠ g.augment.start := hα r.lhs List.mem_cons_self
      obtain ⟨i, hi⟩ := Array.getElem?_of_mem hr
      rw [getElem?_rules_augment] at hi
      cases i with
      | zero =>
          obtain rfl := Option.some.inj hi
          exact absurd rfl hlhs
      | succ i =>
          obtain ⟨d, hd, rfl⟩ := Option.map_eq_some_iff.1 hi
          have hrhs : ∀ symbol ∈ d.rhs, symbol ≠ g.augment.start := by
            intro symbol hs
            have hkind := hg.rhs_kind d (Array.mem_of_getElem? hd) symbol hs
            rcases hkind with hk | hk
            · exact Nat.ne_of_lt (lt_size_of_kind? hk)
            · exact Nat.ne_of_lt (lt_size_of_kind? hk)
          obtain ⟨inner, hinner, hyields⟩ := ihInner hrhs
          obtain ⟨outer, houter, hlater⟩ :=
            ihLater fun symbol hs => hα symbol (List.mem_cons_of_mem _ hs)
          refine ⟨inner ++ d.id :: outer, ?_, .rule (Array.mem_of_getElem? hd) hyields hlater⟩
          rw [hinner, houter]
          simp

/-- A word that the added start symbol derives is a sentence of the declared grammar. -/
theorem WellFormed.isSentence_of_augment (hg : g.WellFormed) (hw : g.augment.IsWord w)
    (h : g.augment.Derives [g.augment.start] w) : g.IsSentence w := by
  obtain ⟨all, hall⟩ := h.exists_yields hw
  rcases hg.isAugmented.cases_of_derivesRightmost_start hall.derivesRightmost with
    rfl | ⟨more, hlater⟩
  · have hkind := hw g.augment.start List.mem_cons_self
    rw [hg.isAugmented.start_kind_iff.2 rfl] at hkind
    cases hkind
  · rw [rule_augment_zero] at hlater
    obtain ⟨ids, hids⟩ := hlater.derives.exists_yields hw
    obtain ⟨declared, -, hyields⟩ := hids.of_augment hg fun symbol hmem =>
      Nat.ne_of_lt (List.mem_singleton.1 hmem ▸ lt_size_of_kind? hg.start_kind)
    exact ⟨hyields.isWord, hyields.derivesRightmost.derives⟩

end CanonicalLR.Grammar
