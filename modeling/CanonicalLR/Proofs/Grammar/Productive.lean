import CanonicalLR.Proofs.Sets.FirstSound

/-!
# Productive grammars

In a productive grammar every string of symbols derives a word, so a derivation
that has come to any place can be brought to an end. This is what turns a
member of a FIRST set into a word that begins with it, and a lookahead into a
derivation in which it really follows.

## Main definitions

* `Grammar.IsForm` — strings of terminals and non-terminals.
* `Grammar.nested` — opening and closing symbols around each other, a productive
  grammar.

## Main results

* `IsProductive.exists_yields` — every form derives a word.
* `isProductive_augment` — augmentation keeps a grammar productive.
* `IsProductive.exists_yields_of_mem_lookaheads` — a lookahead behind some symbols
  is the start of a word derived from them, or follows them if they derive nothing.
-/

namespace CanonicalLR.Grammar

variable {g : Grammar} {α β w : List Nat} {a b : Nat}

/-! ## Forms -/

/-- A string of terminals and non-terminals. -/
def IsForm (g : Grammar) (α : List Nat) : Prop :=
  ∀ symbol ∈ α, g.symbols.kind? symbol = some .terminal ∨
    g.symbols.isNonTerminal symbol = true

theorem IsForm.append (hα : g.IsForm α) (hβ : g.IsForm β) : g.IsForm (α ++ β) := by
  intro symbol hmem
  rcases List.mem_append.1 hmem with h | h
  · exact hα symbol h
  · exact hβ symbol h

theorem IsForm.of_append (h : g.IsForm (α ++ β)) : g.IsForm α ∧ g.IsForm β := by
  refine ⟨fun symbol hmem => ?_, fun symbol hmem => ?_⟩
  · exact h symbol (List.mem_append_left _ hmem)
  · exact h symbol (List.mem_append_right _ hmem)

/-- The right-hand side of a rule is a form. -/
theorem IsAugmented.isForm_rhs (hg : g.IsAugmented) {r : Rule} (hr : r ∈ g.rules) :
    g.IsForm r.rhs := by
  intro symbol hmem
  rcases hg.rhs_kind r hr symbol hmem with hk | hk
  · exact Or.inl hk
  · exact Or.inr (isNonTerminal_iff.2 (Or.inl hk))

/-- What a form derives is a form. -/
theorem IsAugmented.isForm_of_derives (hg : g.IsAugmented) (h : g.Derives α β)
    (hα : g.IsForm α) : g.IsForm β := by
  induction h with
  | refl => exact hα
  | @step r left right _ hr _ ih =>
      obtain ⟨hleft, hrest⟩ := IsForm.of_append hα
      have hright : g.IsForm right := fun symbol hmem =>
        hrest symbol (List.mem_cons_of_mem _ hmem)
      exact ih ((hleft.append (hg.isForm_rhs hr)).append hright)

/-- What heads an ACTION column is a terminal where it stands in a form. -/
theorem IsAugmented.kind?_of_isTerminal (hg : g.IsAugmented) (hα : g.IsForm α) (hmem : a ∈ α)
    (h : g.symbols.isTerminal a = true) : g.symbols.kind? a = some .terminal := by
  rcases hg.isTerminal_iff.1 h with hk | rfl
  · exact hk
  · have hend := hg.end_kind_iff.2 rfl
    rcases hα endId hmem with hk | hk
    · exact hk
    · have hcases := isNonTerminal_iff.1 hk
      simp [hend] at hcases

/-! ## Words of forms -/

/-- **Every form derives a word** in a productive grammar. -/
theorem IsProductive.exists_yields (hp : g.IsProductive) (hα : g.IsForm α) :
    ∃ ids w, g.Yields ids α w := by
  induction α with
  | nil => exact ⟨[], [], .nil⟩
  | cons symbol α ih =>
      obtain ⟨ids, w, hrest⟩ := ih fun other hmem => hα other (List.mem_cons_of_mem _ hmem)
      rcases hα symbol List.mem_cons_self with hk | hk
      · exact ⟨ids, symbol :: w, .terminal hk hrest⟩
      · obtain ⟨v, hv, hderives⟩ := hp symbol hk
        obtain ⟨first, hfirst⟩ := hderives.exists_yields hv
        exact ⟨first ++ ids, v ++ w, hfirst.append hrest⟩

/-- The added start symbol derives the declared one. -/
theorem derives_start_augment (g : Grammar) :
    g.augment.Derives [g.augment.start] [g.start] := by
  have hrule : (⟨0, g.augment.start, [g.start]⟩ : Rule) ∈ g.augment.rules :=
    Array.mem_of_getElem? (getElem?_rules_augment 0)
  exact .of_rule hrule

/-- Augmentation keeps a grammar productive. -/
theorem WellFormed.isProductive_augment (hg : g.WellFormed) (hp : g.IsProductive) :
    g.augment.IsProductive := by
  have hdeclared : ∀ symbol, g.symbols.kind? symbol = some .nonTerminal →
      ∃ w, g.augment.IsWord w ∧ g.augment.Derives [symbol] w := by
    intro symbol hk
    obtain ⟨w, hw, hderives⟩ := hp symbol (IsAugmented.isNonTerminal_iff.2 (Or.inl hk))
    exact ⟨w, hw.augment, hderives.augment⟩
  intro symbol hsymbol
  rcases IsAugmented.isNonTerminal_iff.1 hsymbol with hk | hk
  · rcases kind?_augment_eq_some_iff.1 hk with hk | ⟨_, hk⟩
    · exact hdeclared symbol hk
    · cases hk
  · obtain rfl := hg.isAugmented.start_kind_iff.1 hk
    obtain ⟨w, hw, hderives⟩ := hdeclared g.start hg.start_kind
    exact ⟨w, hw, g.derives_start_augment.trans hderives⟩

/-! ## Lookaheads -/

/-- A form begins with terminals only, and is then the start of a word. -/
theorem IsProductive.exists_yields_of_begins (hg : g.IsAugmented) (hp : g.IsProductive)
    (hα : g.IsForm α) (h : g.Begins α a) (hterminal : g.symbols.isTerminal a = true)
    (hne : a ≠ epsilonId) : ∃ ids w, g.Yields ids α (a :: w) := by
  obtain ⟨β, hβ⟩ := h.exists_derives hne
  have hform := hg.isForm_of_derives hβ hα
  obtain ⟨ids, w, hw⟩ := hp.exists_yields fun symbol hmem =>
    hform symbol (List.mem_cons_of_mem _ hmem)
  have hkind := hg.kind?_of_isTerminal hform List.mem_cons_self hterminal
  have hword : g.Yields ids (a :: β) (a :: w) := .terminal hkind hw
  have hderives := hβ.trans hword.derivesRightmost.derives
  obtain ⟨all, hall⟩ := hderives.exists_yields hword.isWord
  exact ⟨all, w, hall⟩

/-- **A lookahead behind some symbols** is the start of a word derived from them, or
follows them where they derive the empty word. -/
theorem IsProductive.exists_yields_of_mem_lookaheads (hg : g.IsAugmented)
    (hp : g.IsProductive) (hα : g.IsForm α) (hε : ∀ symbol ∈ α, symbol ≠ epsilonId)
    (h : a ∈ g.first.lookaheads α b) : ∃ ids w, g.Yields ids α w ∧ a = w.headD b := by
  rcases SymbolSets.mem_lookaheads.1 h with ⟨ha, hne⟩ | ⟨hnull, rfl⟩
  · have hbegins := hg.isDerived_first.begins hε ha
    have hterminal := hg.isTerminal_of_mem_ofSequence ha hne
    obtain ⟨ids, w, hw⟩ := hp.exists_yields_of_begins hg hα hbegins hterminal hne
    exact ⟨ids, a :: w, hw, rfl⟩
  · have hbegins := hg.isDerived_first.begins hε hnull
    obtain ⟨ids, hids⟩ := hbegins.derives_nil.exists_yields isWord_nil
    exact ⟨ids, [], hids, rfl⟩

/-! ## A productive grammar -/

/-- The grammar `S -> a S b | ε`, whose words are as many `a` as `b` after them. -/
def nested : Grammar where
  symbols := ⟨#[⟨"ε", .epsilon⟩, ⟨"$", .endMarker⟩, ⟨"S", .nonTerminal⟩, ⟨"a", .terminal⟩,
    ⟨"b", .terminal⟩]⟩
  rules := #[⟨0, 2, [3, 2, 4]⟩, ⟨1, 2, []⟩]
  start := 2

theorem ofText_nested : ofText "S -> a S b | ε" = .ok nested := by decide +kernel

/-- The only non-terminal is the start symbol. -/
theorem eq_of_isNonTerminal_nested {symbol : Nat}
    (h : nested.symbols.isNonTerminal symbol = true) : symbol = 2 := by
  have hall : ∀ other < 5, nested.symbols.isNonTerminal other = true → other = 2 := by
    decide
  exact hall symbol (IsAugmented.lt_size_of_isNonTerminal h) h

theorem isProductive_nested : nested.IsProductive := by
  intro symbol hsymbol
  have hempty : (⟨1, 2, []⟩ : Rule) ∈ nested.rules := Array.mem_of_getElem? (i := 1) rfl
  rw [eq_of_isNonTerminal_nested hsymbol]
  exact ⟨[], isWord_nil, .of_rule hempty⟩

end CanonicalLR.Grammar
