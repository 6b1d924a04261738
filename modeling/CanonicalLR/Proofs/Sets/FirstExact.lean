import CanonicalLR.Proofs.Grammar.Productive
import CanonicalLR.Proofs.Sets.Passes
import Mathlib.Order.Bounds.Defs

/-!
# FIRST sets are exact

A terminal is in FIRST of a sequence exactly if a string derived from the sequence begins
with it, and `ε` exactly if the sequence derives the empty string. The strings need not
consist of terminals, so this holds of grammars with symbols that derive no word as well:
what the sequence derives in one step only loses members of FIRST, and so down to a string
whose first symbol is known. The sets are the least ones that satisfy the equations of the
rules, and the passes find them within the number of members that they can have.

## Main definitions

* `SymbolSets.SolvesFirst` — the equations of FIRST.
* `Grammar.FirstIsExact` — what is said of the FIRST sets of an augmented grammar.

## Main results

* `mem_ofSequence_of_derives` — FIRST of a string holds FIRST of what it derives.
* `mem_first_ofSequence_iff` — FIRST of a string against its derivations.
* `firstSaturation_ends` — the number of passes.
* `isLeast_first` — the equations have no smaller solution.
* `firstIsExact_augment` — the FIRST sets of every grammar text are exact.
-/

namespace CanonicalLR

/-! ## Definitions -/

/-- A family satisfies the equations of FIRST: a symbol without rules starts itself, and a
non-terminal starts as the right-hand sides of its rules do. -/
structure SymbolSets.SolvesFirst (s : SymbolSets) (g : Grammar) : Prop where
  size_eq : s.sets.size = g.symbols.size
  own : ∀ symbol < g.symbols.size, g.symbols.isNonTerminal symbol = false →
    s.get symbol = OrdSet.empty.insert symbol
  rules : ∀ symbol, g.symbols.isNonTerminal symbol = true → ∀ a,
    a ∈ s.get symbol ↔ ∃ r ∈ g.rulesOf symbol, a ∈ s.ofSequence r.rhs

/-- The passes over the rules of an augmented grammar end by themselves, on sets that say
exactly what derived strings begin with. -/
structure Grammar.FirstIsExact (g : Grammar) : Prop where
  /-- The repetition ends by itself. -/
  ends : g.firstSaturation.Ends g.firstPass g.firstSeed
  /-- There are no more passes than a set for each non-terminal, the added one included,
  can gain members, which are terminals and `ε`; and one. -/
  passes_le : g.firstSaturation.passes
    ≤ 1 + (g.nonTerminals.length + 1) * (g.terminals.length + 1)
  /-- A terminal is in FIRST of a string exactly if the string derives one that begins
  with it. -/
  terminal_mem_iff : ∀ σ t, g.IsForm σ → g.symbols.kind? t = some .terminal →
    (t ∈ g.first.ofSequence σ ↔ ∃ ρ, g.Derives σ (t :: ρ))
  /-- `ε` is in FIRST of a string exactly if the string derives the empty one. -/
  epsilon_mem_iff : ∀ σ, g.IsForm σ →
    (epsilonId ∈ g.first.ofSequence σ ↔ g.Derives σ [])
  /-- Nothing else is in FIRST of a string. -/
  terminal_or_epsilon : ∀ σ a, g.IsForm σ → a ∈ g.first.ofSequence σ →
    g.symbols.kind? a = some .terminal ∨ a = epsilonId
  /-- In particular neither the end marker nor a non-terminal is. -/
  not_mem : ∀ σ a, g.IsForm σ → a = endId ∨ g.symbols.isNonTerminal a = true →
    a ∉ g.first.ofSequence σ
  /-- The symbols that derive the empty string are known. -/
  isNullable_iff : ∀ symbol, symbol ≠ epsilonId →
    (g.first.isNullable symbol = true ↔ g.Derives [symbol] [])
  /-- The sets are the least ones that satisfy the equations of the rules. -/
  isLeast : IsLeast {s : SymbolSets | s.SolvesFirst g} g.first

/-! ## Monotonicity -/

namespace SymbolSets

variable {s t : SymbolSets} {α β before after : List Nat} {a : Nat}

/-- FIRST of a sequence grows with the sets of its symbols. -/
theorem mem_ofSequence_of_le (h : s ≤ t) (ha : a ∈ s.ofSequence α) :
    a ∈ t.ofSequence α := by
  induction α with
  | nil => exact mem_ofSequence_nil.2 (mem_ofSequence_nil.1 ha)
  | cons symbol α ih =>
      apply mem_ofSequence_cons.2
      rcases mem_ofSequence_cons.1 ha with ⟨ha, hne⟩ | ⟨hnull, ha⟩
      · exact Or.inl ⟨h.2 symbol a ha, hne⟩
      · exact Or.inr ⟨h.2 symbol epsilonId hnull, ih ha⟩

/-- A part of a sequence may be replaced by one with a larger FIRST set. -/
theorem mem_ofSequence_replace (h : ∀ a ∈ s.ofSequence α, a ∈ s.ofSequence β)
    (ha : a ∈ s.ofSequence (before ++ α ++ after)) :
    a ∈ s.ofSequence (before ++ β ++ after) := by
  rw [List.append_assoc] at ha ⊢
  have hright : ∀ b ∈ s.ofSequence (α ++ after), b ∈ s.ofSequence (β ++ after) := by
    intro b hb
    apply mem_ofSequence_append.2
    rcases mem_ofSequence_append.1 hb with ⟨hb, hne⟩ | ⟨hnull, hb⟩
    · exact Or.inl ⟨h b hb, hne⟩
    · exact Or.inr ⟨h epsilonId hnull, hb⟩
  apply mem_ofSequence_append.2
  rcases mem_ofSequence_append.1 ha with ha | ⟨hnull, ha⟩
  · exact Or.inl ha
  · exact Or.inr ⟨hnull, hright a ha⟩

end SymbolSets

namespace Grammar

variable {g : Grammar} {a : Nat}

/-- The terminals, and one more symbol. -/
def terminalsAnd (g : Grammar) (extra : Nat) : Finset Nat := insert extra g.terminals.toFinset

theorem mem_terminalsAnd {extra : Nat} :
    a ∈ g.terminalsAnd extra ↔ g.symbols.kind? a = some .terminal ∨ a = extra := by
  unfold terminalsAnd terminals
  rw [Finset.mem_insert, List.mem_toFinset, SymbolTable.mem_idsOfKind, or_comm]

theorem card_terminalsAnd_le (g : Grammar) (extra : Nat) :
    (g.terminalsAnd extra).card ≤ g.terminals.length + 1 :=
  (Finset.card_insert_le _ _).trans (Nat.succ_le_succ (List.toFinset_card_le _))

theorem card_terminalsAnd_le_size {extra : Nat} (hextra : extra < g.symbols.size) :
    (g.terminalsAnd extra).card ≤ g.symbols.size := by
  rw [← Finset.card_range g.symbols.size]
  apply Finset.card_le_card
  intro a ha
  apply Finset.mem_range.2
  rcases mem_terminalsAnd.1 ha with hk | rfl
  · exact lt_size_of_kind? hk
  · exact hextra

end Grammar

namespace Grammar.IsAugmented

open SymbolSets

variable {g : Grammar} {α β : List Nat} {symbol a : Nat} (hg : g.IsAugmented)

include hg

/-- A form has no symbol `ε` in it. -/
theorem ne_epsilonId_of_isForm (hα : g.IsForm α) : ∀ symbol ∈ α, symbol ≠ epsilonId := by
  intro symbol hmem
  rcases hα symbol hmem with hk | hk
  · exact hg.ne_epsilonId_of_terminal hk
  · exact hg.ne_epsilonId_of_isNonTerminal hk

omit hg in
/-- A non-terminal alone is a form. -/
theorem isForm_singleton (h : g.symbols.isNonTerminal symbol = true) : g.IsForm [symbol] :=
  fun _ hmem => Or.inr (List.mem_singleton.1 hmem ▸ h)

/-! ## The members of the sets -/

theorem mem_toFinset_gotoColumns :
    symbol ∈ g.gotoColumns.toFinset ↔ g.symbols.isNonTerminal symbol = true := by
  rw [List.mem_toFinset, hg.mem_gotoColumns]

/-- Sets that have grown at non-terminals hold beginnings of forms. -/
theorem terminal_or_epsilon_of_mem_ofSequence {s : SymbolSets}
    (hs : s.GrownFrom g.firstSeed g.gotoColumns.toFinset (g.terminalsAnd epsilonId))
    (hα : g.IsForm α) (ha : a ∈ s.ofSequence α) : a ∈ g.terminalsAnd epsilonId := by
  induction α with
  | nil => exact mem_terminalsAnd.2 (Or.inr (mem_ofSequence_nil.1 ha))
  | cons symbol α ih =>
      rcases mem_ofSequence_cons.1 ha with ⟨ha, _⟩ | ⟨_, ha⟩
      · rcases hα symbol List.mem_cons_self with hk | hk
        · have hout : symbol ∉ g.gotoColumns.toFinset :=
            mt hg.mem_toFinset_gotoColumns.1 (not_isNonTerminal_of_terminal hk)
          rw [hs.get_eq hout] at ha
          obtain ⟨_, _, rfl⟩ := mem_get_firstSeed.1 ha
          exact mem_terminalsAnd.2 (Or.inl hk)
        · exact hs.mem (hg.mem_toFinset_gotoColumns.2 hk) ha
      · exact ih (fun other hmem => hα other (List.mem_cons_of_mem _ hmem)) ha

/-- Before the first pass the sets of the non-terminals are empty. -/
theorem grownFrom_firstSeed :
    g.firstSeed.GrownFrom g.firstSeed g.gotoColumns.toFinset (g.terminalsAnd epsilonId) := by
  refine ⟨rfl, fun _ => rfl, fun {symbol a} hsymbol ha => ?_⟩
  obtain ⟨_, hk, _⟩ := mem_get_firstSeed.1 ha
  rw [hg.mem_toFinset_gotoColumns.1 hsymbol] at hk
  cases hk

/-- A pass adds beginnings at non-terminals. -/
theorem grownFrom_firstPass {s : SymbolSets}
    (hs : s.GrownFrom g.firstSeed g.gotoColumns.toFinset (g.terminalsAnd epsilonId)) :
    (g.firstPass s).GrownFrom g.firstSeed g.gotoColumns.toFinset
      (g.terminalsAnd epsilonId) := by
  unfold firstPass
  rw [← Array.foldl_toList]
  refine List.foldlRecOn (motive := fun s => GrownFrom s _ _ _) g.rules.toList _ hs ?_
  intro s hs r hr
  have hr := Array.mem_toList_iff.1 hr
  have hlhs := hg.mem_toFinset_gotoColumns.2 (hg.lhs_isNonTerminal r hr)
  exact hs.extend hlhs fun a ha =>
    hg.terminal_or_epsilon_of_mem_ofSequence hs (hg.isForm_rhs hr) ha

theorem grownFrom_first :
    g.first.GrownFrom g.firstSeed g.gotoColumns.toFinset (g.terminalsAnd epsilonId) := by
  have hkeeps : ∀ s : SymbolSets,
      s.GrownFrom g.firstSeed g.gotoColumns.toFinset (g.terminalsAnd epsilonId) →
        (g.firstPass s).GrownFrom g.firstSeed g.gotoColumns.toFinset
          (g.terminalsAnd epsilonId) :=
    fun _ hs => hg.grownFrom_firstPass hs
  exact saturate_invariant hkeeps g.passCap hg.grownFrom_firstSeed

/-- A symbol without rules keeps the set with which it started. -/
theorem first_get_eq (hk : ¬ g.symbols.isNonTerminal symbol = true) :
    g.first.get symbol = g.firstSeed.get symbol :=
  hg.grownFrom_first.get_eq (mt hg.mem_toFinset_gotoColumns.1 hk)

/-! ## The number of passes -/

/-- There are fewer non-terminals than symbols, because `ε` is none. -/
theorem card_gotoColumns_lt : g.gotoColumns.toFinset.card < g.symbols.size := by
  have hε := lt_size_of_kind? (hg.epsilon_kind_iff.2 rfl)
  have hsub : g.gotoColumns.toFinset ⊆ (Finset.range g.symbols.size).erase epsilonId := by
    intro symbol hsymbol
    have hk := hg.mem_toFinset_gotoColumns.1 hsymbol
    have hne := hg.ne_epsilonId_of_isNonTerminal hk
    exact Finset.mem_erase.2 ⟨hne, Finset.mem_range.2 (lt_size_of_isNonTerminal hk)⟩
  have hcard := Finset.card_le_card hsub
  rw [Finset.card_erase_of_mem (Finset.mem_range.2 hε), Finset.card_range] at hcard
  omega

/-- **Passes that add terminals and one more symbol at non-terminals** end by themselves,
and soon. -/
theorem saturate_passCap_ends {pass : SymbolSets → SymbolSets} {seed : SymbolSets}
    {extra : Nat} (hextra : extra < g.symbols.size) (grows : ∀ s, s ≤ pass s)
    (keeps : ∀ s : SymbolSets,
      s.GrownFrom seed g.gotoColumns.toFinset (g.terminalsAnd extra) →
        (pass s).GrownFrom seed g.gotoColumns.toFinset (g.terminalsAnd extra))
    (hseed : seed.GrownFrom seed g.gotoColumns.toFinset (g.terminalsAnd extra)) :
    (saturate pass g.passCap seed).passes
        ≤ 1 + (g.nonTerminals.length + 1) * (g.terminals.length + 1) ∧
      (saturate pass g.passCap seed).Ends pass seed := by
  have hcolumns := hg.card_gotoColumns_lt
  have hpool := card_terminalsAnd_le_size hextra
  have hpos : 0 < g.symbols.size := by omega
  have hmul : g.gotoColumns.toFinset.card * (g.terminalsAnd extra).card
      < g.symbols.size * g.symbols.size :=
    calc g.gotoColumns.toFinset.card * (g.terminalsAnd extra).card
        ≤ g.gotoColumns.toFinset.card * g.symbols.size := Nat.mul_le_mul_left _ hpool
      _ < g.symbols.size * g.symbols.size := Nat.mul_lt_mul_of_pos_right hcolumns hpos
  have hroom : g.gotoColumns.toFinset.card * (g.terminalsAnd extra).card + 1 < g.passCap := by
    unfold passCap
    omega
  obtain ⟨hpasses, hends⟩ := saturate_ends_of_grownFrom grows keeps hseed hroom
  have hbound : g.gotoColumns.toFinset.card * (g.terminalsAnd extra).card
      ≤ (g.nonTerminals.length + 1) * (g.terminals.length + 1) :=
    Nat.mul_le_mul (List.toFinset_card_le _) (g.card_terminalsAnd_le extra)
  exact ⟨by omega, hends⟩

/-- **The passes for FIRST** end by themselves, and soon. -/
theorem firstSaturation_ends :
    g.firstSaturation.passes ≤ 1 + (g.nonTerminals.length + 1) * (g.terminals.length + 1) ∧
      g.firstSaturation.Ends g.firstPass g.firstSeed :=
  hg.saturate_passCap_ends (lt_size_of_kind? (hg.epsilon_kind_iff.2 rfl)) g.le_firstPass
    (fun _ hs => hg.grownFrom_firstPass hs) hg.grownFrom_firstSeed

/-! ## FIRST and derivations -/

/-- **FIRST of a string** holds FIRST of all that the string derives. -/
theorem mem_ofSequence_of_derives (h : g.Derives α β) (ha : a ∈ g.first.ofSequence β) :
    a ∈ g.first.ofSequence α := by
  induction h with
  | refl => exact ha
  | @step r before after _ hr _ ih =>
      have hrule : ∀ b ∈ g.first.ofSequence r.rhs, b ∈ g.first.ofSequence [r.lhs] :=
        fun b hb => mem_ofSequence_singleton.2 (hg.mem_first_of_rule hr hb)
      have hmem := mem_ofSequence_replace hrule (ih ha)
      simpa using hmem

/-- **FIRST and derivations**: the members of FIRST of a form are the terminals with which
derived strings begin, and `ε` if one of these is empty. -/
theorem mem_first_ofSequence_iff (hα : g.IsForm α) :
    a ∈ g.first.ofSequence α ↔
      (g.symbols.kind? a = some .terminal ∧ ∃ ρ, g.Derives α (a :: ρ)) ∨
        (a = epsilonId ∧ g.Derives α []) := by
  constructor
  · intro ha
    have hbegins := hg.isDerived_first.begins (hg.ne_epsilonId_of_isForm hα) ha
    have hpool := hg.terminal_or_epsilon_of_mem_ofSequence hg.grownFrom_first hα ha
    rcases mem_terminalsAnd.1 hpool with hk | rfl
    · exact Or.inl ⟨hk, hbegins.exists_derives (hg.ne_epsilonId_of_terminal hk)⟩
    · exact Or.inr ⟨rfl, hbegins.derives_nil⟩
  · rintro (⟨hk, ρ, hderives⟩ | ⟨rfl, hderives⟩)
    · have hhead : a ∈ g.first.ofSequence (a :: ρ) :=
        mem_ofSequence_cons.2
          (Or.inl ⟨mem_first_of_terminal hk, hg.ne_epsilonId_of_terminal hk⟩)
      exact hg.mem_ofSequence_of_derives hderives hhead
    · exact hg.mem_ofSequence_of_derives hderives (mem_ofSequence_nil.2 rfl)

/-- A terminal is in FIRST of what derives a string that begins with it. -/
theorem terminal_mem_ofSequence_iff (hα : g.IsForm α)
    (hk : g.symbols.kind? a = some .terminal) :
    a ∈ g.first.ofSequence α ↔ ∃ ρ, g.Derives α (a :: ρ) := by
  rw [hg.mem_first_ofSequence_iff hα]
  simp [hk, hg.ne_epsilonId_of_terminal hk]

/-- `ε` is in FIRST of what derives the empty string. -/
theorem epsilon_mem_ofSequence_iff (hα : g.IsForm α) :
    epsilonId ∈ g.first.ofSequence α ↔ g.Derives α [] := by
  rw [hg.mem_first_ofSequence_iff hα]
  simp [hg.epsilon_kind_iff.2 rfl]

/-! ## The least solution -/

/-- **Nullable symbols**: what is neither a terminal nor a non-terminal derives nothing but
itself, so this holds of all symbols but `ε`. -/
theorem epsilon_mem_first_iff (hsymbol : symbol ≠ epsilonId) :
    epsilonId ∈ g.first.get symbol ↔ g.Derives [symbol] [] := by
  by_cases hk : g.symbols.isNonTerminal symbol = true
  · rw [← mem_ofSequence_singleton, hg.epsilon_mem_ofSequence_iff (isForm_singleton hk)]
  · constructor
    · intro hε
      rw [hg.first_get_eq hk] at hε
      exact absurd (mem_get_firstSeed.1 hε).2.2.symm hsymbol
    · intro hderives
      rcases hderives.cases_singleton with heq | ⟨r, hr, -⟩
      · cases heq
      · obtain ⟨hmem, rfl⟩ := mem_rulesOf.1 hr
        exact absurd (hg.lhs_isNonTerminal r hmem) hk

/-- A non-terminal has in FIRST what FIRST of one of its right-hand sides holds: a
derivation from it begins with a rule. -/
theorem exists_rule_of_mem_first (hk : g.symbols.isNonTerminal symbol = true)
    (ha : a ∈ g.first.get symbol) : ∃ r ∈ g.rulesOf symbol, a ∈ g.first.ofSequence r.rhs := by
  rw [← mem_ofSequence_singleton] at ha
  rcases (hg.mem_first_ofSequence_iff (isForm_singleton hk)).1 ha with
    ⟨hterminal, ρ, hderives⟩ | ⟨rfl, hderives⟩
  · rcases hderives.cases_singleton with heq | ⟨r, hr, hrhs⟩
    · obtain ⟨rfl, -⟩ := List.cons_eq_cons.1 heq
      exact absurd hk (not_isNonTerminal_of_terminal hterminal)
    · have hright := hg.isForm_rhs (mem_rulesOf.1 hr).1
      exact ⟨r, hr, (hg.terminal_mem_ofSequence_iff hright hterminal).2 ⟨ρ, hrhs⟩⟩
  · rcases hderives.cases_singleton with heq | ⟨r, hr, hrhs⟩
    · cases heq
    · have hright := hg.isForm_rhs (mem_rulesOf.1 hr).1
      exact ⟨r, hr, (hg.epsilon_mem_ofSequence_iff hright).2 hrhs⟩

theorem solvesFirst_first : g.first.SolvesFirst g := by
  refine ⟨hg.within_first.size_eq, fun symbol hlt hk => ?_, fun symbol hk a => ?_⟩
  · rw [hg.first_get_eq (Bool.eq_false_iff.1 hk)]
    apply OrdSet.ext
    intro a
    have hempty : a ∉ OrdSet.empty := OrdSet.not_mem_empty a
    rw [mem_get_firstSeed, OrdSet.mem_insert]
    simp [hlt, hk, hempty]
  · constructor
    · exact hg.exists_rule_of_mem_first hk
    · rintro ⟨r, hr, ha⟩
      obtain ⟨hmem, rfl⟩ := mem_rulesOf.1 hr
      exact hg.mem_first_of_rule hmem ha

/-- **The least solution** of the equations are the FIRST sets: no pass leaves a solution
that it started below. -/
theorem isLeast_first : IsLeast {s : SymbolSets | s.SolvesFirst g} g.first := by
  refine ⟨hg.solvesFirst_first, fun s hs => ?_⟩
  have hseed : g.firstSeed ≤ s := by
    refine ⟨by rw [hs.size_eq, hg.within_firstSeed.size_eq], fun symbol a ha => ?_⟩
    obtain ⟨hlt, hk, rfl⟩ := mem_get_firstSeed.1 ha
    rw [hs.own a hlt hk, OrdSet.mem_insert]
    exact Or.inl rfl
  have hpass : ∀ t : SymbolSets, t ≤ s → g.firstPass t ≤ s := by
    intro t ht
    unfold firstPass
    rw [← Array.foldl_toList]
    refine List.foldlRecOn (motive := fun t => t ≤ s) g.rules.toList _ ht ?_
    intro t ht r hr
    have hr := Array.mem_toList_iff.1 hr
    refine ⟨(size_extend ..).trans ht.1, fun symbol a ha => ?_⟩
    rcases mem_of_mem_get_extend ha with hold | ⟨rfl, hnew⟩
    · exact ht.2 symbol a hold
    · exact (hs.rules r.lhs (hg.lhs_isNonTerminal r hr) a).2
        ⟨r, mem_rulesOf.2 ⟨hr, rfl⟩, mem_ofSequence_of_le ht hnew⟩
  exact saturate_invariant hpass g.passCap hseed

end Grammar.IsAugmented

/-! ## Grammar texts -/

namespace Grammar

/-- **FIRST is exact** for every grammar text. -/
theorem firstIsExact_augment {text : String} {g : Grammar} (read : ofText text = .ok g) :
    g.augment.FirstIsExact := by
  have hg : g.augment.IsAugmented := (wellFormed_ofText read).isAugmented
  have hmember : ∀ σ a, g.augment.IsForm σ → a ∈ g.augment.first.ofSequence σ →
      g.augment.symbols.kind? a = some .terminal ∨ a = epsilonId := fun σ a hσ ha =>
    mem_terminalsAnd.1
      (hg.terminal_or_epsilon_of_mem_ofSequence hg.grownFrom_first hσ ha)
  obtain ⟨hpasses, hends⟩ := hg.firstSaturation_ends
  refine
    { ends := hends
      passes_le := hpasses
      terminal_mem_iff := fun σ t hσ hk => hg.terminal_mem_ofSequence_iff hσ hk
      epsilon_mem_iff := fun σ hσ => hg.epsilon_mem_ofSequence_iff hσ
      terminal_or_epsilon := hmember
      not_mem := ?_
      isNullable_iff := ?_
      isLeast := hg.isLeast_first }
  · intro σ a hσ hother ha
    rcases hmember σ a hσ ha with hk | rfl
    · rcases hother with rfl | hnonTerminal
      · exact hg.ne_endId_of_terminal hk rfl
      · exact IsAugmented.not_isNonTerminal_of_terminal hk hnonTerminal
    · rcases hother with heq | hnonTerminal
      · cases heq
      · exact hg.ne_epsilonId_of_isNonTerminal hnonTerminal rfl
  · intro symbol hsymbol
    rw [← hg.epsilon_mem_first_iff hsymbol]
    exact decide_eq_true_iff

/-- So it is with nested pairs, where a string of two symbols can begin in two ways. -/
theorem firstIsExact_of_nested :
    ofText "S -> a S b | ε" = .ok nested ∧ nested.augment.FirstIsExact ∧
      (nested.augment.first.ofSequence [2, 4]).toList = [3, 4] ∧
      ∃ ρ, nested.augment.Derives [2, 4] (4 :: ρ) := by
  have hexact := firstIsExact_augment ofText_nested
  have hform : nested.augment.IsForm [2, 4] := by
    unfold IsForm
    decide
  have hfirst : (nested.augment.first.ofSequence [2, 4]).toList = [3, 4] := by
    decide +kernel
  have hmem : 4 ∈ nested.augment.first.ofSequence [2, 4] := by
    rw [← OrdSet.mem_toList, hfirst]
    decide
  exact ⟨ofText_nested, hexact, hfirst,
    (hexact.terminal_mem_iff [2, 4] 4 hform (by decide)).1 hmem⟩

end Grammar

end CanonicalLR
