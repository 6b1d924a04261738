import CanonicalLR.Follow
import CanonicalLR.Proofs.Sets.FirstExact

/-!
# FOLLOW sets are exact

A terminal is in FOLLOW of a non-terminal exactly if some non-terminal, from the start
symbol or not, derives a form in which the terminal stands right behind it, and the end
marker exactly if the start symbol derives a form that ends with it. In one direction each
rule that a pass uses continues such a derivation. In the other direction the sets cover a
form if each of its non-terminals has in FOLLOW all that the form goes on with: a form of
one symbol is covered, and so is what a covered form derives, which is shown rule by rule
and not pass by pass.

## Main definitions

* `Grammar.Follows` — what can stand behind a symbol.
* `Grammar.FollowCovers` — FOLLOW holds what stands behind the non-terminals of a form.
* `Grammar.FollowIsExact` — what is said of the FOLLOW sets of an augmented grammar.

## Main results

* `followPass_induction` — what holds of a family through a pass.
* `followSaturation_ends` — the number of passes.
* `mem_follow_of_rule` — the sets satisfy the equations of the rules.
* `followCovers_of_derives` — derived forms are covered.
* `mem_follow_iff` — FOLLOW against derivations.
* `followIsExact_augment` — the FOLLOW sets of every grammar text are exact.
-/

namespace CanonicalLR.Grammar

open SymbolSets

/-! ## Definitions -/

/-- `g.Follows symbol a`: the terminal `a` stands right behind the symbol in a form that
some non-terminal derives, or `a` is the end marker, and the symbol ends a form that the
start symbol derives. -/
inductive Follows (g : Grammar) (symbol : Nat) : Nat → Prop where
  | terminal {root a : Nat} {α β : List Nat} (head : g.symbols.isNonTerminal root = true)
      (kind : g.symbols.kind? a = some .terminal)
      (derived : g.Derives [root] (α ++ symbol :: a :: β)) : g.Follows symbol a
  | finish {α : List Nat} (derived : g.Derives [g.start] (α ++ [symbol])) :
      g.Follows symbol endId

/-- Each non-terminal of a form has in its FOLLOW set all that the form goes on with behind
it, where one of some symbols comes after the form. -/
def FollowCovers (g : Grammar) (after : OrdSet Nat) (form : List Nat) : Prop :=
  ∀ before symbol rest, form = before ++ symbol :: rest →
    g.symbols.isNonTerminal symbol = true →
    ∀ a ∈ g.first.followedBy rest after, a ∈ g.follow.get symbol

/-- The passes for the FOLLOW sets of an augmented grammar end by themselves, on sets that
say exactly what stands behind the non-terminals of derived forms. -/
structure FollowIsExact (g : Grammar) : Prop where
  /-- The repetition ends by itself. -/
  ends : (g.followSaturation g.first).Ends (g.followPass g.first) g.followSeed
  /-- There are no more passes than a set for each non-terminal, the added one included,
  can gain members, which are terminals and the end marker; and one. -/
  passes_le : (g.followSaturation g.first).passes
    ≤ 1 + (g.nonTerminals.length + 1) * (g.terminals.length + 1)
  /-- Nothing follows `ε`, the end marker or a terminal. -/
  get_eq_empty : ∀ symbol, g.symbols.isNonTerminal symbol = false → g.follow.get symbol = ∅
  /-- A terminal follows what it stands right behind in a form that some non-terminal
  derives. -/
  terminal_mem_iff : ∀ symbol t, g.symbols.isNonTerminal symbol = true →
    g.symbols.kind? t = some .terminal →
    (t ∈ g.follow.get symbol ↔ ∃ root α β, g.symbols.isNonTerminal root = true ∧
      g.Derives [root] (α ++ symbol :: t :: β))
  /-- The end marker follows what ends a form that the start symbol derives. -/
  end_mem_iff : ∀ symbol, g.symbols.isNonTerminal symbol = true →
    (endId ∈ g.follow.get symbol ↔ ∃ α, g.Derives [g.start] (α ++ [symbol]))
  /-- Nothing else follows anything. -/
  terminal_or_end : ∀ symbol a, a ∈ g.follow.get symbol →
    g.symbols.kind? a = some .terminal ∨ a = endId
  /-- In particular neither `ε` nor a non-terminal does. -/
  not_mem : ∀ symbol a, a = epsilonId ∨ g.symbols.isNonTerminal a = true →
    a ∉ g.follow.get symbol

/-! ## One pass -/

section Pass

variable {g : Grammar} {first : SymbolSets}

/-- **A pass** extends the set of a non-terminal in a right-hand side by what stands behind
it, again and again: what each such extension keeps, the pass keeps. -/
theorem followPass_induction {P : SymbolSets → Prop}
    (keeps : ∀ (s : SymbolSets) (r : Rule) (α β : List Nat) (symbol : Nat), P s →
      r ∈ g.rules → r.rhs = α ++ symbol :: β → g.symbols.isNonTerminal symbol = true →
      P (s.extend symbol (first.followedBy β (s.get r.lhs))))
    {s : SymbolSets} (hs : P s) : P (g.followPass first s) := by
  have hrule : ∀ s : SymbolSets, P s → ∀ r ∈ g.rules, P (g.followRule first s r) := by
    intro s hs r hr
    refine List.foldlRecOn (motive := P) (occurrences r.rhs) _ hs ?_
    intro s hs occurrence hmem
    obtain ⟨α, hα⟩ := mem_occurrences.1 hmem
    split
    next hk => exact keeps s r α occurrence.2 occurrence.1 hs hr hα hk
    next => exact hs
  unfold followPass
  rw [← Array.foldl_toList]
  refine List.foldlRecOn (motive := P) g.rules.toList _ hs ?_
  intro s hs r hr
  exact hrule s hs r (Array.mem_toList_iff.1 hr)

/-- What an occurrence of a symbol adds. -/
theorem le_followOccurrence (g : Grammar) (first s : SymbolSets) (r : Rule)
    (occurrence : Nat × List Nat) :
    s ≤ if g.symbols.isNonTerminal occurrence.1
      then s.extend occurrence.1 (first.followedBy occurrence.2 (s.get r.lhs)) else s := by
  split
  · exact le_extend s occurrence.1 _
  · exact le_refl s

theorem le_followRule (g : Grammar) (first s : SymbolSets) (r : Rule) :
    s ≤ g.followRule first s r :=
  le_foldl (fun s occurrence => g.le_followOccurrence first s r occurrence) (occurrences r.rhs) s

theorem le_followPass (g : Grammar) (first s : SymbolSets) : s ≤ g.followPass first s := by
  unfold followPass
  rw [← Array.foldl_toList]
  exact le_foldl (fun s r => g.le_followRule first s r) g.rules.toList s

/-- A family that a pass leaves alone satisfies the equations of the rules. -/
theorem mem_get_of_followPass_eq {s : SymbolSets} {r : Rule} {α β : List Nat}
    {symbol a : Nat} (fixed : g.followPass first s = s) (hsize : s.sets.size = g.symbols.size)
    (hr : r ∈ g.rules) (hrhs : r.rhs = α ++ symbol :: β)
    (hk : g.symbols.isNonTerminal symbol = true)
    (ha : a ∈ first.followedBy β (s.get r.lhs)) : a ∈ s.get symbol := by
  unfold followPass at fixed
  rw [← Array.foldl_toList] at fixed
  have hrule : g.followRule first s r = s :=
    eq_of_foldl_eq (fun s r => g.le_followRule first s r) fixed r (Array.mem_toList_iff.2 hr)
  have hocc := eq_of_foldl_eq
    (fun s occurrence => g.le_followOccurrence first s r occurrence) hrule (symbol, β)
    (mem_occurrences.2 ⟨α, hrhs⟩)
  rw [if_pos hk] at hocc
  exact mem_get_of_extend_eq hocc (hsize ▸ IsAugmented.lt_size_of_isNonTerminal hk) ha

end Pass

/-! ## What follows by the rules -/

variable {g : Grammar} {α β : List Nat} {symbol a : Nat} {after : OrdSet Nat}

/-- What follows a non-terminal follows the last symbol of its right-hand side that does
not vanish. -/
theorem Follows.of_rule {r : Rule} (hr : r ∈ g.rules) (hrhs : r.rhs = α ++ symbol :: β)
    (hβ : g.Derives β []) (h : g.Follows r.lhs a) : g.Follows symbol a := by
  have hlast : g.Derives [r.lhs] (α ++ [symbol]) := by
    have hright := (Derives.of_rule hr).trans
      (hrhs ▸ (hβ.append_left [symbol]).append_left α)
    simpa using hright
  cases h with
  | @terminal root a front back hroot hkind derived =>
      have hform := derived.trans ((hlast.append_right (a :: back)).append_left front)
      exact .terminal (α := front ++ α) (β := back) hroot hkind (by simpa using hform)
  | @finish front derived =>
      have hform := derived.trans (hlast.append_left front)
      exact .finish (α := front ++ α) (by simpa using hform)

namespace IsAugmented

variable (hg : g.IsAugmented)

include hg

/-- Before the first pass the end marker follows the start symbol. -/
theorem mem_get_followSeed :
    a ∈ g.followSeed.get symbol ↔ symbol = g.start ∧ a = endId := by
  have hsize : g.start < (SymbolSets.empty g.symbols.size).sets.size := by
    simpa [SymbolSets.empty] using lt_size_of_isNonTerminal hg.start_isNonTerminal
  have hnone : ∀ b : Nat, b ∉ (∅ : OrdSet Nat) := OrdSet.not_mem_empty
  unfold followSeed
  rw [mem_get_extend hsize, get_empty, OrdSet.mem_insert]
  simp only [hnone, false_or]
  exact and_congr_right fun _ => or_iff_left (OrdSet.not_mem_empty a)

/-- What stands behind a symbol of a right-hand side is a form. -/
theorem isForm_of_rhs_eq {r : Rule} (hr : r ∈ g.rules) (hrhs : r.rhs = α ++ symbol :: β) :
    g.IsForm β := by
  have hright := hg.isForm_rhs hr
  rw [hrhs, ← List.singleton_append] at hright
  exact hright.of_append.2.of_append.2

/-- What starts the rest of a right-hand side follows what stands before it. -/
theorem follows_of_mem_ofSequence {r : Rule} (hr : r ∈ g.rules)
    (hrhs : r.rhs = α ++ symbol :: β) (ha : a ∈ g.first.ofSequence β) (hne : a ≠ epsilonId) :
    g.Follows symbol a := by
  have hform := hg.isForm_of_rhs_eq hr hrhs
  rcases (hg.mem_first_ofSequence_iff hform).1 ha with ⟨hkind, ρ, hderives⟩ | ⟨rfl, -⟩
  · have hright := (Derives.of_rule hr).trans
      (hrhs ▸ (hderives.append_left [symbol]).append_left α)
    exact .terminal (hg.lhs_isNonTerminal r hr) hkind (by simpa using hright)
  · exact absurd rfl hne

/-- **The FOLLOW sets** hold nothing but what follows. -/
theorem follows_of_mem_follow (ha : a ∈ g.follow.get symbol) : g.Follows symbol a := by
  have hkeeps : ∀ s : SymbolSets, (∀ symbol a, a ∈ s.get symbol → g.Follows symbol a) →
      ∀ symbol a, a ∈ (g.followPass g.first s).get symbol → g.Follows symbol a := by
    intro s hs
    refine followPass_induction (P := fun s => ∀ symbol a, a ∈ s.get symbol →
      g.Follows symbol a) ?_ hs
    intro s r α β symbol hs hr hrhs hk other a ha
    rcases mem_of_mem_get_extend ha with hold | ⟨rfl, hnew⟩
    · exact hs other a hold
    · rcases mem_followedBy.1 hnew with ⟨ha, hne⟩ | ⟨hnull, ha⟩
      · exact hg.follows_of_mem_ofSequence hr hrhs ha hne
      · have hβ := (hg.epsilon_mem_ofSequence_iff (hg.isForm_of_rhs_eq hr hrhs)).1 hnull
        exact (hs r.lhs a ha).of_rule hr hrhs hβ
  have hseed : ∀ symbol a, a ∈ g.followSeed.get symbol → g.Follows symbol a := by
    intro symbol a ha
    obtain ⟨rfl, rfl⟩ := hg.mem_get_followSeed.1 ha
    exact .finish (α := []) (.refl _)
  exact saturate_invariant hkeeps g.passCap hseed symbol a ha

/-! ## The number of passes -/

/-- Before the first pass only the end marker follows anything. -/
theorem grownFrom_followSeed :
    g.followSeed.GrownFrom g.followSeed g.gotoColumns.toFinset (g.terminalsAnd endId) := by
  refine ⟨rfl, fun _ => rfl, fun {symbol a} _ ha => ?_⟩
  exact mem_terminalsAnd.2 (Or.inr (hg.mem_get_followSeed.1 ha).2)

/-- A pass adds terminals and the end marker at non-terminals. -/
theorem grownFrom_followPass {s : SymbolSets}
    (hs : s.GrownFrom g.followSeed g.gotoColumns.toFinset (g.terminalsAnd endId)) :
    (g.followPass g.first s).GrownFrom g.followSeed g.gotoColumns.toFinset
      (g.terminalsAnd endId) := by
  refine followPass_induction
    (P := fun s => s.GrownFrom g.followSeed g.gotoColumns.toFinset (g.terminalsAnd endId))
    ?_ hs
  intro s r α β symbol hs hr hrhs hk
  apply hs.extend (hg.mem_toFinset_gotoColumns.2 hk)
  intro a ha
  rcases mem_followedBy.1 ha with ⟨ha, hne⟩ | ⟨-, ha⟩
  · rcases (hg.mem_first_ofSequence_iff (hg.isForm_of_rhs_eq hr hrhs)).1 ha with
      ⟨hkind, -⟩ | ⟨rfl, -⟩
    · exact mem_terminalsAnd.2 (Or.inl hkind)
    · exact absurd rfl hne
  · exact hs.mem (hg.mem_toFinset_gotoColumns.2 (hg.lhs_isNonTerminal r hr)) ha

theorem grownFrom_follow :
    g.follow.GrownFrom g.followSeed g.gotoColumns.toFinset (g.terminalsAnd endId) := by
  have hkeeps : ∀ s : SymbolSets,
      s.GrownFrom g.followSeed g.gotoColumns.toFinset (g.terminalsAnd endId) →
        (g.followPass g.first s).GrownFrom g.followSeed g.gotoColumns.toFinset
          (g.terminalsAnd endId) :=
    fun _ hs => hg.grownFrom_followPass hs
  exact saturate_invariant hkeeps g.passCap hg.grownFrom_followSeed

/-- **The passes for FOLLOW** end by themselves, and soon. -/
theorem followSaturation_ends :
    (g.followSaturation g.first).passes
        ≤ 1 + (g.nonTerminals.length + 1) * (g.terminals.length + 1) ∧
      (g.followSaturation g.first).Ends (g.followPass g.first) g.followSeed :=
  hg.saturate_passCap_ends (lt_size_of_kind? (hg.end_kind_iff.2 rfl)) (g.le_followPass g.first)
    (fun _ hs => hg.grownFrom_followPass hs) hg.grownFrom_followSeed

/-! ## Covered forms -/

/-- The end marker follows the start symbol. -/
theorem endId_mem_follow_start : endId ∈ g.follow.get g.start := by
  have hle : g.followSeed ≤ g.follow := le_saturate (g.le_followPass g.first)
  exact hle.2 g.start endId (hg.mem_get_followSeed.2 ⟨rfl, rfl⟩)

/-- **The equations of FOLLOW**: what stands behind a non-terminal in a right-hand side
follows it, where what follows the left-hand side stands behind the right-hand side. -/
theorem mem_follow_of_rule {r : Rule} (hr : r ∈ g.rules) (hrhs : r.rhs = α ++ symbol :: β)
    (hk : g.symbols.isNonTerminal symbol = true)
    (ha : a ∈ g.first.followedBy β (g.follow.get r.lhs)) : a ∈ g.follow.get symbol := by
  have hfixed := hg.followSaturation_ends.2.unchanged
  have hsize : g.follow.sets.size = g.symbols.size := by
    rw [hg.grownFrom_follow.size_eq]
    simp [followSeed, SymbolSets.empty]
  exact mem_get_of_followPass_eq hfixed hsize hr hrhs hk ha

omit hg in
/-- A form of one symbol is covered by what follows the symbol. -/
theorem followCovers_singleton (h : ∀ a ∈ after, a ∈ g.follow.get symbol) :
    g.FollowCovers after [symbol] := by
  intro before other rest hform _ a ha
  rcases List.singleton_eq_append_iff.1 hform with ⟨rfl, hrest⟩ | ⟨_, hrest⟩
  · obtain ⟨rfl, rfl⟩ := List.cons_eq_cons.1 hrest
    rcases mem_followedBy.1 ha with ⟨ha, hne⟩ | ⟨-, ha⟩
    · exact absurd (mem_ofSequence_nil.1 ha) hne
    · exact h a ha
  · cases hrest

/-- **One rule** leads from a covered form to a covered one. A non-terminal before the
replaced one sees less behind it than before, one of the right-hand side sees what the
equations of FOLLOW allow for, and nothing changes for one behind it. -/
theorem followCovers_step {r : Rule} (hr : r ∈ g.rules)
    (h : g.FollowCovers after (α ++ r.lhs :: β)) :
    g.FollowCovers after (α ++ r.rhs ++ β) := by
  intro before symbol rest hform hk a ha
  rw [List.append_assoc] at hform
  rcases cases_of_append_eq_append_cons hform with ⟨between, rfl, hback⟩ | ⟨between, rfl, rfl⟩
  · rcases cases_of_append_eq_append_cons hback with ⟨front, rfl, rfl⟩ | ⟨front, hrhs, rfl⟩
    · exact h (α ++ r.lhs :: front) symbol rest (by simp) hk a ha
    · apply hg.mem_follow_of_rule hr hrhs hk
      apply mem_followedBy.2
      rcases mem_followedBy_append.1 ha with ha | ⟨hnull, ha⟩
      · exact Or.inl ha
      · exact Or.inr ⟨hnull, h α r.lhs β rfl (hg.lhs_isNonTerminal r hr) a ha⟩
  · apply h before symbol (between ++ r.lhs :: β) (by simp) hk
    have hderives : g.Derives (between ++ r.lhs :: β) (between ++ (r.rhs ++ β)) := by
      rw [← List.append_assoc]
      exact .step hr (.refl _)
    apply mem_followedBy.2
    rcases mem_followedBy.1 ha with ⟨ha, hne⟩ | ⟨hnull, ha⟩
    · exact Or.inl ⟨hg.mem_ofSequence_of_derives hderives ha, hne⟩
    · exact Or.inr ⟨hg.mem_ofSequence_of_derives hderives hnull, ha⟩

/-- **What a covered form derives** is covered. -/
theorem followCovers_of_derives (hderives : g.Derives α β) (h : g.FollowCovers after α) :
    g.FollowCovers after β := by
  induction hderives with
  | refl => exact h
  | step hr _ ih => exact ih (hg.followCovers_step hr h)

/-- **FOLLOW and derivations**: the FOLLOW set of a non-terminal holds what can stand
behind it in derived forms. -/
theorem mem_follow_iff (hk : g.symbols.isNonTerminal symbol = true) :
    a ∈ g.follow.get symbol ↔ g.Follows symbol a := by
  constructor
  · exact hg.follows_of_mem_follow
  · intro h
    cases h with
    | @terminal root a front back hroot hkind derived =>
        have hnone : ∀ b ∈ OrdSet.empty, b ∈ g.follow.get root :=
          fun b hb => absurd hb (OrdSet.not_mem_empty b)
        have hcovers := hg.followCovers_of_derives derived (followCovers_singleton hnone)
        refine hcovers front symbol (a :: back) rfl hk a (mem_followedBy.2 (Or.inl ⟨?_, ?_⟩))
        · exact mem_ofSequence_cons.2
            (Or.inl ⟨mem_first_of_terminal hkind, hg.ne_epsilonId_of_terminal hkind⟩)
        · exact hg.ne_epsilonId_of_terminal hkind
    | @finish front derived =>
        have hend : ∀ b ∈ OrdSet.empty.insert endId, b ∈ g.follow.get g.start := by
          intro b hb
          rcases OrdSet.mem_insert.1 hb with rfl | hb
          · exact hg.endId_mem_follow_start
          · exact absurd hb (OrdSet.not_mem_empty b)
        have hcovers := hg.followCovers_of_derives derived (followCovers_singleton hend)
        refine hcovers front symbol [] rfl hk endId (mem_followedBy.2 (Or.inr ⟨?_, ?_⟩))
        · exact mem_ofSequence_nil.2 rfl
        · exact OrdSet.mem_insert.2 (Or.inl rfl)

/-- Only terminals and the end marker follow anything. -/
theorem terminal_or_end_of_mem_follow (ha : a ∈ g.follow.get symbol) :
    g.symbols.kind? a = some .terminal ∨ a = endId := by
  cases hg.follows_of_mem_follow ha with
  | terminal _ hkind _ => exact Or.inl hkind
  | finish _ => exact Or.inr rfl

/-- Nothing follows a symbol that is no non-terminal. -/
theorem follow_get_eq_empty (hk : g.symbols.isNonTerminal symbol = false) :
    g.follow.get symbol = ∅ := by
  have hout : symbol ∉ g.gotoColumns.toFinset := by
    rw [hg.mem_toFinset_gotoColumns, hk]
    exact Bool.false_ne_true
  have hne : symbol ≠ g.start := by
    rintro rfl
    rw [hg.start_isNonTerminal] at hk
    cases hk
  rw [hg.grownFrom_follow.get_eq hout]
  apply OrdSet.ext
  intro a
  rw [hg.mem_get_followSeed]
  exact iff_of_false (fun h => hne h.1) (OrdSet.not_mem_empty a)

end IsAugmented

/-! ## Grammar texts -/

/-- **FOLLOW is exact** for every grammar text. -/
theorem followIsExact_augment {text : String} {g : Grammar} (read : ofText text = .ok g) :
    g.augment.FollowIsExact := by
  have hg : g.augment.IsAugmented := (wellFormed_ofText read).isAugmented
  obtain ⟨hpasses, hends⟩ := hg.followSaturation_ends
  refine
    { ends := hends
      passes_le := hpasses
      get_eq_empty := fun symbol hk => hg.follow_get_eq_empty hk
      terminal_mem_iff := ?_
      end_mem_iff := ?_
      terminal_or_end := fun symbol a ha => hg.terminal_or_end_of_mem_follow ha
      not_mem := ?_ }
  · intro symbol t hk hkind
    rw [hg.mem_follow_iff hk]
    constructor
    · intro h
      cases h with
      | @terminal root _ α β hroot _ derived => exact ⟨root, α, β, hroot, derived⟩
      | finish _ => exact absurd rfl (hg.ne_endId_of_terminal hkind)
    · rintro ⟨root, α, β, hroot, derived⟩
      exact .terminal hroot hkind derived
  · intro symbol hk
    rw [hg.mem_follow_iff hk]
    constructor
    · intro h
      cases h with
      | terminal _ hkind _ => exact absurd rfl (hg.ne_endId_of_terminal hkind)
      | @finish α derived => exact ⟨α, derived⟩
    · rintro ⟨α, derived⟩
      exact .finish derived
  · intro symbol a hother ha
    rcases hg.terminal_or_end_of_mem_follow ha with hkind | rfl
    · rcases hother with rfl | hnonTerminal
      · exact hg.ne_epsilonId_of_terminal hkind rfl
      · exact IsAugmented.not_isNonTerminal_of_terminal hkind hnonTerminal
    · rcases hother with heq | hnonTerminal
      · cases heq
      · exact hg.ne_endId_of_isNonTerminal hnonTerminal rfl

/-- So it is with nested pairs, where the second half of a pair or the end can follow. -/
theorem followIsExact_of_nested :
    ofText "S -> a S b | ε" = .ok nested ∧ nested.augment.FollowIsExact ∧
      (nested.augment.follow.get 2).toList = [1, 4] ∧
      ∃ root α β, nested.augment.symbols.isNonTerminal root = true ∧
        nested.augment.Derives [root] (α ++ 2 :: 4 :: β) := by
  have hexact := followIsExact_augment ofText_nested
  have hfollow : (nested.augment.follow.get 2).toList = [1, 4] := by decide +kernel
  have hmem : 4 ∈ nested.augment.follow.get 2 := by
    rw [← OrdSet.mem_toList, hfollow]
    decide
  exact ⟨ofText_nested, hexact, hfollow,
    (hexact.terminal_mem_iff 2 4 (by decide) (by decide)).1 hmem⟩

end CanonicalLR.Grammar
