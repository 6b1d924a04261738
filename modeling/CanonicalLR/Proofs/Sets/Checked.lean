import CanonicalLR.Follow
import CanonicalLR.Proofs.Grammar.Augmented

/-!
# FIRST and FOLLOW with checked look-ups

A number outside a table is read as a default: it has no kind, its set is empty, and nothing
is added to it. The definitions here follow FIRST and FOLLOW step by step, but give up where
a number is outside the table it is looked up in. In an augmented grammar they never give
up, so no default is ever read.

## Main definitions

* `SymbolTable.isNonTerminal?`, `SymbolSets.get?`, `SymbolSets.extend?` — the look-ups.
* `SymbolSets.HasSets` — a family that the symbols can be looked up in.
* `saturate?` — the repetition of a pass that may give up.
* `Grammar.firstSaturation?`, `Grammar.followSaturation?` — the passes.

## Main results

* `foldlM_eq_some`, `saturate?_eq_some` — a loop does not give up if its body does not.
* `firstSaturation?_eq_some`, `followSaturation?_eq_some` — the passes do not give up.
-/

namespace CanonicalLR

/-! ## Loops -/

/-- A scan whose steps do not give up is the scan that cannot. -/
theorem foldlM_eq_some {σ α : Type} {step? : σ → α → Option σ} {step : σ → α → σ}
    {p : σ → Prop} {l : List α}
    (h : ∀ s, ∀ a ∈ l, p s → step? s a = some (step s a) ∧ p (step s a)) {s : σ}
    (hs : p s) : l.foldlM step? s = some (l.foldl step s) ∧ p (l.foldl step s) := by
  induction l generalizing s with
  | nil => exact ⟨rfl, hs⟩
  | cons a l ih =>
      obtain ⟨hstep, hkeep⟩ := h s a List.mem_cons_self hs
      obtain ⟨hlater, hend⟩ := ih (fun s b hb => h s b (List.mem_cons_of_mem _ hb)) hkeep
      refine ⟨?_, hend⟩
      rw [List.foldlM_cons, hstep]
      exact hlater

/-- A traversal whose steps do not give up is the traversal that cannot. -/
theorem mapM_eq_some {α β : Type} {step? : α → Option β} {step : α → β} {l : List α}
    (h : ∀ a ∈ l, step? a = some (step a)) : l.mapM step? = some (l.map step) := by
  induction l with
  | nil => rfl
  | cons a l ih =>
      rw [List.mapM_cons, h a List.mem_cons_self,
        ih fun b hb => h b (List.mem_cons_of_mem _ hb)]
      rfl

/-- Repeats a pass that may give up. -/
def saturate? {σ : Type} [DecidableEq σ] (pass : σ → Option σ) :
    Nat → σ → Option (Saturation σ)
  | 0, s => some ⟨s, 0⟩
  | cap + 1, s =>
    (pass s).bind fun next =>
      if next = s then some ⟨s, 1⟩
      else (saturate? pass cap next).map fun later => ⟨later.value, later.passes + 1⟩

/-- A repetition of passes that do not give up is the repetition that cannot. -/
theorem saturate?_eq_some {σ : Type} [DecidableEq σ] {pass? : σ → Option σ} {pass : σ → σ}
    {p : σ → Prop} (h : ∀ s, p s → pass? s = some (pass s) ∧ p (pass s)) (cap : Nat)
    {s : σ} (hs : p s) :
    saturate? pass? cap s = some (saturate pass cap s) ∧ p (saturate pass cap s).value := by
  refine ⟨?_, saturate_invariant (fun s hs => (h s hs).2) cap hs⟩
  induction cap generalizing s with
  | zero => rfl
  | succ cap ih =>
      obtain ⟨hpass, hkeep⟩ := h s hs
      rw [saturate?, saturate, hpass, Option.bind_some]
      by_cases hsame : pass s = s
      · rw [if_pos hsame, if_pos hsame]
      · rw [if_neg hsame, if_neg hsame, ih hkeep]
        rfl

/-! ## Look-ups -/

/-- The sort of a slot, if there is such a slot. -/
def SymbolTable.isNonTerminal? (t : SymbolTable) (id : Nat) : Option Bool :=
  (t.kind? id).map SymbolKind.isNonTerminal

theorem SymbolTable.isNonTerminal?_eq_some {t : SymbolTable} {id : Nat} (h : id < t.size) :
    t.isNonTerminal? id = some (t.isNonTerminal id) := by
  unfold isNonTerminal? isNonTerminal
  cases hkind : t.kind? id with
  | none => exact absurd h (Nat.not_lt.2 (kind?_eq_none_iff.1 hkind))
  | some kind => rfl

namespace SymbolSets

/-- The set of a symbol, if the family has one. -/
def get? (s : SymbolSets) (symbol : Nat) : Option (OrdSet Nat) := s.sets[symbol]?

/-- The family with more members in the set of one symbol, if it has one. -/
def extend? (s : SymbolSets) (symbol : Nat) (more : OrdSet Nat) : Option SymbolSets :=
  (s.get? symbol).map fun _ => s.extend symbol more

/-- FIRST of a sequence, from the sets up to the first one without `ε`. -/
def ofSequence? (s : SymbolSets) : List Nat → Option (OrdSet Nat)
  | [] => some (OrdSet.empty.insert epsilonId)
  | symbol :: rest =>
    (s.get? symbol).bind fun set =>
      if epsilonId ∈ set then (s.ofSequence? rest).map (set.erase epsilonId ∪ ·) else some set

/-- FIRST of a sequence followed by any one of some symbols. -/
def followedBy? (s : SymbolSets) (rest : List Nat) (after : OrdSet Nat) :
    Option (OrdSet Nat) :=
  (s.ofSequence? rest).map fun set =>
    if epsilonId ∈ set then set.erase epsilonId ∪ after else set

/-- The family has a set for each symbol of a grammar, and for no other number. -/
def HasSets (g : Grammar) (s : SymbolSets) : Prop := s.sets.size = g.symbols.size

theorem hasSets_empty (g : Grammar) : (SymbolSets.empty g.symbols.size).HasSets g :=
  Array.size_replicate

namespace HasSets

variable {g : Grammar} {s : SymbolSets} (hs : s.HasSets g) {symbol : Nat} {more : OrdSet Nat}
  {word : List Nat}

include hs

theorem extend : (s.extend symbol more).HasSets g := (size_extend ..).trans hs

theorem get?_eq_some (h : symbol < g.symbols.size) : s.get? symbol = some (s.get symbol) := by
  unfold get? get
  rw [Array.getElem?_eq_getElem (hs.symm ▸ h)]
  rfl

theorem extend?_eq_some (h : symbol < g.symbols.size) :
    s.extend? symbol more = some (s.extend symbol more) := by
  unfold extend?
  rw [hs.get?_eq_some h]
  rfl

theorem ofSequence?_eq_some (h : ∀ symbol ∈ word, symbol < g.symbols.size) :
    s.ofSequence? word = some (s.ofSequence word) := by
  induction word with
  | nil => rfl
  | cons symbol word ih =>
      have hrest := ih fun other hother => h other (List.mem_cons_of_mem _ hother)
      rw [ofSequence?, ofSequence, hs.get?_eq_some (h symbol List.mem_cons_self),
        Option.bind_some, hrest]
      split <;> rfl

theorem followedBy?_eq_some (h : ∀ symbol ∈ word, symbol < g.symbols.size)
    (after : OrdSet Nat) : s.followedBy? word after = some (s.followedBy word after) := by
  unfold followedBy?
  rw [hs.ofSequence?_eq_some h]
  rfl

end HasSets

end SymbolSets

namespace Grammar

/-! ## FIRST -/

/-- FIRST before any rule is used. -/
def firstSeed? (g : Grammar) : Option SymbolSets :=
  ((List.range g.symbols.size).mapM fun symbol =>
    (g.symbols.isNonTerminal? symbol).map fun isNonTerminal =>
      if isNonTerminal then ∅ else OrdSet.empty.insert symbol).map fun sets => ⟨sets.toArray⟩

/-- A pass over the rules in order. -/
def firstPass? (g : Grammar) (s : SymbolSets) : Option SymbolSets :=
  g.rules.toList.foldlM
    (fun s r => (s.ofSequence? r.rhs).bind fun more => s.extend? r.lhs more) s

/-- The passes that find the FIRST sets. -/
def firstSaturation? (g : Grammar) : Option (Saturation SymbolSets) :=
  g.firstSeed?.bind fun seed => saturate? g.firstPass? g.passCap seed

/-! ## FOLLOW -/

/-- FOLLOW before any rule is used. -/
def followSeed? (g : Grammar) : Option SymbolSets :=
  (SymbolSets.empty g.symbols.size).extend? g.start (OrdSet.empty.insert endId)

/-- Adds what one occurrence of a symbol in a rule says. -/
def followOccurrence? (g : Grammar) (first : SymbolSets) (r : Rule) (follow : SymbolSets)
    (occurrence : Nat × List Nat) : Option SymbolSets :=
  (g.symbols.isNonTerminal? occurrence.1).bind fun isNonTerminal =>
    if isNonTerminal then
      (follow.get? r.lhs).bind fun after =>
        (first.followedBy? occurrence.2 after).bind fun more => follow.extend? occurrence.1 more
    else some follow

/-- Adds what one rule says about the non-terminals in it, from left to right. -/
def followRule? (g : Grammar) (first follow : SymbolSets) (r : Rule) : Option SymbolSets :=
  (occurrences r.rhs).foldlM (g.followOccurrence? first r) follow

/-- A pass over the rules in order. -/
def followPass? (g : Grammar) (first follow : SymbolSets) : Option SymbolSets :=
  g.rules.toList.foldlM (g.followRule? first) follow

/-- The passes that find the FOLLOW sets from the FIRST sets. -/
def followSaturation? (g : Grammar) (first : SymbolSets) : Option (Saturation SymbolSets) :=
  g.followSeed?.bind fun seed => saturate? (g.followPass? first) g.passCap seed

/-! ## No look-up gives up -/

theorem firstSeed?_eq_some (g : Grammar) : g.firstSeed? = some g.firstSeed := by
  have hsets : ((List.range g.symbols.size).mapM fun symbol =>
      (g.symbols.isNonTerminal? symbol).map fun isNonTerminal =>
        if isNonTerminal then ∅ else OrdSet.empty.insert symbol)
      = some ((List.range g.symbols.size).map fun symbol =>
        if g.symbols.isNonTerminal symbol then ∅ else OrdSet.empty.insert symbol) := by
    refine mapM_eq_some fun symbol hsymbol => ?_
    rw [SymbolTable.isNonTerminal?_eq_some (List.mem_range.1 hsymbol)]
    rfl
  unfold firstSeed? firstSeed
  rw [hsets, Option.map_some, ← List.map_toArray, List.toArray_range]

/-- What one occurrence of a symbol in a rule says, as the scan of the rule adds it. -/
def followOccurrence (g : Grammar) (first : SymbolSets) (r : Rule) (follow : SymbolSets)
    (occurrence : Nat × List Nat) : SymbolSets :=
  if g.symbols.isNonTerminal occurrence.1
  then follow.extend occurrence.1 (first.followedBy occurrence.2 (follow.get r.lhs))
  else follow

theorem followRule_eq (g : Grammar) (first follow : SymbolSets) (r : Rule) :
    g.followRule first follow r = (occurrences r.rhs).foldl (g.followOccurrence first r) follow :=
  rfl

namespace IsAugmented

variable {g : Grammar} (hg : g.IsAugmented) {first s : SymbolSets}

include hg

theorem firstPass?_eq_some (hs : s.HasSets g) :
    g.firstPass? s = some (g.firstPass s) ∧ (g.firstPass s).HasSets g := by
  unfold firstPass? firstPass
  rw [← Array.foldl_toList]
  refine foldlM_eq_some (p := SymbolSets.HasSets g) (fun s r hr hs => ?_) hs
  have hr : r ∈ g.rules := Array.mem_toList_iff.1 hr
  rw [hs.ofSequence?_eq_some (hg.lt_size_of_mem_rhs hr)]
  exact ⟨hs.extend?_eq_some (hg.lhs_lt_size hr), hs.extend⟩

/-- **FIRST** looks nothing up outside its tables. -/
theorem firstSaturation?_eq_some :
    g.firstSaturation? = some g.firstSaturation ∧ g.first.HasSets g := by
  have hseed : g.firstSeed.HasSets g := by simp [SymbolSets.HasSets, firstSeed]
  unfold firstSaturation? first firstSaturation
  rw [firstSeed?_eq_some]
  exact saturate?_eq_some (fun _ => hg.firstPass?_eq_some) g.passCap hseed

/-- One occurrence of a symbol in a rule. -/
theorem followOccurrence?_eq_some (hfirst : first.HasSets g) {r : Rule} (hr : r ∈ g.rules)
    {occurrence : Nat × List Nat} (hoccurrence : occurrence ∈ occurrences r.rhs)
    (hs : s.HasSets g) :
    g.followOccurrence? first r s occurrence = some (g.followOccurrence first r s occurrence) ∧
      (g.followOccurrence first r s occurrence).HasSets g := by
  obtain ⟨before, hword⟩ := mem_occurrences.1 hoccurrence
  have hrhs := hg.lt_size_of_mem_rhs hr
  rw [hword] at hrhs
  have hsymbol : occurrence.1 < g.symbols.size := hrhs _ (by simp)
  have hrest : ∀ symbol ∈ occurrence.2, symbol < g.symbols.size := fun symbol hmem =>
    hrhs symbol (by simp [hmem])
  unfold followOccurrence? followOccurrence
  rw [SymbolTable.isNonTerminal?_eq_some hsymbol, Option.bind_some]
  split
  · rw [hs.get?_eq_some (hg.lhs_lt_size hr), Option.bind_some, hfirst.followedBy?_eq_some hrest,
      Option.bind_some]
    exact ⟨hs.extend?_eq_some hsymbol, hs.extend⟩
  · exact ⟨rfl, hs⟩

theorem followPass?_eq_some (hfirst : first.HasSets g) (hs : s.HasSets g) :
    g.followPass? first s = some (g.followPass first s) ∧ (g.followPass first s).HasSets g := by
  unfold followPass? followPass
  rw [← Array.foldl_toList]
  refine foldlM_eq_some (p := SymbolSets.HasSets g) (fun s r hr hs => ?_) hs
  rw [followRule_eq]
  exact foldlM_eq_some (p := SymbolSets.HasSets g) (fun s occurrence hmem hs =>
    hg.followOccurrence?_eq_some hfirst (Array.mem_toList_iff.1 hr) hmem hs) hs

/-- **FOLLOW** looks nothing up outside its tables. -/
theorem followSaturation?_eq_some (hfirst : first.HasSets g) :
    g.followSaturation? first = some (g.followSaturation first) := by
  have hempty := SymbolSets.hasSets_empty g
  have hstart : g.start < g.symbols.size := lt_size_of_isNonTerminal hg.start_isNonTerminal
  unfold followSaturation? followSeed?
  rw [hempty.extend?_eq_some hstart, Option.bind_some]
  exact (saturate?_eq_some (fun _ => hg.followPass?_eq_some hfirst) g.passCap
    hempty.extend).1

end IsAugmented

end Grammar

end CanonicalLR
