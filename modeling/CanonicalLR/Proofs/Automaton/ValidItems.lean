import CanonicalLR.Follow
import CanonicalLR.Proofs.Automaton.States
import CanonicalLR.Proofs.Grammar.Productive

/-!
# Valid items

An item `[A -> α • β, a]` is valid for a string of symbols if a rightmost
derivation from the start symbol reaches a form `δ A w` where the string is
`δ α` and `w`, with the end marker behind it, begins with `a`. The moves over a
string lead to the state that holds exactly the valid items. One direction
follows the moves and the spawning of items, which turn each valid item into
valid ones; the other follows the derivation, which tells at every symbol up to
its last non-terminal what the state before this symbol awaits.

## Main definitions

* `Item.IsValid` — an item is valid for a string of symbols.
* `Automaton.Awaits` — an item of a state expects a symbol, with a lookahead behind.
* `Automaton.Tracks` — the states know what a form goes on with.

## Main results

* `IsValid.spawn`, `IsValid.moved`, `Reached.isValid` — states hold valid items only.
* `Tracks.expand`, `Tracks.step` — one rule of a derivation.
* `exists_holds_of_derivesRightmost` — states hold all valid items.
* `exists_reached_iff_isValid` — the states of a grammar text, and valid items.
-/

namespace CanonicalLR

/-- `i.IsValid g γ`: a rightmost derivation from the start symbol reaches a form from
which the rule of the item leads to one where `γ` ends at the dot and the
lookahead comes first behind the right-hand side. -/
inductive Item.IsValid (g : Grammar) : List Nat → Item → Prop where
  | intro {r : Rule} {ids δ α β w : List Nat} (rule : r ∈ g.rules) (rhs_eq : r.rhs = α ++ β)
      (word : g.IsWord w) (derived : g.DerivesRightmost ids [g.start] (δ ++ r.lhs :: w)) :
      IsValid g (δ ++ α) ⟨r.id, α.length, w.headD endId⟩

namespace Item

variable {g : Grammar} {i : Item} {r : Rule} {γ α β : List Nat} {symbol l : Nat}
  (hg : g.IsAugmented)

include hg

/-- The symbols behind the dot of an item with its rule at hand. -/
theorem remaining_of_rhs_eq (hr : r ∈ g.rules) (hrhs : r.rhs = α ++ β) :
    remaining g ⟨r.id, α.length, l⟩ = β := by
  unfold remaining rhs
  rw [hg.rule_eq_of_mem hr, hrhs, List.drop_left]

/-! ## States hold valid items only -/

theorem isValid_start : IsValid g [] ⟨0, 0, endId⟩ := by
  obtain ⟨declared, hstart⟩ := hg.start_rule
  exact .intro (δ := []) (α := []) (Array.mem_of_getElem? hstart) rfl Grammar.isWord_nil
    (.nil [g.start])

/-- A valid item stays valid when its dot moves, for the string with the symbol. -/
theorem IsValid.moved (h : i.IsValid g γ) (hexp : i.symbol? g = some symbol) :
    i.moved.IsValid g (γ ++ [symbol]) := by
  cases h with
  | @intro r ids δ α β w rule rhs_eq word derived =>
      have hβ := remaining_of_symbol? hexp
      rw [remaining_of_rhs_eq hg rule rhs_eq] at hβ
      have hrhs : r.rhs = (α ++ [symbol]) ++ tail g ⟨r.id, α.length, w.headD endId⟩ := by
        rw [rhs_eq, hβ, List.append_assoc]
        rfl
      have hvalid := IsValid.intro rule hrhs word derived
      rw [List.length_append, List.length_singleton, ← List.append_assoc] at hvalid
      exact hvalid

/-- A valid item spawns valid items: what its tail derives brings the lookahead. -/
theorem IsValid.spawn (hp : g.IsProductive) (h : i.IsValid g γ) (hr : r ∈ g.rules)
    (hspawns : i.Spawns g r.lhs l) : IsValid g γ ⟨r.id, 0, l⟩ := by
  cases h with
  | @intro q ids δ α β w rule rhs_eq word derived =>
      have hβ := remaining_of_symbol? hspawns.expected
      rw [remaining_of_rhs_eq hg rule rhs_eq] at hβ
      generalize htail : tail g ⟨q.id, α.length, w.headD endId⟩ = rest at hβ
      have hl := hspawns.mem_lookaheads
      rw [htail] at hl
      have hrest : q.rhs = (α ++ [r.lhs]) ++ rest := by
        rw [rhs_eq, hβ, List.append_assoc]
        rfl
      have hform : g.IsForm rest := by
        have hall := hg.isForm_rhs rule
        rw [hrest] at hall
        exact hall.of_append.2
      have hε : ∀ symbol ∈ rest, symbol ≠ epsilonId := by
        intro symbol hmem
        apply hg.ne_epsilonId_of_mem_rhs rule
        rw [hrest]
        exact List.mem_append_right _ hmem
      obtain ⟨more, v, hv, rfl⟩ := hp.exists_yields_of_mem_lookaheads hg hform hε hl
      have hrule := derived.concat rule word
      have hderives := (hv.derivesRightmost.append_left (δ ++ α ++ [r.lhs])).append_word word
      rw [hrest] at hrule
      have hall : g.DerivesRightmost (ids ++ [q.id] ++ more.reverse) [g.start]
          (δ ++ α ++ r.lhs :: (v ++ w)) := by
        apply hrule.trans
        simpa using hderives
      have hvalid := IsValid.intro (α := []) hr rfl (hv.isWord.append word) hall
      rw [List.append_nil] at hvalid
      have hhead : (v ++ w).headD endId = v.headD (w.headD endId) := by
        cases v with
        | nil => rfl
        | cons _ _ => rfl
      rw [hhead] at hvalid
      exact hvalid

/-- A valid item leads to a form that begins with the string, and goes on with what the
symbols behind its dot yield and with its lookahead. -/
theorem IsValid.exists_derives {ids v : List Nat} (h : i.IsValid g γ)
    (hv : g.Yields ids (i.remaining g) v) :
    ∃ w, g.IsWord w ∧ w.headD endId = i.lookahead ∧ g.Derives [g.start] (γ ++ (v ++ w)) := by
  cases h with
  | @intro r _ δ α β w rule rhs_eq word derived =>
      rw [remaining_of_rhs_eq hg rule rhs_eq] at hv
      have hrule := (derived.concat rule word).derives
      have hrest := (hv.derivesRightmost.derives.append_left (δ ++ α)).append_right w
      rw [rhs_eq] at hrule
      refine ⟨w, word, rfl, ?_⟩
      rw [← List.append_assoc] at hrule ⊢
      exact hrule.trans hrest

/-- All that valid items spawn is valid. -/
theorem IsValid.of_spawned (hp : g.IsProductive) {s : ItemSet}
    (hs : ∀ i ∈ s, IsValid g γ i) (h : s.Spawned g i) : i.IsValid g γ := by
  induction h with
  | base mem => exact hs _ mem
  | spawn _ rule spawns ih => exact ih.spawn hg hp rule spawns

end Item

namespace Automaton

variable {g : Grammar} {a : Automaton} {i : Item} {r : Rule}
  {γ δ α β φ ψ ids more w : List Nat} {state symbol l : Nat}

/-- **A state holds valid items only**, for each string that leads to it. -/
theorem Reached.isValid (ha : a.IsCanonical g) (hg : g.IsAugmented) (hp : g.IsProductive)
    (h : a.Reached γ state) (hi : a.Holds state i) : i.IsValid g γ := by
  induction h generalizing i with
  | start =>
      apply Item.IsValid.of_spawned hg hp _ ((ha.holds_zero_iff hg).1 hi)
      intro i hmem
      have heq : i = ⟨0, 0, endId⟩ := by
        unfold ItemSet.kernel at hmem
        simpa using hmem
      rw [heq]
      exact Item.isValid_start hg
  | move _ move ih =>
      obtain ⟨s, hs⟩ := ha.exists_state move
      apply Item.IsValid.of_spawned hg hp _ ((ha.holds_next_iff hg hs move).1 hi)
      intro j hmem
      obtain ⟨i, hi, hexp, rfl⟩ := hg.mem_advance_iff.1 hmem
      exact (ih ⟨s, hs, hi⟩).moved hg hexp

/-! ## States hold all valid items -/

/-- An item of the state expects the symbol, and `l` can follow the symbol there. -/
def Awaits (g : Grammar) (a : Automaton) (state symbol l : Nat) : Prop :=
  ∃ i, a.Holds state i ∧ i.symbol? g = some symbol ∧
    l ∈ g.first.lookaheads (i.tail g) i.lookahead

/-- The states know what a form goes on with: before every symbol up to its last
non-terminal, the state that is reached awaits this symbol and the start of
whatever the symbols behind it yield. -/
def Tracks (g : Grammar) (a : Automaton) (φ : List Nat) : Prop :=
  ∀ δ symbol ψ ids w, φ = δ ++ symbol :: ψ → ¬ g.IsWord (symbol :: ψ) → g.Yields ids ψ w →
    ∃ state, a.Reached δ state ∧ a.Awaits g state symbol (w.headD endId)

section Canonical

variable (ha : a.IsCanonical g) (hg : g.IsAugmented)

include ha hg

/-- A state that awaits the left-hand side of a rule holds the rule at its start. -/
theorem Awaits.holds (hr : r ∈ g.rules) (h : a.Awaits g state r.lhs l) :
    a.Holds state ⟨r.id, 0, l⟩ := by
  obtain ⟨i, hi, hexp, hl⟩ := h
  exact ha.holds_of_spawns hg hi hr ⟨hexp, hg.lhs_isNonTerminal r hr, hl⟩

/-- An item takes the states along over the symbols behind its dot. -/
theorem exists_reached_of_remaining (h : a.Reached γ state) (hi : a.Holds state i)
    (hα : i.remaining g = α ++ β) :
    ∃ next, a.Reached (γ ++ α) next ∧ a.Holds next (i.movedBy α.length) := by
  induction α generalizing γ state i with
  | nil =>
      rw [List.append_nil]
      exact ⟨state, h, hi⟩
  | cons symbol α ih =>
      have hexp := Item.symbol?_of_remaining hα
      obtain ⟨next, hmove⟩ := ha.exists_next hg hi hexp
      obtain ⟨last, hreached, hheld⟩ :=
        ih (.move h hmove) (ha.holds_moved hg hi hexp hmove) (Item.remaining_moved hα)
      rw [List.append_assoc] at hreached
      rw [Item.movedBy_moved] at hheld
      exact ⟨last, hreached, hheld⟩

/-- A rule at its start takes the states along over its right-hand side. -/
theorem exists_reached_of_rule (hr : r ∈ g.rules) (h : a.Reached γ state)
    (hi : a.Holds state ⟨r.id, 0, l⟩) (hrhs : r.rhs = α ++ β) :
    ∃ next, a.Reached (γ ++ α) next ∧ a.Holds next ⟨r.id, α.length, l⟩ := by
  have hremaining : Item.remaining g ⟨r.id, 0, l⟩ = α ++ β :=
    Item.remaining_of_rhs_eq hg (α := []) hr hrhs
  obtain ⟨next, hreached, hheld⟩ := exists_reached_of_remaining ha hg h hi hremaining
  unfold Item.movedBy at hheld
  rw [Nat.zero_add] at hheld
  exact ⟨next, hreached, hheld⟩

/-- A rule at its start makes the states await the symbols of its right-hand side. -/
theorem exists_awaits_of_rule {x : List Nat} (hr : r ∈ g.rules) (h : a.Reached γ state)
    (hi : a.Holds state ⟨r.id, 0, x.headD endId⟩) (hrhs : r.rhs = α ++ symbol :: ψ)
    (hψ : g.Yields ids ψ w) :
    ∃ next, a.Reached (γ ++ α) next ∧ a.Awaits g next symbol ((w ++ x).headD endId) := by
  obtain ⟨next, hreached, hheld⟩ := exists_reached_of_rule ha hg hr h hi hrhs
  have hremaining : Item.remaining g ⟨r.id, α.length, x.headD endId⟩ = symbol :: ψ :=
    Item.remaining_of_rhs_eq hg hr hrhs
  have hx : x.headD endId ∈ g.first.lookaheads [] (x.headD endId) :=
    SymbolSets.mem_lookaheads_nil.2 rfl
  have hl := hg.headD_mem_lookaheads hψ hx
  rw [List.append_nil] at hl
  refine ⟨next, hreached, _, hheld, Item.symbol?_of_remaining hremaining, ?_⟩
  rw [Item.tail_of_remaining hremaining]
  exact hl

omit ha in
/-- What has the left-hand side of a rule in it is no word. -/
theorem not_isWord_of_lhs_mem (hr : r ∈ g.rules) (hmem : r.lhs ∈ φ) : ¬ g.IsWord φ :=
  fun hφ => hg.kind?_lhs_ne_terminal r hr (hφ r.lhs hmem)

/-- **A rule of a derivation**: every symbol up to the end of the right-hand side is
awaited, if the states track the form before. -/
theorem Tracks.expand (hφ : a.Tracks g (α ++ r.lhs :: β)) (hr : r ∈ g.rules)
    (hβ : g.IsWord β) (h : a.Reached α state)
    (hi : a.Holds state ⟨r.id, 0, β.headD endId⟩) (hocc : α ++ r.rhs = δ ++ symbol :: ψ)
    (hψ : g.Yields ids (ψ ++ β) w) :
    ∃ next, a.Reached δ next ∧ a.Awaits g next symbol (w.headD endId) := by
  rcases cases_of_append_eq_append_cons hocc with ⟨front, rfl, hrhs⟩ | ⟨between, rfl, rfl⟩
  · obtain ⟨first, second, u, v, -, rfl, hu, hv⟩ := hψ.of_append
    obtain ⟨-, rfl⟩ := hv.eq_of_isWord hg.kind?_lhs_ne_terminal hβ
    exact exists_awaits_of_rule ha hg hr h hi hrhs hu
  · obtain ⟨first, second, _, -, -, hreduced⟩ := hψ.replace hr
    refine hφ δ symbol (between ++ r.lhs :: β) _ w (by simp) ?_ hreduced
    exact not_isWord_of_lhs_mem hg hr (by simp)

/-- One rule of a rightmost derivation keeps the states on its track. -/
theorem Tracks.step (hφ : a.Tracks g (α ++ r.lhs :: β)) (hr : r ∈ g.rules)
    (hβ : g.IsWord β) : a.Tracks g (α ++ r.rhs ++ β) := by
  intro δ symbol ψ ids w hocc hnot hψ
  have hlhs : ¬ g.IsWord (r.lhs :: β) := not_isWord_of_lhs_mem hg hr List.mem_cons_self
  obtain ⟨state, hreached, hawaits⟩ := hφ α r.lhs β [] β rfl hlhs hβ.yields
  rcases cases_of_append_eq_append_cons hocc with ⟨between, -, rfl⟩ | ⟨between, hfront, rfl⟩
  · exact absurd (fun other hmem => hβ other (List.mem_append_right _ hmem)) hnot
  · exact hφ.expand ha hg hr hβ hreached (hawaits.holds ha hg hr) hfront hψ

theorem Tracks.derivesRightmost (hφ : a.Tracks g φ) (h : g.DerivesRightmost ids φ ψ) :
    a.Tracks g ψ := by
  induction h with
  | nil => exact hφ
  | cons hr hword _ ih => exact ih (hφ.step ha hg hr hword)

/-- The states track the declared start symbol. -/
theorem tracks_rule_zero : a.Tracks g (g.rule 0).rhs := by
  obtain ⟨declared, hstart⟩ := hg.start_rule
  have hmem := Array.mem_of_getElem? hstart
  rw [Grammar.rule_of_getElem? hstart]
  intro δ symbol ψ ids w hocc _ hψ
  obtain ⟨next, hreached, hawaits⟩ :=
    exists_awaits_of_rule (x := []) ha hg hmem .start ha.holds_start hocc hψ
  rw [List.append_nil] at hawaits
  exact ⟨next, hreached, hawaits⟩

/-- **The rules of the last non-terminal** of a rightmost derivation are held at their
start, with the symbol behind it as their lookahead. -/
theorem exists_holds_of_derivesRightmost (hr : r ∈ g.rules) (hw : g.IsWord w)
    (h : g.DerivesRightmost ids [g.start] (δ ++ r.lhs :: w)) :
    ∃ state, a.Reached δ state ∧ a.Holds state ⟨r.id, 0, w.headD endId⟩ := by
  rcases hg.cases_of_derivesRightmost_start h with hstart | ⟨more, hlater⟩
  · rcases List.append_eq_singleton_iff.1 hstart with ⟨rfl, hcons⟩ | ⟨_, hcons⟩
    · obtain ⟨hlhs, rfl⟩ := List.cons_eq_cons.1 hcons
      rw [hg.id_of_lhs_eq_start r hr hlhs]
      exact ⟨0, .start, ha.holds_start⟩
    · cases hcons
  · have htracks := (tracks_rule_zero ha hg).derivesRightmost ha hg hlater
    have hnot : ¬ g.IsWord (r.lhs :: w) := not_isWord_of_lhs_mem hg hr List.mem_cons_self
    obtain ⟨state, hreached, hawaits⟩ := htracks δ r.lhs w [] w rfl hnot hw.yields
    exact ⟨state, hreached, hawaits.holds ha hg hr⟩

/-- **What a handle is made of**: before every symbol up to the end of the right-hand
side, the state that is reached awaits the symbol and what stands behind it. -/
theorem exists_awaits_of_derivesRightmost (hr : r ∈ g.rules) (hβ : g.IsWord β)
    (h : g.DerivesRightmost more [g.start] (α ++ r.lhs :: β))
    (hocc : α ++ r.rhs = δ ++ symbol :: ψ) (hψ : g.Yields ids (ψ ++ β) w) :
    ∃ state, a.Reached δ state ∧ a.Awaits g state symbol (w.headD endId) := by
  obtain ⟨state, hreached, hheld⟩ := exists_holds_of_derivesRightmost ha hg hr hβ h
  rcases hg.cases_of_derivesRightmost_start h with hstart | ⟨ids, hlater⟩
  · rcases List.append_eq_singleton_iff.1 hstart with ⟨rfl, hcons⟩ | ⟨_, hcons⟩
    · obtain ⟨-, rfl⟩ := List.cons_eq_cons.1 hcons
      rw [List.append_nil] at hψ
      obtain ⟨next, hnext, hawaits⟩ :=
        exists_awaits_of_rule (x := []) ha hg hr hreached hheld hocc hψ
      rw [List.append_nil] at hawaits
      exact ⟨next, hnext, hawaits⟩
    · cases hcons
  · have htracks := (tracks_rule_zero ha hg).derivesRightmost ha hg hlater
    exact htracks.expand ha hg hr hβ hreached hheld hocc hψ

/-- **States hold all valid items**, for each string that leads to them. -/
theorem exists_holds_of_isValid (h : i.IsValid g γ) :
    ∃ state, a.Reached γ state ∧ a.Holds state i := by
  cases h with
  | @intro r ids δ α β w rule rhs_eq word derived =>
      obtain ⟨state, hreached, hheld⟩ :=
        exists_holds_of_derivesRightmost ha hg rule word derived
      exact exists_reached_of_rule ha hg rule hreached hheld rhs_eq

/-- Some item is valid for every string that leads to a state. -/
theorem Reached.exists_holds (h : a.Reached γ state) : ∃ i, a.Holds state i := by
  cases h with
  | start => exact ⟨_, ha.holds_start⟩
  | move _ move =>
      obtain ⟨i, hi, hexp⟩ := ha.exists_holds_of_move hg move
      exact ⟨_, ha.holds_moved hg hi hexp move⟩

end Canonical

/-- **Valid items**: the moves of the collection of a productive grammar lead over a
string of symbols to a state that holds exactly the items which are valid for the
string. They lead to one state at most, and to none where no item is valid. -/
theorem exists_reached_iff_isValid {text : String} {g : Grammar}
    (read : Grammar.ofText text = .ok g) (productive : g.IsProductive) (γ : List Nat) :
    (∀ i, (∃ state, (g.augment.automaton g.augment.first).Reached γ state ∧
        (g.augment.automaton g.augment.first).Holds state i) ↔ i.IsValid g.augment γ) ∧
    ((∃ state, (g.augment.automaton g.augment.first).Reached γ state) ↔
      ∃ i : Item, i.IsValid g.augment γ) ∧
    ∀ state other, (g.augment.automaton g.augment.first).Reached γ state →
      (g.augment.automaton g.augment.first).Reached γ other → state = other := by
  have hwell : g.WellFormed := Grammar.wellFormed_ofText read
  have hg := hwell.isAugmented
  have hp := hwell.isProductive_augment productive
  have ha := Grammar.isCanonical_automaton hg
  refine ⟨fun i => ⟨?_, exists_holds_of_isValid ha hg⟩, ⟨?_, ?_⟩, ?_⟩
  · intro h
    obtain ⟨state, hreached, hi⟩ := h
    exact hreached.isValid ha hg hp hi
  · intro h
    obtain ⟨state, hreached⟩ := h
    obtain ⟨i, hi⟩ := hreached.exists_holds ha hg
    exact ⟨i, hreached.isValid ha hg hp hi⟩
  · intro h
    obtain ⟨i, hi⟩ := h
    obtain ⟨state, hreached, -⟩ := exists_holds_of_isValid ha hg hi
    exact ⟨state, hreached⟩
  · intro state other h h'
    exact h.unique ha h'

/-- So the empty rule awaits its turn behind two opening symbols, before a closing one. -/
theorem exists_reached_of_nested :
    Grammar.ofText "S -> a S b | ε" = .ok Grammar.nested ∧ Grammar.nested.IsProductive ∧
    Item.IsValid Grammar.nested.augment [3, 3] ⟨2, 0, 4⟩ ∧
    ∃ state, (Grammar.nested.augment.automaton Grammar.nested.augment.first).Reached
        [3, 3] state ∧
      (Grammar.nested.augment.automaton Grammar.nested.augment.first).Holds state
        ⟨2, 0, 4⟩ := by
  have hstart : (⟨0, 5, [2]⟩ : Rule) ∈ Grammar.nested.augment.rules :=
    Array.mem_of_getElem? (Grammar.getElem?_rules_augment 0)
  have hnest : (⟨1, 2, [3, 2, 4]⟩ : Rule) ∈ Grammar.nested.augment.rules :=
    Array.mem_of_getElem? (Grammar.getElem?_rules_augment 1)
  have hempty : (⟨2, 2, []⟩ : Rule) ∈ Grammar.nested.augment.rules :=
    Array.mem_of_getElem? (Grammar.getElem?_rules_augment 2)
  have hword : Grammar.nested.augment.IsWord [4, 4] := by
    unfold Grammar.IsWord
    decide
  have hderives : Grammar.nested.augment.DerivesRightmost [0, 1, 1] [5] [3, 3, 2, 4, 4] := by
    refine .cons (α := []) (w := []) hstart Grammar.isWord_nil ?_
    refine .cons (α := []) (w := []) hnest Grammar.isWord_nil ?_
    exact .cons (α := [3]) (w := [4]) hnest hword.of_append.1 (.nil _)
  have hvalid : Item.IsValid Grammar.nested.augment [3, 3] ⟨2, 0, 4⟩ :=
    .intro (δ := [3, 3]) (α := []) (β := []) hempty rfl hword hderives
  refine ⟨Grammar.ofText_nested, Grammar.isProductive_nested, hvalid, ?_⟩
  exact ((exists_reached_iff_isValid Grammar.ofText_nested Grammar.isProductive_nested
    [3, 3]).1 _).2 hvalid

end Automaton

end CanonicalLR
