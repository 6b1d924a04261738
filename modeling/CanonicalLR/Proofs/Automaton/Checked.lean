import CanonicalLR.Proofs.Automaton.Exact
import CanonicalLR.Proofs.Grammar.Numbers
import CanonicalLR.Proofs.Sets.Checked

/-!
# Item sets and the canonical collection with checked look-ups

Closure, goto and the walk over the states, step by step as they are defined, but giving up
where the number of a rule, a symbol or a state is outside its table. They never give up on
items whose rules exist, and all items of all states are of this sort.

## Main definitions

* `ItemSet.closure?`, `ItemSet.goto?`, `Grammar.automaton?` — closure, goto and the walk.
* `ItemSet.HasRules` — the rules of the items exist.
* `Grammar.LooksUpInside` — no look-up in a grammar leaves its table.

## Main results

* `closure?_eq_some`, `goto?_eq_some` — closure and goto do not give up.
* `expand?_eq_some`, `steps?_eq_some`, `rounds?_eq_some` — nor does the walk.
* `automaton?_eq_some` — the canonical collection looks nothing up outside its tables.
* `isNumbered_and_looksUpInside` — so it is with every grammar that is read from a text.
-/

namespace CanonicalLR

/-! ## Item sets -/

namespace ItemSet

/-- The rules of the items exist. -/
def HasRules (g : Grammar) (s : ItemSet) : Prop := ∀ i ∈ s, i.rule < g.rules.size

/-- Adds the lookaheads with which one item spawns the rules of its symbol. -/
def spawnItem? (g : Grammar) (first spawned : SymbolSets) (i : Item) : Option SymbolSets :=
  (g.rules[i.rule]?).bind fun r =>
    match r.rhs[i.position]? with
    | none => some spawned
    | some symbol =>
      (g.symbols.isNonTerminal? symbol).bind fun isNonTerminal =>
        if isNonTerminal then
          (first.followedBy? (r.rhs.drop (i.position + 1))
            (OrdSet.empty.insert i.lookahead)).bind fun more => spawned.extend? symbol more
        else some spawned

/-- The lookaheads with which the items of a set spawn the rules of each symbol. -/
def spawnedBy? (g : Grammar) (first : SymbolSets) (s : ItemSet) : Option SymbolSets :=
  s.toList.foldlM (spawnItem? g first) (SymbolSets.empty g.symbols.size)

/-- Adds what the items of one rule spawn, where the rule itself is spawned. -/
def spawnRule? (g : Grammar) (first spawned : SymbolSets) (r : Rule) : Option SymbolSets :=
  match r.rhs with
  | [] => some spawned
  | symbol :: rest =>
    (spawned.get? r.lhs).bind fun after =>
      (g.symbols.isNonTerminal? symbol).bind fun isNonTerminal =>
        if isNonTerminal && !after.isEmpty then
          (first.followedBy? rest after).bind fun more => spawned.extend? symbol more
        else some spawned

/-- A pass over the rules in order. -/
def spawnPass? (g : Grammar) (first spawned : SymbolSets) : Option SymbolSets :=
  g.rules.toList.foldlM (spawnRule? g first) spawned

/-- The items of all rules with the dot at the start and a lookahead that their
left-hand side has in a family. -/
def ofSpawned? (g : Grammar) (spawned : SymbolSets) : Option ItemSet :=
  (g.rules.toList.mapM fun r => (spawned.get? r.lhs).map fun lookaheads =>
    lookaheads.toList.map fun l => (⟨r.id, 0, l⟩ : Item)).map fun items =>
      OrdSet.ofList items.flatten

/-- The set with all that its members spawn, directly or not. -/
def closure? (g : Grammar) (first : SymbolSets) (s : ItemSet) : Option ItemSet :=
  (spawnedBy? g first s).bind fun spawned =>
    (saturate? (spawnPass? g first) (spawnCap g s) spawned).bind fun found =>
      (ofSpawned? g found.value).map fun more => s ∪ more

/-- The items of a set that expect a symbol, with their dot moved over it. -/
def advance? (g : Grammar) (s : ItemSet) (symbol : Nat) : Option ItemSet :=
  (s.toList.mapM fun i => (g.rules[i.rule]?).map fun r =>
    if r.rhs[i.position]? = some symbol then r.itemAt? (i.position + 1) i.lookahead
    else none).map fun items => OrdSet.ofList (items.filterMap id)

/-- The closed set reached over a symbol. -/
def goto? (g : Grammar) (first : SymbolSets) (s : ItemSet) (symbol : Nat) : Option ItemSet :=
  (s.advance? g symbol).bind fun moved => moved.closure? g first

/-- The symbols that the items of a set expect, in column order. -/
def columns? (g : Grammar) (s : ItemSet) : Option (List Nat) :=
  (s.toList.mapM fun i =>
    (g.rules[i.rule]?).map fun r => r.rhs[i.position]?).bind fun symbols =>
    let expected : OrdSet Nat := OrdSet.ofList (symbols.filterMap id)
    (expected.toList.mapM g.symbols.kind?).map fun _ => g.inColumnOrder expected

end ItemSet

/-! ## The walk -/

namespace Exploration

/-- Follows symbols from a state, one after the other. -/
def follow? (g : Grammar) (first : SymbolSets) (s : ItemSet) :
    List Nat → Numbering ItemSet → Option (List (Nat × Nat) × Numbering ItemSet)
  | [], met => some ([], met)
  | symbol :: symbols, met =>
    (s.goto? g first symbol).bind fun next =>
      let (target, met) := met.meet next
      (follow? g first s symbols met).map fun (moves, met) => ((symbol, target) :: moves, met)

/-- Expands the next state, which is the set `s`. -/
def expand? (g : Grammar) (first : SymbolSets) (s : ItemSet) (e : Exploration) :
    Option Exploration :=
  (s.columns? g).bind fun symbols =>
    (follow? g first s symbols e.met).map fun (moves, met) => ⟨met, e.moves.push moves⟩

/-- Expands the next states, at most `cap` of them. -/
def steps? (g : Grammar) (first : SymbolSets) : Nat → Exploration → Option Exploration
  | 0, e => some e
  | cap + 1, e =>
    if e.isComplete then some e
    else (e.met.values[e.expanded]?).bind fun s =>
      (e.expand? g first s).bind fun next => steps? g first cap next

/-- Expands up to `cap` states, then twice as many, and so on. -/
def rounds? (g : Grammar) (first : SymbolSets) :
    Nat → Nat → Exploration → Option Exploration
  | 0, _, e => some e
  | more + 1, cap, e =>
    (e.steps? g first cap).bind fun next =>
      if next.isComplete then some next else rounds? g first more (2 * cap) next

end Exploration

/-- The canonical collection of an augmented grammar. -/
def Grammar.automaton? (g : Grammar) (first : SymbolSets) : Option Automaton :=
  (ItemSet.kernel.closure? g first).bind fun start =>
    (Exploration.rounds? g first (g.itemCount + 1) 1
      ⟨(Numbering.empty.meet start).2, #[]⟩).map fun walk => ⟨walk.met.values, walk.moves⟩

namespace Grammar.IsAugmented

variable {g : Grammar} (hg : g.IsAugmented) {first spawned : SymbolSets} {s : ItemSet}
  {i : Item} {symbol : Nat}

omit hg in
/-- The rule of an item stands under its number. -/
theorem getElem?_rule (hi : i.rule < g.rules.size) : g.rules[i.rule]? = some (g.rule i.rule) := by
  obtain ⟨r, hr⟩ : ∃ r, g.rules[i.rule]? = some r := ⟨_, Array.getElem?_eq_getElem hi⟩
  rw [hr, rule_of_getElem? hr]

include hg

theorem hasRules_of_subset_items (h : ∀ i ∈ s, i ∈ g.items) : s.HasRules g := fun i hi =>
  (Array.getElem?_eq_some_iff.1
    (hg.getElem?_rules (hg.rule_mem_of_mem_items (h i hi)).1)).1

/-! ## Closure -/

section Closure

variable (hfirst : first.HasSets g)

include hfirst

theorem spawnItem?_eq_some (hi : i.rule < g.rules.size) (hs : spawned.HasSets g) :
    ItemSet.spawnItem? g first spawned i = some (ItemSet.spawnItem g first spawned i) ∧
      (ItemSet.spawnItem g first spawned i).HasSets g := by
  have hrule := getElem?_rule hi
  have hrhs := hg.lt_size_of_mem_rhs (Array.mem_of_getElem? hrule)
  refine ⟨?_, ItemSet.size_spawnItem.trans hs⟩
  unfold ItemSet.spawnItem? ItemSet.spawnItem Item.symbol? Item.tail Item.rhs
  rw [hrule, Option.bind_some]
  cases hsymbol : (g.rule i.rule).rhs[i.position]? with
  | none => rfl
  | some symbol =>
      have hlt : symbol < g.symbols.size := hrhs symbol (List.mem_of_getElem? hsymbol)
      have htail : ∀ other ∈ (g.rule i.rule).rhs.drop (i.position + 1),
          other < g.symbols.size := fun other hmem => hrhs other (List.mem_of_mem_drop hmem)
      dsimp only
      rw [SymbolTable.isNonTerminal?_eq_some hlt, Option.bind_some]
      split
      · rw [hfirst.followedBy?_eq_some htail, Option.bind_some, hs.extend?_eq_some hlt]
        rfl
      · rfl

theorem spawnRule?_eq_some {r : Rule} (hr : r ∈ g.rules) (hs : spawned.HasSets g) :
    ItemSet.spawnRule? g first spawned r = some (ItemSet.spawnRule g first spawned r) ∧
      (ItemSet.spawnRule g first spawned r).HasSets g := by
  have hlhs := hg.lhs_lt_size hr
  have hrhs := hg.lt_size_of_mem_rhs hr
  unfold ItemSet.spawnRule? ItemSet.spawnRule
  cases hword : r.rhs with
  | nil => exact ⟨rfl, hs⟩
  | cons symbol rest =>
      rw [hword] at hrhs
      have hlt : symbol < g.symbols.size := hrhs symbol List.mem_cons_self
      have hrest : ∀ other ∈ rest, other < g.symbols.size := fun other hmem =>
        hrhs other (List.mem_cons_of_mem _ hmem)
      dsimp only
      rw [hs.get?_eq_some hlhs, Option.bind_some, SymbolTable.isNonTerminal?_eq_some hlt,
        Option.bind_some]
      split
      · rw [hfirst.followedBy?_eq_some hrest, Option.bind_some]
        exact ⟨hs.extend?_eq_some hlt, hs.extend⟩
      · exact ⟨rfl, hs⟩

theorem spawnPass?_eq_some (hs : spawned.HasSets g) :
    ItemSet.spawnPass? g first spawned = some (ItemSet.spawnPass g first spawned) ∧
      (ItemSet.spawnPass g first spawned).HasSets g := by
  unfold ItemSet.spawnPass? ItemSet.spawnPass
  rw [← Array.foldl_toList]
  exact foldlM_eq_some (p := SymbolSets.HasSets g) (fun spawned r hr hs =>
    hg.spawnRule?_eq_some hfirst (Array.mem_toList_iff.1 hr) hs) hs

omit hfirst in
theorem ofSpawned?_eq_some (hs : spawned.HasSets g) :
    ItemSet.ofSpawned? g spawned = some (ItemSet.ofSpawned g spawned) := by
  have hitems : (g.rules.toList.mapM fun r => (spawned.get? r.lhs).map fun lookaheads =>
      lookaheads.toList.map fun l => (⟨r.id, 0, l⟩ : Item))
      = some (g.rules.toList.map fun r =>
        (spawned.get r.lhs).toList.map fun l => ⟨r.id, 0, l⟩) := by
    refine mapM_eq_some fun r hr => ?_
    rw [hs.get?_eq_some (hg.lhs_lt_size (Array.mem_toList_iff.1 hr))]
    rfl
  unfold ItemSet.ofSpawned? ItemSet.ofSpawned
  rw [hitems, Option.map_some, List.flatMap_def]

theorem spawnedBy?_eq_some (hs : s.HasRules g) :
    ItemSet.spawnedBy? g first s = some (ItemSet.spawnedBy g first s) ∧
      (ItemSet.spawnedBy g first s).HasSets g :=
  foldlM_eq_some (p := SymbolSets.HasSets g) (fun _ i hi hspawned =>
    hg.spawnItem?_eq_some hfirst (hs i (OrdSet.mem_toList.1 hi)) hspawned)
    (SymbolSets.hasSets_empty g)

/-- **Closure** looks nothing up outside its tables. -/
theorem closure?_eq_some (hs : s.HasRules g) :
    s.closure? g first = some (s.closure g first) := by
  obtain ⟨hby, hseed⟩ := hg.spawnedBy?_eq_some hfirst hs
  obtain ⟨hspawned, hsets⟩ : saturate? (ItemSet.spawnPass? g first) (ItemSet.spawnCap g s)
        (ItemSet.spawnedBy g first s)
      = some (saturate (ItemSet.spawnPass g first) (ItemSet.spawnCap g s)
        (ItemSet.spawnedBy g first s)) ∧ (ItemSet.spawned g first s).HasSets g :=
    saturate?_eq_some (fun _ => hg.spawnPass?_eq_some hfirst) (ItemSet.spawnCap g s) hseed
  unfold ItemSet.closure?
  rw [hby, Option.bind_some, hspawned, Option.bind_some, ← ItemSet.spawned,
    hg.ofSpawned?_eq_some hsets]
  rfl

omit hfirst in
/-- The rules of the items that a closure adds exist. -/
theorem hasRules_closure (hs : s.HasRules g) : (s.closure g first).HasRules g := by
  intro i hi
  rcases OrdSet.mem_union.1 hi with hi | hi
  · exact hs i hi
  · obtain ⟨r, hr, l, -, rfl⟩ := ItemSet.mem_ofSpawned.1 hi
    obtain ⟨k, hk⟩ := Array.getElem?_of_mem hr
    rw [hg.rule_id hk]
    exact (Array.getElem?_eq_some_iff.1 hk).1

/-! ## Goto -/

omit hg hfirst in
theorem advance?_eq_some (hs : s.HasRules g) (symbol : Nat) :
    s.advance? g symbol = some (s.advance g symbol) := by
  have hitems : (s.toList.mapM fun i => (g.rules[i.rule]?).map fun r =>
      if r.rhs[i.position]? = some symbol then r.itemAt? (i.position + 1) i.lookahead
      else none)
      = some (s.toList.map fun i => if i.symbol? g = some symbol then i.next? g else none) := by
    refine mapM_eq_some fun i hi => ?_
    rw [getElem?_rule (hs i (OrdSet.mem_toList.1 hi))]
    rfl
  unfold ItemSet.advance? ItemSet.advance
  rw [hitems, Option.map_some, List.filterMap_map, List.filterMap_filter]
  simp

omit hfirst in
theorem hasRules_advance (hs : s.HasRules g) : (s.advance g symbol).HasRules g := by
  intro j hj
  obtain ⟨i, hi, -, rfl⟩ := hg.mem_advance_iff.1 hj
  exact hs i hi

/-- **Goto** looks nothing up outside its tables. -/
theorem goto?_eq_some (hs : s.HasRules g) (symbol : Nat) :
    s.goto? g first symbol = some (s.goto g first symbol) := by
  unfold ItemSet.goto?
  rw [advance?_eq_some hs, Option.bind_some]
  exact hg.closure?_eq_some hfirst (hg.hasRules_advance hs)

end Closure

theorem columns?_eq_some (hs : s.HasRules g) :
    s.columns? g = some (g.inColumnOrder (s.expected g)) := by
  have hsymbols : (s.toList.mapM fun i => (g.rules[i.rule]?).map fun r => r.rhs[i.position]?)
      = some (s.toList.map fun i => i.symbol? g) := by
    refine mapM_eq_some fun i hi => ?_
    rw [getElem?_rule (hs i (OrdSet.mem_toList.1 hi))]
    rfl
  have hexpected : OrdSet.ofList ((s.toList.map fun i => i.symbol? g).filterMap id)
      = s.expected g := by
    unfold ItemSet.expected
    rw [List.filterMap_map]
    rfl
  have hkinds : ∀ symbol ∈ (s.expected g).toList,
      g.symbols.kind? symbol = some ((g.symbols.kind? symbol).getD .terminal) := by
    intro symbol hsymbol
    obtain ⟨i, -, hexp⟩ := ItemSet.mem_expected.1 (OrdSet.mem_toList.1 hsymbol)
    rcases hg.kind?_of_mem_rhs (List.mem_of_getElem? hexp) with hkind | hkind
    · rw [hkind]
      rfl
    · rw [hkind]
      rfl
  unfold ItemSet.columns?
  rw [hsymbols, Option.bind_some]
  dsimp only
  rw [hexpected, mapM_eq_some hkinds]
  rfl

/-! ## The walk -/

section Walk

variable {e : Exploration}

theorem follow?_eq_some (hs : s.HasRules g) (symbols : List Nat) (met : Numbering ItemSet) :
    Exploration.follow? g g.first s symbols met
      = some (Exploration.follow g g.first s symbols met) := by
  induction symbols generalizing met with
  | nil => rfl
  | cons symbol symbols ih =>
      rw [Exploration.follow?, hg.goto?_eq_some hg.firstSaturation?_eq_some.2 hs,
        Option.bind_some]
      dsimp only
      rw [ih]
      rfl

theorem expand?_eq_some (hs : s.HasRules g) :
    e.expand? g g.first s = some (e.expand g g.first s) := by
  unfold Exploration.expand?
  rw [hg.columns?_eq_some hs, Option.bind_some, hg.follow?_eq_some hs]
  rfl

/-- **The walk** looks up states that it has met. -/
theorem steps?_eq_some (cap : Nat) (he : e.IsSound g) :
    e.steps? g g.first cap = some (e.steps g g.first cap) := by
  induction cap generalizing e with
  | zero => rfl
  | succ cap ih =>
      rw [Exploration.steps?, Exploration.steps]
      cases hs : e.met.values[e.expanded]? with
      | none =>
          have hdone : e.isComplete = true :=
            decide_eq_true (Array.getElem?_eq_none_iff.1 hs)
          rw [if_pos hdone]
      | some s =>
          have hleft : ¬ e.isComplete = true := fun hdone =>
            absurd (Array.getElem?_eq_some_iff.1 hs).1 (Nat.not_lt.2 (of_decide_eq_true hdone))
          have hrules : s.HasRules g := hg.hasRules_of_subset_items (he.items hs)
          rw [if_neg hleft, Option.bind_some, hg.expand?_eq_some hrules, Option.bind_some]
          exact ih (he.expand hg hs)

theorem rounds?_eq_some (more cap : Nat) (he : e.IsSound g) :
    e.rounds? g g.first more cap = some (e.rounds g g.first more cap) := by
  induction more generalizing cap e with
  | zero => rfl
  | succ more ih =>
      have hnext : (e.steps g g.first cap).IsSound g := he.steps hg
      rw [Exploration.rounds?, Exploration.rounds, hg.steps?_eq_some cap he, Option.bind_some]
      split
      · rfl
      · exact ih _ hnext

/-- **The canonical collection** looks nothing up outside its tables. -/
theorem automaton?_eq_some : g.automaton? g.first = some (g.automaton g.first) := by
  have hkernel : ItemSet.kernel.HasRules g :=
    hg.hasRules_of_subset_items fun i => hg.kernel_subset_items
  have hwalk := hg.rounds?_eq_some (g.itemCount + 1) 1 (isSound_outset hg)
  unfold outset at hwalk
  unfold automaton?
  rw [hg.closure?_eq_some hg.firstSaturation?_eq_some.2 hkernel, Option.bind_some, hwalk]
  rfl

end Walk

end Grammar.IsAugmented

/-! ## All look-ups -/

namespace Grammar

/-- FIRST, FOLLOW, closure, goto and the canonical collection look nothing up outside their
tables, and what the states and the edges hold are numbers inside them. -/
structure LooksUpInside (g : Grammar) : Prop where
  first : g.firstSaturation? = some g.firstSaturation
  follow : g.followSaturation? g.first = some (g.followSaturation g.first)
  closure : ∀ s : ItemSet, s.HasRules g →
    s.closure? g g.first = some (s.closure g g.first) ∧ (s.closure g g.first).HasRules g
  goto : ∀ (s : ItemSet) symbol, s.HasRules g →
    s.goto? g g.first symbol = some (s.goto g g.first symbol) ∧
      (s.goto g g.first symbol).HasRules g
  automaton : g.automaton? g.first = some (g.automaton g.first)
  states : ∀ (state : Nat) (s : ItemSet), (g.automaton g.first).states[state]? = some s →
    ∀ i ∈ s, i.rule < g.rules.size ∧ i.position ≤ (i.rhs g).length ∧
      i.lookahead < g.symbols.size
  edges : ∀ e ∈ (g.automaton g.first).edges, e.source < (g.automaton g.first).states.size ∧
    e.symbol < g.symbols.size ∧ e.target < (g.automaton g.first).states.size

theorem IsAugmented.looksUpInside {g : Grammar} (hg : g.IsAugmented) : g.LooksUpInside := by
  obtain ⟨hfirst, hsize⟩ := hg.firstSaturation?_eq_some
  have ha : (g.automaton g.first).IsCanonical g := isCanonical_automaton hg
  refine
    { first := hfirst
      follow := hg.followSaturation?_eq_some hsize
      closure := fun s hs => ⟨hg.closure?_eq_some hsize hs, hg.hasRules_closure hs⟩
      goto := fun s symbol hs => ⟨hg.goto?_eq_some hsize hs symbol,
        hg.hasRules_closure (hg.hasRules_advance hs)⟩
      automaton := hg.automaton?_eq_some
      states := ?_
      edges := ?_ }
  · intro state s hs i hi
    obtain ⟨-, hposition, hlookahead⟩ := hg.rule_mem_of_mem_items (ha.items hs i hi)
    exact ⟨hg.hasRules_of_subset_items (ha.items hs) i hi, hposition,
      lt_size_of_isTerminal hlookahead⟩
  · intro e he
    have hmove := Automaton.mem_edges_iff.1 he
    obtain ⟨s, hs⟩ := ha.exists_state hmove
    obtain ⟨i, -, hexp⟩ := ItemSet.mem_expected.1 (ha.mem_expected_of_move hg hs hmove)
    have hsymbol := hg.kind?_of_mem_rhs (List.mem_of_getElem? hexp)
    exact ⟨ha.source_lt he, hsymbol.elim lt_size_of_kind? lt_size_of_kind?,
      (Array.getElem?_eq_some_iff.1 (ha.target hs hmove)).1⟩

/-- **The symbol table** of a grammar text gives each symbol one number, in the order of the
rules, augmentation preserves the numbers and adds one symbol, and so no look-up leaves the
tables. -/
theorem isNumbered_and_looksUpInside {text : String} {g : Grammar}
    (read : ofText text = .ok g) :
    g.IsNumbered ∧ g.augment.Augments g ∧ g.augment.LooksUpInside := by
  have hg : g.WellFormed := wellFormed_ofText read
  have hnumbered := isNumbered_ofText read
  exact ⟨hnumbered, augments_augment hg hnumbered, hg.isAugmented.looksUpInside⟩

/-- So it is where a symbol is used before it is defined. -/
theorem isNumbered_and_looksUpInside_of_use_before_definition :
    ∃ g, ofText "S -> A b\nA -> a | ε" = .ok g ∧
      g.symbols.symbols.toList.map (·.name) = ["ε", "$", "S", "A", "b", "a"] ∧
      g.IsNumbered ∧ g.augment.Augments g ∧ g.augment.LooksUpInside := by
  obtain ⟨g, read, hnames⟩ : ∃ g, ofText "S -> A b\nA -> a | ε" = .ok g ∧
      g.symbols.symbols.toList.map (·.name) = ["ε", "$", "S", "A", "b", "a"] :=
    ⟨_, rfl, by decide +kernel⟩
  exact ⟨g, read, hnames, isNumbered_and_looksUpInside read⟩

end Grammar

end CanonicalLR
