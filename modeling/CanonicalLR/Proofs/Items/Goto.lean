import CanonicalLR.Automaton
import CanonicalLR.Proofs.Items.Closure

/-!
# Goto, and the items of a grammar

Goto moves the dot of the items that expect a symbol and closes the result. The
items that arise in this way from `[S' -> • S, $]` are all among the items of
the grammar, so there are finitely many states.

## Main definitions

* `Item.moved`, `Item.movedBy` — the item with its dot one or some places further.
* `Item.remaining` — the symbols behind the dot.

## Main results

* `mem_advance_iff` — the items whose dot has moved over a symbol.
* `cases_of_mem_goto` — where an item behind a goto comes from.
* `goto_eq_empty_iff` — a goto over a symbol that is not expected is empty.
* `mem_items_of_mem_closure`, `mem_items_of_mem_goto` — closure and goto stay
  among the items of the grammar.
-/

namespace CanonicalLR

/-! ## Moving the dot -/

namespace Item

variable {g : Grammar} {i : Item} {symbol : Nat} {later : List Nat}

/-- The item with its dot one place further. -/
def moved (i : Item) : Item := { i with position := i.position + 1 }

theorem moved_injective : Function.Injective moved := by
  intro i j h
  cases i
  cases j
  simpa [moved] using h

/-- The item with its dot some places further. -/
def movedBy (i : Item) (n : Nat) : Item := { i with position := i.position + n }

theorem movedBy_moved (n : Nat) : i.moved.movedBy n = i.movedBy (n + 1) := by
  have hposition : i.position + 1 + n = i.position + (n + 1) := by omega
  unfold movedBy moved
  simp only [hposition]

/-- The symbols behind the dot. -/
def remaining (g : Grammar) (i : Item) : List Nat := (i.rhs g).drop i.position

theorem symbol?_of_remaining (h : i.remaining g = symbol :: later) :
    i.symbol? g = some symbol := by
  have hhead := congrArg List.head? h
  unfold remaining at hhead
  rw [List.head?_drop] at hhead
  exact hhead

theorem tail_of_remaining (h : i.remaining g = symbol :: later) : i.tail g = later := by
  have htail := congrArg List.tail h
  unfold remaining at htail
  rw [List.tail_drop] at htail
  exact htail

/-- What an item expects is the first of the symbols behind the dot. -/
theorem remaining_of_symbol? (h : i.symbol? g = some symbol) :
    i.remaining g = symbol :: i.tail g := by
  obtain ⟨hlt, hget⟩ := List.getElem?_eq_some_iff.1 h
  unfold remaining tail
  rw [List.drop_eq_getElem_cons hlt, hget]

/-- The dot has moved over the first of the symbols behind it. -/
theorem remaining_moved (h : i.remaining g = symbol :: later) :
    i.moved.remaining g = later :=
  tail_of_remaining h

end Item

namespace Grammar.IsAugmented

variable {g : Grammar} {s : ItemSet} {i j : Item} {symbol : Nat} (hg : g.IsAugmented)

include hg

@[simp] theorem id_rule (id : Nat) : (g.rule id).id = id := by
  unfold rule
  cases hr : g.rules[id]? with
  | none => rfl
  | some r => exact hg.rule_id hr

/-- A rule of the grammar stands under its number. -/
theorem getElem?_rules {id : Nat} (h : g.rule id ∈ g.rules) :
    g.rules[id]? = some (g.rule id) := by
  obtain ⟨k, hk⟩ := Array.getElem?_of_mem h
  have hid := hg.rule_id hk
  rw [hg.id_rule] at hid
  rw [hid]
  exact hid ▸ hk

/-- An item that expects a symbol can move its dot over it. -/
theorem next?_eq_moved (h : i.symbol? g = some symbol) : i.next? g = some i.moved := by
  have hlt : i.position < (g.rule i.rule).rhs.length := (Item.symbol?_eq_some_iff.1 h).2
  unfold Item.next? Rule.itemAt?
  rw [if_pos (Nat.succ_le_of_lt hlt), hg.id_rule]
  rfl

theorem mem_advance_iff :
    j ∈ s.advance g symbol ↔ ∃ i ∈ s, i.symbol? g = some symbol ∧ j = i.moved := by
  rw [ItemSet.mem_advance]
  constructor
  · intro h
    rcases h with ⟨i, hi, hexp, hnext⟩
    rw [hg.next?_eq_moved hexp] at hnext
    exact ⟨i, hi, hexp, (Option.some.inj hnext).symm⟩
  · intro h
    rcases h with ⟨i, hi, hexp, rfl⟩
    exact ⟨i, hi, hexp, hg.next?_eq_moved hexp⟩

theorem moved_mem_goto (hi : i ∈ s) (h : i.symbol? g = some symbol) :
    i.moved ∈ s.goto g g.first symbol :=
  ItemSet.subset_closure (hg.mem_advance_iff.2 ⟨i, hi, h, rfl⟩)

/-- An item behind a goto has moved its dot, or is spawned behind the goto. -/
theorem cases_of_mem_goto (h : j ∈ s.goto g g.first symbol) :
    (∃ i ∈ s, i.symbol? g = some symbol ∧ j = i.moved) ∨
      ∃ i ∈ s.goto g g.first symbol, ∃ r ∈ g.rules, ∃ l,
        i.Spawns g r.lhs l ∧ j = ⟨r.id, 0, l⟩ :=
  (ItemSet.cases_of_mem_closure hg h).imp_left hg.mem_advance_iff.1

/-- **A goto is empty** exactly over the symbols that no item expects. -/
theorem goto_eq_empty_iff : s.goto g g.first symbol = ∅ ↔ symbol ∉ s.expected g := by
  constructor
  · intro hempty hexp
    obtain ⟨i, hi, hi'⟩ := ItemSet.mem_expected.1 hexp
    have hmoved := hg.moved_mem_goto hi hi'
    rw [hempty] at hmoved
    exact OrdSet.not_mem_empty _ hmoved
  · intro hexp
    apply OrdSet.ext
    intro j
    refine iff_of_false ?_ (OrdSet.not_mem_empty j)
    intro hj
    induction (ItemSet.mem_closure hg).1 hj with
    | base mem =>
        obtain ⟨i, hi, hi', -⟩ := hg.mem_advance_iff.1 mem
        exact hexp (ItemSet.mem_expected.2 ⟨i, hi, hi'⟩)
    | spawn earlier _ _ ih => exact ih ((ItemSet.mem_closure hg).2 earlier)

/-! ## Items of the grammar -/

theorem mem_actionColumns {id : Nat} :
    id ∈ g.actionColumns ↔ g.symbols.isTerminal id = true := by
  rw [hg.isTerminal_iff]
  simp [actionColumns, terminals, SymbolTable.mem_idsOfKind]

theorem rule_mem_of_mem_items (h : i ∈ g.items) :
    g.rule i.rule ∈ g.rules ∧ i.position ≤ (i.rhs g).length ∧
      g.symbols.isTerminal i.lookahead = true := by
  obtain ⟨r, hr, hid, hpos, hl⟩ := mem_items.1 h
  have hrule : g.rule i.rule = r := by
    rw [hid]
    exact hg.rule_eq_of_mem hr
  refine ⟨?_, ?_, hg.mem_actionColumns.1 hl⟩
  · rw [hrule]
    exact hr
  · unfold Item.rhs
    rw [hrule]
    exact hpos

theorem kernel_subset_items (h : i ∈ ItemSet.kernel) : i ∈ g.items := by
  have hi : i = ⟨0, 0, endId⟩ := by
    unfold ItemSet.kernel at h
    simpa using h
  obtain ⟨declared, hstart⟩ := hg.start_rule
  have hend : endId ∈ g.actionColumns :=
    hg.mem_actionColumns.2 (hg.isTerminal_iff.2 (Or.inr rfl))
  rw [hi]
  exact mem_items.2 ⟨_, Array.mem_of_getElem? hstart, rfl, Nat.zero_le _, hend⟩

theorem mem_items_of_spawns {r : Rule} {l : Nat} (hi : i ∈ g.items) (hr : r ∈ g.rules)
    (h : i.Spawns g r.lhs l) : ⟨r.id, 0, l⟩ ∈ g.items := by
  have hlookahead := (hg.rule_mem_of_mem_items hi).2.2
  have hl := hg.isTerminal_of_mem_lookaheads h.mem_lookaheads hlookahead
  exact mem_items.2 ⟨r, hr, rfl, Nat.zero_le _, hg.mem_actionColumns.2 hl⟩

theorem mem_items_of_mem_closure (hs : ∀ i ∈ s, i ∈ g.items)
    (h : i ∈ s.closure g g.first) : i ∈ g.items := by
  induction (ItemSet.mem_closure hg).1 h with
  | base mem => exact hs _ mem
  | spawn earlier rule spawns ih =>
      exact hg.mem_items_of_spawns (ih ((ItemSet.mem_closure hg).2 earlier)) rule spawns

theorem moved_mem_items (hi : i ∈ g.items) (h : i.symbol? g = some symbol) :
    i.moved ∈ g.items := by
  obtain ⟨r, hr, hid, _, hl⟩ := mem_items.1 hi
  have hlt := (Item.symbol?_eq_some_iff.1 h).2
  unfold Item.rhs at hlt
  rw [hid, hg.rule_eq_of_mem hr] at hlt
  exact mem_items.2 ⟨r, hr, hid, hlt, hl⟩

theorem mem_items_of_mem_goto (hs : ∀ i ∈ s, i ∈ g.items)
    (h : i ∈ s.goto g g.first symbol) : i ∈ g.items := by
  refine hg.mem_items_of_mem_closure (fun j hj => ?_) h
  obtain ⟨i, hi, hexp, rfl⟩ := hg.mem_advance_iff.1 hj
  exact hg.moved_mem_items (hs i hi) hexp

/-- The symbols that items expect are symbols that a dot can move over. -/
theorem mem_inColumnOrder_expected :
    symbol ∈ g.inColumnOrder (s.expected g) ↔ symbol ∈ s.expected g := by
  rw [mem_inColumnOrder]
  refine and_iff_left_of_imp fun h => ?_
  obtain ⟨i, _, hexp⟩ := ItemSet.mem_expected.1 h
  have hmem : symbol ∈ (g.rule i.rule).rhs := List.mem_of_getElem? hexp
  rcases hg.kind?_of_mem_rhs hmem with hk | hk
  · exact ⟨_, by simp, hk⟩
  · exact ⟨_, by simp, hk⟩

end Grammar.IsAugmented

end CanonicalLR
