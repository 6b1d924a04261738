import CanonicalLR.Proofs.Automaton.ValidItems
import CanonicalLR.Proofs.Table.Conflicts

/-!
# Conflicts and LR(1) grammars

The items of a state are valid for one string of symbols, so two items in each
other's way are two handles behind the same symbols, with the same token next,
of which at least one ends here. A grammar that determines its handles leaves no
such pair. Conversely, two handles that one lookahead does not tell apart end at
the same place or at different ones. At the same place their items are held by
one state; at different ones the longer handle makes a state expect the symbol
on which the shorter one is to be reduced there.

## Main results

* `IsConflictFree.isLR1` — an automaton without conflicts determines the handles.
* `exists_handle_of_symbol?` — an item that expects a terminal leads to a
  handle that ends behind this terminal.
* `isConflictFree_of_isLR1` — a productive grammar that determines its handles has no
  conflicts.
* `exists_build_iff_isLR1` — the grammars that have tables.
-/

namespace CanonicalLR

/-- Of two divisions of one string the first parts agree, or the one goes on where the
other ends. -/
theorem cases_of_append_eq_append {front back left right : List Nat}
    (h : front ++ back = left ++ right) :
    (front = left ∧ back = right) ∨
      (∃ symbol z, left = front ++ symbol :: z ∧ back = symbol :: (z ++ right)) ∨
      ∃ symbol z, front = left ++ symbol :: z ∧ right = symbol :: (z ++ back) := by
  rcases List.append_eq_append_iff.1 h with ⟨between, hleft, hback⟩ | ⟨between, hfront, hright⟩
  · cases between with
    | nil =>
        rw [List.append_nil] at hleft
        exact Or.inl ⟨hleft.symm, hback⟩
    | cons symbol z => exact Or.inr (Or.inl ⟨symbol, z, hleft, hback⟩)
  · cases between with
    | nil =>
        rw [List.append_nil] at hfront
        exact Or.inl ⟨hfront, hright.symm⟩
    | cons symbol z => exact Or.inr (Or.inr ⟨symbol, z, hfront, hright⟩)

/-- Words tell by their first symbol, with the end marker behind them, whether they
begin alike. -/
theorem Grammar.IsAugmented.head?_eq {g : Grammar} {v w : List Nat} (hg : g.IsAugmented)
    (hv : g.IsWord v) (hw : g.IsWord w) (h : v.headD endId = w.headD endId) :
    v.head? = w.head? := by
  cases v with
  | nil =>
      cases w with
      | nil => rfl
      | cons b w => exact absurd h.symm (hg.ne_endId_of_terminal (hw b List.mem_cons_self))
  | cons a v =>
      cases w with
      | nil => exact absurd h (hg.ne_endId_of_terminal (hv a List.mem_cons_self))
      | cons b w => exact congrArg some h

namespace Automaton

variable {g : Grammar} {a : Automaton} {r q : Rule} {symbol : Nat}
  {ids more α γ w x y z : List Nat} (ha : a.IsCanonical g) (hg : g.IsAugmented)

include ha hg

/-! ## From automata without conflicts -/

/-- A handle is held by the state behind it, exhausted, with the next symbol as its
lookahead. -/
theorem exists_holds_of_handle (hr : r ∈ g.rules) (hw : g.IsWord w)
    (h : g.DerivesRightmost ids [g.start] (α ++ r.lhs :: w)) :
    ∃ state, a.Reached (α ++ r.rhs) state ∧
      a.Holds state ⟨r.id, r.rhs.length, w.headD endId⟩ ∧
      (⟨r.id, r.rhs.length, w.headD endId⟩ : Item).isExhausted g = true := by
  have hvalid : Item.IsValid g (α ++ r.rhs) ⟨r.id, r.rhs.length, w.headD endId⟩ :=
    .intro hr (List.append_nil r.rhs).symm hw h
  obtain ⟨state, hreached, hheld⟩ := exists_holds_of_isValid ha hg hvalid
  refine ⟨state, hreached, hheld, ?_⟩
  unfold Item.isExhausted Item.rhs
  rw [hg.rule_eq_of_mem hr]
  exact decide_eq_true (Nat.le_refl _)

/-- No handle goes on, with the next symbol, where another one ends. -/
theorem IsConflictFree.append_ne (hfree : a.IsConflictFree g) (hr : r ∈ g.rules)
    (hq : q ∈ g.rules) (hw : g.IsWord w) (hx : g.IsWord x) (hz : g.IsWord z)
    (h : g.DerivesRightmost ids [g.start] (α ++ r.lhs :: w))
    (h' : g.DerivesRightmost more [g.start] (γ ++ q.lhs :: x))
    (hnext : w.headD endId = symbol) : γ ++ q.rhs ≠ α ++ r.rhs ++ symbol :: z := by
  intro hocc
  obtain ⟨state, hreached, hheld, hend⟩ := exists_holds_of_handle ha hg hr hw h
  obtain ⟨other, hreached', i, hi, hexp, -⟩ :=
    exists_awaits_of_derivesRightmost ha hg hq hx h' hocc (hz.append hx).yields
  obtain rfl := hreached.unique ha hreached'
  rw [← hnext] at hexp
  exact hfree.symbol?_ne hheld hi hend hexp

/-- Handles that end at one place before one symbol are the same. -/
theorem IsConflictFree.handle_unique (hfree : a.IsConflictFree g) (hr : r ∈ g.rules)
    (hq : q ∈ g.rules) (hw : g.IsWord w) (hx : g.IsWord x)
    (h : g.DerivesRightmost ids [g.start] (α ++ r.lhs :: w))
    (h' : g.DerivesRightmost more [g.start] (γ ++ q.lhs :: x))
    (hocc : γ ++ q.rhs = α ++ r.rhs) (hnext : w.headD endId = x.headD endId) :
    r = q ∧ α = γ := by
  obtain ⟨state, hreached, hheld, hend⟩ := exists_holds_of_handle ha hg hr hw h
  obtain ⟨other, hreached', hheld', hend'⟩ := exists_holds_of_handle ha hg hq hx h'
  rw [hocc] at hreached'
  obtain rfl := hreached.unique ha hreached'
  have hitem := hfree.eq_of_isExhausted hheld hheld' hend hend' hnext
  have hid : r.id = q.id := congrArg Item.rule hitem
  obtain rfl : r = q := by
    rw [← hg.rule_eq_of_mem hr, hid, hg.rule_eq_of_mem hq]
  exact ⟨rfl, (List.append_cancel_right hocc).symm⟩

/-- **Without conflicts** the symbols up to the end of a handle and the next one
determine the handle. -/
theorem IsConflictFree.isLR1 (hfree : a.IsConflictFree g) : g.IsLR1 := by
  intro r q ids more α γ w x y hr hq hw hx hy h h' heq hhead
  have hnext : w.headD endId = y.headD endId := by
    rw [List.headD_eq_head?_getD, List.headD_eq_head?_getD, hhead]
  rcases cases_of_append_eq_append heq with
    ⟨hocc, rfl⟩ | ⟨symbol, z, hocc, hrest⟩ | ⟨symbol, z, hocc, hrest⟩
  · obtain ⟨hrule, hα⟩ := hfree.handle_unique ha hg hr hq hw hx h h' hocc hnext
    exact ⟨hrule, hα, rfl⟩
  · have hz : g.IsWord z := fun other hmem => hx other (by simp [hrest, hmem])
    have hnext : x.headD endId = symbol := by rw [hrest, List.headD_cons]
    exact absurd hocc (hfree.append_ne ha hg hq hr hx hw hz h' h hnext)
  · have hz : g.IsWord z := fun other hmem => hy other (by simp [hrest, hmem])
    rw [hrest, List.headD_cons] at hnext
    exact absurd hocc (hfree.append_ne ha hg hr hq hw hx hz h h' hnext)

/-! ## From grammars that determine their handles -/

omit ha in
/-- A valid item that is exhausted is a handle. -/
theorem exists_handle_of_isExhausted {i : Item} (h : i.IsValid g γ)
    (hend : i.isExhausted g = true) :
    ∃ (r : Rule) (ids α w : List Nat), r ∈ g.rules ∧ g.IsWord w ∧
      g.DerivesRightmost ids [g.start] (α ++ r.lhs :: w) ∧ γ = α ++ r.rhs ∧
      i = ⟨r.id, r.rhs.length, w.headD endId⟩ := by
  cases h with
  | @intro r ids δ α β w rule rhs_eq word derived =>
      have hdone : (g.rule r.id).rhs.length ≤ α.length := of_decide_eq_true hend
      rw [hg.rule_eq_of_mem rule, rhs_eq, List.length_append] at hdone
      have hnil : β = [] := List.eq_nil_of_length_eq_zero (by omega)
      rw [hnil, List.append_nil] at rhs_eq
      exact ⟨r, ids, δ, w, rule, word, derived, by rw [rhs_eq], by rw [rhs_eq]⟩

omit ha hg in
/-- Behind the rule `q` a rightmost derivation goes on with what the last symbols of its
right-hand side derive. The rule that comes last leaves a word behind it that was
there before, or is derived. -/
theorem exists_last_rule {δ rest v : List Nat} (hq : q ∈ g.rules) (hw : g.IsWord w)
    (h : g.DerivesRightmost ids [g.start] (δ ++ q.lhs :: w)) (hrhs : q.rhs = α ++ rest)
    (hrest : g.Yields more rest v) :
    ∃ (p : Rule) (all γ x : List Nat), p ∈ g.rules ∧ g.IsWord x ∧
      g.DerivesRightmost all [g.start] (γ ++ p.lhs :: x) ∧
      γ ++ p.rhs ++ x = δ ++ α ++ (v ++ w) ∧ x.length ≤ (v ++ w).length := by
  rcases hrest.derivesRightmost.cases_concat with
    ⟨-, rfl⟩ | ⟨front, p, ζ, u, -, hp, hu, hfront, rfl⟩
  · exact ⟨q, ids, δ, w, hq, hw, h, by simp [hrhs], by simp⟩
  · have hrule := h.concat hq hw
    have hlater := (hfront.append_left (δ ++ α)).append_word hw
    rw [hrhs] at hrule
    have hall : g.DerivesRightmost (ids ++ [q.id] ++ front) [g.start]
        (δ ++ α ++ ζ ++ p.lhs :: (u ++ w)) := by
      apply hrule.trans
      simpa using hlater
    refine ⟨p, _, δ ++ α ++ ζ, u ++ w, hp, hu.append hw, hall, by simp, ?_⟩
    simp only [List.length_append]
    omega

omit ha in
/-- **A valid item that expects a terminal** leads to a handle that ends behind this
terminal. -/
theorem exists_handle_of_symbol? (hp : g.IsProductive) {i : Item} (h : i.IsValid g γ)
    (hexp : i.symbol? g = some symbol) (hkind : g.symbols.kind? symbol = some .terminal) :
    ∃ (p : Rule) (ids δ x y : List Nat), p ∈ g.rules ∧ g.IsWord x ∧
      g.IsWord (symbol :: y) ∧ g.DerivesRightmost ids [g.start] (δ ++ p.lhs :: x) ∧
      δ ++ p.rhs ++ x = γ ++ symbol :: y ∧ x.length ≤ y.length := by
  cases h with
  | @intro q ids δ α β w rule rhs_eq word derived =>
      have hβ := Item.remaining_of_symbol? hexp
      rw [Item.remaining_of_rhs_eq hg rule rhs_eq] at hβ
      generalize Item.tail g ⟨q.id, α.length, w.headD endId⟩ = rest at hβ
      have hrhs : q.rhs = (α ++ [symbol]) ++ rest := by simp [rhs_eq, hβ]
      have hform := hg.isForm_rhs rule
      rw [hrhs] at hform
      obtain ⟨more, v, hv⟩ := hp.exists_yields hform.of_append.2
      obtain ⟨p, all, ζ, x, hpr, hx, hall, heq, hle⟩ :=
        exists_last_rule rule word derived hrhs hv
      refine ⟨p, all, ζ, x, v ++ w, hpr, hx, ?_, hall, by simp [heq], hle⟩
      intro other hmem
      rcases List.mem_cons.1 hmem with rfl | hmem
      · exact hkind
      · exact hv.isWord.append word other hmem

/-- Two items of a state are valid for one string. -/
theorem exists_isValid_of_holds (hp : g.IsProductive) {state : Nat} {i j : Item}
    (hi : a.Holds state i) (hj : a.Holds state j) : ∃ γ, i.IsValid g γ ∧ j.IsValid g γ := by
  obtain ⟨s, hs, hi⟩ := hi
  obtain ⟨s', hs', hj⟩ := hj
  rw [hs] at hs'
  obtain rfl := Option.some.inj hs'
  obtain ⟨γ, t, hreached, ht⟩ := ha.exists_reached hg hs
  exact ⟨γ, hreached.isValid ha hg hp ⟨s, ht, hi⟩, hreached.isValid ha hg hp ⟨s, ht, hj⟩⟩

/-- **If the handles are determined**, the states of a productive grammar have no
conflicts. -/
theorem isConflictFree_of_isLR1 (hp : g.IsProductive) (hlr : g.IsLR1) :
    a.IsConflictFree g := by
  refine ⟨?_, ?_⟩
  · intro state i j hi hj hend hend' hl
    obtain ⟨γ, hvalid, hvalid'⟩ := exists_isValid_of_holds ha hg hp hi hj
    obtain ⟨r, ids, α, w, hr, hw, h, rfl, rfl⟩ := exists_handle_of_isExhausted hg hvalid hend
    obtain ⟨q, more, δ, x, hq, hx, h', hγ, rfl⟩ :=
      exists_handle_of_isExhausted hg hvalid' hend'
    have hhead := hg.head?_eq hw hx hl
    obtain ⟨rfl, -, -⟩ :=
      hlr r q ids more α δ w x x hr hq hw hx hx h h' (by rw [hγ]) hhead
    rw [show w.headD endId = x.headD endId from hl]
  · intro state i j hi hj hend hexp
    have hterminal := (hg.rule_mem_of_mem_items (ha.mem_items hi)).2.2
    have hkind := hg.kind?_of_mem_rhs_of_isTerminal (List.mem_of_getElem? hexp) hterminal
    obtain ⟨γ, hvalid, hvalid'⟩ := exists_isValid_of_holds ha hg hp hi hj
    obtain ⟨r, ids, α, w, hr, hw, h, rfl, rfl⟩ := exists_handle_of_isExhausted hg hvalid hend
    obtain ⟨q, more, δ, x, y, hq, hx, hy, h', heq, hle⟩ :=
      exists_handle_of_symbol? hg hp hvalid' hexp hkind
    have hhead := hg.head?_eq hw hy (List.headD_cons).symm
    obtain ⟨-, -, rfl⟩ := hlr r q ids more α δ w x _ hr hq hw hx hy h h' heq hhead
    exact absurd hle (by simp)

end Automaton

/-! ## Tables -/

namespace Table

variable {g : Grammar} {text : String}

/-- **The grammars that have tables**: a table can be built for a productive grammar
exactly if the augmented grammar determines its handles, by the symbols up to their
end and the next one. Otherwise building it ends in a conflict. -/
theorem exists_build_iff_isLR1 (read : Grammar.ofText text = .ok g)
    (productive : g.IsProductive) :
    ((∃ t, build g = .ok t) ↔ g.augment.IsLR1) ∧
    (¬ g.augment.IsLR1 → ∃ state symbol existing demanded,
      build g = .error (.conflict state symbol existing demanded)) := by
  have hwell : g.WellFormed := Grammar.wellFormed_ofText read
  have hg := hwell.isAugmented
  have ha := Grammar.isCanonical_automaton hg
  have hiff : (∃ t, build g = .ok t) ↔ g.augment.IsLR1 := by
    rw [exists_build_iff_isConflictFree hwell]
    constructor
    · intro hfree
      exact hfree.isLR1 ha hg
    · intro hlr
      exact Automaton.isConflictFree_of_isLR1 ha hg
        (hwell.isProductive_augment productive) hlr
  refine ⟨hiff, ?_⟩
  intro hnot
  cases hbuilt : build g with
  | ok t => exact absurd (hiff.1 ⟨t, hbuilt⟩) hnot
  | error e =>
      obtain ⟨state, symbol, existing, demanded, rfl⟩ := exists_conflict_of_build hbuilt
      exact ⟨state, symbol, existing, demanded, rfl⟩

/-- So the symbols up to the end of a handle determine it where opening and closing
symbols stand around each other. -/
theorem isLR1_of_nested :
    Grammar.ofText "S -> a S b | ε" = .ok Grammar.nested ∧ Grammar.nested.IsProductive ∧
      (∃ t, build Grammar.nested = .ok t) ∧ Grammar.nested.augment.IsLR1 := by
  obtain ⟨g, t, read, built, -⟩ := exists_table "S -> a S b | ε" (fun _ => true)
    (by decide +kernel)
  obtain rfl := Except.ok.inj (read.symm.trans Grammar.ofText_nested)
  have hlr := (exists_build_iff_isLR1 read Grammar.isProductive_nested).1.1 ⟨t, built⟩
  exact ⟨read, Grammar.isProductive_nested, ⟨t, built⟩, hlr⟩

end Table

end CanonicalLR
