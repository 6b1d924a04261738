import CanonicalLR.Augmented
import CanonicalLR.Proofs.Grammar.WellFormed

/-!
# Augmented grammars

What the construction of a table relies on when it is given the augmented
grammar of a well-formed one. The proofs about FIRST sets, closures, states and
rows use these facts alone.

## Main definitions

* `Grammar.IsAugmented` — the facts about an augmented grammar.

## Main results

* `WellFormed.isAugmented` — augmenting a well-formed grammar gives one.
* `getElem?_rules_augment` — the rules are the start rule and the declared ones.
* `IsAugmented.rule_eq_of_mem` — the number of a rule leads back to it.
* `IsAugmented.isTerminal_iff` — an ACTION column is a terminal or `$`.
* `IsAugmented.nodup_actionColumns`, `IsAugmented.nodup_gotoColumns` — no column stands
  twice.
-/

namespace CanonicalLR.Grammar

/-- The facts about an augmented grammar on which its table rests. -/
structure IsAugmented (g : Grammar) : Prop where
  epsilon_kind_iff : ∀ {id : Nat}, g.symbols.kind? id = some .epsilon ↔ id = epsilonId
  end_kind_iff : ∀ {id : Nat}, g.symbols.kind? id = some .endMarker ↔ id = endId
  start_kind_iff : ∀ {id : Nat}, g.symbols.kind? id = some .start ↔ id = g.start
  rule_id : ∀ {i : Nat} {r : Rule}, g.rules[i]? = some r → r.id = i
  lhs_isNonTerminal : ∀ r ∈ g.rules, g.symbols.isNonTerminal r.lhs = true
  rhs_kind : ∀ r ∈ g.rules, ∀ symbol ∈ r.rhs,
    g.symbols.kind? symbol = some .terminal ∨ g.symbols.kind? symbol = some .nonTerminal
  start_rule : ∃ declared, g.rules[0]? = some ⟨0, g.start, [declared]⟩
  id_of_lhs_eq_start : ∀ r ∈ g.rules, r.lhs = g.start → r.id = 0
  end_name : g.symbols.name endId = endName
  find?_name : ∀ {id : Nat}, g.symbols.kind? id = some .terminal →
    g.symbols.find? (g.symbols.name id) = some id

section Augment

variable {g : Grammar} (hg : g.WellFormed)

theorem size_symbols_augment (g : Grammar) :
    g.augment.symbols.size = g.symbols.size + 1 :=
  Array.size_push _

/-- The slots of an augmented grammar are the declared ones and the last one. -/
theorem kind?_augment_eq_some_iff {id : Nat} {kind : SymbolKind} :
    g.augment.symbols.kind? id = some kind ↔
      g.symbols.kind? id = some kind ∨ (id = g.augment.start ∧ kind = .start) := by
  rcases Nat.lt_trichotomy id g.symbols.size with hlt | rfl | hgt
  · have hne : id ≠ g.augment.start := Nat.ne_of_lt hlt
    simp [kind?_augment hlt, hne]
  · have hnone := SymbolTable.kind?_eq_none_iff.2 (Nat.le_refl g.symbols.size)
    have hstart := kind?_augment_start g
    simp only [augment] at hstart ⊢
    simp [hnone, hstart, eq_comm]
  · have hnone := SymbolTable.kind?_eq_none_iff.2 (Nat.le_of_lt hgt)
    have hout : g.augment.symbols.size ≤ id := by
      rw [size_symbols_augment]
      exact hgt
    have hne : id ≠ g.augment.start := Nat.ne_of_gt hgt
    simp [SymbolTable.kind?_eq_none_iff.2 hout, hnone, hne]

/-- The rules of an augmented grammar are the start rule and the declared ones. -/
theorem getElem?_rules_augment (i : Nat) :
    g.augment.rules[i]? = match i with
      | 0 => some ⟨0, g.augment.start, [g.start]⟩
      | i + 1 => g.rules[i]?.map fun r => ⟨r.id + 1, r.lhs, r.rhs⟩ := by
  cases i with
  | zero =>
      simp only [augment]
      rw [Array.getElem?_append_left (by simp)]
      rfl
  | succ i =>
      simp [augment, Array.getElem?_append_right]

/-- Only the added start symbol is not declared. -/
theorem lt_size_of_kind?_augment {id : Nat} {kind : SymbolKind}
    (h : g.augment.symbols.kind? id = some kind) (hkind : kind ≠ .start) :
    id < g.symbols.size := by
  rcases kind?_augment_eq_some_iff.1 h with h | ⟨_, heq⟩
  · exact lt_size_of_kind? h
  · exact absurd heq hkind

/-- Declared symbols keep their name. -/
theorem name_augment {id : Nat} (hid : id < g.symbols.size) :
    g.augment.symbols.name id = g.symbols.name id := by
  have hne : id ≠ g.symbols.symbols.size := Nat.ne_of_lt hid
  simp [augment, SymbolTable.push, SymbolTable.name, Array.getElem?_push, hne]

/-- Augmentation declares no terminal. -/
theorem terminals_augment : g.augment.terminals = g.terminals := by
  have hstart : g.augment.symbols.kind? g.symbols.size = some .start := kind?_augment_start g
  have hkeep : ∀ id ∈ List.range g.symbols.size,
      decide (g.augment.symbols.kind? id = some .terminal)
        = decide (g.symbols.kind? id = some .terminal) := by
    intro id hid
    rw [kind?_augment (List.mem_range.1 hid)]
  unfold terminals SymbolTable.idsOfKind
  rw [size_symbols_augment, List.range_succ, List.filter_append, List.filter_congr hkeep]
  simp [hstart]

include hg

/-- The first slot with the name of a declared symbol is its own. -/
theorem WellFormed.find?_augment_name {id : Nat} (hid : id < g.symbols.size) :
    g.augment.symbols.find? (g.augment.symbols.name id) = some id := by
  have hsize := size_symbols_augment g
  refine SymbolTable.find?_eq_some_iff.2 ⟨by omega, rfl, fun j hj hsame => ?_⟩
  have hj' : j < g.symbols.size := by omega
  rw [name_augment hid, name_augment hj'] at hsame
  have := hg.eq_of_name_eq hj' hid hsame
  omega

/-- Augmentation of a well-formed grammar. -/
theorem WellFormed.isAugmented : g.augment.IsAugmented := by
  have hfresh : ∀ {id : Nat} {kind : SymbolKind}, g.symbols.kind? id = some kind →
      id ≠ g.augment.start := fun h => Nat.ne_of_lt (lt_size_of_kind? h)
  have hkeep : ∀ {id : Nat} {kind : SymbolKind}, g.symbols.kind? id = some kind →
      g.augment.symbols.kind? id = some kind :=
    fun h => kind?_augment_eq_some_iff.2 (Or.inl h)
  have hrules : ∀ r ∈ g.augment.rules,
      r = ⟨0, g.augment.start, [g.start]⟩ ∨ ∃ d ∈ g.rules, r = ⟨d.id + 1, d.lhs, d.rhs⟩ := by
    intro r hr
    obtain ⟨i, hi⟩ := Array.getElem?_of_mem hr
    rw [getElem?_rules_augment] at hi
    cases i with
    | zero => exact Or.inl (Option.some.inj hi).symm
    | succ i =>
        obtain ⟨d, hd, rfl⟩ := Option.map_eq_some_iff.1 hi
        exact Or.inr ⟨d, Array.mem_of_getElem? hd, rfl⟩
  refine
    { epsilon_kind_iff := ?_
      end_kind_iff := ?_
      start_kind_iff := ?_
      rule_id := ?_
      lhs_isNonTerminal := ?_
      rhs_kind := ?_
      start_rule := ⟨g.start, getElem?_rules_augment 0⟩
      id_of_lhs_eq_start := ?_
      end_name := ?_
      find?_name := ?_ }
  · intro id
    refine ⟨fun h => ?_, fun h => h ▸ hkeep hg.kind?_epsilonId⟩
    rcases kind?_augment_eq_some_iff.1 h with h | ⟨_, h⟩
    · have := hg.kind_cases h
      simp_all
    · cases h
  · intro id
    refine ⟨fun h => ?_, fun h => h ▸ hkeep hg.kind?_endId⟩
    rcases kind?_augment_eq_some_iff.1 h with h | ⟨_, h⟩
    · have := hg.kind_cases h
      simp_all
    · cases h
  · intro id
    refine ⟨fun h => ?_, fun h => kind?_augment_eq_some_iff.2 (Or.inr ⟨h, rfl⟩)⟩
    rcases kind?_augment_eq_some_iff.1 h with h | ⟨h, _⟩
    · have := hg.kind_cases h
      simp_all
    · exact h
  · intro i r hr
    rw [getElem?_rules_augment] at hr
    cases i with
    | zero => exact (congrArg Rule.id (Option.some.inj hr)).symm
    | succ i =>
        obtain ⟨d, hd, rfl⟩ := Option.map_eq_some_iff.1 hr
        exact congrArg (· + 1) (hg.rule_id hd)
  · intro r hr
    rcases hrules r hr with rfl | ⟨d, hd, rfl⟩
    · simp only [SymbolTable.isNonTerminal, kind?_augment_start]
      rfl
    · simp only [SymbolTable.isNonTerminal, hkeep (hg.lhs_kind d hd)]
      rfl
  · intro r hr symbol hsymbol
    rcases hrules r hr with rfl | ⟨d, hd, rfl⟩
    · rw [List.mem_singleton.1 hsymbol]
      exact Or.inr (hkeep hg.start_kind)
    · exact (hg.rhs_kind d hd symbol hsymbol).imp hkeep hkeep
  · intro r hr hlhs
    rcases hrules r hr with rfl | ⟨d, hd, rfl⟩
    · rfl
    · exact absurd hlhs (hfresh (hg.lhs_kind d hd))
  · rw [name_augment (lt_size_of_kind? hg.kind?_endId)]
    exact hg.name_endId
  · intro id hid
    rcases kind?_augment_eq_some_iff.1 hid with hid | ⟨_, hid⟩
    · exact hg.find?_augment_name (lt_size_of_kind? hid)
    · cases hid

end Augment

/-! ## Consequences -/

namespace IsAugmented

variable {g : Grammar} (hg : g.IsAugmented)

include hg

/-- The number of a rule leads back to it. -/
theorem rule_eq_of_mem {r : Rule} (h : r ∈ g.rules) : g.rule r.id = r := by
  obtain ⟨i, hi⟩ := Array.getElem?_of_mem h
  have hid := hg.rule_id hi
  rw [hid]
  exact rule_of_getElem? hi

omit hg in
/-- A number under which something is derived is the number of a rule. -/
theorem rule_mem_of_mem_rhs {id symbol : Nat} (h : symbol ∈ (g.rule id).rhs) :
    g.rule id ∈ g.rules := by
  unfold rule at h ⊢
  cases hr : g.rules[id]? with
  | none => simp [hr] at h
  | some r => simpa using Array.mem_of_getElem? hr

/-- The symbols that a rule derives are terminals and non-terminals. -/
theorem kind?_of_mem_rhs {id symbol : Nat} (h : symbol ∈ (g.rule id).rhs) :
    g.symbols.kind? symbol = some .terminal ∨ g.symbols.kind? symbol = some .nonTerminal :=
  hg.rhs_kind _ (rule_mem_of_mem_rhs h) symbol h

/-- No rule derives the end marker. -/
theorem ne_endId_of_mem_rhs {id symbol : Nat} (h : symbol ∈ (g.rule id).rhs) :
    symbol ≠ endId := by
  rintro rfl
  have hend := hg.end_kind_iff.2 rfl
  rcases hg.kind?_of_mem_rhs h with hk | hk <;> simp [hend] at hk

/-- No rule derives the start symbol. -/
theorem ne_start_of_mem_rhs {id symbol : Nat} (h : symbol ∈ (g.rule id).rhs) :
    symbol ≠ g.start := by
  rintro rfl
  have hstart := hg.start_kind_iff.2 rfl
  rcases hg.kind?_of_mem_rhs h with hk | hk <;> simp [hstart] at hk

/-- Rule 0 derives the declared start symbol from the added one. -/
theorem rule_zero : ∃ declared, g.rule 0 = ⟨0, g.start, [declared]⟩ := by
  obtain ⟨declared, h⟩ := hg.start_rule
  exact ⟨declared, rule_of_getElem? h⟩

/-- The ACTION columns are the terminals and the end marker. -/
theorem isTerminal_iff {id : Nat} :
    g.symbols.isTerminal id = true ↔ g.symbols.kind? id = some .terminal ∨ id = endId := by
  rw [← hg.end_kind_iff]
  cases hk : g.symbols.kind? id with
  | none => simp [SymbolTable.isTerminal, hk]
  | some kind => cases kind <;> simp [SymbolTable.isTerminal, hk, SymbolKind.isTerminal]

/-- What a rule derives is a terminal if it heads an ACTION column. -/
theorem kind?_of_mem_rhs_of_isTerminal {id symbol : Nat} (h : symbol ∈ (g.rule id).rhs)
    (hterminal : g.symbols.isTerminal symbol = true) :
    g.symbols.kind? symbol = some .terminal :=
  (hg.isTerminal_iff.1 hterminal).resolve_right (hg.ne_endId_of_mem_rhs h)

/-- A symbol of the table that has no rules heads an ACTION column, or is `ε`. -/
theorem isTerminal_or_eq_epsilonId {id : Nat} (hlt : id < g.symbols.size)
    (h : g.symbols.isNonTerminal id = false) :
    g.symbols.isTerminal id = true ∨ id = epsilonId := by
  rw [← hg.epsilon_kind_iff]
  cases hk : g.symbols.kind? id with
  | none =>
      have hle := SymbolTable.kind?_eq_none_iff.1 hk
      omega
  | some kind =>
      cases kind <;> simp_all [SymbolTable.isTerminal, SymbolTable.isNonTerminal,
        SymbolKind.isTerminal, SymbolKind.isNonTerminal]

omit hg in
/-- The GOTO columns are the declared non-terminals and the added start symbol. -/
theorem isNonTerminal_iff {id : Nat} :
    g.symbols.isNonTerminal id = true ↔
      g.symbols.kind? id = some .nonTerminal ∨ g.symbols.kind? id = some .start := by
  cases hk : g.symbols.kind? id with
  | none => simp [SymbolTable.isNonTerminal, hk]
  | some kind => cases kind <;> simp [SymbolTable.isNonTerminal, hk, SymbolKind.isNonTerminal]

omit hg in
/-- A symbol with a GOTO column is one of the table. -/
theorem lt_size_of_isNonTerminal {id : Nat} (h : g.symbols.isNonTerminal id = true) :
    id < g.symbols.size := by
  rcases isNonTerminal_iff.1 h with hk | hk
  · exact lt_size_of_kind? hk
  · exact lt_size_of_kind? hk

omit hg in
/-- A symbol with an ACTION column is one of the table. -/
theorem lt_size_of_isTerminal {id : Nat} (h : g.symbols.isTerminal id = true) :
    id < g.symbols.size := by
  obtain ⟨kind, hkind, -⟩ := Option.any_eq_true _ _ |>.1 h
  exact lt_size_of_kind? hkind

omit hg in
/-- A symbol of another kind has no GOTO column. -/
theorem not_isNonTerminal_of_kind? {id : Nat} {kind : SymbolKind}
    (h : g.symbols.kind? id = some kind) (hkind : kind.isNonTerminal = false) :
    ¬ g.symbols.isNonTerminal id = true := by
  unfold SymbolTable.isNonTerminal
  rw [h, Option.any_some, hkind]
  exact Bool.false_ne_true

omit hg in
theorem not_isNonTerminal_of_terminal {id : Nat} (h : g.symbols.kind? id = some .terminal) :
    ¬ g.symbols.isNonTerminal id = true :=
  not_isNonTerminal_of_kind? h rfl

theorem ne_epsilonId_of_isNonTerminal {id : Nat} (h : g.symbols.isNonTerminal id = true) :
    id ≠ epsilonId :=
  fun heq => not_isNonTerminal_of_kind? (hg.epsilon_kind_iff.2 heq) rfl h

theorem ne_endId_of_isNonTerminal {id : Nat} (h : g.symbols.isNonTerminal id = true) :
    id ≠ endId :=
  fun heq => not_isNonTerminal_of_kind? (hg.end_kind_iff.2 heq) rfl h

theorem lhs_lt_size {r : Rule} (hr : r ∈ g.rules) : r.lhs < g.symbols.size :=
  lt_size_of_isNonTerminal (hg.lhs_isNonTerminal r hr)

/-- No rule derives `ε` as a symbol. -/
theorem ne_epsilonId_of_mem_rhs {r : Rule} (hr : r ∈ g.rules) :
    ∀ symbol ∈ r.rhs, symbol ≠ epsilonId := by
  intro symbol hmem heq
  have hkind := hg.epsilon_kind_iff.2 heq
  rcases hg.rhs_kind r hr symbol hmem with hk | hk
  · rw [hkind] at hk
    cases hk
  · rw [hkind] at hk
    cases hk

/-- The symbols of a rule are symbols of the table. -/
theorem lt_size_of_mem_rhs {r : Rule} (hr : r ∈ g.rules) :
    ∀ symbol ∈ r.rhs, symbol < g.symbols.size := by
  intro symbol hmem
  exact (hg.rhs_kind r hr symbol hmem).elim lt_size_of_kind? lt_size_of_kind?

/-- The added start symbol has a GOTO column. -/
theorem start_isNonTerminal : g.symbols.isNonTerminal g.start = true :=
  isNonTerminal_iff.2 (Or.inr (hg.start_kind_iff.2 rfl))

/-- The added start symbol has no ACTION column. -/
theorem ne_start_of_isTerminal {id : Nat} (h : g.symbols.isTerminal id = true) :
    id ≠ g.start := by
  rintro rfl
  unfold SymbolTable.isTerminal at h
  rw [hg.start_kind_iff.2 rfl] at h
  cases h

/-- No rule derives anything from a terminal. -/
theorem kind?_lhs_ne_terminal :
    ∀ r ∈ g.rules, g.symbols.kind? r.lhs ≠ some .terminal := by
  intro r hr hkind
  have hcases := isNonTerminal_iff.1 (hg.lhs_isNonTerminal r hr)
  simp [hkind] at hcases

theorem ne_endId_of_terminal {id : Nat} (h : g.symbols.kind? id = some .terminal) :
    id ≠ endId := by
  intro heq
  rw [hg.end_kind_iff.2 heq] at h
  cases h

theorem ne_epsilonId_of_terminal {id : Nat} (h : g.symbols.kind? id = some .terminal) :
    id ≠ epsilonId := by
  intro heq
  rw [hg.epsilon_kind_iff.2 heq] at h
  cases h

/-! ## Columns -/

/-- No ACTION column stands twice in a table. -/
theorem nodup_actionColumns : g.actionColumns.Nodup := by
  have hend : endId ∉ g.terminals := fun hmem =>
    hg.ne_endId_of_terminal (SymbolTable.mem_idsOfKind.1 hmem) rfl
  have hterminals : g.terminals.Nodup := List.nodup_range.filter _
  exact List.nodup_append.2 ⟨hterminals, List.nodup_singleton endId,
    fun symbol hmem other hother heq => hend (List.mem_singleton.1 hother ▸ heq ▸ hmem)⟩

/-- No GOTO column stands twice in a table. -/
theorem nodup_gotoColumns : g.gotoColumns.Nodup := by
  unfold gotoColumns
  rw [List.nodup_cons]
  constructor
  · intro hmem
    have hkind := SymbolTable.mem_idsOfKind.1 hmem
    rw [hg.start_kind_iff.2 rfl] at hkind
    cases hkind
  · exact List.nodup_range.filter _

theorem mem_gotoColumns {id : Nat} :
    id ∈ g.gotoColumns ↔ g.symbols.isNonTerminal id = true := by
  rw [isNonTerminal_iff, hg.start_kind_iff]
  unfold gotoColumns nonTerminals
  rw [List.mem_cons, SymbolTable.mem_idsOfKind, or_comm]

end IsAugmented

end CanonicalLR.Grammar
