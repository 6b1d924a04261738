import CanonicalLR.Proofs.Grammar.Productions

/-!
# The numbers of symbols and rules

The slots of a symbol table are given out in two scans over the definitions, in which a
symbol may be used before it is defined. In the end the table says what the rules say:
behind `ε` and `$` stand the left-hand sides in the order in which they are first defined,
then the other symbols in the order in which they first appear. Augmentation leaves all
numbers as they are, except that it counts its own rule as the first one.

## Main definitions

* `symbolsOf` — the symbols of some rules in this order.
* `SymbolTable.Numbers` — a table gives them the numbers from 2 on.
* `Grammar.IsNumbered` — so does a grammar, and its rules stay among them.
* `Grammar.Augments` — all of this is preserved, and one symbol is added.

## Main results

* `WellFormed.symbolsOf_eq` — the slots are those of the rules if their names are.
* `kind?_eq_nonTerminal_iff`, `kind?_eq_terminal_iff` — the kinds are those of the rules.
* `isNumbered_ofText` — a grammar that was read from a text is numbered in this way.
* `augments_augment` — augmentation preserves it.
-/

namespace CanonicalLR

/-! ## Numbering in order -/

/-- The symbols of some rules: the left-hand sides where they are first defined, then the
other symbols where they first appear. -/
def symbolsOf (rules : List Rule) : List Nat :=
  (rules.map Rule.lhs).eraseDups
    ++ (rules.flatMap Rule.rhs).eraseDups.filter (· ∉ rules.map Rule.lhs)

/-- The table holds `ε` and `$` and behind them the symbols of the rules in order, each
under a name of its own and with the kind that the rules give it. -/
structure SymbolTable.Numbers (t : SymbolTable) (rules : List Rule) : Prop where
  epsilon_slot : t.symbols[epsilonId]? = some ⟨epsilonName, .epsilon⟩
  end_slot : t.symbols[endId]? = some ⟨endName, .endMarker⟩
  names_nodup : (t.symbols.toList.map (·.name)).Nodup
  find?_name : ∀ id < t.size, t.find? (t.name id) = some id
  slots_eq : symbolsOf rules = List.range' 2 (symbolsOf rules).length
  nonTerminal_iff : ∀ id, t.kind? id = some .nonTerminal ↔ ∃ r ∈ rules, r.lhs = id
  terminal_iff : ∀ id, t.kind? id = some .terminal ↔
    (∃ r ∈ rules, id ∈ r.rhs) ∧ ∀ r ∈ rules, r.lhs ≠ id

namespace Grammar

/-- The numbers of a declared grammar. -/
structure IsNumbered (g : Grammar) : Prop where
  symbols : g.symbols.Numbers g.rules.toList
  size_eq : g.symbols.size = 2 + (symbolsOf g.rules.toList).length
  rule_id : ∀ i (r : Rule), g.rules[i]? = some r → r.id = i
  lhs_kind : ∀ r ∈ g.rules, g.symbols.kind? r.lhs = some .nonTerminal
  rhs_range : ∀ r ∈ g.rules, ∀ symbol ∈ r.rhs,
    symbol ≠ epsilonId ∧ symbol ≠ endId ∧ symbol < g.symbols.size
  start_eq : ∃ r, g.rules[0]? = some r ∧ g.start = r.lhs

/-- A grammar has the symbols and the rules of another under their numbers, the rules
counted from 1, and the rule of a last symbol before them. -/
structure Augments (h g : Grammar) : Prop where
  symbols : h.symbols.Numbers (h.rules.toList.drop 1)
  slot_eq : ∀ id < g.symbols.size, h.symbols.symbols[id]? = g.symbols.symbols[id]?
  size_eq : h.symbols.size = g.symbols.size + 1
  rule_succ : ∀ i, h.rules[i + 1]? = (g.rules[i]?).map fun r => ⟨r.id + 1, r.lhs, r.rhs⟩
  rule_id : ∀ i (r : Rule), h.rules[i]? = some r → r.id = i
  lhs_kind : ∀ i (r : Rule), h.rules[i + 1]? = some r → h.symbols.kind? r.lhs = some .nonTerminal
  rhs_range : ∀ r ∈ h.rules, ∀ symbol ∈ r.rhs,
    symbol ≠ epsilonId ∧ symbol ≠ endId ∧ symbol ≠ h.start ∧ symbol < h.symbols.size
  start_slot : h.start + 1 = h.symbols.size
  start_kind_iff : ∀ id, h.symbols.kind? id = some .start ↔ id = h.start
  start_rule : h.rules[0]? = some ⟨0, h.start, [g.start]⟩
  lhs_start_iff : ∀ i (r : Rule), h.rules[i]? = some r → (r.lhs = h.start ↔ i = 0)

end Grammar

/-! ## First occurrences -/

/-- First occurrences are kept by a function that tells the elements apart. -/
theorem eraseDups_map {α β : Type} [BEq α] [LawfulBEq α] [BEq β] [LawfulBEq β] {f : α → β}
    {l : List α} (hf : ∀ a ∈ l, ∀ b ∈ l, f a = f b → a = b) :
    (l.map f).eraseDups = l.eraseDups.map f := by
  induction l with
  | nil => rfl
  | cons a l ih =>
      have hlater := ih fun b hb c hc => hf b (List.mem_cons_of_mem _ hb) c
        (List.mem_cons_of_mem _ hc)
      rw [List.map_cons, List.eraseDups_cons, List.eraseDups_cons, eraseDups_filter,
        eraseDups_filter, hlater, List.map_cons, List.filter_map]
      congr 2
      refine List.filter_congr fun b hb => ?_
      have hb : b ∈ a :: l := List.mem_cons_of_mem _ (List.mem_eraseDups.1 hb)
      by_cases heq : b = a
      · rw [heq]
        simp
      · have hne : f b ≠ f a := fun h => heq (hf b hb a List.mem_cons_self h)
        simp [heq, hne]

/-- Lists with the same image are the same where the function tells their elements apart. -/
theorem eq_of_map_eq_map {α β : Type} {f : α → β} {p : α → Prop}
    (hf : ∀ a b, p a → p b → f a = f b → a = b) {l m : List α} (hl : ∀ a ∈ l, p a)
    (hm : ∀ a ∈ m, p a) (h : l.map f = m.map f) : l = m := by
  induction l generalizing m with
  | nil => exact (List.map_eq_nil_iff.1 h.symm).symm
  | cons a l ih =>
      cases m with
      | nil => cases h
      | cons b m =>
          obtain ⟨hhead, hrest⟩ := List.cons.inj h
          rw [hf a b (hl a List.mem_cons_self) (hm b List.mem_cons_self) hhead,
            ih (fun c hc => hl c (List.mem_cons_of_mem _ hc))
              (fun c hc => hm c (List.mem_cons_of_mem _ hc)) hrest]

/-- The names of some slots in a row. -/
theorem map_name_range' {t : SymbolTable} {front middle back : List String}
    (h : t.symbols.toList.map (·.name) = front ++ middle ++ back) :
    (List.range' front.length middle.length).map t.name = middle := by
  refine List.ext_getElem (by simp) fun i hi hmiddle => ?_
  have hslot : (t.symbols.toList.map (·.name))[front.length + i]? = some middle[i] := by
    rw [h, List.append_assoc, List.getElem?_append_right (Nat.le_add_right _ _),
      Nat.add_sub_cancel_left, List.getElem?_append_left hmiddle,
      List.getElem?_eq_getElem hmiddle]
  rw [List.getElem?_map, Array.getElem?_toList] at hslot
  rw [List.getElem_map, List.getElem_range', Nat.one_mul]
  unfold SymbolTable.name
  rw [hslot]
  rfl

/-! ## The numbers of a declared grammar -/

namespace Grammar

section Declared

variable {g : Grammar} (hg : g.WellFormed)

include hg

theorem WellFormed.lhs_lt_size {r : Rule} (hr : r ∈ g.rules) : r.lhs < g.symbols.size :=
  lt_size_of_kind? (hg.lhs_kind r hr)

theorem WellFormed.lt_size_of_mem_rhs {r : Rule} (hr : r ∈ g.rules) :
    ∀ symbol ∈ r.rhs, symbol < g.symbols.size := by
  intro symbol hmem
  exact (hg.rhs_kind r hr symbol hmem).elim lt_size_of_kind? lt_size_of_kind?

/-- A name leads to the only symbol that has it. -/
theorem WellFormed.find?_name {id : Nat} (hid : id < g.symbols.size) :
    g.symbols.find? (g.symbols.name id) = some id := by
  refine SymbolTable.find?_eq_some_iff.2 ⟨hid, rfl, fun j hj hsame => ?_⟩
  exact Nat.ne_of_lt hj (hg.eq_of_name_eq (hj.trans hid) hid hsame)

/-- **The slots** behind the fixed ones are the symbols of the rules in order, if the names
in them are the names of the rules in order. -/
theorem WellFormed.symbolsOf_eq
    (hslots : g.symbols.symbols.toList.map (·.name) = epsilonName :: endName ::
      ((g.namedRules.map Prod.fst).eraseDups
        ++ (g.namedRules.flatMap Prod.snd).eraseDups.filter
          (· ∉ (g.namedRules.map Prod.fst).eraseDups))) :
    symbolsOf g.rules.toList = List.range' 2 (symbolsOf g.rules.toList).length ∧
      g.symbols.size = 2 + (symbolsOf g.rules.toList).length := by
  have hlhs : ∀ id ∈ g.rules.toList.map Rule.lhs, id < g.symbols.size := by
    intro id hid
    obtain ⟨r, hr, rfl⟩ := List.mem_map.1 hid
    exact hg.lhs_lt_size (Array.mem_toList_iff.1 hr)
  have hrhs : ∀ id ∈ g.rules.toList.flatMap Rule.rhs, id < g.symbols.size := by
    intro id hid
    obtain ⟨r, hr, hmem⟩ := List.mem_flatMap.1 hid
    exact hg.lt_size_of_mem_rhs (Array.mem_toList_iff.1 hr) id hmem
  have hinj : ∀ a b, a < g.symbols.size → b < g.symbols.size →
      g.symbols.name a = g.symbols.name b → a = b := fun a b ha hb => hg.eq_of_name_eq ha hb
  have hheads : (g.namedRules.map Prod.fst).eraseDups
      = (g.rules.toList.map Rule.lhs).eraseDups.map g.symbols.name := by
    rw [← eraseDups_map fun a ha b hb => hinj a b (hlhs a ha) (hlhs b hb)]
    unfold namedRules
    rw [List.map_map, List.map_map]
    rfl
  have hused : (g.namedRules.flatMap Prod.snd).eraseDups
      = (g.rules.toList.flatMap Rule.rhs).eraseDups.map g.symbols.name := by
    rw [← eraseDups_map fun a ha b hb => hinj a b (hrhs a ha) (hrhs b hb)]
    unfold namedRules
    rw [List.flatMap_map, List.map_flatMap]
  have hother : (g.namedRules.flatMap Prod.snd).eraseDups.filter
        (· ∉ (g.namedRules.map Prod.fst).eraseDups)
      = ((g.rules.toList.flatMap Rule.rhs).eraseDups.filter
          (· ∉ g.rules.toList.map Rule.lhs)).map g.symbols.name := by
    rw [hheads, hused, List.filter_map]
    congr 1
    refine List.filter_congr fun id hid => decide_eq_decide.2 (not_congr ?_)
    rw [List.mem_map]
    constructor
    · rintro ⟨other, hother, hsame⟩
      have hmem := List.mem_eraseDups.1 hother
      rw [← hinj other id (hlhs other hmem) (hrhs id (List.mem_eraseDups.1 hid)) hsame]
      exact hmem
    · exact fun hmem => ⟨id, List.mem_eraseDups.2 hmem, rfl⟩
  have hnames : g.symbols.symbols.toList.map (·.name)
      = [epsilonName, endName] ++ (symbolsOf g.rules.toList).map g.symbols.name ++ [] := by
    rw [hslots, hother, hheads, ← List.map_append, List.append_nil]
    rfl
  have hsize : g.symbols.size = 2 + (symbolsOf g.rules.toList).length := by
    have hlength := congrArg List.length hnames
    simp only [List.length_map, Array.length_toList, List.length_append, List.length_cons,
      List.length_nil] at hlength
    exact hlength
  have hlt : ∀ id ∈ symbolsOf g.rules.toList, id < g.symbols.size := by
    intro id hid
    rcases List.mem_append.1 hid with hid | hid
    · exact hlhs id (List.mem_eraseDups.1 hid)
    · exact hrhs id (List.mem_eraseDups.1 (List.mem_filter.1 hid).1)
  have hrange := map_name_range' hnames
  rw [List.length_map] at hrange
  refine ⟨eq_of_map_eq_map hinj hlt (fun id hid => ?_) hrange.symm, hsize⟩
  rw [hsize]
  exact (List.mem_range'_1.1 hid).2

end Declared

variable {text : String} {g : Grammar}

/-- The slots of a table by name. -/
theorem map_name_symbols_of_ofText (read : ofText text = .ok g) :
    g.symbols.symbols.toList.map (·.name) = epsilonName :: endName ::
      ((g.namedRules.map Prod.fst).eraseDups
        ++ (g.namedRules.flatMap Prod.snd).eraseDups.filter
          (· ∉ (g.namedRules.map Prod.fst).eraseDups)) := by
  obtain ⟨first, rest, hread, rfl⟩ := exists_definitionsOf read
  rw [namedRules_ofDefinitions]
  have htable := toList_symbolTable_eq (alternatives_ne_nil_of_definitionsOf hread)
  have hsymbols : (ofDefinitions first rest).symbols = symbolTable (first :: rest) := rfl
  rw [hsymbols, htable]
  simp [Function.comp_def]

/-- The symbol of a slot, with its name and its kind. -/
theorem exists_slot {id : Nat} {kind : SymbolKind} (h : g.symbols.kind? id = some kind) :
    ∃ s ∈ g.symbols.symbols.toList, s.name = g.symbols.name id ∧ s.kind = kind := by
  obtain ⟨s, hs, hkind⟩ := Option.map_eq_some_iff.1 h
  refine ⟨s, Array.mem_toList_iff.2 (Array.mem_of_getElem? hs), ?_, hkind⟩
  unfold SymbolTable.name
  rw [hs]
  rfl

/-- The symbols that have rules by name have rules. -/
theorem WellFormed.exists_lhs_iff (hg : g.WellFormed) {id : Nat} (hid : id < g.symbols.size) :
    (∃ p ∈ g.namedRules, p.1 = g.symbols.name id) ↔ ∃ r ∈ g.rules.toList, r.lhs = id := by
  unfold namedRules
  simp only [List.mem_map, exists_exists_and_eq_and]
  refine exists_congr fun r => and_congr_right fun hr => ?_
  have hlt := hg.lhs_lt_size (Array.mem_toList_iff.1 hr)
  exact ⟨hg.eq_of_name_eq hlt hid, congrArg _⟩

/-- The symbols that stand on the right by name stand on the right. -/
theorem WellFormed.exists_rhs_iff (hg : g.WellFormed) {id : Nat} (hid : id < g.symbols.size) :
    (∃ p ∈ g.namedRules, g.symbols.name id ∈ p.2) ↔ ∃ r ∈ g.rules.toList, id ∈ r.rhs := by
  unfold namedRules
  simp only [List.mem_map, exists_exists_and_eq_and]
  refine exists_congr fun r => and_congr_right fun hr => ?_
  have hlt := hg.lt_size_of_mem_rhs (Array.mem_toList_iff.1 hr)
  constructor
  · rintro ⟨symbol, hsymbol, hsame⟩
    exact hg.eq_of_name_eq (hlt symbol hsymbol) hid hsame ▸ hsymbol
  · exact fun hmem => ⟨id, hmem, rfl⟩

/-- **Non-terminals** are the symbols that have rules. -/
theorem kind?_eq_nonTerminal_iff (read : ofText text = .ok g) (id : Nat) :
    g.symbols.kind? id = some .nonTerminal ↔ ∃ r ∈ g.rules.toList, r.lhs = id := by
  have hg : g.WellFormed := wellFormed_ofText read
  constructor
  · intro hkind
    obtain ⟨s, hs, hname, hskind⟩ := exists_slot hkind
    rcases (mem_symbols_iff_of_ofText read).1 hs with rfl | rfl | ⟨hleft, -⟩ | ⟨-, -, hterminal⟩
    · cases hskind
    · cases hskind
    · exact (hg.exists_lhs_iff (lt_size_of_kind? hkind)).1 (hname ▸ hleft)
    · rw [hterminal] at hskind
      cases hskind
  · rintro ⟨r, hr, rfl⟩
    exact hg.lhs_kind r (Array.mem_toList_iff.1 hr)

/-- **Terminals** are the symbols that stand on the right of a rule and have none. -/
theorem kind?_eq_terminal_iff (read : ofText text = .ok g) (id : Nat) :
    g.symbols.kind? id = some .terminal ↔
      (∃ r ∈ g.rules.toList, id ∈ r.rhs) ∧ ∀ r ∈ g.rules.toList, r.lhs ≠ id := by
  have hg : g.WellFormed := wellFormed_ofText read
  constructor
  · intro hkind
    have hid := lt_size_of_kind? hkind
    obtain ⟨s, hs, hname, hskind⟩ := exists_slot hkind
    rcases (mem_symbols_iff_of_ofText read).1 hs with
      rfl | rfl | ⟨-, hnonTerminal⟩ | ⟨hright, hnot, -⟩
    · cases hskind
    · cases hskind
    · rw [hnonTerminal] at hskind
      cases hskind
    · rw [hname] at hright hnot
      refine ⟨(hg.exists_rhs_iff hid).1 hright, fun r hr hsame => hnot ?_⟩
      exact (hg.exists_lhs_iff hid).2 ⟨r, hr, hsame⟩
  · rintro ⟨⟨r, hr, hmem⟩, hnot⟩
    refine (hg.rhs_kind r (Array.mem_toList_iff.1 hr) id hmem).resolve_right fun hkind => ?_
    obtain ⟨r', hr', hlhs⟩ := (kind?_eq_nonTerminal_iff read id).1 hkind
    exact hnot r' hr' hlhs

/-- The first rule is one of the start symbol. -/
theorem exists_rule_start (read : ofText text = .ok g) :
    ∃ r, g.rules[0]? = some r ∧ g.start = r.lhs := by
  obtain ⟨first, rest, hread, rfl⟩ := exists_definitionsOf read
  have hhead : (productions (first :: rest)).head?.map Prod.fst = some first.head :=
    head?_productions (alternatives_ne_nil_of_definitionsOf hread first List.mem_cons_self)
  obtain ⟨production, hproduction, hfst⟩ := Option.map_eq_some_iff.1 hhead
  rw [List.head?_eq_getElem?] at hproduction
  rw [getElem?_rules_ofDefinitions, hproduction]
  refine ⟨_, rfl, ?_⟩
  show ((symbolTable (first :: rest)).find? first.head).getD epsilonId = _
  rw [← hfst]

/-- **A grammar that was read from a text** is numbered in the order of its rules. -/
theorem isNumbered_ofText (read : ofText text = .ok g) : g.IsNumbered := by
  have hg : g.WellFormed := wellFormed_ofText read
  obtain ⟨hslots, hsize⟩ := hg.symbolsOf_eq (map_name_symbols_of_ofText read)
  refine
    { symbols :=
        { epsilon_slot := hg.epsilon_slot
          end_slot := hg.end_slot
          names_nodup := hg.names_nodup
          find?_name := fun id hid => hg.find?_name hid
          slots_eq := hslots
          nonTerminal_iff := kind?_eq_nonTerminal_iff read
          terminal_iff := kind?_eq_terminal_iff read }
      size_eq := hsize
      rule_id := fun i r => hg.rule_id
      lhs_kind := hg.lhs_kind
      rhs_range := fun r hr symbol hmem => ?_
      start_eq := exists_rule_start read }
  have hkind := hg.rhs_kind r hr symbol hmem
  refine ⟨?_, ?_, hg.lt_size_of_mem_rhs hr symbol hmem⟩
  · rintro rfl
    rw [hg.kind?_epsilonId] at hkind
    simp at hkind
  · rintro rfl
    rw [hg.kind?_endId] at hkind
    simp at hkind

/-! ## The numbers of an augmented grammar -/

theorem toList_rules_augment (g : Grammar) :
    g.augment.rules.toList = ⟨0, g.augment.start, [g.start]⟩
      :: g.rules.toList.map fun r => ⟨r.id + 1, r.lhs, r.rhs⟩ := by
  simp [augment]

/-- The symbols of rules do not depend on how the rules are counted. -/
theorem symbolsOf_map (rules : List Rule) (f : Rule → Nat) :
    symbolsOf (rules.map fun r => ⟨f r, r.lhs, r.rhs⟩) = symbolsOf rules := by
  unfold symbolsOf
  rw [List.map_map, List.flatMap_map]
  rfl

theorem getElem?_symbols_augment {id : Nat} (hid : id < g.symbols.size) :
    g.augment.symbols.symbols[id]? = g.symbols.symbols[id]? := by
  have hne : id ≠ g.symbols.symbols.size := Nat.ne_of_lt hid
  unfold augment SymbolTable.push
  dsimp only
  rw [Array.getElem?_push, if_neg hne]

/-- No two symbols of an augmented grammar have the same name. -/
theorem WellFormed.nodup_names_augment (hg : g.WellFormed) :
    (g.augment.symbols.symbols.toList.map (·.name)).Nodup := by
  rw [toList_symbols_augment, List.map_append, List.map_singleton]
  refine hg.names_nodup.append (List.nodup_singleton _) ?_
  rw [List.disjoint_singleton]
  intro hmem
  obtain ⟨s, hs, hname⟩ := List.mem_map.1 hmem
  exact SymbolTable.find?_eq_none_iff.1 (find?_freshName g.symbols (g.symbols.name g.start)) s
    (Array.mem_toList_iff.1 hs) hname

/-- The slots of the declared symbols are those of the rules that are counted from 1. -/
theorem numbers_augment (hg : g.WellFormed) (h : g.symbols.Numbers g.rules.toList) :
    g.augment.symbols.Numbers (g.augment.rules.toList.drop 1) := by
  have hkind : ∀ id kind, kind ≠ .start →
      (g.augment.symbols.kind? id = some kind ↔ g.symbols.kind? id = some kind) := by
    intro id kind hne
    rw [kind?_augment_eq_some_iff]
    exact or_iff_left fun h => hne h.2
  have hrules : g.augment.rules.toList.drop 1
      = g.rules.toList.map fun r => ⟨r.id + 1, r.lhs, r.rhs⟩ := by
    rw [toList_rules_augment]
    rfl
  rw [hrules]
  refine
    { epsilon_slot := ?_
      end_slot := ?_
      names_nodup := hg.nodup_names_augment
      find?_name := fun id hid => hg.find?_name_augment hid
      slots_eq := ?_
      nonTerminal_iff := fun id => ?_
      terminal_iff := fun id => ?_ }
  · rw [getElem?_symbols_augment (lt_size_of_kind? hg.kind?_epsilonId)]
    exact h.epsilon_slot
  · rw [getElem?_symbols_augment (lt_size_of_kind? hg.kind?_endId)]
    exact h.end_slot
  · rw [symbolsOf_map]
    exact h.slots_eq
  · rw [hkind id .nonTerminal (by nofun), h.nonTerminal_iff]
    simp
  · rw [hkind id .terminal (by nofun), h.terminal_iff]
    simp

/-- **Augmentation** preserves the numbers, and adds one symbol with one rule. -/
theorem augments_augment (hg : g.WellFormed) (h : g.IsNumbered) : g.augment.Augments g := by
  have ha : g.augment.IsAugmented := hg.isAugmented
  have hsucc : ∀ i, g.augment.rules[i + 1]? = (g.rules[i]?).map fun r =>
      ⟨r.id + 1, r.lhs, r.rhs⟩ := fun i => getElem?_rules_augment (i + 1)
  have hdeclared : ∀ i (r : Rule), g.augment.rules[i + 1]? = some r →
      g.symbols.kind? r.lhs = some .nonTerminal := by
    intro i r hr
    rw [hsucc] at hr
    obtain ⟨r', hr', rfl⟩ := Option.map_eq_some_iff.1 hr
    exact hg.lhs_kind r' (Array.mem_of_getElem? hr')
  refine
    { symbols := numbers_augment hg h.symbols
      slot_eq := fun id => getElem?_symbols_augment
      size_eq := size_symbols_augment g
      rule_succ := hsucc
      rule_id := fun i r => ha.rule_id
      lhs_kind := fun i r hr => kind?_augment_eq_some_iff.2 (Or.inl (hdeclared i r hr))
      rhs_range := fun r hr symbol hmem => ?_
      start_slot := (size_symbols_augment g).symm
      start_kind_iff := fun id => ha.start_kind_iff
      start_rule := getElem?_rules_augment 0
      lhs_start_iff := fun i r hr => ?_ }
  · have hepsilon := ha.ne_epsilonId_of_mem_rhs hr symbol hmem
    have hlt := ha.lt_size_of_mem_rhs hr symbol hmem
    rw [← ha.rule_eq_of_mem hr] at hmem
    exact ⟨hepsilon, ha.ne_endId_of_mem_rhs hmem, ha.ne_start_of_mem_rhs hmem, hlt⟩
  · cases i with
    | zero =>
        have hzero : g.augment.rules[0]? = some ⟨0, g.augment.start, [g.start]⟩ :=
          getElem?_rules_augment 0
        rw [hzero] at hr
        obtain rfl := Option.some.inj hr
        exact ⟨fun _ => rfl, fun _ => rfl⟩
    | succ i =>
        have hlt : r.lhs < g.symbols.size := lt_size_of_kind? (hdeclared i r hr)
        exact ⟨fun heq => absurd heq (Nat.ne_of_lt hlt), nofun⟩

end Grammar

end CanonicalLR
