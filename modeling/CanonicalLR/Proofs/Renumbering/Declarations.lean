import CanonicalLR.Proofs.Grammar.Declared
import CanonicalLR.Proofs.Renumbering.Parser
import CanonicalLR.Proofs.Table.AddedRules

/-!
# The order of declarations

Two grammar texts may declare the same rules and the same start symbol in different orders.
The symbols are numbered by where they first stand and the rules by where they stand, so
all numbers may differ. But the tables of symbols hold the same symbols, which have
different names, and so the augmented grammars are one grammar in two numberings. All that
is computed of them is then the same but for the numbers.

## Main definitions

* `Table.CorrespondsTo` — two tables are the same but for the numbers.
* `Grammar.CorrespondsTo` — so are two grammars, and what is computed of them.

## Main results

* `exists_renumbers_augment` — the same rules in another order are renumbered.
* `perm_namesOf_of_mem_iff` — renumbered families of sets hold the same names.
* `correspondsTo_of_perm` — the order of declarations does not matter.
-/

namespace CanonicalLR

/-! ## Definitions -/

/-- The tables are the same but for the numbers of states and rules: `σ` leads from the
states of `t` to those of `t'`, and `π` from rules to rules. -/
structure Table.CorrespondsTo (π σ : Equiv.Perm Nat) (t t' : Table) : Prop where
  /-- State 0 is state 0. -/
  state_zero : σ 0 = 0
  /-- States lead to states, and nothing else does. -/
  lt_size_rows_iff : ∀ state, σ state < t'.rows.size ↔ state < t.rows.size
  /-- A rule leads to a rule with the same names. -/
  getElem?_namedRules : ∀ id,
    t'.grammar.namedRules[π id]? = t.grammar.namedRules[id]?
  /-- An ACTION cell holds under every name the image of the action. -/
  actionOf_eq : ∀ state name,
    t'.actionOf (σ state) name = (t.actionOf state name).map (Action.renumber π σ)
  /-- A GOTO cell holds under every name the image of the state. -/
  gotoOf_eq : ∀ state name, t'.gotoOf (σ state) name = (t.gotoOf state name).map σ
  /-- Every input without `$` is parsed in the same way. -/
  parsesAlike : ∀ input, endName ∉ Text.wordsOf input → t.ParsesAlike t' input

/-- The declared grammars are the same but for the numbers, and so is what is computed of
them. -/
structure Grammar.CorrespondsTo (g h : Grammar) : Prop where
  /-- A symbol with a name has FIRST sets with the same names in both grammars, or there is
  no such symbol in either of them. -/
  perm_first : ∀ name, Option.Rel List.Perm
    (g.augment.namesOf g.augment.first name) (h.augment.namesOf h.augment.first name)
  /-- So it is with its FOLLOW sets. -/
  perm_follow : ∀ name, Option.Rel List.Perm
    (g.augment.namesOf g.augment.follow name) (h.augment.namesOf h.augment.follow name)
  /-- The canonical collections have the same number of states. -/
  size_states : (g.augment.automaton g.augment.first).states.size
    = (h.augment.automaton h.augment.first).states.size
  /-- Both grammars have a table, or neither has one. -/
  exists_build_iff : (∃ t, Table.build g = .ok t) ↔ ∃ t', Table.build h = .ok t'
  /-- The tables are the same but for the numbers. -/
  exists_correspondsTo : ∀ t t', Table.build g = .ok t → Table.build h = .ok t' →
    ∃ π σ : Equiv.Perm Nat, Table.CorrespondsTo π σ t t'

/-! ## The same rules in another order -/

namespace Grammar

/-- Where the numbers of symbols can be read off their names, rules can be read off named
rules. -/
theorem map_namedRules {g : Grammar} (hg : g.IsAugmented) {number : String → Nat}
    {ρ : Nat → Nat} (hnumber : ∀ id < g.symbols.size, number (g.symbols.name id) = ρ id) :
    (g.namedRules.map fun p => (number p.1, p.2.map number))
      = g.rules.toList.map fun r => (ρ r.lhs, r.rhs.map ρ) := by
  unfold namedRules
  rw [List.map_map]
  apply List.map_congr_left
  intro r hr
  have hr := Array.mem_toList_iff.1 hr
  have hlhs := hnumber r.lhs (IsAugmented.lt_size_of_isNonTerminal (hg.lhs_isNonTerminal r hr))
  have hrhs : (r.rhs.map g.symbols.name).map number = r.rhs.map ρ := by
    rw [List.map_map]
    exact List.map_congr_left fun symbol hmem =>
      hnumber symbol (hg.lt_size_of_mem_rhs hr symbol hmem)
  exact Prod.ext hlhs hrhs

section Texts

variable {text text' : String} {g h : Grammar} (read : ofText text = .ok g)
  (read' : ofText text' = .ok h) (rules : g.namedRules.Perm h.namedRules)

include read read' rules

/-- The same rules have the same symbols. -/
theorem perm_symbols : g.symbols.symbols.toList.Perm h.symbols.symbols.toList := by
  have hnodup : g.symbols.symbols.toList.Nodup :=
    (wellFormed_ofText read).names_nodup.of_map _
  have hnodup' : h.symbols.symbols.toList.Nodup :=
    (wellFormed_ofText read').names_nodup.of_map _
  rw [List.perm_ext_iff_of_nodup hnodup hnodup']
  intro s
  simp only [mem_symbols_iff_of_ofText read, mem_symbols_iff_of_ofText read', rules.mem_iff]

variable (start : g.symbols.name g.start = h.symbols.name h.start)

include start

/-- The added start symbols have the same name. -/
theorem perm_symbols_augment :
    g.augment.symbols.symbols.toList.Perm h.augment.symbols.symbols.toList := by
  have hperm := perm_symbols read read' rules
  rw [toList_symbols_augment, toList_symbols_augment, start, freshName_eq_of_perm hperm]
  exact hperm.append_right _

/-- The augmented grammars have the same rules. -/
theorem perm_namedRules_augment :
    g.augment.namedRules.Perm h.augment.namedRules := by
  have hname : g.augment.symbols.name g.augment.start
      = h.augment.symbols.name h.augment.start := by
    rw [name_start_augment, name_start_augment, start,
      freshName_eq_of_perm (perm_symbols read read' rules)]
  rw [(wellFormed_ofText read).namedRules_augment, (wellFormed_ofText read').namedRules_augment,
    hname, start]
  exact rules.cons _

/-- **The same rules in another order** are renumbered. -/
theorem exists_renumbers_augment : ∃ ρ π, Renumbers ρ π g.augment h.augment := by
  have hg := wellFormed_ofText read
  have hh := wellFormed_ofText read'
  obtain ⟨ρ, hslots⟩ := exists_renumbering (perm_symbols_augment read read' rules start)
  have hslot : ∀ id : Nat,
      h.augment.symbols.symbols[ρ id]? = g.augment.symbols.symbols[id]? := by
    intro id
    rw [← Array.getElem?_toList, ← Array.getElem?_toList]
    exact hslots id
  let number := fun name => (h.augment.symbols.find? name).getD epsilonId
  have hnumber' : ∀ id < h.augment.symbols.size, number (h.augment.symbols.name id) = id :=
    fun id hid => congrArg (Option.getD · epsilonId) (hh.find?_name_augment hid)
  have hnumber : ∀ id < g.augment.symbols.size, number (g.augment.symbols.name id) = ρ id := by
    intro id hid
    have hname : h.augment.symbols.name (ρ id) = g.augment.symbols.name id := by
      unfold SymbolTable.name
      rw [hslot]
    have hlt : ρ id < h.augment.symbols.size := by
      apply Nat.lt_of_not_le
      intro hle
      have hnone := hslot id
      rw [Array.getElem?_eq_none hle, eq_comm, Array.getElem?_eq_none_iff] at hnone
      exact absurd hid (Nat.not_lt.2 hnone)
    rw [← hname]
    exact hnumber' _ hlt
  have hcontents := (perm_namedRules_augment read read' rules start).map
    fun p => (number p.1, p.2.map number)
  rw [map_namedRules hg.isAugmented hnumber, map_namedRules hh.isAugmented hnumber'] at hcontents
  obtain ⟨π, hrules⟩ := exists_renumbering hcontents
  refine ⟨ρ, π,
    { isAugmented := hg.isAugmented
      isAugmented' := hh.isAugmented
      eq_of_name_eq := hg.eq_of_name_augment_eq
      slot_eq := hslot
      getElem?_rules := ?_ }⟩
  intro id
  have hrule := hrules id
  rw [List.getElem?_map, List.getElem?_map, Array.getElem?_toList, Array.getElem?_toList]
    at hrule
  cases hr : g.augment.rules[id]? with
  | none =>
      rw [hr] at hrule
      exact Option.map_eq_none_iff.1 hrule
  | some r =>
      rw [hr] at hrule
      obtain ⟨r', hr', hsame⟩ := Option.map_eq_some_iff.1 hrule
      obtain ⟨hlhs, hrhs⟩ := Prod.mk.inj hsame
      rw [List.map_id'] at hrhs
      have hid := hg.isAugmented.rule_id hr
      have hid' := hh.isAugmented.rule_id hr'
      rw [hr', Option.map_some]
      unfold Rule.renumber
      rw [hid, ← hid', ← hlhs, ← hrhs]

end Texts

/-! ## What renumbered grammars have in common -/

namespace Renumbers

variable {ρ π : Equiv.Perm Nat} {g h : Grammar} (hr : Renumbers ρ π g h)

include hr

/-- A rule has the same names under its new number. -/
theorem getElem?_namedRules (id : Nat) : h.namedRules[π id]? = g.namedRules[id]? := by
  unfold namedRules
  rw [List.getElem?_map, List.getElem?_map, Array.getElem?_toList, Array.getElem?_toList,
    hr.getElem?_rules, Option.map_map]
  congr 1
  funext r
  unfold Function.comp Rule.renumber
  dsimp only
  rw [hr.name_eq, List.map_map, hr.name_comp]

/-- **Renumbered families of sets** hold the same names. -/
theorem perm_namesOf_of_mem_iff {sets sets' : SymbolSets}
    (hmem : ∀ symbol a, ρ a ∈ sets'.get (ρ symbol) ↔ a ∈ sets.get symbol) (name : String) :
    Option.Rel List.Perm (g.namesOf sets name) (h.namesOf sets' name) := by
  have hperm : ∀ symbol,
      ((sets.get symbol).toList.map ρ).Perm (sets'.get (ρ symbol)).toList := by
    intro symbol
    rw [List.perm_ext_iff_of_nodup ((OrdSet.nodup_toList _).map ρ.injective)
      (OrdSet.nodup_toList _)]
    intro a
    rw [List.mem_map, OrdSet.mem_toList, ← ρ.apply_symm_apply a, hmem]
    simp only [OrdSet.mem_toList, ρ.apply_eq_iff_eq, exists_eq_right]
  unfold namesOf
  rw [hr.find?_renumber]
  cases g.symbols.find? name with
  | none => exact .none
  | some symbol =>
      have hnames := (hperm symbol).map h.symbols.name
      rw [List.map_map, hr.name_comp] at hnames
      exact .some hnames

end Renumbers

end Grammar

namespace Table

variable {ρ π σ : Equiv.Perm Nat} {t t' : Table}

/-- **Renumbered tables** are the same but for the numbers. -/
theorem Renumbers.correspondsTo (hr : Renumbers ρ π σ t t') : CorrespondsTo π σ t t' := by
  have hgrammar := hr.automaton.grammar
  refine
    { state_zero := hr.automaton.zero_eq
      lt_size_rows_iff := fun state => hr.lt_size_rows_iff
      getElem?_namedRules := hgrammar.getElem?_namedRules
      actionOf_eq := ?_
      gotoOf_eq := ?_
      parsesAlike := fun input hfree => hr.parsesAlike hfree }
  · intro state name
    unfold actionOf
    rw [hgrammar.find?_renumber]
    cases t.grammar.symbols.find? name with
    | none => rfl
    | some symbol => exact hr.action?_renumber
  · intro state name
    unfold gotoOf
    rw [hgrammar.find?_renumber]
    cases t.grammar.symbols.find? name with
    | none => rfl
    | some symbol => exact hr.goto?_renumber

end Table

/-! ## The order of declarations -/

namespace Grammar

/-- **The order of declarations** does not matter: if two grammar texts declare the same
rules and the same start symbol, then all that is computed of them is the same but for the
numbers. -/
theorem correspondsTo_of_perm {text text' : String} {g h : Grammar}
    (read : ofText text = .ok g) (read' : ofText text' = .ok h)
    (rules : g.namedRules.Perm h.namedRules)
    (start : g.symbols.name g.start = h.symbols.name h.start) : g.CorrespondsTo h := by
  have hg := wellFormed_ofText read
  have hh := wellFormed_ofText read'
  obtain ⟨ρ, π, hr⟩ := exists_renumbers_augment read read' rules start
  refine
    { perm_first := hr.perm_namesOf_of_mem_iff fun symbol a => hr.mem_first_iff
      perm_follow := hr.perm_namesOf_of_mem_iff fun symbol a => hr.mem_follow_iff
      size_states := hr.size_states
      exists_build_iff := Table.exists_build_iff_of_renumbers hg hh hr
      exists_correspondsTo := ?_ }
  intro t t' built built'
  obtain ⟨σ, ht⟩ := Table.exists_renumbers_of_build hg hh hr built built'
  exact ⟨π, σ, ht.correspondsTo⟩

/-- So it is where the alternatives of one line are two lines, the second of them behind
those of another symbol, so that symbols and rules have other numbers. -/
theorem correspondsTo_of_swapped :
    ∃ g h t t', ofText "S -> a A | b\nA -> b" = .ok g ∧
      ofText "S -> b\nA -> b\nS -> a A" = .ok h ∧
      Table.build g = .ok t ∧ Table.build h = .ok t' ∧
      g.symbols ≠ h.symbols ∧ g.rules ≠ h.rules ∧
      g.CorrespondsTo h := by
  obtain ⟨g, t, read, built, -⟩ :=
    Table.exists_table "S -> a A | b\nA -> b" (fun _ => true) (by decide +kernel)
  obtain ⟨h, t', read', built', -⟩ :=
    Table.exists_table "S -> b\nA -> b\nS -> a A" (fun _ => true) (by decide +kernel)
  have hboth : (ofText "S -> a A | b\nA -> b").toOption.any (fun g =>
      (ofText "S -> b\nA -> b\nS -> a A").toOption.any fun h =>
        g.symbols ≠ h.symbols ∧ g.rules ≠ h.rules ∧ g.namedRules.Perm h.namedRules ∧
          g.symbols.name g.start = h.symbols.name h.start) = true := by
    decide +kernel
  rw [read, read'] at hboth
  obtain ⟨hsymbols, hrules, rules, start⟩ := of_decide_eq_true hboth
  exact ⟨g, h, t, t', read, read', built, built', hsymbols, hrules,
    correspondsTo_of_perm read read' rules start⟩

end Grammar

end CanonicalLR
