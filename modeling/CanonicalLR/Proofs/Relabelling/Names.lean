import CanonicalLR.Proofs.Grammar.Declared
import CanonicalLR.Proofs.Grammar.Printed
import CanonicalLR.Proofs.Relabelling.Grammar
import Mathlib.Data.Set.Function

/-!
# Grammars under other names

A map of words that is a bijection may give new names to the symbols of a grammar. A word
is then a terminal of the first grammar exactly if its image is the terminal with the same
number of the second one. The added start symbols need not have related names, since each
name is made new among other names, but neither is the name of a terminal, and no rule text
shows it but that of rule 0.

## Main definitions

* `Grammar.Relabels` — one grammar under two sets of names.
* `relabelRule` — the text of a rule under other names.

## Main results

* `Relabels.name_augment_eq` — the names of all symbols but the added one.
* `Relabels.filter_find?_augment` — the terminal that a word names.
* `relabelRule_render` — a rule that is shown under other names.
-/

namespace CanonicalLR

open Text

/-! ## Names -/

/-- A name is a word if a test of its characters says so. -/
theorem isWordText_of_all {name : String} (hne : name.toList ≠ [])
    (h : name.toList.all (fun c => !isBlank c) = true) : IsWordText name :=
  ⟨hne, fun c hc => by simpa using List.all_eq_true.1 h c hc⟩

namespace Grammar

/-- The second grammar is the first one with each name replaced by its image under a
bijection of words. -/
structure Relabels (ρ : String → String) (g h : Grammar) : Prop extends SameNumbers g h where
  bijOn : Set.BijOn ρ {name | IsWordText name} {name | IsWordText name}
  name_eq : ∀ id < g.symbols.size, h.symbols.name id = ρ (g.symbols.name id)

namespace Relabels

variable {ρ : String → String} {g h : Grammar} {id : Nat} {name : String}
  (hr : Relabels ρ g h) (hg : g.WellFormed)

include hr hg

theorem apply_endName (hh : h.WellFormed) : ρ endName = endName := by
  have hname := hr.name_eq endId (lt_size_of_kind? hg.kind?_endId)
  rw [hg.name_endId, hh.name_endId] at hname
  exact hname.symm

theorem apply_epsilonName (hh : h.WellFormed) : ρ epsilonName = epsilonName := by
  have hname := hr.name_eq epsilonId (lt_size_of_kind? hg.kind?_epsilonId)
  unfold SymbolTable.name at hname
  rw [hg.epsilon_slot, hh.epsilon_slot] at hname
  exact hname.symm

/-- **All symbols but the added one** have related names, which are words. -/
theorem name_augment_eq (hlt : id < g.augment.symbols.size) (hne : id ≠ g.augment.start) :
    h.augment.symbols.name id = ρ (g.augment.symbols.name id) ∧
      IsWordText (g.augment.symbols.name id) := by
  have hid : id < g.symbols.size := by
    rw [size_symbols_augment] at hlt
    exact Nat.lt_of_le_of_ne (Nat.le_of_lt_succ hlt) hne
  obtain ⟨kind, hkind⟩ : ∃ kind, g.symbols.kind? id = some kind :=
    Option.ne_none_iff_exists'.1 fun hnone =>
      Nat.not_lt.2 (SymbolTable.kind?_eq_none_iff.1 hnone) hid
  rw [name_augment hid, name_augment (hr.size_eq ▸ hid)]
  exact ⟨hr.name_eq id hid, hg.isWordText_name hkind⟩

omit hr in
/-- A word names a terminal if it is the name in its slot. -/
theorem filter_find?_eq_some_iff :
    (g.augment.symbols.find? name).filter g.augment.symbols.isTerminal = some id ↔
      g.augment.symbols.isTerminal id = true ∧ g.augment.symbols.name id = name := by
  rw [Option.filter_eq_some_iff]
  constructor
  · rintro ⟨hfind, hterminal⟩
    exact ⟨hterminal, (SymbolTable.find?_eq_some_iff.1 hfind).2.1⟩
  · rintro ⟨hterminal, rfl⟩
    exact ⟨hg.find?_name_augment (IsAugmented.lt_size_of_isTerminal hterminal), hterminal⟩

/-- **A word and its image** name the same terminal, or none. -/
theorem filter_find?_augment (hh : h.WellFormed) (hname : IsWordText name) :
    (h.augment.symbols.find? (ρ name)).filter h.augment.symbols.isTerminal
      = (g.augment.symbols.find? name).filter g.augment.symbols.isTerminal := by
  apply Option.ext
  intro id
  rw [filter_find?_eq_some_iff hh, filter_find?_eq_some_iff hg, hr.augment.isTerminal_eq]
  refine and_congr_right fun hterminal => ?_
  obtain ⟨heq, hword⟩ := hr.name_augment_eq hg (IsAugmented.lt_size_of_isTerminal hterminal)
    (hg.isAugmented.ne_start_of_isTerminal hterminal)
  rw [heq]
  exact hr.bijOn.injOn.eq_iff hword hname

end Relabels

end Grammar

/-! ## Rules -/

/-- The text of a rule under other names; the arrow, its second word, is no name. -/
def relabelRule (ρ : String → String) (label : String) : String :=
  " ".intercalate ((wordsOf label).mapIdx fun i word => if i = 1 then word else ρ word)

/-- The words of a printed production. -/
def productionWords (head : String) (names : List String) : List String :=
  head :: "->" :: if names.isEmpty then [epsilonName] else names

/-- They are printed with a blank between two of them. -/
theorem printProduction_eq_intercalate (head : String) (names : List String) :
    printProduction (head, names) = " ".intercalate (productionWords head names) := by
  apply String.toList_injective
  unfold printProduction printNames productionWords
  cases names with
  | nil => simp
  | cons name names => simp [String.toList_intercalate]

theorem isWordText_of_mem_productionWords {head word : String} {names : List String}
    (hhead : IsWordText head) (hnames : ∀ name ∈ names, IsWordText name)
    (hmem : word ∈ productionWords head names) : IsWordText word := by
  unfold productionWords at hmem
  rcases List.mem_cons.1 hmem with rfl | hmem
  · exact hhead
  rcases List.mem_cons.1 hmem with rfl | hmem
  · exact isWordText_of_all (by decide) (by decide)
  split at hmem
  · obtain rfl := List.mem_singleton.1 hmem
    exact isWordText_of_all (by decide) (by decide)
  · exact hnames word hmem

/-- **A production under other names** is printed as the images of its words. -/
theorem relabelRule_printProduction {ρ : String → String} {head : String} {names : List String}
    (hepsilon : ρ epsilonName = epsilonName) (hhead : IsWordText head)
    (hnames : ∀ name ∈ names, IsWordText name) :
    relabelRule ρ (printProduction (head, names))
      = printProduction (ρ head, names.map ρ) := by
  have hwords : wordsOf (printProduction (head, names)) = productionWords head names := by
    rw [printProduction_eq_intercalate]
    exact wordsOf_intercalate fun word hmem =>
      isWordText_of_mem_productionWords hhead hnames hmem
  have himages : ∀ words : List String,
      words.mapIdx (fun i word => if i + 1 + 1 = 1 then word else ρ word) = words.map ρ := by
    intro words
    apply List.ext_getElem?
    intro i
    rw [List.getElem?_mapIdx, List.getElem?_map]
    rfl
  unfold relabelRule
  rw [hwords, printProduction_eq_intercalate]
  unfold productionWords
  rw [List.mapIdx_cons, List.mapIdx_cons, himages, List.isEmpty_map]
  by_cases hempty : names.isEmpty = true
  · rw [if_pos hempty, if_pos hempty, List.map_singleton, hepsilon]
    rfl
  · rw [if_neg hempty, if_neg hempty]
    rfl

/-- **A rule** is shown under other names as its text is under these names. -/
theorem relabelRule_render {ρ : String → String} {t u : SymbolTable} {r : Rule}
    (hepsilon : ρ epsilonName = epsilonName)
    (hnames : ∀ symbol ∈ r.lhs :: r.rhs,
      u.name symbol = ρ (t.name symbol) ∧ IsWordText (t.name symbol)) :
    relabelRule ρ (r.render t) = r.render u := by
  have hwords : ∀ name ∈ r.rhs.map t.name, IsWordText name := by
    intro name hmem
    obtain ⟨symbol, hsymbol, rfl⟩ := List.mem_map.1 hmem
    exact (hnames symbol (List.mem_cons_of_mem _ hsymbol)).2
  have himages : (r.rhs.map t.name).map ρ = r.rhs.map u.name := by
    rw [List.map_map]
    exact List.map_congr_left fun symbol hsymbol =>
      (hnames symbol (List.mem_cons_of_mem _ hsymbol)).1.symm
  obtain ⟨hlhs, hword⟩ := hnames r.lhs List.mem_cons_self
  rw [Rule.render_eq, Rule.render_eq, relabelRule_printProduction hepsilon hword hwords,
    himages, hlhs]

end CanonicalLR
