import CanonicalLR.Proofs.Embedding.Parser
import CanonicalLR.Proofs.Grammar.Extension

/-!
# Tables and rules that cannot be reached

Lines behind a grammar text that define new names cannot be reached from its start symbol.
They move the numbers of the old terminals, may use the old symbols, add columns and may
even take the name of the added start symbol. All the same the text is refused for the
same conflict, or its table has the same states and the same cells under the same names,
and parses every input in the same way. The FIRST sets are kept as well; FOLLOW is not, as
the last example shows.

## Main definitions

* `Grammar.namesOf` — what a family of sets holds for a name.
* `Table.actionOf`, `Table.gotoOf` — the cells under a name.
* `Table.AgreesWith` — tables that show no difference.

## Main results

* `namesOf_first` — FIRST sets are kept.
* `Renames.agreesWith` — a renumbered table shows no difference.
* `build_append` — rules that cannot be reached change nothing.
-/

namespace CanonicalLR

/-- The names of the symbols that the set of a named symbol holds. -/
def Grammar.namesOf (g : Grammar) (sets : SymbolSets) (name : String) :
    Option (List String) :=
  (g.symbols.find? name).map fun id => (sets.get id).toList.map g.symbols.name

/-! ## Names in embedded grammars -/

namespace Grammar.Embeds

variable {ρ : Nat → Nat} {g h : Grammar} {id a : Nat} {name : String} (he : Embeds ρ g h)

include he

/-- **FIRST sets** are listed in the same order. -/
theorem toList_first (hid : id < g.symbols.size) :
    (h.first.get (ρ id)).toList = (g.first.get id).toList.map ρ := by
  have himage : h.first.get (ρ id) = (g.first.get id).image ρ := by
    apply OrdSet.ext
    intro b
    rw [he.mem_first_iff hid, OrdSet.mem_image]
    simp only [eq_comm]
  rw [himage]
  exact OrdSet.toList_image fun a b => compare_strictMono he.strictMono

/-- What a FIRST set holds keeps its name. -/
theorem name_of_mem_first (ha : a ∈ g.first.get id) :
    h.symbols.name (ρ a) = g.symbols.name a := by
  have hg := he.isAugmented
  have hpool := (Finset.mem_filter.1 (hg.within_first.mem ha)).2
  rcases hpool with hterminal | rfl
  · exact he.name_of_isTerminal hterminal
  · have hkind := hg.epsilon_kind_iff.2 rfl
    refine he.name_eq (lt_size_of_kind? hkind) ?_
    intro heq
    have hstart := hg.start_kind_iff.2 heq
    rw [hkind] at hstart
    cases hstart

/-- **FIRST sets** are kept: a name has the same names in its set. -/
theorem namesOf_first (hfind : g.symbols.find? name = some id) (hne : id ≠ g.start) :
    h.namesOf h.first name = g.namesOf g.first name := by
  have hid := (SymbolTable.find?_eq_some_iff.1 hfind).1
  unfold namesOf
  rw [(he.find?_iff hid hne).2 hfind, hfind, Option.map_some, Option.map_some,
    he.toList_first hid, List.map_map]
  congr 1
  exact List.map_congr_left fun a ha => he.name_of_mem_first ha

/-- Cells that hold the same under renumbered symbols hold the same under every name. -/
theorem bind_find? {γ : Type} {cell cell' : Nat → Option γ}
    (hcell : ∀ other value, cell' other = some value ↔
      ∃ symbol, ρ symbol = other ∧ cell symbol = some value)
    (hnamed : ∀ symbol value, cell symbol = some value →
      symbol < g.symbols.size ∧ symbol ≠ g.start) (name : String) :
    (h.symbols.find? name).bind cell' = (g.symbols.find? name).bind cell := by
  apply Option.ext
  intro value
  rw [Option.bind_eq_some_iff, Option.bind_eq_some_iff]
  constructor
  · rintro ⟨other, hfind, hvalue⟩
    obtain ⟨symbol, rfl, hsmaller⟩ := (hcell other value).1 hvalue
    obtain ⟨hlt, hne⟩ := hnamed symbol value hsmaller
    exact ⟨symbol, (he.find?_iff hlt hne).1 hfind, hsmaller⟩
  · rintro ⟨symbol, hfind, hvalue⟩
    obtain ⟨hlt, hne⟩ := hnamed symbol value hvalue
    exact ⟨ρ symbol, (he.find?_iff hlt hne).2 hfind,
      (hcell _ _).2 ⟨symbol, rfl, hvalue⟩⟩

end Grammar.Embeds

namespace Table

/-! ## Cells under names -/

/-- The ACTION cell of a state under a name. -/
def actionOf (t : Table) (state : Nat) (name : String) : Option Action :=
  (t.grammar.symbols.find? name).bind (t.action? state)

/-- The GOTO cell of a state under a name. -/
def gotoOf (t : Table) (state : Nat) (name : String) : Option Nat :=
  (t.grammar.symbols.find? name).bind (t.goto? state)

/-- The second table shows no difference from the first one. -/
structure AgreesWith (t t' : Table) : Prop where
  size_states : t'.automaton.states.size = t.automaton.states.size
  actionOf_eq : ∀ state name, t'.actionOf state name = t.actionOf state name
  gotoOf_eq : ∀ state name, t'.gotoOf state name = t.gotoOf state name
  /-- Both tables print one trace, one error, or both reach the limit. -/
  parse_eq : ∀ limit input, t'.parse limit input = t.parse limit input

/-- A column with a GOTO cell is not that of the added start symbol. -/
theorem IsCanonical.ne_start_of_goto? {t : Table} {state symbol next : Nat}
    (ht : t.IsCanonical) (h : t.goto? state symbol = some next) :
    symbol ≠ t.grammar.start := by
  obtain ⟨-, hmove⟩ := ht.goto?_eq_some_iff.1 h
  obtain ⟨i, -, hexp⟩ := ht.collection.exists_holds_of_move ht.augmented hmove
  exact ht.augmented.ne_start_of_mem_rhs (List.mem_of_getElem? hexp)

/-- **A renumbered table** shows no difference. -/
theorem Renames.agreesWith {ρ : Nat → Nat} {t t' : Table} (ht : Renames ρ t t')
    (ht' : t'.IsCanonical) : t.AgreesWith t' := by
  have hcanonical := ht.isCanonical
  refine
    { size_states := ?_
      actionOf_eq := ?_
      gotoOf_eq := ?_
      parse_eq := ht.parse_rename }
  · rw [← ht'.size_rows, ht.size_rows, hcanonical.size_rows]
  · intro state
    refine ht.embeds.bind_find? (fun other action => ht.action?_eq_some_iff) ?_
    intro symbol action h
    have hterminal := hcanonical.isTerminal_of_action? h
    exact ⟨Grammar.IsAugmented.lt_size_of_isTerminal hterminal,
      hcanonical.augmented.ne_start_of_isTerminal hterminal⟩
  · intro state
    refine ht.embeds.bind_find? (fun other next => ht.goto?_eq_some_iff) ?_
    intro symbol next h
    have hnonTerminal := (hcanonical.goto?_eq_some_iff.1 h).1
    exact ⟨Grammar.IsAugmented.lt_size_of_isNonTerminal hnonTerminal,
      hcanonical.ne_start_of_goto? h⟩

/-! ## Lines behind a text -/

/-- **Rules that cannot be reached** change nothing: with lines behind it that define names
which its grammar does not have, a grammar text is refused for the same conflict, or has a
table that shows no difference, and every FIRST set is kept. -/
theorem build_append {text more : String} {g : Grammar} {added : List Definition}
    (read : Grammar.ofText text = .ok g) (lines : Grammar.definitionsOf more = .ok added)
    (fresh : ∀ d ∈ added, g.symbols.find? d.head = none) :
    ∃ h, Grammar.ofText (text ++ "\n" ++ more) = .ok h ∧
      ((∃ state symbol existing demanded,
          build g = .error (.conflict state symbol existing demanded) ∧
          build h = .error (.conflict state symbol existing demanded)) ∨
        ∃ t t', build g = .ok t ∧ build h = .ok t' ∧ t.AgreesWith t') ∧
      ∀ name id, g.symbols.find? name = some id →
        h.augment.namesOf h.augment.first name = g.augment.namesOf g.augment.first name := by
  have hg : g.WellFormed := Grammar.wellFormed_ofText read
  obtain ⟨first, rest, hdefinitions, rfl⟩ := Grammar.exists_definitionsOf read
  have hread : Grammar.ofText (text ++ "\n" ++ more)
      = .ok (Grammar.ofDefinitions first (rest ++ added)) :=
    Grammar.ofText_of_definitionsOf (Grammar.definitionsOf_append hdefinitions lines)
  have hh := Grammar.wellFormed_ofText hread
  obtain ⟨ρ, hextends⟩ := Grammar.exists_extends
    (Grammar.wellFormed_of_mem_definitionsOf hdefinitions)
    (Grammar.wellFormed_of_mem_definitionsOf lines) fresh
  have he := hextends.embeds_augment hg hh
  refine ⟨_, hread, ?_, ?_⟩
  · rcases build_cases_of_embeds hg he with
      ⟨e, hbuilt, hbuilt'⟩ | ⟨t, t', hbuilt, hbuilt', ht⟩
    · obtain ⟨state, symbol, existing, demanded, rfl⟩ := exists_conflict_of_build hbuilt
      exact Or.inl ⟨state, symbol, existing, demanded, hbuilt, hbuilt'⟩
    · exact Or.inr ⟨t, t', hbuilt, hbuilt', ht.agreesWith (isCanonical_build hh hbuilt')⟩
  · intro name id hfind
    obtain ⟨hid, hname, -⟩ := SymbolTable.find?_eq_some_iff.1 hfind
    have haugmented := hg.find?_augment_name hid
    rw [Grammar.name_augment hid, hname] at haugmented
    exact he.namesOf_first haugmented (Nat.ne_of_lt hid)

/-- So it is with a line that uses the name of the added start symbol and lets an old symbol
stand before a new one. The FOLLOW set of the old symbol grows. -/
theorem build_append_of_primed_head :
    ∃ g h t t', Grammar.ofText "S -> a A\nA -> b" = .ok g ∧
      Grammar.ofText ("S -> a A\nA -> b" ++ "\n" ++ "S' -> A c S' | d") = .ok h ∧
      build g = .ok t ∧ build h = .ok t' ∧ t.AgreesWith t' ∧
      h.augment.namesOf h.augment.first "A" = g.augment.namesOf g.augment.first "A" ∧
      g.augment.namesOf g.augment.follow "A" = some ["$"] ∧
      h.augment.namesOf h.augment.follow "A" = some ["$", "c"] := by
  obtain ⟨g, t, read, built, -⟩ :=
    exists_table "S -> a A\nA -> b" (fun _ => true) (by decide +kernel)
  have hsmall : (Grammar.ofText "S -> a A\nA -> b").toOption.any (fun g =>
      g.symbols.find? "A" = some 3 ∧ g.symbols.find? "S'" = none ∧
        g.augment.namesOf g.augment.follow "A" = some ["$"]) = true := by
    decide +kernel
  have hlarge : (Grammar.ofText
      ("S -> a A\nA -> b" ++ "\n" ++ "S' -> A c S' | d")).toOption.any (fun h =>
        h.augment.namesOf h.augment.follow "A" = some ["$", "c"]) = true := by
    decide +kernel
  have lines : Grammar.definitionsOf "S' -> A c S' | d"
      = .ok [⟨"S'", [["A", "c", "S'"], ["d"]]⟩] := by
    decide +kernel
  rw [read] at hsmall
  obtain ⟨hfind, hfresh, hfollow⟩ := of_decide_eq_true hsmall
  have fresh : ∀ d ∈ [(⟨"S'", [["A", "c", "S'"], ["d"]]⟩ : Definition)],
      g.symbols.find? d.head = none := by
    intro d hd
    rw [List.mem_singleton.1 hd]
    exact hfresh
  obtain ⟨h, read', hcases, hfirst⟩ := build_append read lines fresh
  rw [read'] at hlarge
  rcases hcases with ⟨_, _, _, _, hrefused, -⟩ | ⟨t, t', hbuilt, hbuilt', hagrees⟩
  · rw [built] at hrefused
    cases hrefused
  · exact ⟨g, h, t, t', read, read', hbuilt, hbuilt', hagrees, hfirst "A" 3 hfind, hfollow,
      of_decide_eq_true hlarge⟩

end Table

end CanonicalLR
