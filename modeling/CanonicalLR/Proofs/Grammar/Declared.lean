import CanonicalLR.Proofs.Grammar.Augmented
import CanonicalLR.Proofs.Grammar.Extension
import Mathlib.Combinatorics.Pigeonhole

/-!
# What a grammar text declares

The rules of a grammar text, with names in place of numbers, are its productions. Every
symbol of the grammar comes from them: a non-terminal stands on the left of a rule, since
no line is read that has no alternative, and a terminal stands on the right of a rule and
on the left of none. The name of the added start symbol is new, so the symbols of the
augmented grammar can be told apart by their names as well.

## Main definitions

* `Grammar.namedRules` — the rules of a grammar with names in place of numbers.

## Main results

* `namedRules_ofDefinitions` — the rules are the productions.
* `mem_symbols_iff_of_ofText` — the symbols are those of the rules.
* `exists_freshName_eq` — the name of the added start symbol has the fewest primes with which
  it is new.
* `WellFormed.eq_of_name_augment_eq` — no two symbols of the augmented grammar have the
  same name.
* `WellFormed.namedRules_augment` — the named rules of the augmented grammar.
-/

namespace CanonicalLR

open Text

/-! ## Productions -/

/-- The rules with names in place of numbers, in order. -/
def Grammar.namedRules (g : Grammar) : List (String × List String) :=
  g.rules.toList.map fun r => (g.symbols.name r.lhs, r.rhs.map g.symbols.name)

/-- The rules of a grammar are the productions of its definitions. -/
theorem Grammar.namedRules_ofDefinitions (first : Definition) (rest : List Definition) :
    (ofDefinitions first rest).namedRules = productions (first :: rest) := by
  have hname : ∀ name, name ∈ heads (first :: rest) ∨ name ∈ usedNames (first :: rest) →
      (ofDefinitions first rest).symbols.name
        (((symbolTable (first :: rest)).find? name).getD epsilonId) = name :=
    fun name hword => (number_spec hword).2
  apply List.ext_getElem?
  intro i
  unfold namedRules
  rw [List.getElem?_map, Array.getElem?_toList, getElem?_rules_ofDefinitions, Option.map_map]
  cases hproduction : (productions (first :: rest))[i]? with
  | none => rfl
  | some production =>
      obtain ⟨hhead, hnames⟩ := names_of_mem_productions (List.mem_of_getElem? hproduction)
      simp only [Option.map_some, Function.comp_apply, hname _ (Or.inl hhead), List.map_map]
      congr 2
      exact (List.map_congr_left fun name hmem => hname name (Or.inr (hnames name hmem))).trans
        (List.map_id _)

/-- A line that is read has an alternative. -/
theorem Definition.alternatives_ne_nil {number : Nat} {line : List Char} {d : Definition}
    (h : Definition.ofLine number line = .ok d) : d.alternatives ≠ [] := by
  unfold Definition.ofLine at h
  dsimp only at h
  split at h
  · cases h
  next left right _ =>
    split at h
    next head _ =>
      split at h
      · cases h
      · split at h
        · cases h
        · obtain ⟨alternatives, halternatives, hd⟩ := exists_of_bind_eq_ok h
          obtain rfl := Except.ok.inj hd
          have hlength := (forall₂_of_mapM_eq_ok halternatives).length_eq
          intro hnil
          dsimp only at hnil
          rw [hnil, List.length_nil] at hlength
          exact fields_ne_nil _ right (List.length_eq_zero_iff.1 hlength)
    · cases h

/-- What stands on the right of a definition stands on the right of a production. -/
theorem mem_usedNames_iff {definitions : List Definition} {name : String} :
    name ∈ usedNames definitions ↔ ∃ p ∈ productions definitions, name ∈ p.2 := by
  rw [mem_usedNames]
  unfold productions
  constructor
  · rintro ⟨d, hd, alternative, halternative, hname⟩
    exact ⟨(d.head, alternative), List.mem_flatMap.2
      ⟨d, hd, List.mem_map.2 ⟨alternative, halternative, rfl⟩⟩, hname⟩
  · rintro ⟨p, hp, hname⟩
    obtain ⟨d, hd, hp⟩ := List.mem_flatMap.1 hp
    obtain ⟨alternative, halternative, rfl⟩ := List.mem_map.1 hp
    exact ⟨d, hd, alternative, halternative, hname⟩

/-- Where every definition has an alternative, the heads are what stands on the left of the
productions. -/
theorem mem_heads_iff {definitions : List Definition} {name : String}
    (hne : ∀ d ∈ definitions, d.alternatives ≠ []) :
    name ∈ heads definitions ↔ ∃ p ∈ productions definitions, p.1 = name := by
  constructor
  · intro hname
    obtain ⟨d, hd, rfl⟩ := List.mem_map.1 hname
    obtain ⟨alternative, halternative⟩ := List.exists_mem_of_ne_nil _ (hne d hd)
    exact ⟨(d.head, alternative), List.mem_flatMap.2
      ⟨d, hd, List.mem_map.2 ⟨alternative, halternative, rfl⟩⟩, rfl⟩
  · rintro ⟨⟨head, names⟩, hp, rfl⟩
    exact (Grammar.names_of_mem_productions hp).1

/-- **The symbols of a grammar text** are those of its rules. -/
theorem Grammar.mem_symbols_iff_of_ofText {text : String} {g : Grammar}
    (read : ofText text = .ok g) {s : Symbol} :
    s ∈ g.symbols.symbols.toList ↔ s = ⟨epsilonName, .epsilon⟩ ∨ s = ⟨endName, .endMarker⟩ ∨
      ((∃ p ∈ g.namedRules, p.1 = s.name) ∧ s.kind = .nonTerminal) ∨
      ((∃ p ∈ g.namedRules, s.name ∈ p.2) ∧ (¬ ∃ p ∈ g.namedRules, p.1 = s.name) ∧
        s.kind = .terminal) := by
  obtain ⟨first, rest, hread, rfl⟩ := exists_definitionsOf read
  have hne : ∀ d ∈ first :: rest, d.alternatives ≠ [] := by
    intro d hd
    obtain ⟨line, -, hline⟩ := exists_left_of_mem (forall₂_of_mapM_eq_ok hread) hd
    exact Definition.alternatives_ne_nil hline
  have hsymbols : (ofDefinitions first rest).symbols = symbolTable (first :: rest) := rfl
  rw [hsymbols, toList_symbolTable, List.mem_cons, List.mem_cons, mem_declaredSymbols,
    mem_heads_iff hne, mem_usedNames_iff, namedRules_ofDefinitions]

/-! ## The name of the added start symbol -/

theorem primed_injective (base : String) : Function.Injective (primed base) := by
  intro p q h
  have hlength := congrArg (fun name : String => name.toList.length) h
  unfold primed at hlength
  simpa using hlength

/-- One of the names that are tried is new: a table has fewer symbols. -/
theorem exists_unused_primed (t : SymbolTable) (base : String) :
    ∃ primes ∈ List.range' 1 (t.size + 1), t.find? (primed base primes) = none := by
  by_contra hnone
  have hused : ∀ primes ∈ Finset.range (t.size + 1), ∃ id < t.size,
      t.name id = primed base (primes + 1) := by
    intro primes hprimes
    have hmem : primes + 1 ∈ List.range' 1 (t.size + 1) := by
      rw [List.mem_range'_1]
      have hlt := Finset.mem_range.1 hprimes
      omega
    have hsome : t.find? (primed base (primes + 1)) ≠ none := fun h => hnone ⟨_, hmem, h⟩
    obtain ⟨id, hid⟩ := Option.ne_none_iff_exists'.1 hsome
    obtain ⟨hlt, hname, -⟩ := SymbolTable.find?_eq_some_iff.1 hid
    exact ⟨id, hlt, hname⟩
  choose! slot hslot hname using hused
  have hcard : (Finset.range t.size).card < (Finset.range (t.size + 1)).card := by
    rw [Finset.card_range, Finset.card_range]
    exact Nat.lt_succ_self _
  obtain ⟨p, hp, q, hq, hne, hsame⟩ := Finset.exists_ne_map_eq_of_card_lt_of_maps_to hcard
    (f := slot) fun p hp => Finset.mem_range.2 (hslot p hp)
  have heq := (hname p hp).symm.trans ((congrArg t.name hsame).trans (hname q hq))
  exact hne (Nat.succ.inj (primed_injective base heq))

/-- **The fresh name** has the fewest primes with which a name is new. -/
theorem exists_freshName_eq (t : SymbolTable) (base : String) :
    ∃ primes, 1 ≤ primes ∧ freshName t base = primed base primes ∧
      t.find? (primed base primes) = none ∧
      ∀ fewer, 1 ≤ fewer → fewer < primes → t.find? (primed base fewer) ≠ none := by
  obtain ⟨unused, hmem, hunused⟩ := exists_unused_primed t base
  have hfound : ((List.range' 1 (t.size + 1)).find? fun primes =>
      (t.find? (primed base primes)).isNone).isSome = true :=
    List.find?_isSome.2 ⟨unused, hmem, Option.isNone_iff_eq_none.2 hunused⟩
  obtain ⟨primes, hprimes⟩ := Option.isSome_iff_exists.1 hfound
  obtain ⟨hnew, htried, hleast⟩ := List.find?_range'_eq_some.1 hprimes
  refine ⟨primes, (List.mem_range'_1.1 htried).1, ?_, Option.isNone_iff_eq_none.1 hnew, ?_⟩
  · unfold freshName
    exact congrArg (fun found : Option Nat => primed base (found.getD 0)) hprimes
  · intro fewer hone hlt hnone
    have hused := hleast fewer hone hlt
    rw [hnone] at hused
    cases hused

theorem find?_freshName (t : SymbolTable) (base : String) :
    t.find? (freshName t base) = none := by
  obtain ⟨primes, -, hname, hnew, -⟩ := exists_freshName_eq t base
  rw [hname]
  exact hnew

/-- Tables with the same symbols have the same fresh names. -/
theorem freshName_eq_of_perm {t t' : SymbolTable}
    (h : t.symbols.toList.Perm t'.symbols.toList) (base : String) :
    freshName t base = freshName t' base := by
  have hsize : t.size = t'.size := by
    simpa [SymbolTable.size] using h.length_eq
  have hfind : ∀ name, (t.find? name).isNone = (t'.find? name).isNone := by
    intro name
    rw [Bool.eq_iff_iff, Option.isNone_iff_eq_none, Option.isNone_iff_eq_none,
      SymbolTable.find?_eq_none_iff, SymbolTable.find?_eq_none_iff]
    simp only [← Array.mem_toList_iff, h.mem_iff]
  unfold freshName
  simp only [hsize, hfind]

namespace Grammar

variable {g : Grammar} {i j : Nat}

theorem toList_symbols_augment (g : Grammar) :
    g.augment.symbols.symbols.toList
      = g.symbols.symbols.toList ++ [⟨freshName g.symbols (g.symbols.name g.start), .start⟩] :=
  Array.toList_push

theorem name_start_augment (g : Grammar) :
    g.augment.symbols.name g.augment.start = freshName g.symbols (g.symbols.name g.start) := by
  simp [augment, SymbolTable.push, SymbolTable.name, SymbolTable.size]

/-- The added start symbol has a new name. -/
theorem name_augment_ne (hi : i < g.symbols.size) :
    g.augment.symbols.name i ≠ g.augment.symbols.name g.augment.start := by
  have hi' : i < g.symbols.symbols.size := hi
  have hnew := SymbolTable.find?_eq_none_iff.1
    (find?_freshName g.symbols (g.symbols.name g.start)) _ (Array.getElem_mem hi')
  rw [name_augment hi, name_start_augment]
  unfold SymbolTable.name
  rw [Array.getElem?_eq_getElem hi']
  exact hnew

/-- **No two symbols** of the augmented grammar have the same name. -/
theorem WellFormed.eq_of_name_augment_eq (hg : g.WellFormed)
    (hi : i < g.augment.symbols.size) (hj : j < g.augment.symbols.size)
    (h : g.augment.symbols.name i = g.augment.symbols.name j) : i = j := by
  have hcases : ∀ {k : Nat}, k < g.augment.symbols.size →
      k < g.symbols.size ∨ k = g.augment.start := by
    intro k hk
    rw [size_symbols_augment] at hk
    exact Nat.lt_succ_iff_lt_or_eq.1 hk
  rcases hcases hi with hi | rfl
  · rcases hcases hj with hj | rfl
    · rw [name_augment hi, name_augment hj] at h
      exact hg.eq_of_name_eq hi hj h
    · exact absurd h (name_augment_ne hi)
  · rcases hcases hj with hj | rfl
    · exact absurd h.symm (name_augment_ne hj)
    · rfl

/-- A name of the augmented grammar leads to its symbol, that of the added start symbol as
well. -/
theorem WellFormed.find?_name_augment (hg : g.WellFormed) (hi : i < g.augment.symbols.size) :
    g.augment.symbols.find? (g.augment.symbols.name i) = some i := by
  refine SymbolTable.find?_eq_some_iff.2 ⟨hi, rfl, fun j hj hsame => ?_⟩
  exact Nat.ne_of_lt hj (hg.eq_of_name_augment_eq (hj.trans hi) hi hsame)

/-- The named rules of the augmented grammar are the start rule and the declared ones. -/
theorem WellFormed.namedRules_augment (hg : g.WellFormed) :
    g.augment.namedRules
      = (g.augment.symbols.name g.augment.start, [g.symbols.name g.start]) :: g.namedRules := by
  have hdeclared : ∀ r ∈ g.rules.toList,
      (g.augment.symbols.name r.lhs, r.rhs.map g.augment.symbols.name)
        = (g.symbols.name r.lhs, r.rhs.map g.symbols.name) := by
    intro r hr
    have hr := Array.mem_toList_iff.1 hr
    have hrhs : r.rhs.map g.augment.symbols.name = r.rhs.map g.symbols.name :=
      List.map_congr_left fun symbol hmem => name_augment <|
        (hg.rhs_kind r hr symbol hmem).elim lt_size_of_kind? lt_size_of_kind?
    rw [name_augment (lt_size_of_kind? (hg.lhs_kind r hr)), hrhs]
  have hrules : g.augment.rules.toList
      = ⟨0, g.augment.start, [g.start]⟩
        :: g.rules.toList.map fun r => ⟨r.id + 1, r.lhs, r.rhs⟩ := by
    simp [augment]
  unfold namedRules
  rw [hrules, List.map_cons, List.map_map, List.map_singleton,
    name_augment (lt_size_of_kind? hg.start_kind)]
  congr 1
  exact List.map_congr_left hdeclared

end Grammar

end CanonicalLR
