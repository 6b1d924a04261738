import CanonicalLR.Grammar.Source
import CanonicalLR.Proofs.Traversal
import Mathlib.Data.List.Nodup

/-!
# Well-formed grammars

Everything that is proved about tables starts from a few facts about the
grammar: which slots of the symbol table have which kind, that rules carry
their own place as their number, and that both sides of a rule stay within the
table. A grammar that was read from a text satisfies them, and augmentation
turns them into the corresponding facts about the augmented grammar
(`CanonicalLR.Proofs.Grammar.Augmented`).

## Main definitions

* `IsWordText` — a name that can be written as one word.
* `Definition.WellFormed` — the words of a definition can be declared.
* `Grammar.WellFormed` — the facts about a declared grammar.

## Main results

* `wellFormed_ofText` — a grammar that was read from a text is well formed.
* `WellFormed.eq_of_name_eq` — no two symbols have the same name.
* `WellFormed.kind_cases` — the kinds of the slots.
-/

namespace CanonicalLR

open Text

/-! ## Definitions -/

/-- The name has characters, and none of them is blank. -/
def IsWordText (name : String) : Prop :=
  name.toList ≠ [] ∧ ∀ c ∈ name.toList, isBlank c = false

/-- The name is a word that is not reserved. -/
structure IsDeclarable (name : String) : Prop where
  word : IsWordText name
  free : isReserved name = false

/-- The head and all words of a definition can be declared. -/
structure Definition.WellFormed (d : Definition) : Prop where
  head : IsDeclarable d.head
  alternatives : ∀ alternative ∈ d.alternatives, ∀ name ∈ alternative, IsDeclarable name

theorem isWordText_of_mem_words {cs : List Char} {name : String}
    (h : name ∈ (words cs).map String.ofList) : IsWordText name := by
  obtain ⟨word, hword, rfl⟩ := List.mem_map.1 h
  have hne := word_ne_nil hword
  have hblank := not_isBlank_of_mem_words hword
  simpa [IsWordText] using ⟨hne, hblank⟩

/-- A single character that is not blank is a word. -/
theorem isWordText_of_toList_eq {name : String} {c : Char} (h : name.toList = [c])
    (hc : isBlank c = false) : IsWordText name := by
  refine ⟨by rw [h]; exact List.cons_ne_nil c [], fun d hd => ?_⟩
  rw [h, List.mem_singleton] at hd
  rw [hd]
  exact hc

theorem isReserved_eq_false_iff {name : String} :
    isReserved name = false ↔ name ≠ epsilonName ∧ name ≠ endName := by
  simp [isReserved]

/-- What is read of an alternative can be declared. -/
theorem isDeclarable_of_readAlternative {malformed : Error} {cs : List Char}
    {alternative : List String} (h : readAlternative malformed cs = .ok alternative)
    {name : String} (hname : name ∈ alternative) : IsDeclarable name := by
  unfold readAlternative at h
  dsimp only at h
  split at h
  · cases h
  · split at h
    · cases h
    next hend =>
      cases h
      obtain ⟨hmem, hepsilon⟩ := List.mem_filter.1 hname
      have hne : name ≠ endName := fun e => hend (e ▸ hmem)
      exact ⟨isWordText_of_mem_words hmem,
        isReserved_eq_false_iff.2 ⟨by simpa using hepsilon, hne⟩⟩

/-- A line that is read gives a well-formed definition. -/
theorem Definition.wellFormed_ofLine {number : Nat} {line : List Char} {d : Definition}
    (h : Definition.ofLine number line = .ok d) : d.WellFormed := by
  unfold Definition.ofLine at h
  dsimp only at h
  split at h
  · cases h
  next left right _ =>
    split at h
    next head hhead =>
      split at h
      · cases h
      · split at h
        · cases h
        next hfree =>
          cases hm : (fields (· == alternativeMark) right).mapM
              (readAlternative (.malformedRule number (String.ofList line))) with
          | error e => simp [hm, bind, Except.bind] at h
          | ok alternatives =>
              have hd : d = ⟨head, alternatives⟩ := by
                simpa [hm, bind, Except.bind, pure, Except.pure, eq_comm] using h
              subst hd
              have hmem : head ∈ (words left).map String.ofList := by
                rw [hhead]
                exact List.mem_singleton_self head
              have hword := isWordText_of_mem_words hmem
              refine ⟨⟨hword, by simpa using hfree⟩, ?_⟩
              intro alternative halt name hname
              obtain ⟨cs, _, hcs⟩ := exists_left_of_mem (forall₂_of_mapM_eq_ok hm) halt
              exact isDeclarable_of_readAlternative hcs hname
    · cases h

/-! ## The symbol table -/

/-- The names that some definition has on its left. -/
def heads (definitions : List Definition) : List String := definitions.map (·.head)

/-- The names that some definition has on its right. -/
def usedNames (definitions : List Definition) : List String :=
  definitions.flatMap fun d => d.alternatives.flatten

theorem mem_usedNames {definitions : List Definition} {name : String} :
    name ∈ usedNames definitions ↔
      ∃ d ∈ definitions, ∃ alternative ∈ d.alternatives, name ∈ alternative := by
  simp [usedNames]

/-- The symbols behind the two fixed slots. -/
def declaredSymbols (definitions : List Definition) : List Symbol :=
  (heads definitions).eraseDups.map (⟨·, .nonTerminal⟩)
    ++ ((usedNames definitions).eraseDups.filter (· ∉ (heads definitions).eraseDups)).map
      (⟨·, .terminal⟩)

theorem toList_symbolTable (definitions : List Definition) :
    (symbolTable definitions).symbols.toList =
      ⟨epsilonName, .epsilon⟩ :: ⟨endName, .endMarker⟩ :: declaredSymbols definitions := rfl

theorem mem_declaredSymbols {definitions : List Definition} {s : Symbol} :
    s ∈ declaredSymbols definitions ↔
      (s.name ∈ heads definitions ∧ s.kind = .nonTerminal) ∨
        (s.name ∈ usedNames definitions ∧ s.name ∉ heads definitions ∧
          s.kind = .terminal) := by
  obtain ⟨name, kind⟩ := s
  simp only [declaredSymbols, List.mem_append, List.mem_map, List.mem_filter,
    List.mem_eraseDups, decide_eq_true_eq, Symbol.mk.injEq]
  constructor
  · intro h
    rcases h with ⟨n, hn, rfl, rfl⟩ | ⟨n, ⟨hn, hfree⟩, rfl, rfl⟩
    · exact Or.inl ⟨hn, rfl⟩
    · exact Or.inr ⟨hn, hfree, rfl⟩
  · intro h
    rcases h with ⟨hn, rfl⟩ | ⟨hn, hfree, rfl⟩
    · exact Or.inl ⟨name, hn, rfl, rfl⟩
    · exact Or.inr ⟨name, ⟨hn, hfree⟩, rfl, rfl⟩

/-- Dropping repetitions leaves none. -/
theorem nodup_eraseDups {α : Type} [BEq α] [LawfulBEq α] (l : List α) :
    l.eraseDups.Nodup := by
  match l with
  | [] => simp
  | a :: rest =>
      rw [List.eraseDups_cons, List.nodup_cons]
      refine ⟨?_, nodup_eraseDups _⟩
      intro ha
      have hfilter := (List.mem_filter.1 (List.mem_eraseDups.1 ha)).2
      simp at hfilter
termination_by l.length
decreasing_by exact Nat.lt_succ_of_le (List.length_filter_le _ _)

section SymbolTable

variable {definitions : List Definition}
  (hd : ∀ d ∈ definitions, d.WellFormed)

include hd

theorem isDeclarable_of_mem_declaredSymbols {s : Symbol}
    (h : s ∈ declaredSymbols definitions) : IsDeclarable s.name := by
  rcases mem_declaredSymbols.1 h with ⟨hhead, _⟩ | ⟨hused, _, _⟩
  · obtain ⟨d, hmem, hname⟩ := List.mem_map.1 hhead
    exact hname ▸ (hd d hmem).head
  · obtain ⟨d, hmem, alternative, halt, hname⟩ := mem_usedNames.1 hused
    exact (hd d hmem).alternatives alternative halt s.name hname

/-- No two slots have the same name. -/
theorem nodup_names_symbolTable :
    ((symbolTable definitions).symbols.toList.map (·.name)).Nodup := by
  have hfree : ∀ name ∈ (declaredSymbols definitions).map (·.name),
      name ≠ epsilonName ∧ name ≠ endName := by
    intro name hname
    obtain ⟨s, hs, rfl⟩ := List.mem_map.1 hname
    exact isReserved_eq_false_iff.1 (isDeclarable_of_mem_declaredSymbols hd hs).free
  have hdeclared : ((declaredSymbols definitions).map (·.name)).Nodup := by
    simp only [declaredSymbols, List.map_append, List.map_map, Function.comp_def,
      List.map_id']
    refine List.nodup_append.2 ⟨nodup_eraseDups _, (nodup_eraseDups _).filter _, ?_⟩
    intro a ha b hb hab
    have hb' := (List.mem_filter.1 hb).2
    exact absurd (hab ▸ ha) (by simpa using hb')
  rw [toList_symbolTable]
  simp only [List.map_cons, List.nodup_cons, List.mem_cons, not_or]
  refine ⟨⟨by decide, fun h => (hfree _ h).1 rfl⟩, fun h => (hfree _ h).2 rfl, hdeclared⟩

/-- The number of a word of the definitions leads to the symbol of that name. -/
theorem exists_symbol_of_number {name : String}
    (h : name ∈ heads definitions ∨ name ∈ usedNames definitions) :
    ∃ s ∈ declaredSymbols definitions, s.name = name ∧
      (symbolTable definitions).kind?
        (((symbolTable definitions).find? name).getD epsilonId) = some s.kind := by
  have hword : (∃ d ∈ definitions, d.head = name) ∨
      ∃ d ∈ definitions, ∃ alternative ∈ d.alternatives, name ∈ alternative := by
    simpa [heads, mem_usedNames] using h
  have hfree : name ≠ epsilonName ∧ name ≠ endName := by
    refine isReserved_eq_false_iff.1 ?_
    rcases hword with ⟨d, hmem, rfl⟩ | ⟨d, hmem, alternative, halt, hin⟩
    · exact (hd d hmem).head.free
    · exact ((hd d hmem).alternatives alternative halt name hin).free
  obtain ⟨id, hid⟩ := Option.isSome_iff_exists.1 (find?_symbolTable hword)
  obtain ⟨hlt, hname, -⟩ := SymbolTable.find?_eq_some_iff.1 hid
  let s := (symbolTable definitions).symbols[id]
  have hs : s ∈ (symbolTable definitions).symbols.toList :=
    Array.mem_toList_iff.2 (Array.getElem_mem hlt)
  have hsname : s.name = name := by
    simpa [SymbolTable.name, Array.getElem?_eq_getElem hlt] using hname
  refine ⟨s, ?_, hsname, by simp [hid, SymbolTable.kind?, Array.getElem?_eq_getElem hlt, s]⟩
  rw [toList_symbolTable] at hs
  rcases List.mem_cons.1 hs with he | hs
  · exact absurd (hsname.symm.trans (congrArg Symbol.name he)) hfree.1
  rcases List.mem_cons.1 hs with he | hs
  · exact absurd (hsname.symm.trans (congrArg Symbol.name he)) hfree.2
  · exact hs

/-- A head is numbered as a non-terminal. -/
theorem kind?_number_head {name : String} (h : name ∈ heads definitions) :
    (symbolTable definitions).kind?
      (((symbolTable definitions).find? name).getD epsilonId) = some .nonTerminal := by
  obtain ⟨s, hs, hname, hkind⟩ := exists_symbol_of_number hd (Or.inl h)
  rcases mem_declaredSymbols.1 hs with ⟨_, hk⟩ | ⟨_, hno, _⟩
  · rw [hkind, hk]
  · exact absurd (hname ▸ h) hno

/-- A word of an alternative is numbered as a terminal or a non-terminal. -/
theorem kind?_number_used {name : String} (h : name ∈ usedNames definitions) :
    (symbolTable definitions).kind?
        (((symbolTable definitions).find? name).getD epsilonId) = some .terminal ∨
      (symbolTable definitions).kind?
        (((symbolTable definitions).find? name).getD epsilonId) = some .nonTerminal := by
  obtain ⟨s, hs, _, hkind⟩ := exists_symbol_of_number hd (Or.inr h)
  rcases mem_declaredSymbols.1 hs with ⟨_, hk⟩ | ⟨_, _, hk⟩
  · exact Or.inr (hk ▸ hkind)
  · exact Or.inl (hk ▸ hkind)

end SymbolTable

/-! ## Declared grammars -/

namespace Grammar

/-- The facts about a declared grammar on which its table rests. -/
structure WellFormed (g : Grammar) : Prop where
  epsilon_slot : g.symbols.symbols[epsilonId]? = some ⟨epsilonName, .epsilon⟩
  end_slot : g.symbols.symbols[endId]? = some ⟨endName, .endMarker⟩
  declared_kind : ∀ {id : Nat} {kind : SymbolKind}, endId < id →
    g.symbols.kind? id = some kind → kind = .terminal ∨ kind = .nonTerminal
  names_nodup : (g.symbols.symbols.toList.map (·.name)).Nodup
  name_word : ∀ s ∈ g.symbols.symbols, IsWordText s.name
  rule_id : ∀ {i : Nat} {r : Rule}, g.rules[i]? = some r → r.id = i
  lhs_kind : ∀ r ∈ g.rules, g.symbols.kind? r.lhs = some .nonTerminal
  rhs_kind : ∀ r ∈ g.rules, ∀ symbol ∈ r.rhs,
    g.symbols.kind? symbol = some .terminal ∨ g.symbols.kind? symbol = some .nonTerminal
  start_kind : g.symbols.kind? g.start = some .nonTerminal

/-- A rule of a grammar of definitions comes from the production at its place. -/
theorem exists_production_of_rule {first : Definition} {rest : List Definition} {i : Nat}
    {r : Rule} (h : (ofDefinitions first rest).rules[i]? = some r) :
    ∃ head names, (productions (first :: rest))[i]? = some (head, names) ∧
      r = ⟨i, ((symbolTable (first :: rest)).find? head).getD epsilonId,
        names.map fun name => ((symbolTable (first :: rest)).find? name).getD epsilonId⟩ := by
  simp only [ofDefinitions, List.getElem?_toArray, List.getElem?_map,
    List.getElem?_zipIdx] at h
  cases hp : (productions (first :: rest))[i]? with
  | none => simp [hp] at h
  | some production =>
      exact ⟨production.1, production.2, rfl, by simpa [hp, eq_comm] using h⟩

/-- The words of a production are words of the definitions. -/
theorem names_of_mem_productions {definitions : List Definition} {head : String}
    {names : List String} (h : (head, names) ∈ productions definitions) :
    head ∈ heads definitions ∧ ∀ name ∈ names, name ∈ usedNames definitions := by
  obtain ⟨d, hmem, hin⟩ := List.mem_flatMap.1 h
  obtain ⟨alternative, halt, he⟩ := List.mem_map.1 hin
  cases he
  refine ⟨List.mem_map.2 ⟨d, hmem, rfl⟩, fun name hname => ?_⟩
  exact mem_usedNames.2 ⟨d, hmem, names, halt, hname⟩

/-- A grammar of well-formed definitions is well formed. -/
theorem wellFormed_ofDefinitions {first : Definition} {rest : List Definition}
    (hd : ∀ d ∈ first :: rest, d.WellFormed) : (ofDefinitions first rest).WellFormed := by
  refine
    { epsilon_slot := rfl
      end_slot := rfl
      declared_kind := ?_
      names_nodup := nodup_names_symbolTable hd
      name_word := ?_
      rule_id := ?_
      lhs_kind := ?_
      rhs_kind := ?_
      start_kind := kind?_number_head hd (List.mem_map.2 ⟨first, List.mem_cons_self, rfl⟩) }
  · intro id kind hid hkind
    obtain ⟨n, rfl⟩ : ∃ n, id = n + 2 := ⟨id - 2, by unfold endId at hid; omega⟩
    obtain ⟨s, hs, rfl⟩ := Option.map_eq_some_iff.1 hkind
    have hs' : (declaredSymbols (first :: rest))[n]? = some s := by
      rw [← Array.getElem?_toList] at hs
      exact hs
    rcases mem_declaredSymbols.1 (List.mem_of_getElem? hs') with ⟨_, hk⟩ | ⟨_, _, hk⟩
    · exact Or.inr hk
    · exact Or.inl hk
  · intro s hs
    have hs' : s ∈ (symbolTable (first :: rest)).symbols.toList := Array.mem_toList_iff.2 hs
    rw [toList_symbolTable] at hs'
    rcases List.mem_cons.1 hs' with rfl | hs'
    · exact isWordText_of_toList_eq (c := 'ε') rfl (by decide)
    rcases List.mem_cons.1 hs' with rfl | hs'
    · exact isWordText_of_toList_eq (c := '$') rfl (by decide)
    · exact (isDeclarable_of_mem_declaredSymbols hd hs').word
  · intro i r hr
    obtain ⟨head, names, -, rfl⟩ := exists_production_of_rule hr
    rfl
  · intro r hr
    obtain ⟨i, hi⟩ := Array.getElem?_of_mem hr
    obtain ⟨head, names, hp, rfl⟩ := exists_production_of_rule hi
    exact kind?_number_head hd (names_of_mem_productions (List.mem_of_getElem? hp)).1
  · intro r hr symbol hsymbol
    obtain ⟨i, hi⟩ := Array.getElem?_of_mem hr
    obtain ⟨head, names, hp, rfl⟩ := exists_production_of_rule hi
    obtain ⟨name, hname, rfl⟩ := List.mem_map.1 hsymbol
    have hused := (names_of_mem_productions (List.mem_of_getElem? hp)).2 name hname
    exact kind?_number_used hd hused

/-- **Reading**: a grammar that was read from a text is well formed. -/
theorem wellFormed_ofText {text : String} {g : Grammar} (h : ofText text = .ok g) :
    g.WellFormed := by
  unfold ofText at h
  cases hm : (significantLines text).mapM fun line => Definition.ofLine line.1 line.2 with
  | error e => simp [hm, bind, Except.bind] at h
  | ok definitions =>
      have hd : ∀ d ∈ definitions, d.WellFormed := by
        intro d hmem
        obtain ⟨line, -, hline⟩ := exists_left_of_mem (forall₂_of_mapM_eq_ok hm) hmem
        exact Definition.wellFormed_ofLine hline
      cases definitions with
      | nil => simp [hm, bind, Except.bind] at h
      | cons first rest =>
          have hg : g = ofDefinitions first rest := by
            simpa [hm, bind, Except.bind, pure, Except.pure, eq_comm] using h
          exact hg ▸ wellFormed_ofDefinitions hd

/-- The kind of a slot lies within the table. -/
theorem lt_size_of_kind? {t : SymbolTable} {id : Nat} {kind : SymbolKind}
    (h : t.kind? id = some kind) : id < t.size := by
  apply Nat.lt_of_not_le
  intro hle
  rw [SymbolTable.kind?_eq_none_iff.2 hle] at h
  cases h

namespace WellFormed

variable {g : Grammar} (hg : g.WellFormed)

include hg

theorem kind?_epsilonId : g.symbols.kind? epsilonId = some .epsilon := by
  unfold SymbolTable.kind?
  rw [hg.epsilon_slot]
  rfl

theorem kind?_endId : g.symbols.kind? endId = some .endMarker := by
  unfold SymbolTable.kind?
  rw [hg.end_slot]
  rfl

theorem name_endId : g.symbols.name endId = endName := by
  unfold SymbolTable.name
  rw [hg.end_slot]
  rfl

/-- The name of a symbol can be written as one word. -/
theorem isWordText_name {id : Nat} {kind : SymbolKind} (h : g.symbols.kind? id = some kind) :
    IsWordText (g.symbols.name id) := by
  have hlt : id < g.symbols.symbols.size := lt_size_of_kind? h
  have hname : g.symbols.name id = g.symbols.symbols[id].name := by
    unfold SymbolTable.name
    rw [Array.getElem?_eq_getElem hlt]
    rfl
  rw [hname]
  exact hg.name_word _ (Array.getElem_mem hlt)

/-- A number at which a symbol is declared is the only one of that name. -/
theorem eq_of_name_eq {i j : Nat} (hi : i < g.symbols.size)
    (hj : j < g.symbols.size) (h : g.symbols.name i = g.symbols.name j) : i = j := by
  have hi' : i < (g.symbols.symbols.toList.map (·.name)).length := by
    simpa [SymbolTable.size] using hi
  apply (List.getElem?_inj hi' hg.names_nodup).1
  have hi : i < g.symbols.symbols.size := hi
  have hj : j < g.symbols.symbols.size := hj
  simpa [SymbolTable.name, hi, hj] using h

/-- The kinds of a declared grammar: two fixed slots, then what is declared. -/
theorem kind_cases {id : Nat} {kind : SymbolKind}
    (h : g.symbols.kind? id = some kind) :
    (id = epsilonId ∧ kind = .epsilon) ∨ (id = endId ∧ kind = .endMarker) ∨
      kind = .terminal ∨ kind = .nonTerminal := by
  rcases Nat.lt_trichotomy id endId with hlt | rfl | hgt
  · have hid : id = epsilonId := by unfold endId at hlt; unfold epsilonId; omega
    rw [hid, hg.kind?_epsilonId] at h
    exact Or.inl ⟨hid, (Option.some.inj h).symm⟩
  · rw [hg.kind?_endId] at h
    exact Or.inr (Or.inl ⟨rfl, (Option.some.inj h).symm⟩)
  · exact Or.inr (Or.inr (hg.declared_kind hgt h))

end WellFormed

end Grammar

end CanonicalLR
