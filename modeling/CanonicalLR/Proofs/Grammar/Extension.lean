import CanonicalLR.Proofs.Embedding.Grammar
import CanonicalLR.Proofs.Grammar.Lines

/-!
# Rules that are added to a grammar

Lines behind a grammar text that define new names only add to the grammar. New
non-terminals are numbered between the old non-terminals and the old terminals, new
terminals behind the old ones; so two blocks are put into the table of symbols, and the
old symbols keep their order. The old rules keep their numbers, and the new rules are
rules of new symbols. The augmented grammar is then part of the new one.

## Main definitions

* `spread` — the numbers behind a block that is put into a list.
* `SymbolTable.Spreads` — the symbols of a table stand in order in another one.
* `Grammar.Extends` — a declared grammar is part of another one.

## Main results

* `getElem?_spread` — spread numbers lead past the block.
* `Extends.embeds_augment` — augmentation keeps the parts of a grammar.
* `exists_blocks` — new definitions put two blocks into the table of symbols.
* `exists_extends` — new definitions extend the grammar.
-/

namespace CanonicalLR

/-! ## Blocks -/

/-- Numbers from `front` on make room for `count` others. -/
def spread (front count id : Nat) : Nat := if id < front then id else id + count

theorem strictMono_spread (front count : Nat) : StrictMono (spread front count) := by
  intro a b hlt
  unfold spread
  by_cases hb : b < front
  · rw [if_pos hb, if_pos (hlt.trans hb)]
    exact hlt
  · rw [if_neg hb]
    split
    · omega
    · omega

/-- **Spread numbers** lead past a block that is put into a list. -/
theorem getElem?_spread {α : Type} (xs ys zs : List α) (id : Nat) :
    (xs ++ ys ++ zs)[spread xs.length ys.length id]? = (xs ++ zs)[id]? := by
  unfold spread
  by_cases hid : id < xs.length
  · rw [if_pos hid, List.append_assoc, List.getElem?_append_left hid,
      List.getElem?_append_left hid]
  · have hle : xs.length ≤ id := Nat.le_of_not_lt hid
    have hle' : (xs ++ ys).length ≤ id + ys.length := by
      rw [List.length_append]
      omega
    have hindex : id + ys.length - (xs ++ ys).length = id - xs.length := by
      rw [List.length_append]
      omega
    rw [if_neg hid, List.getElem?_append_right hle', List.getElem?_append_right hle, hindex]

theorem spread_length {α : Type} (xs ys zs : List α) :
    spread xs.length ys.length (xs ++ zs).length = (xs ++ ys ++ zs).length := by
  unfold spread
  simp only [List.length_append]
  rw [if_neg (by omega)]
  omega

/-- `Spreads ρ t t'`: the symbols of `t` stand in the same order in `t'`, where `ρ` leads. -/
structure SymbolTable.Spreads (ρ : Nat → Nat) (t t' : SymbolTable) : Prop where
  strictMono : StrictMono ρ
  slot_eq : ∀ id : Nat, t'.symbols[ρ id]? = t.symbols[id]?
  /-- The next free slot leads to the next free slot. -/
  size_eq : ρ t.size = t'.size

namespace SymbolTable.Spreads

variable {ρ : Nat → Nat} {t t' : SymbolTable} {id : Nat} (hs : Spreads ρ t t')

include hs

theorem lt_size (hid : id < t.size) : ρ id < t'.size := by
  rw [← hs.size_eq]
  exact hs.strictMono hid

theorem name_eq : t'.name (ρ id) = t.name id := by
  unfold name
  rw [hs.slot_eq]

theorem kind?_eq : t'.kind? (ρ id) = t.kind? id := by
  unfold kind?
  rw [hs.slot_eq]

end SymbolTable.Spreads

namespace Grammar

/-! ## Extended grammars -/

/-- `Extends ρ g h`: the declared grammar `g` is the part of the declared grammar `h` to
which `ρ` leads. -/
structure Extends (ρ : Nat → Nat) (g h : Grammar) : Prop
    extends SymbolTable.Spreads ρ g.symbols h.symbols where
  start_eq : ρ g.start = h.start
  getElem?_rules : ∀ {i : Nat} {r : Rule}, g.rules[i]? = some r →
    h.rules[i]? = some (r.rename ρ)
  /-- The symbols have no other rules. -/
  exists_rule : ∀ {id : Nat}, id < g.symbols.size → ∀ r ∈ h.rules, r.lhs = ρ id →
    ∃ q ∈ g.rules, r = q.rename ρ

namespace Extends

variable {ρ : Nat → Nat} {g h : Grammar} {id : Nat} (hx : Extends ρ g h)

include hx

theorem start_augment_eq : ρ g.augment.start = h.augment.start := hx.size_eq

theorem getElem?_rules_augment_rename {r : Rule} (hr : g.augment.rules[id]? = some r) :
    h.augment.rules[id]? = some (r.rename ρ) := by
  rw [getElem?_rules_augment] at hr ⊢
  cases id with
  | zero =>
      obtain rfl := Option.some.inj hr
      unfold Rule.rename
      rw [hx.start_augment_eq, List.map_singleton, hx.start_eq]
  | succ i =>
      obtain ⟨q, hq, rfl⟩ := Option.map_eq_some_iff.1 hr
      dsimp only
      rw [hx.getElem?_rules hq]
      rfl

omit hx in
/-- A symbol of the augmented grammar is declared, the added start symbol apart. -/
theorem lt_size_of_ne_start (hid : id < g.augment.symbols.size) (hne : id ≠ g.augment.start) :
    id < g.symbols.size := by
  have hsize := size_symbols_augment g
  have hne : id ≠ g.symbols.size := hne
  omega

theorem name_augment_eq (hid : id < g.symbols.size) :
    h.augment.symbols.name (ρ id) = g.augment.symbols.name id := by
  rw [name_augment hid, name_augment (hx.lt_size hid), hx.name_eq]

theorem kind?_augment_eq (hid : id < g.augment.symbols.size) :
    h.augment.symbols.kind? (ρ id) = g.augment.symbols.kind? id := by
  by_cases hne : id = g.augment.start
  · rw [hne, hx.start_augment_eq, kind?_augment_start, kind?_augment_start]
  · have hid := lt_size_of_ne_start hid hne
    rw [kind?_augment hid, kind?_augment (hx.lt_size hid), hx.kind?_eq]

/-- The name of a declared symbol leads to it in both grammars. -/
theorem find?_augment_iff (hg : g.WellFormed) (hh : h.WellFormed) {name : String}
    (hid : id < g.symbols.size) :
    h.augment.symbols.find? name = some (ρ id) ↔ g.augment.symbols.find? name = some id := by
  constructor
  · intro hfind
    obtain ⟨-, hsame, -⟩ := SymbolTable.find?_eq_some_iff.1 hfind
    rw [← hsame, hx.name_augment_eq hid]
    exact hg.find?_augment_name hid
  · intro hfind
    obtain ⟨-, hsame, -⟩ := SymbolTable.find?_eq_some_iff.1 hfind
    rw [← hsame, ← hx.name_augment_eq hid]
    exact hh.find?_augment_name (hx.lt_size hid)

/-- The symbols have no other rules after augmentation. -/
theorem exists_rule_augment (hh : h.WellFormed) {r : Rule}
    (hid : id < g.augment.symbols.size) (hr : r ∈ h.augment.rules) (hlhs : r.lhs = ρ id) :
    ∃ q ∈ g.augment.rules, r = q.rename ρ := by
  obtain ⟨k, hk⟩ := Array.getElem?_of_mem hr
  cases k with
  | zero =>
      have hzero : g.augment.rules[0]? = some ⟨0, g.augment.start, [g.start]⟩ :=
        getElem?_rules_augment 0
      rw [hx.getElem?_rules_augment_rename hzero] at hk
      exact ⟨_, Array.mem_of_getElem? hzero, (Option.some.inj hk).symm⟩
  | succ i =>
      rw [getElem?_rules_augment] at hk
      obtain ⟨r, hi, rfl⟩ := Option.map_eq_some_iff.1 hk
      have hmem := Array.mem_of_getElem? hi
      have hne : id ≠ g.augment.start := by
        rintro rfl
        have hlt := lt_size_of_kind? (hh.lhs_kind r hmem)
        have heq : r.lhs = h.symbols.size := hlhs.trans hx.size_eq
        omega
      obtain ⟨q, hq, rfl⟩ := hx.exists_rule (lt_size_of_ne_start hid hne) r hmem hlhs
      obtain ⟨j, hj⟩ := Array.getElem?_of_mem hq
      have hsucc : g.augment.rules[j + 1]? = some ⟨q.id + 1, q.lhs, q.rhs⟩ := by
        rw [getElem?_rules_augment]
        dsimp only
        rw [hj]
        rfl
      exact ⟨_, Array.mem_of_getElem? hsucc, rfl⟩

/-- **Augmentation** keeps the parts of a grammar. -/
theorem embeds_augment (hg : g.WellFormed) (hh : h.WellFormed) :
    Embeds ρ g.augment h.augment where
  isAugmented := hg.isAugmented
  isAugmented' := hh.isAugmented
  strictMono := hx.strictMono
  kind?_eq := hx.kind?_augment_eq
  name_eq := fun hid hne => hx.name_augment_eq (lt_size_of_ne_start hid hne)
  find?_iff := fun hid hne => hx.find?_augment_iff hg hh (lt_size_of_ne_start hid hne)
  getElem?_rules := hx.getElem?_rules_augment_rename
  exists_rule := fun hid _ hr hlhs => hx.exists_rule_augment hh hid hr hlhs

end Extends

end Grammar

/-! ## New definitions -/

section Definitions

variable {definitions added : List Definition}

/-- The definitions define names that the others neither define nor use. -/
def AreFresh (definitions added : List Definition) : Prop :=
  ∀ d ∈ added, (symbolTable definitions).find? d.head = none

/-- The name of a symbol is no new head. -/
theorem AreFresh.not_mem_heads (hfresh : AreFresh definitions added) {s : Symbol}
    (hs : s ∈ (symbolTable definitions).symbols.toList) : s.name ∉ heads added := by
  intro hmem
  obtain ⟨d, hd, hname⟩ := List.mem_map.1 hmem
  exact SymbolTable.find?_eq_none_iff.1 (hfresh d hd) s (Array.mem_toList_iff.1 hs) hname.symm

/-- **Two blocks** are put into the table of symbols: the new heads before the old
terminals, and the new terminals behind them. -/
theorem exists_blocks (hfresh : AreFresh definitions added) :
    ∃ front newHeads terminals newTerminals : List Symbol,
      (symbolTable definitions).symbols.toList = front ++ terminals ∧
      (symbolTable (definitions ++ added)).symbols.toList
        = front ++ newHeads ++ terminals ++ newTerminals := by
  have hheads : heads (definitions ++ added) = heads definitions ++ heads added :=
    List.map_append
  have hused : usedNames (definitions ++ added) = usedNames definitions ++ usedNames added :=
    List.flatMap_append
  let more := ((heads added).removeAll (heads definitions)).eraseDups
  let later := ((usedNames added).removeAll (usedNames definitions)).eraseDups
  have hkept : (usedNames definitions).eraseDups.filter
        (· ∉ (heads definitions).eraseDups ++ more)
      = (usedNames definitions).eraseDups.filter (· ∉ (heads definitions).eraseDups) := by
    apply List.filter_congr
    intro name hname
    rw [decide_eq_decide, List.mem_append, not_or]
    refine and_iff_left_of_imp ?_
    intro hold hnew
    rw [List.mem_eraseDups] at hname hold hnew
    have hsymbol : (⟨name, .terminal⟩ : Symbol) ∈
        (symbolTable definitions).symbols.toList := by
      rw [toList_symbolTable]
      exact List.mem_cons_of_mem _ (List.mem_cons_of_mem _
        (mem_declaredSymbols.2 (Or.inr ⟨hname, hold, rfl⟩)))
    exact hfresh.not_mem_heads hsymbol (List.mem_filter.1 hnew).1
  refine ⟨⟨epsilonName, .epsilon⟩ :: ⟨endName, .endMarker⟩ ::
      (heads definitions).eraseDups.map (⟨·, .nonTerminal⟩),
    more.map (⟨·, .nonTerminal⟩),
    ((usedNames definitions).eraseDups.filter
      (· ∉ (heads definitions).eraseDups)).map (⟨·, .terminal⟩),
    (later.filter (· ∉ (heads definitions).eraseDups ++ more)).map (⟨·, .terminal⟩), ?_, ?_⟩
  · rw [toList_symbolTable]
    rfl
  · rw [toList_symbolTable]
    unfold declaredSymbols
    rw [hheads, hused, List.eraseDups_append, List.eraseDups_append, List.filter_append, hkept,
      List.map_append, List.map_append]
    simp only [List.cons_append, List.append_assoc]
    rfl

/-- **The old symbols** keep their order. -/
theorem exists_spreads (hfresh : AreFresh definitions added) :
    ∃ ρ, SymbolTable.Spreads ρ (symbolTable definitions)
      (symbolTable (definitions ++ added)) := by
  obtain ⟨front, newHeads, terminals, newTerminals, htable, htable'⟩ := exists_blocks hfresh
  let inner := spread front.length newHeads.length
  let outer := spread (front ++ newHeads ++ terminals).length newTerminals.length
  refine ⟨outer ∘ inner,
    { strictMono := (strictMono_spread _ _).comp (strictMono_spread _ _)
      slot_eq := ?_
      size_eq := ?_ }⟩
  · intro id
    have houter := getElem?_spread (front ++ newHeads ++ terminals) newTerminals [] (inner id)
    rw [List.append_nil, List.append_nil, getElem?_spread] at houter
    rw [← Array.getElem?_toList, ← Array.getElem?_toList, htable, htable']
    exact houter
  · have hsize : (symbolTable definitions).size = (front ++ terminals).length := by
      rw [← htable]
      rfl
    have hsize' : (symbolTable (definitions ++ added)).size
        = (front ++ newHeads ++ terminals ++ newTerminals).length := by
      rw [← htable']
      rfl
    have hinner : inner (front ++ terminals).length = (front ++ newHeads ++ terminals).length :=
      spread_length front newHeads terminals
    have houter := spread_length (front ++ newHeads ++ terminals) newTerminals []
    rw [List.append_nil, List.append_nil] at houter
    rw [hsize, hsize', Function.comp_apply, hinner]
    exact houter

end Definitions

namespace Grammar

variable {first : Definition} {rest added : List Definition}

/-- The rules of a grammar are its productions, numbered. -/
theorem getElem?_rules_ofDefinitions (first : Definition) (rest : List Definition) (i : Nat) :
    (ofDefinitions first rest).rules[i]? =
      ((productions (first :: rest))[i]?).map fun production =>
        ⟨i, ((symbolTable (first :: rest)).find? production.1).getD epsilonId,
          production.2.map fun name =>
            ((symbolTable (first :: rest)).find? name).getD epsilonId⟩ := by
  unfold ofDefinitions
  rw [List.getElem?_toArray, List.getElem?_map, List.getElem?_zipIdx, Option.map_map,
    Nat.zero_add]
  rfl

theorem productions_append (definitions added : List Definition) :
    productions (definitions ++ added) = productions definitions ++ productions added :=
  List.flatMap_append

/-- The number of a word of the definitions leads to its name. -/
theorem number_spec {definitions : List Definition} {name : String}
    (h : name ∈ heads definitions ∨ name ∈ usedNames definitions) :
    ((symbolTable definitions).find? name).getD epsilonId < (symbolTable definitions).size ∧
      (symbolTable definitions).name
        (((symbolTable definitions).find? name).getD epsilonId) = name := by
  have hword : (∃ d ∈ definitions, d.head = name) ∨
      ∃ d ∈ definitions, ∃ alternative ∈ d.alternatives, name ∈ alternative := by
    simpa [heads, mem_usedNames] using h
  obtain ⟨id, hid⟩ := Option.isSome_iff_exists.1 (find?_symbolTable hword)
  obtain ⟨hlt, hname, -⟩ := SymbolTable.find?_eq_some_iff.1 hid
  rw [hid]
  exact ⟨hlt, hname⟩

section Append

variable {ρ : Nat → Nat} {i id : Nat} {r : Rule} {name : String}
  (hh : (ofDefinitions first (rest ++ added)).WellFormed)
  (hs : SymbolTable.Spreads ρ (symbolTable (first :: rest))
    (symbolTable (first :: (rest ++ added))))

include hh hs

/-- An old word has the image of its number. -/
theorem number_append (h : name ∈ heads (first :: rest) ∨ name ∈ usedNames (first :: rest)) :
    ((symbolTable (first :: (rest ++ added))).find? name).getD epsilonId
      = ρ (((symbolTable (first :: rest)).find? name).getD epsilonId) := by
  obtain ⟨hid, hspell⟩ := number_spec h
  have hword : name ∈ heads (first :: (rest ++ added)) ∨
      name ∈ usedNames (first :: (rest ++ added)) := by
    rw [← List.cons_append]
    unfold heads usedNames at h ⊢
    rw [List.map_append, List.flatMap_append]
    exact h.imp (List.mem_append_left _) (List.mem_append_left _)
  obtain ⟨hid', hspell'⟩ := number_spec hword
  apply hh.eq_of_name_eq hid' (hs.lt_size hid)
  exact hspell'.trans (hspell.symm.trans hs.name_eq.symm)

/-- The old rules stand under their numbers. -/
theorem getElem?_rules_append (hr : (ofDefinitions first rest).rules[i]? = some r) :
    (ofDefinitions first (rest ++ added)).rules[i]? = some (r.rename ρ) := by
  obtain ⟨head, names, hproduction, rfl⟩ := exists_production_of_rule hr
  obtain ⟨hhead, hnames⟩ := names_of_mem_productions (List.mem_of_getElem? hproduction)
  have hlength := (List.getElem?_eq_some_iff.1 hproduction).1
  rw [getElem?_rules_ofDefinitions, ← List.cons_append, productions_append,
    List.getElem?_append_left hlength, hproduction, Option.map_some, List.cons_append]
  unfold Rule.rename
  dsimp only
  rw [number_append hh hs (Or.inl hhead), List.map_map]
  congr 2
  exact List.map_congr_left fun name hmem => number_append hh hs (Or.inr (hnames name hmem))

/-- The new rules are rules of new symbols. -/
theorem exists_rule_of_append (hfresh : AreFresh (first :: rest) added)
    (hid : id < (symbolTable (first :: rest)).size)
    (hr : r ∈ (ofDefinitions first (rest ++ added)).rules) (hlhs : r.lhs = ρ id) :
    ∃ q ∈ (ofDefinitions first rest).rules, r = q.rename ρ := by
  obtain ⟨i, hi⟩ := Array.getElem?_of_mem hr
  obtain ⟨head, names, hproduction, rfl⟩ := exists_production_of_rule hi
  have hword := (names_of_mem_productions (List.mem_of_getElem? hproduction)).1
  rw [← List.cons_append, productions_append] at hproduction
  by_cases hlength : i < (productions (first :: rest)).length
  · rw [List.getElem?_append_left hlength] at hproduction
    have hq := getElem?_rules_ofDefinitions first rest i
    rw [hproduction, Option.map_some] at hq
    have himage := getElem?_rules_append hh hs hq
    rw [hi] at himage
    exact ⟨_, Array.mem_of_getElem? hq, Option.some.inj himage⟩
  · rw [List.getElem?_append_right (Nat.le_of_not_lt hlength)] at hproduction
    obtain ⟨hhead, -⟩ := names_of_mem_productions (List.mem_of_getElem? hproduction)
    have hspell := (number_spec (Or.inl hword)).2
    have hname : (symbolTable (first :: rest)).name id = head := by
      rw [← hs.name_eq, ← hspell]
      exact congrArg _ hlhs.symm
    have hid : id < (symbolTable (first :: rest)).symbols.size := hid
    unfold SymbolTable.name at hname
    rw [Array.getElem?_eq_getElem hid, Option.map_some, Option.getD_some] at hname
    exact absurd (hname ▸ hhead) (hfresh.not_mem_heads (Array.getElem_mem_toList hid))

end Append

/-- **New definitions** extend the grammar. -/
theorem exists_extends (hold : ∀ d ∈ first :: rest, d.WellFormed)
    (hadded : ∀ d ∈ added, d.WellFormed) (hfresh : AreFresh (first :: rest) added) :
    ∃ ρ, Extends ρ (ofDefinitions first rest) (ofDefinitions first (rest ++ added)) := by
  have hh : (ofDefinitions first (rest ++ added)).WellFormed := by
    apply wellFormed_ofDefinitions
    intro d hd
    rw [← List.cons_append] at hd
    exact (List.mem_append.1 hd).elim (hold d) (hadded d)
  obtain ⟨ρ, hs⟩ := exists_spreads hfresh
  have hfirst : first.head ∈ heads (first :: rest) := List.mem_cons_self
  exact ⟨ρ,
    { hs with
      start_eq := (number_append hh hs (Or.inl hfirst)).symm
      getElem?_rules := getElem?_rules_append hh hs
      exists_rule := fun hid _ hr hlhs => exists_rule_of_append hh hs hfresh hid hr hlhs }⟩

end Grammar

end CanonicalLR
