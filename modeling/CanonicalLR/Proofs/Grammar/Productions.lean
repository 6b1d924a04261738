import CanonicalLR.Proofs.Grammar.Declared

/-!
# A grammar is determined by its productions

Symbols are numbered in the order in which the words of a text first come up, first the
words on the left and then the words on the right. How alternatives are grouped into lines
does not matter for that: only the productions count, in their order.

## Main results

* `eraseDups_map_fst_productions` — the heads, each where it is first defined.
* `ofDefinitions_eq_of_productions_eq` — definitions with the same productions have the
  same grammar.
-/

namespace CanonicalLR

/-! ## First occurrences -/

/-- Of the elements that are kept, the first occurrences are those that are kept. -/
theorem eraseDups_filter {α : Type} [BEq α] [LawfulBEq α] (p : α → Bool) (l : List α) :
    (l.filter p).eraseDups = l.eraseDups.filter p := by
  cases l with
  | nil => rfl
  | cons a l =>
      have hlater := eraseDups_filter p (l.filter fun b => !b == a)
      rw [List.eraseDups_cons]
      by_cases ha : p a = true
      · rw [List.filter_cons_of_pos ha, List.filter_cons_of_pos ha, List.eraseDups_cons,
          ← hlater, List.filter_filter, List.filter_filter]
        simp only [Bool.and_comm]
      · have hsame : ∀ b ∈ l, (p b && !b == a) = p b := by
          intro b _
          by_cases hb : b = a
          · rw [hb, Bool.eq_false_iff.2 ha, Bool.false_and]
          · rw [beq_eq_false_iff_ne.2 hb, Bool.not_false, Bool.and_true]
        rw [List.filter_cons_of_neg ha, List.filter_cons_of_neg ha, ← hlater,
          List.filter_filter, List.filter_congr hsame]
termination_by l.length
decreasing_by exact Nat.lt_succ_of_le (List.length_filter_le _ _)

/-- First occurrences behind an element depend on first occurrences only. -/
theorem eraseDups_cons_congr {α : Type} [BEq α] [LawfulBEq α] {l m : List α} (a : α)
    (h : l.eraseDups = m.eraseDups) : (a :: l).eraseDups = (a :: m).eraseDups := by
  rw [List.eraseDups_cons, List.eraseDups_cons, eraseDups_filter, eraseDups_filter, h]

theorem eraseDups_cons_self {α : Type} [BEq α] [LawfulBEq α] (a : α) (l : List α) :
    (a :: a :: l).eraseDups = (a :: l).eraseDups := by
  rw [List.eraseDups_cons, List.eraseDups_cons, List.filter_cons_of_neg (by simp)]

/-- An element that is repeated counts once. -/
theorem eraseDups_append_of_forall_eq {α : Type} [BEq α] [LawfulBEq α] {a : α}
    {front : List α} (hne : front ≠ []) (hfront : ∀ b ∈ front, b = a) (l : List α) :
    (front ++ l).eraseDups = (a :: l).eraseDups := by
  induction front with
  | nil => exact absurd rfl hne
  | cons b front ih =>
      obtain rfl : b = a := hfront b List.mem_cons_self
      by_cases hlast : front = []
      · rw [hlast]
        rfl
      · have hlater := ih hlast fun c hc => hfront c (List.mem_cons_of_mem _ hc)
        rw [List.cons_append, eraseDups_cons_congr b hlater, eraseDups_cons_self]

/-! ## Productions -/

section Productions

variable {definitions : List Definition}

/-- **The heads**, each where it is first defined, are those of the productions. -/
theorem eraseDups_map_fst_productions (hne : ∀ d ∈ definitions, d.alternatives ≠ []) :
    ((productions definitions).map Prod.fst).eraseDups = (heads definitions).eraseDups := by
  induction definitions with
  | nil => rfl
  | cons d definitions ih =>
      have hlater := ih fun d hd => hne d (List.mem_cons_of_mem _ hd)
      have hfront : (d.alternatives.map fun names => (d.head, names)).map Prod.fst ≠ [] := by
        simpa using hne d List.mem_cons_self
      unfold productions heads at hlater ⊢
      rw [List.flatMap_cons, List.map_append, List.map_cons,
        eraseDups_append_of_forall_eq (a := d.head) hfront (by simp)]
      exact eraseDups_cons_congr d.head hlater

theorem flatMap_snd_productions (definitions : List Definition) :
    (productions definitions).flatMap Prod.snd = usedNames definitions := by
  unfold productions usedNames
  rw [List.flatMap_assoc]
  congr 1
  funext d
  rw [List.flatMap_map, List.flatMap_id']

/-- The symbols of a list of productions, numbered as they first come up. -/
theorem toList_symbolTable_eq (hne : ∀ d ∈ definitions, d.alternatives ≠ []) :
    (symbolTable definitions).symbols.toList =
      ⟨epsilonName, .epsilon⟩ :: ⟨endName, .endMarker⟩ ::
        (((productions definitions).map Prod.fst).eraseDups.map (⟨·, .nonTerminal⟩)
          ++ (((productions definitions).flatMap Prod.snd).eraseDups.filter
            (· ∉ ((productions definitions).map Prod.fst).eraseDups)).map
              (⟨·, .terminal⟩)) := by
  rw [eraseDups_map_fst_productions hne, flatMap_snd_productions]
  rfl

theorem symbolTable_eq_of_productions_eq {other : List Definition}
    (hne : ∀ d ∈ definitions, d.alternatives ≠ [])
    (hne' : ∀ d ∈ other, d.alternatives ≠ [])
    (h : productions definitions = productions other) :
    symbolTable definitions = symbolTable other := by
  have hlist := toList_symbolTable_eq hne
  rw [h, ← toList_symbolTable_eq hne'] at hlist
  unfold symbolTable at hlist ⊢
  exact congrArg SymbolTable.mk (Array.toList_inj.1 hlist)

end Productions

namespace Grammar

variable {first first' : Definition} {rest rest' : List Definition}

/-- The head of the first definition is that of the first production. -/
theorem head?_productions (hne : first.alternatives ≠ []) :
    (productions (first :: rest)).head?.map Prod.fst = some first.head := by
  obtain ⟨names, more, hcons⟩ := List.exists_cons_of_ne_nil hne
  unfold productions
  rw [List.flatMap_cons, hcons]
  rfl

/-- **Definitions with the same productions** have the same grammar. -/
theorem ofDefinitions_eq_of_productions_eq
    (hne : ∀ d ∈ first :: rest, d.alternatives ≠ [])
    (hne' : ∀ d ∈ first' :: rest', d.alternatives ≠ [])
    (h : productions (first :: rest) = productions (first' :: rest')) :
    ofDefinitions first rest = ofDefinitions first' rest' := by
  have hsymbols := symbolTable_eq_of_productions_eq hne hne' h
  have hhead : first.head = first'.head := by
    have hfirst : (productions (first :: rest)).head?.map Prod.fst = some first.head :=
      head?_productions (hne first List.mem_cons_self)
    rw [h, head?_productions (hne' first' List.mem_cons_self)] at hfirst
    exact (Option.some.inj hfirst).symm
  unfold ofDefinitions
  rw [hsymbols, h, hhead]

theorem alternatives_ne_nil_of_definitionsOf {text : String} {definitions : List Definition}
    (h : definitionsOf text = .ok definitions) : ∀ d ∈ definitions, d.alternatives ≠ [] := by
  intro d hd
  obtain ⟨line, -, hline⟩ := exists_left_of_mem (forall₂_of_mapM_eq_ok h) hd
  exact Definition.alternatives_ne_nil hline

end Grammar

end CanonicalLR
