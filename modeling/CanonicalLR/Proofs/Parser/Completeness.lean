import CanonicalLR.Proofs.Parser.Simulation

/-!
# The parser is complete

A sentence of the grammar has a derivation, a derivation is a run that ends in
acceptance, and the parser makes no other. So every input whose words are a
sentence is accepted as soon as the limit leaves room for the run, and under no
limit is it refused.

## Main results

* `wordsOf_spell` — a word is read back from the text that spells it.
* `exists_reaches_of_isSentence` — a sentence leads to acceptance.
* `parse_complete` — a sentence is accepted, and never refused.
-/

namespace CanonicalLR

namespace Grammar.WellFormed

variable {g : Grammar} {w : List Nat} (hg : g.WellFormed)

include hg

/-! ## Texts of words -/

/-- **A word is read back** from the text that spells it. -/
theorem wordsOf_spell (hw : g.IsWord w) :
    Text.wordsOf (g.symbols.spell w) = w.map g.symbols.name := by
  unfold SymbolTable.spell
  apply Text.wordsOf_intercalate
  intro name hname
  obtain ⟨symbol, hsymbol, rfl⟩ := List.mem_map.1 hname
  exact hg.isWordText_name (hw symbol hsymbol)

/-- No terminal has the name of the end marker. -/
theorem endName_not_mem (hw : g.IsWord w) : endName ∉ w.map g.symbols.name := by
  intro hmem
  obtain ⟨symbol, hsymbol, hname⟩ := List.mem_map.1 hmem
  have hkind := hw symbol hsymbol
  have heq : symbol = endId := by
    apply hg.eq_of_name_eq (lt_size_of_kind? hkind) (lt_size_of_kind? hg.kind?_endId)
    rw [hname, hg.name_endId]
  rw [heq, hg.kind?_endId] at hkind
  cases hkind

end Grammar.WellFormed

/-! ## Completeness -/

namespace Table

variable {t : Table} {g : Grammar} {w : List Nat} {limit bound : Nat} {input text : String}

/-- What is accepted under one limit is refused under none: both results would hold under the
sum of the limits. -/
theorem parse_ne_failed_of_accepted {trace : Trace}
    (h : t.parse bound input = .accepted trace) (limit : Nat) (error : Error)
    (cut : Option Trace) : t.parse limit input ≠ .failed error cut := by
  intro hfailed
  have haccepted := parse_of_finished h (by simp) limit
  have hrefused := parse_of_finished hfailed (by simp) bound
  rw [Nat.add_comm, haccepted] at hrefused
  cases hrefused

/-- A sentence leads to acceptance. -/
theorem exists_reaches_of_isSentence (hg : g.WellFormed) (built : build g = .ok t)
    (hw : g.IsSentence w) :
    ∃ actions d, (Configuration.initial (w.map g.symbols.name)).Reaches t actions d ∧
      d.step t = .accepted := by
  obtain ⟨ids, hyields⟩ := hw.2.exists_yields hw.1
  obtain ⟨actions, d, hreach, hd, _⟩ :=
    exists_reaches_of_derivesRightmost hg built hw.1 hyields.derivesRightmost
  exact ⟨actions, d, hreach, hd⟩

/-- **Completeness**: a sentence of the grammar, written in words, is accepted by the
same run under all limits from some bound on, and is refused under no limit. Its
symbols with blanks between them are such an input. -/
theorem parse_complete (read : Grammar.ofText text = .ok g) (built : build g = .ok t)
    (hw : g.IsSentence w) :
    Text.wordsOf (g.symbols.spell w) = w.map g.symbols.name ∧
    ∀ input, Text.wordsOf input = w.map g.symbols.name →
      (∃ bound trace, trace.isAccepted = true ∧
        ∀ limit, bound ≤ limit → t.parse limit input = .accepted trace) ∧
      ∀ limit error cut, t.parse limit input ≠ .failed error cut := by
  have hg : g.WellFormed := Grammar.wellFormed_ofText read
  refine ⟨hg.wordsOf_spell hw.1, ?_⟩
  intro input hinput
  obtain ⟨actions, d, hreach, hd⟩ := exists_reaches_of_isSentence hg built hw
  have hend : endName ∉ Text.wordsOf input := by
    rw [hinput]
    exact hg.endName_not_mem hw.1
  rw [← hinput] at hreach
  obtain ⟨hparse, haccepted, _⟩ :=
    parse_of_reaches hend hreach hd (Nat.lt_succ_self actions.length)
  refine ⟨⟨actions.length + 1, _, haccepted, ?_⟩, parse_ne_failed_of_accepted hparse⟩
  intro limit hlimit
  obtain ⟨more, rfl⟩ := Nat.exists_eq_add_of_le hlimit
  exact parse_of_finished hparse (by simp) more

/-- So it is with a sentence that ends in a symbol which derives the empty word. -/
theorem parse_complete_of_empty_rule :
    ∃ g t, Grammar.ofText "S -> a S | ε" = .ok g ∧ build g = .ok t ∧ g.IsSentence [3, 3] ∧
      (∃ bound trace, trace.isAccepted = true ∧
        ∀ limit, bound ≤ limit → t.parse limit "a a" = .accepted trace) ∧
      ∀ limit error cut, t.parse limit "a a" ≠ .failed error cut := by
  let symbols : SymbolTable :=
    ⟨#[⟨"ε", .epsilon⟩, ⟨"$", .endMarker⟩, ⟨"S", .nonTerminal⟩, ⟨"a", .terminal⟩]⟩
  let g : Grammar := ⟨symbols, #[⟨0, 2, [3, 2]⟩, ⟨1, 2, []⟩], 2⟩
  have read : Grammar.ofText "S -> a S | ε" = .ok g := by decide +kernel
  obtain ⟨_, t, read', built, -⟩ := exists_table "S -> a S | ε" (fun _ => true)
    (by decide +kernel)
  obtain rfl := Except.ok.inj (read.symm.trans read')
  have hword : g.IsWord [3, 3] := by
    unfold Grammar.IsWord
    decide
  have hmore : (⟨0, 2, [3, 2]⟩ : Rule) ∈ g.rules := Array.mem_of_getElem? (i := 0) rfl
  have hempty : (⟨1, 2, []⟩ : Rule) ∈ g.rules := Array.mem_of_getElem? (i := 1) rfl
  have hderives : g.Derives [2] [3, 3] := by
    have hlast : g.Derives [3, 3, 2] [3, 3] :=
      .step (α := [3, 3]) (β := []) hempty (.refl _)
    have hnext : g.Derives [3, 2] [3, 3] := .step (α := [3]) (β := []) hmore hlast
    exact .step (α := []) (β := []) hmore hnext
  have hinput : Text.wordsOf "a a" = List.map g.symbols.name [3, 3] := by decide +kernel
  have hw : g.IsSentence [3, 3] := ⟨hword, hderives⟩
  exact ⟨g, t, read, built, hw, (parse_complete read built hw).2 "a a" hinput⟩

end Table

end CanonicalLR
