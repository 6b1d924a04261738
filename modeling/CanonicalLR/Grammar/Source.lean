import CanonicalLR.Error
import CanonicalLR.Grammar
import CanonicalLR.Text.Fields

/-!
# Grammar texts

A grammar is written as lines of the form `A -> x y | z`. Blank lines and lines
that start with `//` are skipped; every other line is significant and is a
definition, or else the first offence in reading order is reported. A symbol
that some definition has on its left is a non-terminal, every other one is a
terminal, wherever the definitions stand.

## Main definitions

* `Definition` — a significant line: a head and its alternatives.
* `Definition.ofLine` — reads one line.
* `significantLines` — the numbered lines that are to be read.
* `Grammar.ofDefinitions` — numbers symbols and rules.
* `Grammar.ofText` — the grammar of a text.

## Main results

* `find?_symbolTable` — the number of a word of the definitions exists.
-/

namespace CanonicalLR

open Text

/-! ## Punctuation -/

/-- The mark between the left-hand side and the alternatives. -/
def arrowMark : String := "->"

/-- The mark between two alternatives. -/
def alternativeMark : Char := '|'

/-- The mark that starts a comment line. -/
def commentMark : String := "//"

/-! ## Lines -/

/-- A rule line: the symbol it defines and the words of each alternative. -/
structure Definition where
  head : String
  alternatives : List (List String)
  deriving DecidableEq, Repr

/-- Is the name kept for the empty word or the end marker? -/
def isReserved (name : String) : Bool := name == epsilonName || name == endName

/-- The words of one alternative. `ε` stands for nothing and is left out; a
blank alternative is malformed, and `$` is reserved. -/
def readAlternative (malformed : Error) (cs : List Char) : Except Error (List String) :=
  let names := (words cs).map String.ofList
  if names.isEmpty then .error malformed
  else if endName ∈ names then .error (.reservedSymbol endName)
  else .ok (names.filter fun name => name != epsilonName)

/-- Reads a trimmed line. The left-hand side is one word that is not reserved;
it is judged before the alternatives, and these from left to right. -/
def Definition.ofLine (number : Nat) (line : List Char) : Except Error Definition :=
  let malformed := Error.malformedRule number (String.ofList line)
  match cut arrowMark.toList line with
  | none => .error malformed
  | some (left, right) =>
    match (words left).map String.ofList with
    | [head] =>
      if (words right).isEmpty then .error malformed
      else if isReserved head then .error (.reservedSymbol head)
      else do
        let alternatives ←
          (fields (· == alternativeMark) right).mapM (readAlternative malformed)
        pure ⟨head, alternatives⟩
    | _ => .error malformed

/-- Is a trimmed line to be read as a definition? -/
def isSignificant (line : List Char) : Bool :=
  !line.isEmpty && !commentMark.toList.isPrefixOf line

/-- The trimmed significant lines of a text, each after its number from 1. -/
def significantLines (text : String) : List (Nat × List Char) :=
  let lines := (fields (· == '\n') text.toList).zipIdx 1
  (lines.map fun numbered => (numbered.2, trim numbered.1)).filter
    fun line => isSignificant line.2

/-! ## Numbering -/

/-- The symbols of the definitions: `ε` and `$`, then the heads in the order of
their first definition, then the other words in the order of their first use. -/
def symbolTable (definitions : List Definition) : SymbolTable :=
  let heads := (definitions.map (·.head)).eraseDups
  let used := (definitions.flatMap fun d => d.alternatives.flatten).eraseDups
  let symbols := [⟨epsilonName, .epsilon⟩, ⟨endName, .endMarker⟩]
    ++ heads.map (⟨·, .nonTerminal⟩)
    ++ (used.filter (· ∉ heads)).map (⟨·, .terminal⟩)
  ⟨symbols.toArray⟩

/-- The head and the words of each alternative, in reading order. -/
def productions (definitions : List Definition) : List (String × List String) :=
  definitions.flatMap fun d => d.alternatives.map fun alternative => (d.head, alternative)

namespace Grammar

/-- The grammar of at least one definition; it starts with the first head. -/
def ofDefinitions (first : Definition) (rest : List Definition) : Grammar :=
  let symbols := symbolTable (first :: rest)
  let number := fun name => (symbols.find? name).getD epsilonId
  { symbols
    rules := ((productions (first :: rest)).zipIdx.map fun ((head, names), id) =>
      ⟨id, number head, names.map number⟩).toArray
    start := number first.head }

/-- The grammar that a text declares, or the first offence in it. -/
def ofText (text : String) : Except Error Grammar := do
  match ← (significantLines text).mapM fun line => Definition.ofLine line.1 line.2 with
  | [] => .error .emptyGrammar
  | first :: rest => pure (ofDefinitions first rest)

end Grammar

/-- Every word of the definitions has a number. -/
theorem find?_symbolTable {definitions : List Definition} {name : String}
    (h : (∃ d ∈ definitions, d.head = name) ∨
      ∃ d ∈ definitions, ∃ alternative ∈ d.alternatives, name ∈ alternative) :
    ((symbolTable definitions).find? name).isSome = true := by
  refine Option.isSome_iff_ne_none.2 fun none => ?_
  rw [SymbolTable.find?_eq_none_iff] at none
  by_cases head : ∃ d ∈ definitions, d.head = name
  · obtain ⟨d, hd, rfl⟩ := head
    refine none ⟨d.head, .nonTerminal⟩ ?_ rfl
    simp only [symbolTable, List.mem_toArray, List.mem_append, List.mem_map,
      List.mem_eraseDups]
    exact Or.inl (Or.inr ⟨d.head, ⟨d, hd, rfl⟩, rfl⟩)
  · obtain ⟨d, hd, alternative, ha, hn⟩ := h.resolve_left head
    refine none ⟨name, .terminal⟩ ?_ rfl
    simp only [symbolTable, List.mem_toArray, List.mem_append, List.mem_map,
      List.mem_filter, List.mem_eraseDups, List.mem_flatMap, List.mem_flatten, decide_eq_true_eq]
    exact Or.inr ⟨name, ⟨⟨d, hd, alternative, ha, hn⟩, fun h => head h⟩, rfl⟩

end CanonicalLR
