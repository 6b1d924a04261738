/-!
# Grammar symbols

A grammar numbers its symbols. The symbol table holds the name and the kind of
each number, and slots 0 and 1 of every table are the empty word `ε` and the
end marker `$`.

## Main definitions

* `Symbol`, `SymbolKind` — a name and the part it plays.
* `SymbolTable` — the numbered symbols of a grammar.
* `SymbolTable.find?` — the number of a name; the first one, should a name
  occur twice.
* `SymbolTable.idsOfKind` — the numbers of one kind, ascending.

## Main results

* `find?_eq_some_iff` — `find?` gives the first slot of a name.
* `mem_idsOfKind` — `idsOfKind` lists exactly the slots of its kind.
-/

namespace CanonicalLR

/-- The name of the empty word in a grammar text. -/
def epsilonName : String := "ε"

/-- The name of the end marker. -/
def endName : String := "$"

/-- The part a symbol plays in a grammar. -/
inductive SymbolKind where
  /-- A symbol that no rule derives. -/
  | terminal
  /-- A symbol on the left of a declared rule. -/
  | nonTerminal
  /-- The start symbol that augmentation adds. -/
  | start
  /-- The marker after the last token. -/
  | endMarker
  /-- The empty word. -/
  | epsilon
  deriving DecidableEq, Repr

/-- A named symbol. -/
structure Symbol where
  name : String
  kind : SymbolKind
  deriving DecidableEq, Repr

/-- The number of `ε` in every symbol table. -/
def epsilonId : Nat := 0

/-- The number of `$` in every symbol table. -/
def endId : Nat := 1

namespace SymbolKind

/-- Terminals and the end marker head ACTION columns. -/
def isTerminal : SymbolKind → Bool
  | terminal | endMarker => true
  | _ => false

/-- Declared non-terminals and the added start symbol have rules. -/
def isNonTerminal : SymbolKind → Bool
  | nonTerminal | start => true
  | _ => false

/-- No symbol has a column of both sorts. -/
theorem not_isNonTerminal_of_isTerminal {k : SymbolKind} (h : k.isTerminal = true) :
    k.isNonTerminal = false := by
  cases k <;> simp_all [isTerminal, isNonTerminal]

end SymbolKind

/-- The numbered symbols of a grammar. -/
structure SymbolTable where
  symbols : Array Symbol
  deriving DecidableEq, Repr

namespace SymbolTable

/-- The number of symbols. -/
def size (t : SymbolTable) : Nat := t.symbols.size

/-- The kind of a slot; a number outside the table has none. -/
def kind? (t : SymbolTable) (id : Nat) : Option SymbolKind :=
  t.symbols[id]?.map (·.kind)

/-- The name of a slot; a number outside the table has the empty name. -/
def name (t : SymbolTable) (id : Nat) : String :=
  (t.symbols[id]?.map (·.name)).getD ""

/-- The first slot with a name. -/
def find? (t : SymbolTable) (name : String) : Option Nat :=
  t.symbols.findIdx? fun s => s.name == name

/-- Is the slot a terminal or the end marker? -/
def isTerminal (t : SymbolTable) (id : Nat) : Bool :=
  (t.kind? id).any (·.isTerminal)

/-- Is the slot a declared non-terminal or the added start symbol? -/
def isNonTerminal (t : SymbolTable) (id : Nat) : Bool :=
  (t.kind? id).any (·.isNonTerminal)

theorem not_isNonTerminal_of_isTerminal {t : SymbolTable} {id : Nat}
    (h : t.isTerminal id = true) : ¬ t.isNonTerminal id = true := by
  obtain ⟨kind, hkind, hterminal⟩ := (Option.any_eq_true _ _).1 h
  unfold isNonTerminal
  rw [hkind, Option.any_some, SymbolKind.not_isNonTerminal_of_isTerminal hterminal]
  exact Bool.false_ne_true

/-- The slots of one kind, ascending. -/
def idsOfKind (t : SymbolTable) (kind : SymbolKind) : List Nat :=
  (List.range t.size).filter fun id => t.kind? id = some kind

/-- The table with one more symbol, in the last slot. -/
def push (t : SymbolTable) (s : Symbol) : SymbolTable := ⟨t.symbols.push s⟩

/-- The names of a list of symbols, with a blank between two of them. -/
def spell (t : SymbolTable) (ids : List Nat) : String :=
  " ".intercalate (ids.map t.name)

theorem kind?_eq_none_iff {t : SymbolTable} {id : Nat} :
    t.kind? id = none ↔ t.size ≤ id := by
  simp [kind?, size]

theorem mem_idsOfKind {t : SymbolTable} {kind : SymbolKind} {id : Nat} :
    id ∈ t.idsOfKind kind ↔ t.kind? id = some kind := by
  simp only [idsOfKind, List.mem_filter, List.mem_range, decide_eq_true_eq,
    and_iff_right_iff_imp]
  intro h
  exact Nat.lt_of_not_le fun hle => by simp [kind?_eq_none_iff.2 hle] at h

theorem find?_eq_some_iff {t : SymbolTable} {name : String} {id : Nat} :
    t.find? name = some id ↔
      id < t.size ∧ t.name id = name ∧ ∀ j < id, t.name j ≠ name := by
  simp only [find?, Array.findIdx?_eq_some_iff_getElem, SymbolTable.name, size]
  constructor
  · rintro ⟨h, hname, first⟩
    refine ⟨h, by simpa [h] using hname, fun j hj => ?_⟩
    have := first j hj
    have hj' : j < t.symbols.size := by omega
    simpa [hj'] using this
  · rintro ⟨h, hname, first⟩
    refine ⟨h, by simpa [h] using hname, fun j hj => ?_⟩
    have := first j hj
    have hj' : j < t.symbols.size := by omega
    simpa [hj'] using this

theorem find?_eq_none_iff {t : SymbolTable} {name : String} :
    t.find? name = none ↔ ∀ s ∈ t.symbols, s.name ≠ name := by
  simp [find?, Array.findIdx?_eq_none_iff]

end SymbolTable

end CanonicalLR
