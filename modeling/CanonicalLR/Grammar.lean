import CanonicalLR.Symbol

/-!
# Grammars

A context-free grammar: a symbol table, the numbered rules and a start symbol.
An augmented grammar (`CanonicalLR.Augmented`) is a grammar as well, whose
start symbol has kind `SymbolKind.start` and whose rule 0 is `S' -> S`.

## Main definitions

* `Rule` — a left-hand side and the symbols it derives; its number is its
  place among the rules.
* `Grammar` — symbols, rules and start symbol.
* `Grammar.rule` — a rule by its number.
* `Grammar.rulesOf` — the rules of one symbol.
* `Rule.render`, `Grammar.render` — the text form.

## Main results

* `rule_of_getElem?` — a declared number leads to its rule.
* `mem_rulesOf` — `rulesOf` is membership together with the left-hand side.
-/

namespace CanonicalLR

/-- A rule `lhs -> rhs`; an empty `rhs` derives the empty word. -/
structure Rule where
  /-- The number of the rule in its grammar. -/
  id : Nat
  /-- The number of the symbol on the left. -/
  lhs : Nat
  /-- The numbers of the symbols on the right. -/
  rhs : List Nat
  deriving DecidableEq, Repr

namespace Rule

/-- Does the rule derive the empty word? -/
def isEmpty (r : Rule) : Bool := r.rhs.isEmpty

/-- The rule as `A -> x y`, or `A -> ε`. -/
def render (t : SymbolTable) (r : Rule) : String :=
  t.name r.lhs ++ " -> " ++ if r.isEmpty then epsilonName else t.spell r.rhs

end Rule

/-- A context-free grammar. -/
structure Grammar where
  symbols : SymbolTable
  rules : Array Rule
  /-- The number of the start symbol. -/
  start : Nat
  deriving DecidableEq, Repr

namespace Grammar

/-- The rule with a number. A number without a rule is read as an empty rule of
`ε`, which nothing expands. -/
def rule (g : Grammar) (id : Nat) : Rule := (g.rules[id]?).getD ⟨id, epsilonId, []⟩

/-- The rules that derive a symbol, in order. -/
def rulesOf (g : Grammar) (symbol : Nat) : List Rule :=
  g.rules.toList.filter fun r => r.lhs = symbol

/-- The declared terminals, ascending; never `ε` or `$`. -/
def terminals (g : Grammar) : List Nat := g.symbols.idsOfKind .terminal

/-- The declared non-terminals, ascending. -/
def nonTerminals (g : Grammar) : List Nat := g.symbols.idsOfKind .nonTerminal

/-- The grammar as text, one rule a line. -/
def render (g : Grammar) : String :=
  String.join (g.rules.toList.map fun r => r.render g.symbols ++ "\n")

theorem rule_of_getElem? {g : Grammar} {id : Nat} {r : Rule}
    (h : g.rules[id]? = some r) : g.rule id = r := by
  simp [rule, h]

@[simp] theorem mem_rulesOf {g : Grammar} {symbol : Nat} {r : Rule} :
    r ∈ g.rulesOf symbol ↔ r ∈ g.rules ∧ r.lhs = symbol := by
  simp [rulesOf]

end Grammar

end CanonicalLR
