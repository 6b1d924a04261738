import CanonicalLR.Error
import CanonicalLR.Symbol
import CanonicalLR.Text.Fields

/-!
# Tokens

A parser input is a text whose words are its tokens. The end marker is set
behind the tokens by the parser itself, so an input that holds `$` is refused.

## Main definitions

* `Token` — a word and its place among the words.
* `Token.ofInput` — the tokens of an input.

## Main results

* `ofInput_eq_ok_iff` — an input is refused exactly if `$` is one of its words.
-/

namespace CanonicalLR

/-- A word of a parser input. -/
structure Token where
  text : String
  /-- How many tokens stand before this one. -/
  position : Nat
  deriving DecidableEq, Repr

/-- The tokens of an input. -/
def Token.ofInput (input : String) : Except Error (List Token) :=
  let words := Text.wordsOf input
  if endName ∈ words then .error (.reservedSymbol endName)
  else .ok (words.zipIdx.map fun (text, position) => ⟨text, position⟩)

theorem Token.ofInput_eq_ok_iff {input : String} {tokens : List Token} :
    Token.ofInput input = .ok tokens ↔
      endName ∉ Text.wordsOf input ∧
        tokens = (Text.wordsOf input).zipIdx.map fun (text, position) => ⟨text, position⟩ := by
  simp only [Token.ofInput]
  split
  next reserved => simp [reserved]
  next free => simp [free, eq_comm]

end CanonicalLR
