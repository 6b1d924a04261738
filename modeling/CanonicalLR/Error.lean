import CanonicalLR.Action

/-!
# Errors

Why a grammar text has no grammar, a grammar no table, or an input no parse.
Errors are causes; their wording is in one place, `Error.message`.
-/

namespace CanonicalLR

/-- The causes of failure. -/
inductive Error where
  /-- A significant line of a grammar text is no rule line. -/
  | malformedRule (line : Nat) (text : String)
  /-- A grammar text has no significant line. -/
  | emptyGrammar
  /-- `ε` or `$` where a symbol is to be defined or used. -/
  | reservedSymbol (name : String)
  /-- Two items of a state ask for different actions on one symbol. -/
  | conflict (state : Nat) (symbol : String) (existing demanded : Action)
  /-- The parser has no action for the token at a position. -/
  | unexpectedToken (token : String) (position : Nat) (expecting : List String)
  /-- The parser has no state to go to after a reduction. -/
  | missingGoto (state : Nat) (symbol : String)
  deriving DecidableEq, Repr

/-- The wording of an error. -/
def Error.message : Error → String
  | .malformedRule line text =>
    "malformed rule at line " ++ toString line ++ ": `" ++ text
      ++ "`, expecting `LHS -> RHS | ...`"
  | .emptyGrammar => "the grammar does not declare any rule"
  | .reservedSymbol name => "the symbol " ++ name ++ " is reserved"
  | .conflict state symbol existing demanded =>
    "grammar is not CLR(1): conflict on symbol " ++ symbol ++ " in state "
      ++ toString state ++ " [" ++ existing.render ++ " / " ++ demanded.render ++ "]"
  | .unexpectedToken token position expecting =>
    "parse error at token " ++ token ++ " (position " ++ toString position
      ++ "), expecting " ++ ", ".intercalate expecting
  | .missingGoto state symbol =>
    "no goto entry for " ++ symbol ++ " in state " ++ toString state

end CanonicalLR
