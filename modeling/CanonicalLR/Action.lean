/-!
# Parser actions

What an ACTION cell tells the parser to do.

## Main definitions

* `Action` — shift, reduce or accept.
* `Action.render` — the text of a cell: `s4`, `r2`, `acc`.
* `Action.IsWritten` — how an action is written.
-/

namespace CanonicalLR

/-- A decision of the parser. -/
inductive Action where
  /-- Read the next token and go to a state. -/
  | shift (state : Nat)
  /-- Replace the right-hand side of a rule by its left-hand side. -/
  | reduce (rule : Nat)
  /-- The input is a sentence. -/
  | accept
  deriving DecidableEq, Repr

/-- The text of an ACTION cell. -/
def Action.render : Action → String
  | .shift state => "s" ++ toString state
  | .reduce rule => "r" ++ toString rule
  | .accept => "acc"

/-- How an action is written: a shift as `s` with the state, a reduction as `r` with the
rule, and acceptance as `acc`. -/
inductive Action.IsWritten : Action → String → Prop where
  | shift (state : Nat) : Action.IsWritten (.shift state) ("s" ++ toString state)
  | reduce (rule : Nat) : Action.IsWritten (.reduce rule) ("r" ++ toString rule)
  | accept : Action.IsWritten .accept "acc"

theorem Action.isWritten_render (action : Action) : action.IsWritten action.render := by
  cases action with
  | shift state => exact .shift state
  | reduce rule => exact .reduce rule
  | accept => exact .accept

end CanonicalLR
