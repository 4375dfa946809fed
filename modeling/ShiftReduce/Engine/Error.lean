import ShiftReduce.Text.Listing

/-! # Failures of a parse

- `ParseError`: why no tree was made; the state stack is told from the bottom.
- `message`: its text, given how states and tokens are shown.
-/

namespace ShiftReduce

inductive ParseError (σ τ : Type) where
  | unexpectedToken (states : List σ) (token : τ)
  | unexpectedEnd (states : List σ)
  | missingGoto (state : σ) (symbol : String)
  /-- A reduction of one symbol leads back to the state that it left. -/
  | cyclicReduce (state : σ) (symbol : String)
  | inconsistentStack
deriving DecidableEq, Repr

namespace ParseError

variable {σ τ : Type}

/-- The state stack at which an input was rejected. -/
def states : ParseError σ τ → List σ
  | .unexpectedToken states _ => states
  | .unexpectedEnd states => states
  | _ => []

/-- The token that was rejected. -/
def token? : ParseError σ τ → Option τ
  | .unexpectedToken _ token => some token
  | _ => none

def message (showState : σ → String) (showToken : τ → String) : ParseError σ τ → String
  | .unexpectedToken states token =>
      let stack := Text.bracketed (states.map showState)
      s!"unexpected token {showToken token} (state stack: {stack})"
  | .unexpectedEnd states =>
      let stack := Text.bracketed (states.map showState)
      s!"unexpected end of input (state stack: {stack})"
  | .missingGoto state symbol =>
      s!"no goto entry for `{symbol}' in state {showState state}"
  | .cyclicReduce state symbol =>
      s!"reducing to `{symbol}' in state {showState state} does not consume any input"
  | .inconsistentStack => "inconsistent parser stacks"

end ParseError

end ShiftReduce
