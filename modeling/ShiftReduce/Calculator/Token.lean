import ShiftReduce.Decimal.Notation
import ShiftReduce.Tree.Basic

/-! # Tokens of calculator expressions

- `CalcToken`: an operator, a whole number or a floating-point number.
- `CalcToken.render`: the token as `< NAME, value >`.
-/

namespace ShiftReduce

inductive CalcToken where
  | cos
  | int (value : Nat)
  | float (value : Binary64)
  | plus
  | minus
  | mult
  | factorial
deriving DecidableEq, Repr

namespace CalcToken

def name : CalcToken → String
  | .cos => "COS"
  | .int _ => "INT"
  | .float _ => "FLOAT"
  | .plus => "PLUS"
  | .minus => "MINUS"
  | .mult => "MULT"
  | .factorial => "FACTORIAL"

instance : Token CalcToken := ⟨name⟩

def valueText : CalcToken → String
  | .cos => "cos"
  | .int n => toString n
  | .float x => x.render
  | .plus => "+"
  | .minus => "-"
  | .mult => "*"
  | .factorial => "!"

def render (t : CalcToken) : String := s!"< {t.name}, {t.valueText} >"

/-- How a token is named in the message of a parse error. -/
def label : CalcToken → String
  | .cos => "Cos"
  | .int n => s!"Int({n})"
  | .float x => s!"Float({x.render})"
  | .plus => "Plus"
  | .minus => "Minus"
  | .mult => "Mult"
  | .factorial => "Factorial"

end CalcToken

end ShiftReduce
