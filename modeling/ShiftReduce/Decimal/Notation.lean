import ShiftReduce.Decimal.Shortest

/-! # The text of a decimal

- `Decimal.positional`: all digits in place, at least one after the point.
- `Decimal.scientific`: one digit before the point, and the power of ten.
- `Binary64.render`: positional from a ten-thousandth up to, but not including,
  `10 ^ 16`.
-/

namespace ShiftReduce

namespace Decimal

def zeros (n : Nat) : String := "".pushn '0' n

/-- The power of ten of the first digit. -/
def order (d : Decimal) : Int := d.exponent + (toString d.digits).length - 1

def positional (d : Decimal) : String :=
  let text := toString d.digits
  let k := d.order
  if 0 ≤ d.exponent then text ++ zeros d.exponent.toNat ++ ".0"
  else if 0 ≤ k then
    let whole := text.toList.take (k.toNat + 1)
    let fraction := text.toList.drop (k.toNat + 1)
    String.ofList (whole ++ '.' :: fraction)
  else "0." ++ zeros (-k - 1).toNat ++ text

def scientific (d : Decimal) : String :=
  let power := "e" ++ toString d.order
  match (toString d.digits).toList with
  | [] => power
  | [c] => c.toString ++ power
  | c :: cs => String.ofList (c :: '.' :: cs) ++ power

def render (d : Decimal) : String :=
  if -4 ≤ d.order ∧ d.order < 16 then d.positional else d.scientific

end Decimal

def Binary64.render : Binary64 → String
  | .infinity => "inf"
  | .finite m e => if m = 0 then "0.0" else (shortestDecimal m e).render

end ShiftReduce
