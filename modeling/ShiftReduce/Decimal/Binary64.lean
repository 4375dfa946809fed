/-! # Binary floating-point numbers of 64 bits

- `Binary64`: a number without sign, `m * 2 ^ e` with a mantissa below `2 ^ 53`,
  or infinity.
- `roundQuotient`: a quotient rounded to the nearest whole number, a half to the
  even one.
- `Binary64.ofRatio`: the number nearest to a quotient, ties going to the even
  mantissa; quotients that are too large become infinity.
-/

namespace ShiftReduce

/-- The quotient of two numbers, rounded; a half goes to the even neighbour. -/
def roundQuotient (num den : Nat) : Nat :=
  let q := num / den
  let r := num % den
  if 2 * r > den || (2 * r == den && q % 2 == 1) then q + 1 else q

inductive Binary64 where
  | finite (mantissa : Nat) (exponent : Int)
  | infinity
deriving DecidableEq, Repr

namespace Binary64

/-- The exponent of the numbers next to zero. -/
def minExponent : Int := -1074

/-- The exponent of the largest numbers. -/
def maxExponent : Int := 971

/-- Mantissas are below twice this number, and not below it unless the exponent is
the least one. -/
def leastNormal : Nat := Nat.pow 2 52

/-- The quotient `num / den` over `2 ^ e`, as a quotient. -/
def scaleDown (num den : Nat) (e : Int) : Nat × Nat :=
  if e < 0 then (num * Nat.pow 2 (-e).toNat, den) else (num, den * Nat.pow 2 e.toNat)

/-- The greatest `k` with `2 ^ k ≤ num / den`, for positive numbers. -/
def binaryOrder (num den : Nat) : Int :=
  let k : Int := num.log2 - den.log2
  let (n, d) := scaleDown num den k
  if d ≤ n then k else k - 1

def ofRatio (num den : Nat) : Binary64 :=
  if num = 0 then .finite 0 minExponent
  else
    let e := max (binaryOrder num den - 52) minExponent
    let (n, d) := scaleDown num den e
    let m := roundQuotient n d
    let (m, e) := if m = 2 * leastNormal then (leastNormal, e + 1) else (m, e)
    if maxExponent < e then .infinity else .finite m e

end Binary64

end ShiftReduce
