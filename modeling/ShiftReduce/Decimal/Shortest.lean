import ShiftReduce.Decimal.Binary64

/-! # Shortest decimals

- `Decimal`: `digits * 10 ^ exponent`.
- `shortestDecimal`: the decimal with the fewest digits among those that are
  read back as a given binary number, and the nearest of these.

The decimals that are read back form an interval around the number, which has
its two ends if the mantissa is even. If it holds a decimal with some number of
digits, it holds one of the two such decimals next to the number.
-/

namespace ShiftReduce

structure Decimal where
  digits : Nat
  exponent : Int
deriving DecidableEq, Repr

/-- The interval of the reals that round to a number, as multiples of a unit:
`low`, `value` and `high` times `2 ^ unit`. -/
structure RoundingInterval where
  low : Nat
  value : Nat
  high : Nat
  unit : Int
  /-- Whether the two ends belong to it. -/
  closed : Bool
deriving DecidableEq, Repr

/-- The numbers below a power of two are twice as close as those above it. -/
def roundingInterval (m : Nat) (e : Int) : RoundingInterval :=
  let below := if m = Binary64.leastNormal ∧ Binary64.minExponent < e then 1 else 2
  ⟨4 * m - below, 4 * m, 4 * m + 2, e - 2, m % 2 == 0⟩

/-- A power of ten as a quotient of whole numbers. -/
def powerOfTen (k : Int) : Nat × Nat :=
  if k < 0 then (1, Nat.pow 10 (-k).toNat) else (Nat.pow 10 k.toNat, 1)

namespace RoundingInterval

/-- `x * 2 ^ unit` over `10 ^ k`, as a quotient. -/
def inGrid (i : RoundingInterval) (x : Nat) (k : Int) : Nat × Nat :=
  let (p, q) := powerOfTen k
  Binary64.scaleDown (x * q) p (-i.unit)

/-- Whether `d * 10 ^ k` lies in the interval. -/
def holds (i : RoundingInterval) (d : Nat) (k : Int) : Bool :=
  let (l, lden) := i.inGrid i.low k
  let (h, hden) := i.inGrid i.high k
  if i.closed then l ≤ d * lden && d * hden ≤ h else l < d * lden && d * hden < h

/-- The decimal nearest to the value among its two neighbours with exponent `k`
that lie in the interval; the greater one if they are equally near. -/
def nearest? (i : RoundingInterval) (k : Int) : Option Nat :=
  let (n, den) := i.inGrid i.value k
  let d := n / den
  let r := n % den
  match i.holds d k, i.holds (d + 1) k with
  | true, true => some (if 2 * r < den then d else d + 1)
  | true, false => some d
  | false, true => some (d + 1)
  | false, false => none

/-- The first exponent, from `k` downwards, at which there is a decimal. -/
def search (i : RoundingInterval) : (n : Nat) → Int → Decimal
  | 0, k => ⟨((i.nearest? k).getD 0), k⟩
  | n + 1, k =>
      match i.nearest? k with
      | some d => ⟨d, k⟩
      | none => search i n (k - 1)

end RoundingInterval

/-- The greatest `k` with `10 ^ k ≤ num / den`, sought from `k` downwards. -/
def decimalOrder (num den : Nat) : (n : Nat) → Int → Int
  | 0, k => k
  | n + 1, k =>
      let (p, q) := powerOfTen k
      if p * den ≤ num * q then k else decimalOrder num den n (k - 1)

/-- Moves the zeros at the end of the digits to the exponent. -/
def Decimal.trimZeros : (n : Nat) → Decimal → Decimal
  | 0, d => d
  | n + 1, d =>
      if d.digits % 10 = 0 ∧ d.digits ≠ 0 then trimZeros n ⟨d.digits / 10, d.exponent + 1⟩
      else d

/-- The shortest decimal of `m * 2 ^ e`, for a positive mantissa. -/
def shortestDecimal (m : Nat) (e : Int) : Decimal :=
  let i := roundingInterval m e
  let (num, den) := Binary64.scaleDown m 1 (-e)
  let order := decimalOrder num den 700 309
  (i.search 16 order).trimZeros 17

end ShiftReduce
