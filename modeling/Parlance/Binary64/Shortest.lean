import Parlance.Binary64.Basic

/-!
# The shortest decimal of a number

`shortest x` is the decimal with the fewest digits that reads back as the positive finite
number `x`. The reals that round to `x` form an interval around it; its ends belong to it
exactly when the mantissa is even. For one digit, two digits and so on, the two neighbours
of `x` on that decimal grid are tested, in exact arithmetic: the first grid with a neighbour
in the interval wins, of two such neighbours the nearer, and of two equally near ones the
larger. Seventeen digits always suffice.
-/

namespace Parlance.Binary64

/-- A decimal `digits · 10 ^ exponent`. -/
structure Decimal where
  digits : Nat
  exponent : Int
  deriving DecidableEq, Repr

/-- The number of decimal digits of a natural number; zero has one. -/
def digitCount (n : Nat) : Nat :=
  (Nat.toDigits 10 n).length

/-- The interval of reals that round to a positive finite number, in units of a quarter of
its last place: `low`, `mid` (the number itself) and `high`, times `2 ^ (scale - 2)`. -/
structure RoundingInterval where
  low : Nat
  mid : Nat
  high : Nat
  /-- The unit is `2 ^ exponent`. -/
  exponent : Int
  /-- Whether the ends round to the number. -/
  closed : Bool

/-- Below a power of two the grid is twice as fine, so the interval reaches half as far. -/
def roundingInterval (x : Binary64) : RoundingInterval :=
  let m := x.mantissa
  let below := if x.fractionField = 0 ∧ 1 < x.exponentField then 1 else 2
  { low := 4 * m - below, mid := 4 * m, high := 4 * m + 2, exponent := x.scale - 2,
    closed := m % 2 == 0 }

/-- The number `k` with `10 ^ (k - 1) ≤ x < 10 ^ k`, for a positive finite `x`. Every such
`x` is above `10 ^ -400`, so the integer part of `x · 10 ^ 400` shows it. -/
def decimalPoint (x : Binary64) : Int :=
  let n := x.mantissa * Nat.pow 10 400
  let n := if 0 ≤ x.scale then n <<< x.scale.toNat else n >>> (-x.scale).toNat
  (digitCount n : Int) - 400

/-- The point of the grid `10 ^ p` in the interval that is nearest to its middle, if the
grid has a point in it next to the middle. -/
def RoundingInterval.nearest? (i : RoundingInterval) (p : Int) : Option Nat :=
  -- `c · 10 ^ p` compares with `u · 2 ^ exponent` as `c * b` with `u * a`.
  let a := (if 0 ≤ i.exponent then 1 <<< i.exponent.toNat else 1) *
    (if p < 0 then Nat.pow 10 (-p).toNat else 1)
  let b := (if i.exponent < 0 then 1 <<< (-i.exponent).toNat else 1) *
    (if 0 ≤ p then Nat.pow 10 p.toNat else 1)
  let inside (c : Nat) : Bool :=
    if i.closed then i.low * a ≤ c * b && c * b ≤ i.high * a
    else i.low * a < c * b && c * b < i.high * a
  let down := i.mid * a / b
  let up := down + 1
  match inside down, inside up with
  | false, false => none
  | true, false => some down
  | false, true => some up
  | true, true => some (if i.mid * a - down * b < up * b - i.mid * a then down else up)

/-- The decimal without its trailing zeros, dropping at most `fuel` of them. -/
def Decimal.strip : Nat → Decimal → Decimal
  | 0, d => d
  | fuel + 1, d =>
    if d.digits ≠ 0 ∧ d.digits % 10 = 0 then strip fuel ⟨d.digits / 10, d.exponent + 1⟩ else d

/-- The first of the grids with `count`, `count + 1`, … digits that has a decimal for the
interval, trying at most `fuel` grids. -/
def RoundingInterval.search (i : RoundingInterval) (point : Int) : Nat → Nat → Decimal
  | 0, count =>
    -- Not reached from `shortest`: seventeen digits tell all numbers apart.
    ⟨(i.nearest? (point - count)).getD 0, point - count⟩
  | fuel + 1, count =>
    match i.nearest? (point - count) with
    | some c => ⟨c, point - count⟩
    | none => i.search point fuel (count + 1)

/-- The shortest decimal that reads back as the positive finite number `x`. -/
def shortest (x : Binary64) : Decimal :=
  (x.roundingInterval.search x.decimalPoint 17 1).strip 20

end Parlance.Binary64
