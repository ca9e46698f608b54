/-!
# Double-precision numbers

The language's `float` is the IEEE 754 binary64 format. A number is kept as its bit
pattern, so equality of numbers is decidable, and everything that depends on the pattern
alone (sign, order, exact conversions) is a computation on natural numbers. Only the
operations that the format itself rounds go through the processor's arithmetic.

A finite number is `± mantissa · 2 ^ scale`, with `mantissa < 2 ^ 53`.
-/

namespace Parlance

/-- A double-precision number, as its bit pattern. -/
structure Binary64 where
  /-- Sign bit, eleven exponent bits, fifty-two fraction bits. -/
  bits : UInt64
  deriving DecidableEq, Repr, Inhabited

namespace Binary64

/-! ### Fields of the pattern -/

/-- The weight of the sign bit. -/
def signWeight : Nat :=
  1 <<< 63

/-- The weight of the lowest exponent bit. -/
def exponentWeight : Nat :=
  1 <<< 52

/-- Whether the sign bit is set. Zeros and not-a-numbers have a sign too. -/
def isNegative (x : Binary64) : Bool :=
  signWeight ≤ x.bits.toNat

/-- The pattern without its sign bit. Among numbers of one sign it orders by magnitude. -/
def magnitude (x : Binary64) : Nat :=
  x.bits.toNat % signWeight

/-- The biased exponent. -/
def exponentField (x : Binary64) : Nat :=
  x.magnitude / exponentWeight

/-- The fraction bits. -/
def fractionField (x : Binary64) : Nat :=
  x.magnitude % exponentWeight

/-- The magnitude of the infinities; every larger one is not a number. -/
def infiniteMagnitude : Nat :=
  0x7ff * exponentWeight

def isNaN (x : Binary64) : Bool :=
  infiniteMagnitude < x.magnitude

def isInfinite (x : Binary64) : Bool :=
  x.magnitude == infiniteMagnitude

def isFinite (x : Binary64) : Bool :=
  x.magnitude < infiniteMagnitude

/-- Both zeros. -/
def isZero (x : Binary64) : Bool :=
  x.magnitude == 0

/-- The integer part `m` of a finite number `± m · 2 ^ s`. -/
def mantissa (x : Binary64) : Nat :=
  if x.exponentField = 0 then x.fractionField else exponentWeight + x.fractionField

/-- The binary exponent `s` of a finite number `± m · 2 ^ s`. -/
def scale (x : Binary64) : Int :=
  (max x.exponentField 1 : Int) - 1075

/-! ### Building numbers -/

/-- The number of a sign and a magnitude. -/
def ofMagnitude (negative : Bool) (magnitude : Nat) : Binary64 :=
  ⟨UInt64.ofNat (if negative then signWeight + magnitude else magnitude)⟩

/-- The one not-a-number that computations give. -/
def nan : Binary64 :=
  ⟨0x7ff8000000000000⟩

def infinity (negative : Bool) : Binary64 :=
  ofMagnitude negative infiniteMagnitude

def zero (negative : Bool) : Binary64 :=
  ofMagnitude negative 0

/-- A not-a-number is the same constant whatever its payload; other numbers stay. -/
def canonical (x : Binary64) : Binary64 :=
  if x.isNaN then nan else x

@[simp] theorem canonical_canonical (x : Binary64) : x.canonical.canonical = x.canonical := by
  unfold canonical
  split
  · decide
  · simp_all

/-- Equality of constants: by pattern, with all not-a-numbers the same, so that zeros of
different sign stay apart. -/
def same (x y : Binary64) : Bool :=
  x.canonical == y.canonical

/-- The rational `num / den` rounded to the nearest multiple of `2 ^ e`, a tie to the even
multiple, as that multiple. -/
def roundAt (num den : Nat) (e : Int) : Nat :=
  let (n, d) := if 0 ≤ e then (num, den <<< e.toNat) else (num <<< (-e).toNat, den)
  let q := n / d
  let r := n % d
  if 2 * r < d then q else if d < 2 * r then q + 1 else q + q % 2

/-- The exponent `e` of the grid `2 ^ e` on which the rational `num / den` is rounded: the
quotient has 53 bits on it, unless the number is subnormal. -/
def gridExponent (num den : Nat) : Int :=
  let guess : Int := (Nat.log2 num : Int) - Nat.log2 den - 52
  -- The guess is right or one too large.
  let small : Bool :=
    if 0 ≤ guess then num < den <<< (guess.toNat + 52)
    else num <<< (-guess).toNat < den <<< 52
  max (if small then guess - 1 else guess) (-1074)

/-- The number nearest to `± num / den`, a tie to the even pattern. What is too large for
the format becomes infinite. -/
def ofRatio (negative : Bool) (num den : Nat) : Binary64 :=
  if num = 0 || den = 0 then zero negative
  else
    let e := gridExponent num den
    -- A quotient that rounds up to `2 ^ 53` carries into the exponent field.
    let magnitude := roundAt num den e + (e + 1074).toNat * exponentWeight
    ofMagnitude negative (min magnitude infiniteMagnitude)

/-- The number nearest to an integer. -/
def ofInt (n : Int) : Binary64 :=
  ofRatio (n < 0) n.natAbs 1

/-- The integer part of a finite number, rounding toward zero. -/
def truncate (x : Binary64) : Int :=
  let m := if 0 ≤ x.scale then x.mantissa <<< x.scale.toNat else x.mantissa >>> (-x.scale).toNat
  if x.isNegative then -m else m

/-- Whether a finite number is an integer. -/
def isIntegral (x : Binary64) : Bool :=
  0 ≤ x.scale || x.mantissa % 1 <<< (-x.scale).toNat == 0

/-! ### Order -/

/-- A key that orders the numbers other than not-a-number. Both zeros have key `0`. -/
def orderKey (x : Binary64) : Int :=
  if x.isNegative then -x.magnitude else x.magnitude

/-- The order of two numbers; a not-a-number is unordered with everything. -/
def compare? (x y : Binary64) : Option Ordering :=
  if x.isNaN || y.isNaN then none else some (compare x.orderKey y.orderKey)

/-- Numeric equality: zeros are equal, a not-a-number equals nothing. -/
def numEq (x y : Binary64) : Bool :=
  x.compare? y == some .eq

/-! ### Arithmetic -/

def toFloat (x : Binary64) : Float :=
  Float.ofBits x.bits

def ofFloat (x : Float) : Binary64 :=
  canonical ⟨x.toBits⟩

/-- The opposite number. The not-a-number that computations give is its own opposite. -/
def neg (x : Binary64) : Binary64 :=
  if x = nan then nan else ofMagnitude (!x.isNegative) x.magnitude

def add (x y : Binary64) : Binary64 :=
  ofFloat (x.toFloat + y.toFloat)

def sub (x y : Binary64) : Binary64 :=
  ofFloat (x.toFloat - y.toFloat)

def mul (x y : Binary64) : Binary64 :=
  ofFloat (x.toFloat * y.toFloat)

def div (x y : Binary64) : Binary64 :=
  ofFloat (x.toFloat / y.toFloat)

def pow (x y : Binary64) : Binary64 :=
  ofFloat (x.toFloat.pow y.toFloat)

/-- The exact remainder of a division whose quotient is rounded toward zero. The result
has the sign of the dividend. -/
def rem (x y : Binary64) : Binary64 :=
  if x.isNaN || y.isNaN || x.isInfinite || y.isZero then nan
  else if y.isInfinite then x
  else
    let e := min x.scale y.scale
    let r := x.mantissa <<< (x.scale - e).toNat % y.mantissa <<< (y.scale - e).toNat
    if 0 ≤ e then ofRatio x.isNegative (r <<< e.toNat) 1
    else ofRatio x.isNegative r (1 <<< (-e).toNat)

end Binary64

end Parlance
