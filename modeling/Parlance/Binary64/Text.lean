import Parlance.Binary64.Shortest

/-!
# Numbers as text

`render` writes a number and `read?` reads one. A number is always written positionally,
never with an exponent. An integral number below `10 ^ 16` keeps one decimal, so that a
`float` never looks like an `int`; everything else is written with the fewest digits that
read back.
-/

namespace Parlance.Binary64

/-! ### Writing -/

/-- `digits · 10 ^ exponent`, positionally. -/
def Decimal.positional (d : Decimal) : String :=
  let ds := Nat.toDigits 10 d.digits
  if 0 ≤ d.exponent then String.ofList (ds ++ List.replicate d.exponent.toNat '0')
  else
    let places := (-d.exponent).toNat
    if places < ds.length then
      String.ofList (ds.take (ds.length - places) ++ '.' :: ds.drop (ds.length - places))
    else String.ofList ('0' :: '.' :: List.replicate (places - ds.length) '0' ++ ds)

/-- The text of a number. -/
def render (x : Binary64) : String :=
  if x.isNaN then "NaN"
  else
    let sign := if x.isNegative then "-" else ""
    let body :=
      if x.isInfinite then "inf"
      else if x.isIntegral && x.truncate.natAbs < Nat.pow 10 16 then
        toString x.truncate.natAbs ++ ".0"
      else x.shortest.positional
    sign ++ body

/-! ### Reading -/

/-- The value of a text of decimal digits; `none` if it holds anything else. -/
def digitsValue (cs : List Char) : Option Nat :=
  cs.foldlM (fun n c => if c.isDigit then some (10 * n + (c.toNat - '0'.toNat)) else none) 0

/-- An exponent: an optional sign and at least one digit. -/
def readExponent? : List Char → Option Int
  | [] => none
  | '+' :: c :: cs => (digitsValue (c :: cs)).map Int.ofNat
  | '-' :: c :: cs => (digitsValue (c :: cs)).map fun n => -Int.ofNat n
  | c :: cs => (digitsValue (c :: cs)).map Int.ofNat

/-- The number nearest to `± digits · 10 ^ exponent`. Exponents far outside the range of
the format are settled by the number of digits alone. -/
def ofDecimal (negative : Bool) (digits : Nat) (exponent : Int) : Binary64 :=
  if digits = 0 then zero negative
  else
    let point := (digitCount digits : Int) + exponent
    if 400 < point then infinity negative
    else if point < -400 then zero negative
    else if 0 ≤ exponent then ofRatio negative (digits * Nat.pow 10 exponent.toNat) 1
    else ofRatio negative digits (Nat.pow 10 (-exponent).toNat)

/-- An unsigned decimal: digits, an optional fraction and an optional exponent, with at
least one digit before the exponent. -/
def readDecimal? (negative : Bool) (cs : List Char) : Option Binary64 := do
  let whole := cs.takeWhile Char.isDigit
  let rest := cs.dropWhile Char.isDigit
  let (fraction, rest) :=
    match rest with
    | '.' :: r => (r.takeWhile Char.isDigit, r.dropWhile Char.isDigit)
    | r => ([], r)
  if whole.isEmpty && fraction.isEmpty then none
  else
    let exponent ←
      match rest with
      | [] => some 0
      | c :: r => if c = 'e' || c = 'E' then readExponent? r else none
    let digits ← digitsValue (whole ++ fraction)
    pure (ofDecimal negative digits (exponent - fraction.length))

/-- Reads a number: an optional sign, then a decimal or one of the words `inf`, `infinity`
and `nan` in any case. The text may hold nothing else. -/
def read? (text : String) : Option Binary64 :=
  let (negative, cs) :=
    match text.toList with
    | '-' :: r => (true, r)
    | '+' :: r => (false, r)
    | r => (false, r)
  match String.ofList (cs.map Char.toLower) with
  | "inf" => some (infinity negative)
  | "infinity" => some (infinity negative)
  | "nan" => some nan
  | _ => readDecimal? negative cs

end Parlance.Binary64
