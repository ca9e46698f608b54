import Parlance.Json.Basic
import Parlance.Text.Escape

/-!
# Reading JSON

A recursive reader of JSON texts. Each function takes the text from its first character and
gives the rest after what it read. The depth of the recursion is bounded by the length of the
text.
-/

namespace Parlance.Json

/-- Blanks between the parts of a text. -/
def isGap (c : Char) : Bool :=
  c == ' ' || c == '\n' || c == '\t' || c == '\r'

def skipGaps (cs : List Char) : List Char :=
  cs.dropWhile isGap

/-! ### Strings -/

/-- The value of four hexadecimal digits. -/
def hex4? : List Char → Option (Nat × List Char)
  | a :: b :: c :: d :: rest => do
    let a ← digitValue? 16 a
    let b ← digitValue? 16 b
    let c ← digitValue? 16 c
    let d ← digitValue? 16 d
    return (((a * 16 + b) * 16 + c) * 16 + d, rest)
  | _ => none

/-- The character of a backslash and a letter. -/
def letterEscape? (c : Char) : Option Char :=
  match c with
  | '"' => some '"'
  | '\\' => some '\\'
  | '/' => some '/'
  | 'b' => some '\x08'
  | 'f' => some '\x0c'
  | 'n' => some '\n'
  | 'r' => some '\r'
  | 't' => some '\t'
  | _ => none

/-- A unit of a string: a character, or half of a character beyond the basic plane. -/
inductive StringUnit where
  | char (c : Char)
  | high (n : Nat)
  | low (n : Nat)

def StringUnit.ofCode (n : Nat) : StringUnit :=
  if 0xd800 ≤ n ∧ n < 0xdc00 then .high n
  else if 0xdc00 ≤ n ∧ n < 0xe000 then .low n
  else .char (Char.ofNat n)

/-- The units of a string up to its closing quote. -/
def readUnits : Nat → List Char → Option (List StringUnit × List Char)
  | 0, _ => none
  | _ + 1, [] => none
  | fuel + 1, c :: rest =>
    if c = '"' then some ([], rest)
    else if c = '\\' then
      match rest with
      | 'u' :: rest => do
        let (n, rest) ← hex4? rest
        let (units, rest) ← readUnits fuel rest
        return (.ofCode n :: units, rest)
      | c :: rest => do
        let c ← letterEscape? c
        let (units, rest) ← readUnits fuel rest
        return (.char c :: units, rest)
      | [] => none
    else if c.toNat < 0x20 then none
    else do
      let (units, rest) ← readUnits fuel rest
      return (.char c :: units, rest)

/-- Joins halves to characters; `none` if a half stands alone. -/
def joinUnits : List StringUnit → Option (List Char)
  | [] => some []
  | .char c :: rest => (joinUnits rest).map (c :: ·)
  | .high h :: .low l :: rest =>
    (joinUnits rest).map (Char.ofNat (0x10000 + (h - 0xd800) * 0x400 + (l - 0xdc00)) :: ·)
  | _ => none

/-- The text after an opening quote: the string, if it is Unicode, and what follows. -/
def readString (cs : List Char) : Option (Option String × List Char) := do
  let (units, rest) ← readUnits (cs.length + 1) cs
  return ((joinUnits units).map String.ofList, rest)

/-! ### Numbers -/

/-- The value of a text of digits. -/
def digitsNat (cs : List Char) : Nat :=
  cs.foldl (fun n c => 10 * n + (c.toNat - '0'.toNat)) 0

/-- The sign of a number, and the rest. -/
def readSign : List Char → List Char × List Char
  | '-' :: rest => (['-'], rest)
  | rest => ([], rest)

/-- The fraction of a number, if there is one, and the rest. -/
def readFraction : List Char → Option (List Char × List Char)
  | '.' :: rest =>
    let ds := rest.takeWhile Char.isDigit
    if ds.isEmpty then none else some ('.' :: ds, rest.dropWhile Char.isDigit)
  | rest => some ([], rest)

/-- The exponent of a number, if there is one, and the rest. -/
def readExponent : List Char → Option (List Char × List Char)
  | [] => some ([], [])
  | e :: rest =>
    if e = 'e' || e = 'E' then
      let (sign, rest) := match rest with
        | '+' :: rest => (['+'], rest)
        | rest => readSign rest
      let ds := rest.takeWhile Char.isDigit
      if ds.isEmpty then none else some (e :: sign ++ ds, rest.dropWhile Char.isDigit)
    else some ([], e :: rest)

/-- A number that starts here: an integer part without superfluous zeros, then perhaps a
fraction and an exponent. -/
def readNumber (cs : List Char) : Option (Json × List Char) :=
  let (sign, body) := readSign cs
  let whole := body.takeWhile Char.isDigit
  if whole.isEmpty || (whole.head? == some '0' && 1 < whole.length) then none
  else do
    let (fraction, rest) ← readFraction (body.dropWhile Char.isDigit)
    let (exponent, rest) ← readExponent rest
    if fraction.isEmpty && exponent.isEmpty && !(!sign.isEmpty && digitsNat whole = 0) then
      let n : Int := digitsNat whole
      return (.int (if sign.isEmpty then n else -n), rest)
    else return (.real (String.ofList (sign ++ whole ++ fraction ++ exponent)), rest)

/-! ### Values -/

/-- The rest after a word. -/
def eatWord (word cs : List Char) : Option (List Char) :=
  if word.isPrefixOf cs then some (cs.drop word.length) else none

/-- The object of the fields that were read, in reverse. A name that is not Unicode breaks
it. -/
def closeObject (fields : List (Option String × Json)) : Json :=
  match fields.reverse.mapM fun (k, v) => k.map fun k => (k, v) with
  | some fields => .object fields
  | none => .broken

mutual

/-- A value that starts here. -/
def readValue : Nat → List Char → Option (Json × List Char)
  | 0, _ => none
  | fuel + 1, cs =>
    match cs with
    | [] => none
    | '{' :: rest =>
      match skipGaps rest with
      | '}' :: rest => some (.object [], rest)
      | rest => readFields fuel [] rest
    | '[' :: rest =>
      match skipGaps rest with
      | ']' :: rest => some (.array [], rest)
      | rest => readItems fuel [] rest
    | '"' :: rest => do
      let (s, rest) ← readString rest
      return (s.elim .broken .str, rest)
    | 'n' :: _ => (eatWord "null".toList cs).map (.null, ·)
    | 't' :: _ => (eatWord "true".toList cs).map (.bool true, ·)
    | 'f' :: _ => (eatWord "false".toList cs).map (.bool false, ·)
    | _ => readNumber cs

/-- The items of an array from here on, after those in `done` (in reverse). -/
def readItems : Nat → List Json → List Char → Option (Json × List Char)
  | 0, _, _ => none
  | fuel + 1, done, cs => do
    let (v, rest) ← readValue fuel (skipGaps cs)
    match skipGaps rest with
    | ',' :: rest => readItems fuel (v :: done) rest
    | ']' :: rest => some (.array (v :: done).reverse, rest)
    | _ => none

/-- The fields of an object from here on, after those in `done` (in reverse). -/
def readFields : Nat → List (Option String × Json) → List Char → Option (Json × List Char)
  | 0, _, _ => none
  | fuel + 1, done, cs =>
    match skipGaps cs with
    | '"' :: rest => do
      let (k, rest) ← readString rest
      match skipGaps rest with
      | ':' :: rest =>
        let (v, rest) ← readValue fuel (skipGaps rest)
        match skipGaps rest with
        | ',' :: rest => readFields fuel ((k, v) :: done) rest
        | '}' :: rest => some (closeObject ((k, v) :: done), rest)
        | _ => none
      | _ => none
    | _ => none

end

/-- Reads a text that holds one value and nothing else. -/
def parse? (text : String) : Option Json := do
  let cs := text.toList
  let (v, rest) ← readValue (2 * cs.length + 2) (skipGaps cs)
  if (skipGaps rest).isEmpty then return v else none

end Parlance.Json
