import Parlance.Text.CharClass
import Parlance.Text.VisibilityTable

/-!
# Quoted text in reports

Reports show characters and lexemes between quotes, with everything that would not be
visible spelled out.
-/

namespace Parlance

/-- The lower-case hexadecimal text of a number. -/
def hexText (n : Nat) : String :=
  String.ofList (Nat.toDigits 16 n)

/-- Whether a character is visible by itself. -/
def isVisible (c : Char) : Bool :=
  if c.toNat < 0x80 then 0x20 ≤ c.toNat && c.toNat < 0x7f
  else !inRanges hiddenChars c.toNat && !inRanges graphemeExtend c.toNat

/-- A character in a report between the quote characters `mark`. -/
def showChar (mark c : Char) : String :=
  if c = '\x00' then "\\0"
  else if c = '\t' then "\\t"
  else if c = '\r' then "\\r"
  else if c = '\n' then "\\n"
  else if c = '\\' || c = mark then String.ofList ['\\', c]
  else if isVisible c then String.singleton c
  else "\\u\x7b" ++ hexText c.toNat ++ "\x7d"

/-- A quoted character. -/
def quoteChar (c : Char) : String :=
  "'" ++ showChar '\'' c ++ "'"

/-- A quoted text. -/
def quoteText (cs : List Char) : String :=
  "\"" ++ String.join (cs.map (showChar '"')) ++ "\""

end Parlance
