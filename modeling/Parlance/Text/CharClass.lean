import Parlance.Text.IdentifierTable

/-!
# Character classes

Three classes of characters: the blanks that separate tokens, the wider class of white
space that is trimmed around values and kept out of symbols, and the characters of
identifiers.
-/

namespace Parlance

/-- Whether a code point lies in one of the inclusive ranges. -/
def inRanges (ranges : List (Nat × Nat)) (n : Nat) : Bool :=
  ranges.any fun (low, high) => low ≤ n && n ≤ high

/-- Blanks between tokens: the characters with the property `Pattern_White_Space`. -/
def isBlank (c : Char) : Bool :=
  (0x09 ≤ c.toNat && c.toNat ≤ 0x0d) || c.toNat == 0x20 || c.toNat == 0x85
    || c.toNat == 0x200e || c.toNat == 0x200f || c.toNat == 0x2028 || c.toNat == 0x2029

/-- White space: the characters with the property `White_Space`. -/
def isSpace (c : Char) : Bool :=
  (0x09 ≤ c.toNat && c.toNat ≤ 0x0d) || c.toNat == 0x20 || c.toNat == 0x85
    || c.toNat == 0xa0 || c.toNat == 0x1680 || (0x2000 ≤ c.toNat && c.toNat ≤ 0x200a)
    || c.toNat == 0x2028 || c.toNat == 0x2029 || c.toNat == 0x202f || c.toNat == 0x205f
    || c.toNat == 0x3000

/-- Characters that may begin an identifier: letters and the underscore. -/
def isIdStart (c : Char) : Bool :=
  if c.toNat < 0x80 then c.isAlpha || c == '_' else inRanges identifierStart c.toNat

/-- Characters that may continue an identifier. -/
def isIdContinue (c : Char) : Bool :=
  if c.toNat < 0x80 then c.isAlphanum || c == '_'
  else inRanges identifierStart c.toNat || inRanges identifierExtend c.toNat

/-- Whether a text is spelled like an identifier. -/
def isWord : List Char → Bool
  | [] => false
  | c :: cs => isIdStart c && cs.all isIdContinue

/-- A text without white space at its ends. -/
def trim (cs : List Char) : List Char :=
  (cs.dropWhile isSpace).reverse.dropWhile isSpace |>.reverse

end Parlance
