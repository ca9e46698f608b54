/-!
# Positions in a text

Offsets count UTF-8 bytes; lines and columns count from one, and columns count characters.
`LineIndex` resolves an offset to a location from a table of line starts.

Positions are kept in 32 bits. A line index saturates there. A lexer counts on as if there were no
bound: what is said of its positions is meant for texts whose places all fit (`Addressable`), which
are those of less than `2 ^ 32 - 1` bytes and a few more.
-/

namespace Parlance

/-- A range of byte offsets, `start` included and `stop` excluded. -/
structure Range where
  start : Nat
  stop : Nat
  deriving DecidableEq, Repr, Inhabited

namespace Range

/-- The empty range at the start of the text. -/
def origin : Range :=
  ⟨0, 0⟩

def isEmpty (r : Range) : Bool :=
  r.start == r.stop

/-- `start..stop` -/
def render (r : Range) : String :=
  s!"{r.start}..{r.stop}"

end Range

/-- The place of a character. -/
structure Location where
  /-- The line, from one. -/
  line : Nat
  /-- The column in characters, from one. -/
  column : Nat
  /-- The byte offset, from zero. -/
  offset : Nat
  deriving DecidableEq, Repr, Inhabited

namespace Location

/-- The first character of a text. -/
def first : Location :=
  ⟨1, 1, 0⟩

/-- The place after a character. -/
def advance (l : Location) (c : Char) : Location :=
  if c = '\n' then ⟨l.line + 1, 1, l.offset + c.utf8Size⟩
  else ⟨l.line, l.column + 1, l.offset + c.utf8Size⟩

/-- `line:column` -/
def render (l : Location) : String :=
  s!"{l.line}:{l.column}"

/-- `line:column(offset)` -/
def renderFull (l : Location) : String :=
  s!"{l.line}:{l.column}({l.offset})"

end Location

/-- A range with both ends resolved. -/
structure Span where
  start : Location
  stop : Location
  deriving DecidableEq, Repr, Inhabited

/-- `line:column-line:column` -/
def Span.render (s : Span) : String :=
  s.start.render ++ "-" ++ s.stop.render

/-! ### Bytes and characters -/

/-- The length in bytes. -/
def byteLength (cs : List Char) : Nat :=
  cs.foldr (fun c n => c.utf8Size + n) 0

/-- The largest number of 32 bits. -/
def maxWord32 : Nat :=
  0xffffffff

/-- A number as 32 bits hold it: one past the largest counts as the largest. -/
def saturate (n : Nat) : Nat :=
  min n maxWord32

/-- The characters after the first `n` bytes; `none` if `n` is not a character boundary. -/
def dropBytes? (n : Nat) : List Char → Option (List Char)
  | [] => if n = 0 then some [] else none
  | c :: cs =>
    if n = 0 then some (c :: cs)
    else if c.utf8Size ≤ n then dropBytes? (n - c.utf8Size) cs
    else none

/-- The characters of the first `n` bytes; `none` if `n` is not a character boundary. -/
def takeBytes? (n : Nat) : List Char → Option (List Char)
  | [] => if n = 0 then some [] else none
  | c :: cs =>
    if n = 0 then some []
    else if c.utf8Size ≤ n then (takeBytes? (n - c.utf8Size) cs).map (c :: ·)
    else none

/-- The text of a byte range; empty if an end is not a character boundary of the text. -/
def Range.slice (r : Range) (cs : List Char) : List Char :=
  ((dropBytes? r.start cs).bind (takeBytes? (r.stop - r.start))).getD []

/-! ### Line index -/

/-- The offsets of the first characters of the lines after the first one, for a text that
starts at `offset`. -/
def laterLineStarts (offset : Nat) : List Char → List Nat
  | [] => []
  | c :: cs =>
    let next := offset + c.utf8Size
    if c = '\n' then saturate next :: laterLineStarts next cs else laterLineStarts next cs

/-- A text with the offsets of its lines. -/
structure LineIndex where
  text : List Char
  /-- The length of the text in bytes, saturated. -/
  size : Nat
  /-- The offset of the first character of each line, in order. -/
  lineStarts : List Nat

namespace LineIndex

def ofText (text : List Char) : LineIndex :=
  { text, size := saturate (byteLength text), lineStarts := 0 :: laterLineStarts 0 text }

/-- The location of an offset. An offset past the end counts as the end, and one inside a
character as the first column of its line. -/
def location (index : LineIndex) (offset : Nat) : Location :=
  let offset := min offset index.size
  let before := index.lineStarts.takeWhile (· ≤ offset)
  let lineStart := before.getLastD 0
  let column := (Range.mk lineStart offset).slice index.text |>.length
  { line := saturate before.length, column := saturate (column + 1), offset }

def span (index : LineIndex) (r : Range) : Span :=
  ⟨index.location r.start, index.location r.stop⟩

end LineIndex

end Parlance
