import Parlance.Binary64.Text
import Parlance.Text.Escape
import Parlance.Toml.Basic

/-!
# Reading TOML

A reader of configuration files: a list of lines, each of them a header, an entry or a
comment. Keys and nested values have fewer than `depthLimit` levels. The steps of the recursion
are bounded by the length of the text.
-/

namespace Parlance.Toml

/-- No key has so many parts, and no value is nested in so many brackets and braces. -/
def depthLimit : Nat := 80

/-- A reader takes characters from the front of a text. -/
abbrev Read (α : Type) := StateT (List Char) Option α

namespace Read

/-- The next character, which stays. -/
def peek : Read (Option Char) := do
  return (← get).head?

/-- Takes a text, or fails. -/
def token (text : List Char) : Read Unit := do
  let cs ← get
  if text.isPrefixOf cs then set (cs.drop text.length) else failure

/-- Takes a text, if it is next. -/
def optional (text : List Char) : Read Bool := do
  let cs ← get
  if text.isPrefixOf cs then
    set (cs.drop text.length)
    return true
  else return false

/-- Takes characters as long as they belong to a class. -/
def takeWhile (p : Char → Bool) : Read (List Char) := do
  let cs ← get
  set (cs.dropWhile p)
  return cs.takeWhile p

/-- Skips blanks inside a line. -/
def blanks : Read Unit := do
  let _ ← takeWhile fun c => c == ' ' || c == '\t'

/-- Characters that may stand in comments and strings of one line. -/
def isPlain (c : Char) : Bool :=
  c == '\t' || (0x20 ≤ c.toNat && c.toNat != 0x7f)

/-- Skips a comment, if one starts here. -/
def comment : Read Unit := do
  if ← optional ['#'] then
    let _ ← takeWhile isPlain

/-- Skips a line break, if one is here. -/
def lineBreak : Read Bool := do
  if ← optional ['\n'] then return true else optional ['\r', '\n']

/-- Skips blanks, comments and line breaks. -/
def gaps : Nat → Read Unit
  | 0 => return ()
  | fuel + 1 => do
    blanks
    comment
    if ← lineBreak then gaps fuel

/-- Skips blanks, comments and line breaks. -/
def allGaps : Read Unit := do
  gaps ((← get).length + 1)

/-! ### Strings -/

/-- The value of so many hexadecimal digits. -/
def hexDigits : Nat → Nat → Read Nat
  | 0, value => return value
  | count + 1, value => do
    match ← get with
    | [] => failure
    | c :: rest =>
      match digitValue? 16 c with
      | none => failure
      | some d =>
        set rest
        hexDigits count (value * 16 + d)

/-- The character of a code, unless it is half of one. -/
def charOf (n : Nat) : Read Char :=
  if 0x10ffff < n || (0xd800 ≤ n && n < 0xe000) then failure else return Char.ofNat n

/-- The character that a backslash and these characters denote. -/
def escaped : Read Char := do
  match ← get with
  | [] => failure
  | c :: rest =>
    set rest
    match c with
    | 'b' => return '\x08'
    | 't' => return '\t'
    | 'n' => return '\n'
    | 'f' => return '\x0c'
    | 'r' => return '\r'
    | '"' => return '"'
    | '\\' => return '\\'
    | 'u' => charOf (← hexDigits 4 0)
    | 'U' => charOf (← hexDigits 8 0)
    | _ => failure

/-- The rest of a string of one line after its quote. -/
def basicString : Nat → Read (List Char)
  | 0 => failure
  | fuel + 1 => do
    match ← get with
    | [] => failure
    | c :: rest =>
      set rest
      if c = '"' then return []
      else if c = '\\' then
        let d ← escaped
        return d :: (← basicString fuel)
      else if isPlain c then return c :: (← basicString fuel)
      else failure

/-- The rest of a string without escapes after its quote. -/
def literalString : Read (List Char) := do
  let cs ← takeWhile fun c => isPlain c && c != '\''
  token ['\'']
  return cs

/-- The number of quotes in front of the text. -/
def quotesAhead (quote : Char) : Read Nat := do
  return ((← get).takeWhile (· == quote)).length

/-- Skips blanks and line breaks. -/
def blankLines : Nat → Read Unit
  | 0 => return ()
  | fuel + 1 => do
    blanks
    if ← lineBreak then blankLines fuel

/-- Skips the line break after a backslash and all blanks and line breaks that follow. -/
def joinLines : Read Unit := do
  blanks
  if ← lineBreak then blankLines ((← get).length + 1) else failure

/-- The rest of a string of several lines. Three to five quotes end it, of which all but the
last three belong to it. -/
def longString (quote : Char) : Nat → Read (List Char)
  | 0 => failure
  | fuel + 1 => do
    let ahead ← quotesAhead quote
    if 3 ≤ ahead then
      let inside := min ahead 5 - 3
      modify (·.drop (inside + 3))
      return List.replicate inside quote
    else
      match ← get with
      | [] => failure
      | c :: rest =>
        set rest
        if c = '\\' && quote = '"' then
          match rest with
          | d :: _ =>
            if d = ' ' || d = '\t' || d = '\n' || d = '\r' then
              joinLines
              longString quote fuel
            else
              let e ← escaped
              return e :: (← longString quote fuel)
          | [] => failure
        else if c = '\r' then
          token ['\n']
          return '\n' :: (← longString quote fuel)
        else if c = '\n' || isPlain c then return c :: (← longString quote fuel)
        else failure

/-- A string, if one starts here. -/
def string? : Read (Option String) := do
  let fuel := (← get).length + 1
  if ← optional ['"', '"', '"'] then
    let _ ← lineBreak
    return some (String.ofList (← longString '"' fuel))
  else if ← optional ['\'', '\'', '\''] then
    let _ ← lineBreak
    return some (String.ofList (← longString '\'' fuel))
  else if ← optional ['"'] then return some (String.ofList (← basicString fuel))
  else if ← optional ['\''] then return some (String.ofList (← literalString))
  else return none

/-! ### Keys -/

def isKeyChar (c : Char) : Bool :=
  c.isAlphanum || c == '_' || c == '-'

/-- One part of a key: bare, or a string of one line. -/
def keyPart : Read String := do
  let fuel := (← get).length + 1
  if ← optional ['"'] then return String.ofList (← basicString fuel)
  else if ← optional ['\''] then return String.ofList (← literalString)
  else
    let cs ← takeWhile isKeyChar
    if cs.isEmpty then failure else return String.ofList cs

/-- The parts of a key, with dots between them. -/
def key : Nat → Read (List String)
  | 0 => failure
  | fuel + 1 => do
    blanks
    let part ← keyPart
    blanks
    if ← optional ['.'] then return part :: (← key fuel) else return [part]

/-- A key within the limit. -/
def anyKey : Read (List String) := do
  let parts ← key ((← get).length + 1)
  if parts.length < depthLimit then return parts else failure

/-! ### Numbers and truth values -/

/-- Digits of a base with single underscores between them. -/
def digits? (base : Nat) (cs : List Char) : Option Nat :=
  let groups := cs.splitOn '_'
  if groups.any List.isEmpty then none
  else (cs.filter (· != '_')).foldlM (fun n c => (digitValue? base c).map (base * n + ·)) 0

/-- Whether decimal digits have no superfluous zero in front. -/
def isCanonical (cs : List Char) : Bool :=
  cs.head? != some '0' || cs.length == 1

/-- An integer of 64 bits. -/
def integer? (cs : List Char) : Option Int := do
  let n : Int ← match cs with
    | '0' :: 'x' :: ds => (digits? 16 ds).map Int.ofNat
    | '0' :: 'o' :: ds => (digits? 8 ds).map Int.ofNat
    | '0' :: 'b' :: ds => (digits? 2 ds).map Int.ofNat
    | '-' :: ds => if isCanonical ds then (digits? 10 ds).map fun n => -Int.ofNat n else none
    | '+' :: ds => if isCanonical ds then (digits? 10 ds).map Int.ofNat else none
    | ds => if isCanonical ds then (digits? 10 ds).map Int.ofNat else none
  if Int64.minValue.toInt ≤ n ∧ n ≤ Int64.maxValue.toInt then return n else none

/-- Whether a text is a number that is not an integer. -/
def isFloat (cs : List Char) : Bool :=
  let body := match cs with
    | '-' :: r | '+' :: r => r
    | r => r
  if body = "inf".toList || body = "nan".toList then true
  else
    let mantissa := body.takeWhile fun c => c != 'e' && c != 'E'
    let exponent := body.dropWhile fun c => c != 'e' && c != 'E'
    let exponentOk := match exponent with
      | [] => true
      | _ :: '-' :: r | _ :: '+' :: r => (digits? 10 r).isSome
      | _ :: r => (digits? 10 r).isSome
    let whole := mantissa.takeWhile (· != '.')
    let fractionOk := match mantissa.dropWhile (· != '.') with
      | [] => !exponent.isEmpty
      | _ :: r => (digits? 10 r).isSome
    isCanonical whole && (digits? 10 whole).isSome && fractionOk && exponentOk

/-- Whether a number that is not an integer is too large for the floating-point format. Only
positive numbers count. -/
def isTooLarge (cs : List Char) : Bool :=
  cs.any Char.isDigit &&
    Binary64.read? (String.ofList (cs.filter (· != '_'))) == some (.infinity false)

/-- A value written as a word: a truth value or a number. -/
def wordValue : Read Toml := do
  let cs ← takeWhile fun c => c.isAlphanum || c == '_' || c == '-' || c == '+' || c == '.'
  if cs = "true".toList then return .bool true
  else if cs = "false".toList then return .bool false
  else
    match integer? cs with
    | some n => return .int n
    | none =>
      if isFloat cs && !isTooLarge cs then return .float (String.ofList cs) else failure

/-! ### Dates and times -/

/-- The text after a number of so many digits within bounds, and the number. -/
def numeral? (width low high : Nat) (cs : List Char) : Option (Nat × List Char) := do
  let ds := cs.take width
  if ds.length = width && ds.all Char.isDigit then
    let n ← digits? 10 ds
    if low ≤ n ∧ n ≤ high then return (n, cs.drop width) else none
  else none

/-- The text after a character. -/
def after? (c : Char) : List Char → Option (List Char)
  | d :: rest => if d = c then some rest else none
  | [] => none

/-- The number of days of a month. -/
def daysOfMonth (year month : Nat) : Nat :=
  if month = 2 then
    if year % 4 = 0 ∧ (year % 100 ≠ 0 ∨ year % 400 = 0) then 29 else 28
  else if month = 4 ∨ month = 6 ∨ month = 9 ∨ month = 11 then 30
  else 31

/-- The text after a date, `year-month-day`. -/
def date? (cs : List Char) : Option (List Char) := do
  let (year, cs) ← numeral? 4 0 9999 cs
  let (month, cs) ← numeral? 2 1 12 (← after? '-' cs)
  let (_, cs) ← numeral? 2 1 (daysOfMonth year month) (← after? '-' cs)
  return cs

/-- The text after a time, `hour:minute:second`, perhaps with a fraction of the second. -/
def time? (cs : List Char) : Option (List Char) := do
  let (_, cs) ← numeral? 2 0 23 cs
  let (_, cs) ← numeral? 2 0 59 (← after? ':' cs)
  let (_, cs) ← numeral? 2 0 60 (← after? ':' cs)
  match cs with
  | '.' :: d :: rest => return if d.isDigit then rest.dropWhile Char.isDigit else cs
  | cs => return cs

/-- The text after the distance of a time from universal time, which may be missing. -/
def afterOffset (cs : List Char) : List Char :=
  match cs with
  | 'Z' :: rest | 'z' :: rest => rest
  | '+' :: rest | '-' :: rest =>
    let distance := do
      let (_, rest) ← numeral? 2 0 23 rest
      let (_, rest) ← numeral? 2 0 59 (← after? ':' rest)
      return rest
    distance.getD cs
  | cs => cs

/-- The text after a date, a time, or both. -/
def dateTime? (cs : List Char) : Option (List Char) :=
  match date? cs with
  | none => time? cs
  | some rest =>
    match rest with
    | c :: more =>
      if c = 'T' || c = 't' || c = ' ' then some (((time? more).map afterOffset).getD rest)
      else some rest
    | [] => some []

/-- A value written as a word: a date or time, a truth value or a number. -/
def plainValue : Read Toml := do
  match dateTime? (← get) with
  | some rest =>
    set rest
    return .dateTime
  | none => wordValue

/-! ### Values -/

mutual

/-- A value inside `depth` brackets and braces. -/
def value (depth : Nat) : Nat → Read Toml
  | 0 => failure
  | fuel + 1 => do
    if ← optional ['['] then
      if depth + 1 < depthLimit then return .array (← arrayItems (depth + 1) fuel) else failure
    else if ← optional ['{'] then
      if depth + 1 < depthLimit then
        blanks
        if ← optional ['}'] then return .table .explicit true []
        else return .table .explicit true (← inlineEntries (depth + 1) fuel [])
      else failure
    else
      match ← string? with
      | some s => return .str s
      | none => plainValue

/-- The items of an array up to its bracket. A comma may follow the last. -/
def arrayItems (depth : Nat) : Nat → Read (List Toml)
  | 0 => failure
  | fuel + 1 => do
    allGaps
    if ← optional [']'] then return []
    else
      let v ← value depth fuel
      allGaps
      if ← optional [','] then return v :: (← arrayItems depth fuel)
      else
        token [']']
        return [v]

/-- The entries of a table in braces, after those in `done`. -/
def inlineEntries (depth : Nat) : Nat → Entries → Read Entries
  | 0, _ => failure
  | fuel + 1, done => do
    let path ← anyKey
    token ['=']
    blanks
    let v ← value depth fuel
    blanks
    match insertDotted path v done with
    | none => failure
    | some done =>
      if ← optional [','] then inlineEntries depth fuel done
      else
        token ['}']
        return done

end

/-! ### Documents -/

/-- The end of a line, or of the text. -/
def endOfLine : Read Unit := do
  blanks
  comment
  match ← peek with
  | none => return ()
  | some _ => if ← lineBreak then return () else failure

/-- A header: the path, and whether it has double brackets. -/
def header : Read (List String × Bool) := do
  let double ← optional ['[']
  let path ← anyKey
  token (if double then [']', ']'] else [']'])
  return (path, double)

/-- The change that a header makes at the path of its parent. -/
def openHeader (path : List String) (double : Bool) (root : Entries) : Option Entries :=
  match path.getLast? with
  | none => none
  | some last => changeAt (if double then appendTable last else openTable last) path.dropLast root

/-- The lines of a document, after `root` was read and with `current` as the open table. -/
def lines : Nat → List String → Entries → Read Entries
  | 0, _, _ => failure
  | fuel + 1, current, root => do
    blanks
    match ← peek with
    | none => return root
    | some c =>
      if c = '#' || c = '\n' || c = '\r' then
        endOfLine
        lines fuel current root
      else if ← optional ['['] then
        let (path, double) ← header
        endOfLine
        match openHeader path double root with
        | none => failure
        | some root => lines fuel path root
      else
        let path ← anyKey
        token ['=']
        blanks
        let v ← value 0 fuel
        endOfLine
        match changeAt (insertDotted path v) current root with
        | none => failure
        | some root => lines fuel current root

end Read

/-- Reads a document. A byte order mark in front of it is ignored. -/
def parse? (text : String) : Option Entries := do
  let cs := match text.toList with
    | '\uFEFF' :: rest => rest
    | cs => cs
  let (root, _) ← (Read.lines (cs.length + 2) [] []).run cs
  return root

end Parlance.Toml
