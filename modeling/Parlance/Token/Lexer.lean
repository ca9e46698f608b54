import Parlance.Grammar.Basic
import Parlance.Token.Literal

/-!
# The lexer

A lexer walks over a text and gives one item after the other: a token, or what is wrong with
the text at that place. Blanks and comments between tokens are left out. The last item is the
end of the input, unless the lexer halts at an error.

The scanning functions take the text that is left and give the text that is left after what
they matched; `Lexer.next` measures the difference.
-/

namespace Parlance

/-- What the lexer was matching when it met an error. -/
inductive LexRule where
  | token
  | number
  | string
  | blockComment
  deriving DecidableEq, Repr

def LexRule.name : LexRule → String
  | .token => "token"
  | .number => "number literal"
  | .string => "string literal"
  | .blockComment => "block comment"

/-- A lexical error. -/
structure LexError where
  fault : LexFault
  rule : LexRule
  range : Range
  location : Location
  deriving Repr

def LexError.message (e : LexError) : String :=
  s!"{e.fault.message} (in {e.rule.name})"

/-- What the lexer does after an error. -/
inductive Recovery where
  /-- Stop. -/
  | halt
  /-- Go on at the next blank or punctuation mark. -/
  | skip
  deriving DecidableEq, Repr, Inhabited

/-- An item of the lexer. -/
abbrev LexItem := Except LexError Token

/-! ### Matching symbols -/

/-- The text after a nonempty `symbol`, if it starts with it. -/
def eatSymbol? (symbol : List Char) (cs : List Char) : Option (List Char) :=
  if !symbol.isEmpty && symbol.isPrefixOf cs then some (cs.drop symbol.length) else none

/-- The longer of two matches, the first one if they are equally long. -/
def longer (a b : Option (List Char × TokenKind)) : Option (List Char × TokenKind) :=
  match a, b with
  | some x, some y => if byteLength x.1 < byteLength y.1 then some y else some x
  | some x, none => some x
  | none, b => b

/-- The longest of the symbols that the text starts with, and its kind. Of equally long ones it
is the last. -/
def longestMatch (cs : List Char) (symbols : List (List Char × TokenKind)) :
    Option (List Char × TokenKind) :=
  (symbols.filter fun s => s.1.isPrefixOf cs).foldr (fun s best => longer best (some s)) none

namespace Grammar

/-- The operators that are not words. -/
def symbolOperators (g : Grammar) : List (List Char × TokenKind) :=
  (g.operators.filter fun r => !(r.symbol.toList.head?.any isIdStart)).map fun r =>
    (r.symbol.toList, .operator r.operator)

def symbolPuncts (g : Grammar) : List (List Char × TokenKind) :=
  g.punctuation.map fun r => (r.symbol.toList, .punct r.punct)

/-- The longest operator or punctuation mark that the text starts with, the operator if they are
equally long. -/
def symbol? (g : Grammar) (cs : List Char) : Option (List Char × TokenKind) :=
  longer (longestMatch cs g.symbolOperators) (longestMatch cs g.symbolPuncts)

/-- What a word is. -/
def wordKind (g : Grammar) (word : List Char) : TokenKind :=
  match g.word? (String.ofList word) with
  | some (.keyword kw) => .keyword kw
  | some (.operator op) => .operator op
  | none => .ident

end Grammar

/-! ### Blanks and comments -/

/-- The text after a comment that is open `depth + 1` deep; `none` if it does not end. The
next `skip` characters belong to a delimiter that was just met. -/
def closeComment? (opening closing : List Char) : Nat → Nat → List Char → Option (List Char)
  | _, _, [] => none
  | skip + 1, depth, _ :: cs => closeComment? opening closing skip depth cs
  | 0, depth, c :: cs =>
    if !closing.isEmpty && closing.isPrefixOf (c :: cs) then
      match depth with
      | 0 => some ((c :: cs).drop closing.length)
      | depth + 1 => closeComment? opening closing (closing.length - 1) depth cs
    else if !opening.isEmpty && opening.isPrefixOf (c :: cs) then
      closeComment? opening closing (opening.length - 1) (depth + 1) cs
    else closeComment? opening closing 0 depth cs

/-- The text after blanks and comments. An error is the text from the comment that does not
end. -/
def skipTrivia (g : Grammar) : Nat → List Char → Except (List Char) (List Char)
  | 0, cs => .ok cs
  | fuel + 1, cs =>
    if cs.head?.any isBlank then skipTrivia g fuel (cs.dropWhile isBlank)
    else
      match eatSymbol? g.lineComment.toList cs with
      | some rest => skipTrivia g fuel (rest.dropWhile (· != '\n'))
      | none =>
        match eatSymbol? g.blockComment.1.toList cs with
        | some rest =>
          match closeComment? g.blockComment.1.toList g.blockComment.2.toList 0 0 rest with
          | some rest => skipTrivia g fuel rest
          | none => .error cs
        | none => .ok cs

/-! ### Numbers -/

/-- A part of a number: digits and underscores. Tells whether there was a digit. -/
def eatDigits (isDigit : Char → Bool) (cs : List Char) : Bool × List Char :=
  let inside (c : Char) : Bool := isDigit c || c == '_'
  ((cs.takeWhile inside).any isDigit, cs.dropWhile inside)

def isHexDigit (c : Char) : Bool :=
  (digitValue? 16 c).isSome

/-- An exponent after its letter: perhaps a sign, then digits. -/
def eatExponent (cs : List Char) : Bool × List Char :=
  match cs with
  | '-' :: rest | '+' :: rest => eatDigits Char.isDigit rest
  | rest => eatDigits Char.isDigit rest

/-- The integer part of a number: whether it is decimal, and the rest. The error comes with
the rest too. -/
def eatWhole (cs : List Char) : Except (LexFault × List Char) (Bool × List Char) :=
  match cs with
  | '0' :: 'b' :: rest | '0' :: 'o' :: rest =>
    match eatDigits Char.isDigit rest with
    | (true, rest) => .ok (false, rest)
    | (false, rest) => .error (.emptyInt, rest)
  | '0' :: 'x' :: rest =>
    match eatDigits isHexDigit rest with
    | (true, rest) => .ok (false, rest)
    | (false, rest) => .error (.emptyInt, rest)
  | cs => .ok (true, (eatDigits Char.isDigit cs).2)

/-- An exponent, if one starts here and may: whether there was one, and the rest. -/
def eatExponentPart (allowed : Bool) (cs : List Char) :
    Except (LexFault × List Char) (Bool × List Char) :=
  match cs with
  | c :: rest =>
    if allowed && (c == 'e' || c == 'E') then
      match eatExponent rest with
      | (true, rest) => .ok (true, rest)
      | (false, rest) => .error (.emptyExponent, rest)
    else .ok (false, cs)
  | [] => .ok (false, cs)

/-- The fraction and exponent of a number: whether it has any, and the rest. A fraction
starts with a digit. -/
def eatFraction (decimal : Bool) (cs : List Char) :
    Except (LexFault × List Char) (Bool × List Char) :=
  match cs with
  | '.' :: d :: rest =>
    if d.isDigit then
      match eatExponentPart true (eatDigits Char.isDigit (d :: rest)).2 with
      | .ok (_, rest) => .ok (true, rest)
      | .error e => .error e
    else .ok (false, cs)
  | cs => eatExponentPart decimal cs

/-- The extent of a number: whether it is decimal, whether it has a fraction or exponent,
and the rest. No identifier may follow it directly. -/
def eatNumber (cs : List Char) : Except (LexFault × List Char) (Bool × Bool × List Char) := do
  let (decimal, rest) ← eatWhole cs
  let (fractional, rest) ← eatFraction decimal rest
  if rest.head?.any isIdContinue then .error (.invalidDigit, rest.dropWhile isIdContinue)
  else .ok (decimal, fractional, rest)

/-- The characters of `cs` before its ending `rest`. -/
def consumed (cs rest : List Char) : List Char :=
  cs.take (cs.length - rest.length)

/-- The kind of a number with this text. -/
def numberKind (decimal fractional : Bool) (text : List Char) : Except LexFault TokenKind :=
  if fractional then
    if decimal then (fun _ => .lit .float) <$> readFloatLiteral text else .error .nonDecimalFloat
  else (fun _ => .lit .int) <$> readIntLiteral text

/-- A number that starts here. -/
def scanNumber (cs : List Char) : Except LexFault TokenKind × List Char :=
  match eatNumber cs with
  | .error (fault, rest) => (.error fault, rest)
  | .ok (decimal, fractional, rest) =>
    (numberKind decimal fractional (consumed cs rest), rest)

/-! ### Strings -/

/-- The text after the closing quote of a string; `none` if it does not end. A backslash
takes the next character with it. -/
def closeString? : List Char → Option (List Char)
  | [] => none
  | '"' :: rest => some rest
  | '\\' :: _ :: rest => closeString? rest
  | _ :: rest => closeString? rest

/-- A string that starts here with its quote. -/
def scanString (cs : List Char) : Except LexFault TokenKind × List Char :=
  match closeString? (cs.drop 1) with
  | none => (.error .unterminatedString, [])
  | some rest =>
    match readStringLiteral (consumed cs rest) with
    | .ok _ => (.ok (.lit .str), rest)
    | .error fault => (.error fault, rest)

/-! ### Tokens -/

/-- The token that starts with the character `c`, or what is wrong with it and the rule that
found it; and the rest. -/
def scanToken (g : Grammar) (c : Char) (cs : List Char) :
    Except (LexFault × LexRule) TokenKind × List Char :=
  if isIdStart c then
    let rest := cs.dropWhile isIdContinue
    (.ok (g.wordKind (consumed (c :: cs) rest)), rest)
  else if c.isDigit then
    let (result, rest) := scanNumber (c :: cs)
    (result.mapError (·, .number), rest)
  else if c = '"' then
    let (result, rest) := scanString (c :: cs)
    (result.mapError (·, .string), rest)
  else
    match g.symbol? (c :: cs) with
    | some (symbol, kind) => (.ok kind, (c :: cs).drop symbol.length)
    | none => (.error (.unexpectedChar c, .token), cs)

/-- A text being read: what is left of it, and where. -/
structure Lexer where
  grammar : Grammar
  recovery : Recovery
  rest : List Char
  location : Location
  /-- Whether the last item was given. -/
  done : Bool

namespace Lexer

def ofText (grammar : Grammar) (recovery : Recovery) (text : List Char) : Lexer :=
  { grammar, recovery, rest := text, location := .first, done := false }

/-- The lexer with only `rest` left, at the place after what lies before it. -/
def moveTo (lexer : Lexer) (rest : List Char) : Lexer :=
  { lexer with
    rest := rest
    location := (consumed lexer.rest rest).foldl Location.advance lexer.location }

/-- Whether the text starts with a blank or a punctuation mark, or is empty. -/
def atBoundary (g : Grammar) : List Char → Bool
  | [] => true
  | c :: cs =>
    isBlank c || g.punctuation.any fun r => r.symbol.toList.isPrefixOf (c :: cs)

/-- The text from the next boundary on. -/
def skipToBoundary (g : Grammar) : List Char → List Char
  | [] => []
  | c :: cs => if atBoundary g (c :: cs) then c :: cs else skipToBoundary g cs

/-- The next item at the lexer's place, and the lexer after it. -/
def scan (lexer : Lexer) : LexItem × Lexer :=
  match skipTrivia lexer.grammar (lexer.rest.length + 1) lexer.rest with
  | .error comment =>
    let start := lexer.moveTo comment
    let after := start.moveTo []
    (.error ⟨.unterminatedComment, .blockComment, ⟨start.location.offset, after.location.offset⟩,
      start.location⟩, after)
  | .ok rest =>
    let start := lexer.moveTo rest
    match rest with
    | [] =>
      let offset := start.location.offset
      (.ok ⟨.eof, [], ⟨offset, offset⟩, start.location⟩, start)
    | c :: cs =>
      let (result, left) := scanToken lexer.grammar c cs
      let after := start.moveTo left
      let range : Range := ⟨start.location.offset, after.location.offset⟩
      match result with
      | .ok kind => (.ok ⟨kind, consumed rest left, range, start.location⟩, after)
      | .error (fault, rule) => (.error ⟨fault, rule, range, start.location⟩, after)

/-- The lexer after an item. -/
def settle (lexer : Lexer) : LexItem → Lexer
  | .ok token => if token.kind = .eof then { lexer with done := true } else lexer
  | .error _ =>
    match lexer.recovery with
    | .halt => { lexer with done := true }
    | .skip => lexer.moveTo (skipToBoundary lexer.grammar lexer.rest)

/-- The next item, if there is one. -/
def next (lexer : Lexer) : Option LexItem × Lexer :=
  if lexer.done then (none, lexer)
  else
    let (item, lexer) := lexer.scan
    (some item, lexer.settle item)

/-- At most `fuel` further items. -/
def takeItems : Nat → Lexer → List LexItem × Lexer
  | 0, lexer => ([], lexer)
  | fuel + 1, lexer =>
    match lexer.next with
    | (none, lexer) => ([], lexer)
    | (some item, lexer) =>
      let (items, lexer) := takeItems fuel lexer
      (item :: items, lexer)

/-- All further items. Each one but the last takes a character, so there are no more than
this. (Only an empty symbol takes none, and a lexer with one would go on forever; a validated
grammar has no empty symbol.) -/
def remaining (lexer : Lexer) : List LexItem × Lexer :=
  takeItems (lexer.rest.length + 1) lexer

end Lexer

/-- All items of a text. -/
def lexItems (g : Grammar) (recovery : Recovery) (text : List Char) : List LexItem :=
  (Lexer.ofText g recovery text).remaining.1

end Parlance
