/-!
# Escapes in string literals

`escape` writes a string so that it can stand between double quotes; `unescape` reads the
body of a string literal. Reading knows more spellings than writing uses: hexadecimal and
Unicode escapes, and a backslash before a line feed, which joins two lines.
-/

namespace Parlance

/-! ### Writing -/

/-- The written form of one character. -/
def escapeChar (c : Char) : List Char :=
  match c with
  | '\x00' => ['\\', '0']
  | '\t' => ['\\', 't']
  | '\r' => ['\\', 'r']
  | '\n' => ['\\', 'n']
  | '\\' => ['\\', '\\']
  | '"' => ['\\', '"']
  | c => [c]

/-- The body of the literal that denotes `cs`. -/
def escape (cs : List Char) : List Char :=
  cs.flatMap escapeChar

/-- The literal that denotes a string, quotes included. -/
def quote (s : String) : String :=
  String.ofList ('"' :: escape s.toList ++ ['"'])

/-! ### Reading -/

/-- Why the body of a string literal can not be read. -/
inductive EscapeError where
  | loneSlash
  | invalidEscape
  | bareCarriageReturn
  | tooShortHexEscape
  | invalidCharInHexEscape
  | outOfRangeHexEscape
  | noBraceInUnicodeEscape
  | invalidCharInUnicodeEscape
  | emptyUnicodeEscape
  | unclosedUnicodeEscape
  | leadingUnderscoreUnicodeEscape
  | overlongUnicodeEscape
  | loneSurrogateUnicodeEscape
  | outOfRangeUnicodeEscape
  deriving DecidableEq, Repr

def EscapeError.message : EscapeError → String
  | .loneSlash => "escaped '\\' character without continuation"
  | .invalidEscape => "invalid escape character"
  | .bareCarriageReturn => "bare carriage return"
  | .tooShortHexEscape => "numeric character escape is too short"
  | .invalidCharInHexEscape => "invalid character in numeric escape"
  | .outOfRangeHexEscape => "character code in numeric escape is non-ascii"
  | .noBraceInUnicodeEscape => "'\\u' not followed by '\x7b'"
  | .invalidCharInUnicodeEscape => "non-hexadecimal value in unicode escape"
  | .emptyUnicodeEscape => "empty unicode escape"
  | .unclosedUnicodeEscape => "unclosed unicode escape"
  | .leadingUnderscoreUnicodeEscape => "leading underscore in unicode escape"
  | .overlongUnicodeEscape => "overlong unicode escape"
  | .loneSurrogateUnicodeEscape => "unicode escape is a lone surrogate"
  | .outOfRangeUnicodeEscape => "unicode escape is out of range"

/-- The value of a digit in a base up to 16; letters in either case. -/
def digitValue? (base : Nat) (c : Char) : Option Nat :=
  let v :=
    if '0' ≤ c ∧ c ≤ '9' then c.toNat - '0'.toNat
    else if 'a' ≤ c ∧ c ≤ 'f' then c.toNat - 'a'.toNat + 10
    else if 'A' ≤ c ∧ c ≤ 'F' then c.toNat - 'A'.toNat + 10
    else 16
  if v < base then some v else none

/-- The character that a backslash and a letter denote. -/
def simpleEscape? (c : Char) : Option Char :=
  match c with
  | '"' => some '"'
  | '\'' => some '\''
  | 'n' => some '\n'
  | 'r' => some '\r'
  | 't' => some '\t'
  | '\\' => some '\\'
  | '0' => some '\x00'
  | _ => none

/-- The character of a two-digit hexadecimal escape, which is ASCII. -/
def hexEscape (high low : Nat) : Except EscapeError Char :=
  let value := high * 16 + low
  if 0x7f < value then .error .outOfRangeHexEscape else .ok (Char.ofNat value)

/-- The character of a Unicode escape with `count` digits and this value. -/
def unicodeEscape (count value : Nat) : Except EscapeError Char :=
  if 6 < count then .error .overlongUnicodeEscape
  else if 0x10ffff < value then .error .outOfRangeUnicodeEscape
  else if 0xd800 ≤ value ∧ value < 0xe000 then .error .loneSurrogateUnicodeEscape
  else .ok (Char.ofNat value)

mutual

/-- The string that the body of a literal denotes, or its first fault. -/
def unescape : List Char → Except EscapeError (List Char)
  | [] => .ok []
  | '\\' :: rest => unescapeAfterSlash rest
  | c :: rest =>
    if c = '\r' then .error .bareCarriageReturn else (c :: ·) <$> unescape rest

/-- Reading goes on after a backslash. -/
def unescapeAfterSlash : List Char → Except EscapeError (List Char)
  | [] => .error .loneSlash
  | '\n' :: rest => unescape rest
  | 'x' :: rest => unescapeHex rest
  | 'u' :: rest => unescapeUnicode rest
  | c :: rest =>
    match simpleEscape? c with
    | some d => (d :: ·) <$> unescape rest
    | none => .error .invalidEscape

/-- Reading goes on after `\x`. -/
def unescapeHex : List Char → Except EscapeError (List Char)
  | [] => .error .tooShortHexEscape
  | h :: rest =>
    match digitValue? 16 h, rest with
    | none, _ => .error .invalidCharInHexEscape
    | some _, [] => .error .tooShortHexEscape
    | some high, l :: rest =>
      match digitValue? 16 l with
      | none => .error .invalidCharInHexEscape
      | some low =>
        match hexEscape high low with
        | .error e => .error e
        | .ok c => (c :: ·) <$> unescape rest

/-- Reading goes on after `\u`. -/
def unescapeUnicode : List Char → Except EscapeError (List Char)
  | '{' :: rest =>
    match rest with
    | [] => .error .unclosedUnicodeEscape
    | c :: rest =>
      if c = '_' then .error .leadingUnderscoreUnicodeEscape
      else if c = '}' then .error .emptyUnicodeEscape
      else
        match digitValue? 16 c with
        | none => .error .invalidCharInUnicodeEscape
        | some v => unescapeDigits 1 v rest
  | _ => .error .noBraceInUnicodeEscape

/-- Reading goes on inside the braces, after `count` digits. Underscores are skipped, and
digits past the sixth are counted only. -/
def unescapeDigits (count value : Nat) : List Char → Except EscapeError (List Char)
  | [] => .error .unclosedUnicodeEscape
  | c :: rest =>
    if c = '_' then unescapeDigits count value rest
    else if c = '}' then
      match unicodeEscape count value with
      | .error e => .error e
      | .ok c => (c :: ·) <$> unescape rest
    else
      match digitValue? 16 c with
      | none => .error .invalidCharInUnicodeEscape
      | some v => unescapeDigits (count + 1) (if count < 6 then value * 16 + v else value) rest

end

end Parlance
