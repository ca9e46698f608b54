import Parlance.Binary64.Text
import Parlance.Text.Escape
import Parlance.Text.Quoted

/-!
# Literals

The values that literal tokens denote, and the faults a lexeme can have. Underscores may
separate the digits of a number.
-/

namespace Parlance

/-- What is wrong with a piece of program text. -/
inductive LexFault where
  | unexpectedChar (c : Char)
  | unterminatedString
  | unterminatedComment
  | emptyInt
  | emptyExponent
  | nonDecimalFloat
  | intOutOfRange
  | invalidDigit
  | escape (error : EscapeError)
  deriving DecidableEq, Repr

def LexFault.message : LexFault → String
  | .unexpectedChar c => "unexpected character " ++ quoteChar c
  | .unterminatedString => "unterminated string"
  | .unterminatedComment => "unterminated block comment"
  | .emptyInt => "missing digits after the integer base prefix"
  | .emptyExponent => "expected at least one digit in exponent"
  | .nonDecimalFloat => "float literal with a non-decimal base"
  | .intOutOfRange => "integer literal is out of range"
  | .invalidDigit => "invalid digit"
  | .escape error => error.message

/-! ### Integers -/

/-- The value of digits in a base, continuing from `n`, as long as it stays within `limit`.
The first digit that is wrong or leads past the limit decides the fault. -/
def readDigits (base limit : Nat) : Nat → List Char → Except LexFault Nat
  | n, [] => .ok n
  | n, c :: cs =>
    match digitValue? base c with
    | none => .error .invalidDigit
    | some d =>
      if base * n + d ≤ limit then readDigits base limit (base * n + d) cs
      else .error .intOutOfRange

/-- The magnitude of the least 64-bit integer; the greatest is one below it. -/
def int64Magnitude : Nat :=
  1 <<< 63

/-- A 64-bit integer in a base, with an optional sign. -/
def readSigned (base : Nat) : List Char → Except LexFault Int64
  | [] => .error .emptyInt
  | ['+'] | ['-'] => .error .invalidDigit
  | '+' :: cs => (fun n => Int64.ofInt n) <$> readDigits base (int64Magnitude - 1) 0 cs
  | '-' :: cs => (fun n => Int64.ofInt (-n)) <$> readDigits base int64Magnitude 0 cs
  | cs => (fun n => Int64.ofInt n) <$> readDigits base (int64Magnitude - 1) 0 cs

/-- A text without its underscores. -/
def dropSeparators (cs : List Char) : List Char :=
  cs.filter (· != '_')

/-- The value of an integer literal, whose first characters tell its base. -/
def readIntLiteral (cs : List Char) : Except LexFault Int64 :=
  match dropSeparators cs with
  | '0' :: 'x' :: ds => readSigned 16 ds
  | '0' :: 'o' :: ds => readSigned 8 ds
  | '0' :: 'b' :: ds => readSigned 2 ds
  | ds => readSigned 10 ds

/-! ### Numbers and strings -/

/-- The value of a float literal. -/
def readFloatLiteral (cs : List Char) : Except LexFault Binary64 :=
  match Binary64.read? (String.ofList (dropSeparators cs)) with
  | some x => .ok x
  | none => .error .invalidDigit

/-- The text between two double quotes. -/
def stripQuotes? : List Char → Option (List Char)
  | '"' :: cs => if cs.getLast? = some '"' then some cs.dropLast else none
  | _ => none

/-- The value of a string literal, quotes included. -/
def readStringLiteral (cs : List Char) : Except LexFault String :=
  match stripQuotes? cs with
  | none => .error .unterminatedString
  | some body =>
    match unescape body with
    | .ok s => .ok (String.ofList s)
    | .error e => .error (.escape e)

end Parlance
