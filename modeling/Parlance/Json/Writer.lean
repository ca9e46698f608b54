import Parlance.Json.Basic

/-!
# Writing JSON

`render` writes a value on one line, `renderPretty` one item per line with two blanks for
each level.
-/

namespace Parlance.Json

/-- The two hexadecimal digits of a number below 256. -/
def hexByte (n : Nat) : List Char :=
  [Nat.digitChar (n / 16), Nat.digitChar (n % 16)]

/-- The written form of one character of a string. -/
def writeChar (c : Char) : List Char :=
  if c = '"' then ['\\', '"']
  else if c = '\\' then ['\\', '\\']
  else if c = '\x08' then ['\\', 'b']
  else if c = '\x0c' then ['\\', 'f']
  else if c = '\n' then ['\\', 'n']
  else if c = '\r' then ['\\', 'r']
  else if c = '\t' then ['\\', 't']
  else if c.toNat < 0x20 then '\\' :: 'u' :: '0' :: '0' :: hexByte c.toNat
  else [c]

/-- A string with its quotes. -/
def writeString (s : String) : List Char :=
  '"' :: s.toList.flatMap writeChar ++ ['"']

/-- The text of a value that is neither an array nor an object. -/
def writeScalar : Json → List Char
  | .null => "null".toList
  | .bool true => "true".toList
  | .bool false => "false".toList
  | .int n => (toString n).toList
  | .real text => text.toList
  | .str s => writeString s
  | _ => "null".toList

mutual

/-- A value on one line. -/
def write : Json → List Char
  | .array items => '[' :: writeItems items ++ [']']
  | .object fields => '{' :: writeFields fields ++ ['}']
  | v => writeScalar v

def writeItems : List Json → List Char
  | [] => []
  | [v] => write v
  | v :: vs => write v ++ ',' :: writeItems vs

def writeFields : List (String × Json) → List Char
  | [] => []
  | [(k, v)] => writeString k ++ ':' :: write v
  | (k, v) :: fs => writeString k ++ ':' :: write v ++ ',' :: writeFields fs

end

/-- A line break and the indentation of a level. -/
def newline (level : Nat) : List Char :=
  '\n' :: List.replicate (2 * level) ' '

mutual

/-- A value with one item per line, inside `level` brackets. -/
def writePretty (level : Nat) : Json → List Char
  | .array [] => ['[', ']']
  | .array items =>
    '[' :: newline (level + 1) ++ writePrettyItems (level + 1) items ++ newline level ++ [']']
  | .object [] => ['{', '}']
  | .object fields =>
    '{' :: newline (level + 1) ++ writePrettyFields (level + 1) fields ++ newline level ++ ['}']
  | v => writeScalar v

def writePrettyItems (level : Nat) : List Json → List Char
  | [] => []
  | [v] => writePretty level v
  | v :: vs => writePretty level v ++ ',' :: newline level ++ writePrettyItems level vs

def writePrettyFields (level : Nat) : List (String × Json) → List Char
  | [] => []
  | [(k, v)] => writeString k ++ ':' :: ' ' :: writePretty level v
  | (k, v) :: fs =>
    writeString k ++ ':' :: ' ' :: writePretty level v ++ ',' :: newline level ++
      writePrettyFields level fs

end

/-- A value on one line. -/
def render (v : Json) : String :=
  String.ofList (write v)

/-- A value with one item per line. -/
def renderPretty (v : Json) : String :=
  String.ofList (writePretty 0 v)

end Parlance.Json
