import Parlance.Operators
import Parlance.Text.Position

/-!
# Tokens

The words of a program. How a keyword, an operator or a punctuation mark is spelled is the
matter of a grammar; here they are named by what they mean.
-/

namespace Parlance

/-- Keywords, by meaning. -/
inductive Keyword where
  | letKw
  | fnKw
  | ifKw
  | elseKw
  | whileKw
  | loopKw
  | breakKw
  | continueKw
  | returnKw
  | trueKw
  | falseKw
  | asKw
  deriving DecidableEq, Repr, Inhabited

namespace Keyword

def all : List Keyword :=
  [.letKw, .fnKw, .ifKw, .elseKw, .whileKw, .loopKw, .breakKw, .continueKw, .returnKw, .trueKw,
    .falseKw, .asKw]

/-- The usual spelling. -/
def name : Keyword → String
  | .letKw => "let"
  | .fnKw => "fn"
  | .ifKw => "if"
  | .elseKw => "else"
  | .whileKw => "while"
  | .loopKw => "loop"
  | .breakKw => "break"
  | .continueKw => "continue"
  | .returnKw => "return"
  | .trueKw => "true"
  | .falseKw => "false"
  | .asKw => "as"

def ofName? (s : String) : Option Keyword :=
  all.find? fun k => k.name == s

/-- Keywords that begin a statement. Parsing resumes at them after an error. -/
def startsStmt : Keyword → Bool
  | .letKw | .fnKw | .ifKw | .whileKw | .loopKw | .breakKw | .continueKw | .returnKw => true
  | .elseKw | .trueKw | .falseKw | .asKw => false

end Keyword

/-- Operators, by meaning. -/
inductive Operator where
  | add
  | sub
  | mul
  | div
  | rem
  | pow
  | eq
  | ne
  | lt
  | le
  | gt
  | ge
  | and
  | or
  | not
  | assign
  deriving DecidableEq, Repr, Inhabited

namespace Operator

def all : List Operator :=
  [.add, .sub, .mul, .div, .rem, .pow, .eq, .ne, .lt, .le, .gt, .ge, .and, .or, .not, .assign]

/-- The usual symbol. -/
def name : Operator → String
  | .add => "+"
  | .sub => "-"
  | .mul => "*"
  | .div => "/"
  | .rem => "%"
  | .pow => "**"
  | .eq => "=="
  | .ne => "!="
  | .lt => "<"
  | .le => "<="
  | .gt => ">"
  | .ge => ">="
  | .and => "&&"
  | .or => "||"
  | .not => "!"
  | .assign => "="

/-- The name of the operator in reports. -/
def title : Operator → String
  | .add => "Add"
  | .sub => "Sub"
  | .mul => "Mul"
  | .div => "Div"
  | .rem => "Rem"
  | .pow => "Pow"
  | .eq => "Eq"
  | .ne => "Ne"
  | .lt => "Lt"
  | .le => "Le"
  | .gt => "Gt"
  | .ge => "Ge"
  | .and => "And"
  | .or => "Or"
  | .not => "Not"
  | .assign => "Assign"

/-- The name of the operator in a grammar file. -/
def key (op : Operator) : String :=
  op.title.toLower

def ofKey? (s : String) : Option Operator :=
  all.find? fun op => op.key == s

/-- The operator of a binary expression. The others make prefix expressions and
assignments. -/
def toBinary? : Operator → Option BinaryOp
  | .add => some .add
  | .sub => some .sub
  | .mul => some .mul
  | .div => some .div
  | .rem => some .rem
  | .pow => some .pow
  | .eq => some .eq
  | .ne => some .ne
  | .lt => some .lt
  | .le => some .le
  | .gt => some .gt
  | .ge => some .ge
  | .and => some .and
  | .or => some .or
  | .not | .assign => none

end Operator

/-- Punctuation marks, by meaning. -/
inductive Punct where
  | openParen
  | closeParen
  | openBrace
  | closeBrace
  | openBracket
  | closeBracket
  | comma
  | semicolon
  | colon
  | arrow
  deriving DecidableEq, Repr, Inhabited

namespace Punct

def all : List Punct :=
  [.openParen, .closeParen, .openBrace, .closeBrace, .openBracket, .closeBracket, .comma,
    .semicolon, .colon, .arrow]

/-- The usual symbol. -/
def name : Punct → String
  | .openParen => "("
  | .closeParen => ")"
  | .openBrace => "\x7b"
  | .closeBrace => "\x7d"
  | .openBracket => "["
  | .closeBracket => "]"
  | .comma => ","
  | .semicolon => ";"
  | .colon => ":"
  | .arrow => "->"

/-- The name of the mark in reports. -/
def title : Punct → String
  | .openParen => "OpenParen"
  | .closeParen => "CloseParen"
  | .openBrace => "OpenBrace"
  | .closeBrace => "CloseBrace"
  | .openBracket => "OpenBracket"
  | .closeBracket => "CloseBracket"
  | .comma => "Comma"
  | .semicolon => "Semicolon"
  | .colon => "Colon"
  | .arrow => "Arrow"

/-- The name of the mark in a grammar file. -/
def key : Punct → String
  | .openParen => "open_paren"
  | .closeParen => "close_paren"
  | .openBrace => "open_brace"
  | .closeBrace => "close_brace"
  | .openBracket => "open_bracket"
  | .closeBracket => "close_bracket"
  | .comma => "comma"
  | .semicolon => "semicolon"
  | .colon => "colon"
  | .arrow => "arrow"

def ofKey? (s : String) : Option Punct :=
  all.find? fun p => p.key == s

end Punct

/-- The kinds of literal tokens. -/
inductive LitKind where
  | int
  | float
  | str
  deriving DecidableEq, Repr, Inhabited

/-- What a token is. -/
inductive TokenKind where
  | ident
  | lit (kind : LitKind)
  | operator (op : Operator)
  | keyword (kw : Keyword)
  | punct (p : Punct)
  /-- The end of the input. -/
  | eof
  deriving DecidableEq, Repr, Inhabited

def TokenKind.render : TokenKind → String
  | .ident => "identifier"
  | .lit .int => "int literal"
  | .lit .float => "float literal"
  | .lit .str => "string literal"
  | .operator op => s!"operator `{op.name}`"
  | .keyword kw => s!"keyword `{kw.name}`"
  | .punct p => "`" ++ p.name ++ "`"
  | .eof => "end of input"

/-- Whether a token begins a statement by its keyword. -/
def TokenKind.startsStmt : TokenKind → Bool
  | .keyword kw => kw.startsStmt
  | _ => false

/-- A token of a program text. -/
structure Token where
  kind : TokenKind
  /-- The lexeme, which is the text of `range`. -/
  text : List Char
  range : Range
  /-- The place of the first character. -/
  location : Location
  deriving Inhabited

end Parlance
