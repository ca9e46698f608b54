import Parlance.Text.CharClass
import Parlance.Token.Basic

/-!
# Grammars

A grammar gives the surface of the language as data: how keywords are spelled, which symbols
the operators and the punctuation have, how comments are marked, and how tightly each binary
operator binds. `Grammar.validate` accepts the grammars that the lexer and the parser can
use, and sorts their symbols, longest first.
-/

namespace Parlance

/-- To which side a chain of one operator groups. -/
inductive Assoc where
  | left
  | right
  deriving DecidableEq, Repr, Inhabited

structure OperatorRule where
  symbol : String
  operator : Operator
  deriving DecidableEq, Repr, Inhabited

structure PunctRule where
  symbol : String
  punct : Punct
  deriving DecidableEq, Repr, Inhabited

/-- A binary operator: a higher precedence binds tighter. -/
structure BinaryRule where
  operator : Operator
  precedence : UInt8
  assoc : Assoc
  deriving DecidableEq, Repr, Inhabited

structure Grammar where
  /-- Spellings of keywords, each at most once. -/
  keywords : List (String × Keyword)
  /-- Symbols of operators. A symbol made of identifier characters is a word. -/
  operators : List OperatorRule
  punctuation : List PunctRule
  binary : List BinaryRule
  /-- The operators that can stand before an operand. -/
  unary : List Operator
  unaryPrecedence : UInt8
  /-- The precedence of `as`. -/
  castPrecedence : UInt8
  /-- What begins a comment that ends with its line; nothing does if it is empty. -/
  lineComment : String
  /-- What opens and closes a comment; nothing does if the first is empty. -/
  blockComment : String × String
  deriving DecidableEq, Repr, Inhabited

/-- Why a grammar can not be used. -/
inductive GrammarError where
  /-- The grammar file can not be read as one. -/
  | malformed
  | missingKeyword (kw : Keyword)
  | missingPunct (p : Punct)
  | missingOperator (op : Operator)
  | duplicateSymbol (symbol : String)
  | invalidKeyword (spelling : String)
  | invalidSymbol (symbol : String)
  | duplicateBinary (op : Operator)
  | invalidUnary (op : Operator)
  | zeroPrecedence (op : Operator)
  deriving DecidableEq, Repr, Inhabited

def GrammarError.message : GrammarError → String
  | .malformed => "parse grammar file error"
  | .missingKeyword kw => s!"keyword {kw.name} has no spelling"
  | .missingPunct p => s!"punctuation {p.title} has no symbol"
  | .missingOperator op => s!"operator {op.title} has no symbol"
  | .duplicateSymbol symbol => s!"symbol `{symbol}` is defined more than once"
  | .invalidKeyword spelling => s!"`{spelling}` is not a valid keyword spelling"
  | .invalidSymbol symbol => s!"`{symbol}` is not a valid symbol"
  | .duplicateBinary op => s!"operator {op.title} is listed twice in the binary table"
  | .invalidUnary op => s!"operator {op.title} can not be a prefix operator"
  | .zeroPrecedence op => s!"binary operator {op.title} can not have precedence 0"

namespace Grammar

/-! ### Symbols -/

/-- Longest symbols first, in bytes; symbols of one length keep their order. -/
def sortSymbols (g : Grammar) : Grammar :=
  { g with
    operators := g.operators.mergeSort fun a b => b.symbol.utf8ByteSize ≤ a.symbol.utf8ByteSize
    punctuation :=
      g.punctuation.mergeSort fun a b => b.symbol.utf8ByteSize ≤ a.symbol.utf8ByteSize }

/-- The usual binary operators, from the loosest to the tightest. -/
def defaultBinary : List BinaryRule :=
  [⟨.assign, 1, .right⟩, ⟨.or, 2, .left⟩, ⟨.and, 3, .left⟩, ⟨.eq, 4, .left⟩, ⟨.ne, 4, .left⟩,
    ⟨.lt, 5, .left⟩, ⟨.le, 5, .left⟩, ⟨.gt, 5, .left⟩, ⟨.ge, 5, .left⟩, ⟨.add, 6, .left⟩,
    ⟨.sub, 6, .left⟩, ⟨.mul, 7, .left⟩, ⟨.div, 7, .left⟩, ⟨.rem, 7, .left⟩, ⟨.pow, 11, .right⟩]

/-- The usual grammar. -/
def standard : Grammar :=
  sortSymbols
    { keywords := Keyword.all.map fun kw => (kw.name, kw)
      operators := Operator.all.map fun op => ⟨op.name, op⟩
      punctuation := Punct.all.map fun p => ⟨p.name, p⟩
      binary := defaultBinary
      unary := [.sub, .not]
      unaryPrecedence := 10
      castPrecedence := 9
      lineComment := "//"
      blockComment := ("/*", "*/") }

/-- The usual grammar with its symbols in order. The sort does not compute in the kernel, so
what is to be evaluated there is rewritten with this first. -/
theorem standard_eq :
    standard =
      { keywords := Keyword.all.map fun kw => (kw.name, kw)
        operators :=
          [⟨"**", .pow⟩, ⟨"==", .eq⟩, ⟨"!=", .ne⟩, ⟨"<=", .le⟩, ⟨">=", .ge⟩, ⟨"&&", .and⟩,
            ⟨"||", .or⟩, ⟨"+", .add⟩, ⟨"-", .sub⟩, ⟨"*", .mul⟩, ⟨"/", .div⟩, ⟨"%", .rem⟩,
            ⟨"<", .lt⟩, ⟨">", .gt⟩, ⟨"!", .not⟩, ⟨"=", .assign⟩]
        punctuation :=
          [⟨"->", .arrow⟩, ⟨"(", .openParen⟩, ⟨")", .closeParen⟩, ⟨"\x7b", .openBrace⟩,
            ⟨"\x7d", .closeBrace⟩, ⟨"[", .openBracket⟩, ⟨"]", .closeBracket⟩, ⟨",", .comma⟩,
            ⟨";", .semicolon⟩, ⟨":", .colon⟩]
        binary := defaultBinary
        unary := [.sub, .not]
        unaryPrecedence := 10
        castPrecedence := 9
        lineComment := "//"
        blockComment := ("/*", "*/") } := by
  simp +decide only [standard, sortSymbols, Operator.all, Punct.all, List.map_cons, List.map_nil,
    List.mergeSort, List.MergeSort.Internal.splitInTwo, List.length_cons, List.length_nil,
    List.splitAt_eq, List.take, List.drop, List.merge, if_true, if_false]

/-! ### Look-up -/

/-- A word that is not an identifier. -/
inductive Word where
  | keyword (kw : Keyword)
  | operator (op : Operator)
  deriving DecidableEq, Repr

/-- The keyword or operator that a word spells. -/
def word? (g : Grammar) (word : String) : Option Word :=
  match g.keywords.lookup word with
  | some kw => some (.keyword kw)
  | none => (g.operators.find? fun r => r.symbol == word).map fun r => .operator r.operator

/-- The rule of an operator that is a binary one. -/
def binaryRule? (g : Grammar) (op : Operator) : Option BinaryRule :=
  g.binary.find? fun r => r.operator == op

def isUnary (g : Grammar) (op : Operator) : Bool :=
  g.unary.contains op

/-- The spelling of a keyword. -/
def spelling (g : Grammar) (kw : Keyword) : String :=
  match g.keywords.find? fun e => e.2 == kw with
  | some e => e.1
  | none => kw.name

/-! ### Validation -/

/-- Gives each keyword without a spelling its usual one, unless that spells another. -/
def fillKeywords (g : Grammar) : Grammar :=
  { g with
    keywords := Keyword.all.foldl (fun table kw =>
      if (table.any fun e => e.2 == kw) || (table.any fun e => e.1 == kw.name) then table
      else table ++ [(kw.name, kw)]) g.keywords }

/-- Whether a symbol can be told from identifiers, literals and blanks. -/
def isSymbol (symbol : String) : Bool :=
  match symbol.toList with
  | [] => false
  | c :: cs =>
    !(c :: cs).any isSpace && !c.isDigit && c != '"' && c != '\''
      && (!isIdStart c || isWord (c :: cs))

/-- The symbols in order, none malformed and none met before. -/
def checkSymbols : List String → List String → Except GrammarError Unit
  | _, [] => .ok ()
  | seen, symbol :: rest =>
    if !isSymbol symbol then .error (.invalidSymbol symbol)
    else if seen.contains symbol then .error (.duplicateSymbol symbol)
    else checkSymbols (symbol :: seen) rest

/-- The binary rules in order, none for an operator met before. -/
def checkBinary : List Operator → List BinaryRule → Except GrammarError Unit
  | _, [] => .ok ()
  | seen, rule :: rest =>
    if seen.contains rule.operator then .error (.duplicateBinary rule.operator)
    else if rule.precedence = 0 then .error (.zeroPrecedence rule.operator)
    else if rule.operator = .not then .error (.invalidUnary .not)
    else checkBinary (rule.operator :: seen) rest

/-- Fails with the first item that has no place. -/
def checkAll {α : Type} (ok : α → Bool) (fault : α → GrammarError) (items : List α) :
    Except GrammarError Unit :=
  match items.find? fun a => !ok a with
  | some a => .error (fault a)
  | none => .ok ()

/-- Accepts a usable grammar and sorts its symbols. -/
def validate (g : Grammar) : Except GrammarError Grammar := do
  checkAll (fun kw => g.keywords.any fun e => e.2 == kw) .missingKeyword Keyword.all
  checkAll (fun s => isWord s.toList) .invalidKeyword (g.keywords.map (·.1))
  checkAll (fun p => g.punctuation.any fun r => r.punct == p) .missingPunct Punct.all
  checkSymbols (g.keywords.map (·.1)) (g.operators.map (·.symbol) ++ g.punctuation.map (·.symbol))
  checkBinary [] g.binary
  checkAll (fun op => op == .sub || op == .not) .invalidUnary g.unary
  checkAll (fun op => g.operators.any fun r => r.operator == op) .missingOperator
    (g.binary.map (·.operator) ++ g.unary)
  return g.sortSymbols

end Grammar

end Parlance
