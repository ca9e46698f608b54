import Parlance.Grammar.Basic
import Parlance.Toml.Reader

/-!
# Grammars from configuration files

A grammar file changes the standard grammar: a table or field that it leaves out keeps its
standard value, and so does the spelling of a keyword.
-/

namespace Parlance.Grammar

/-- The items of a list of values or of tables, in order. -/
def items? : Toml → Option (List Toml)
  | .array items => some items
  | .tables items => some (items.reverse.map (.table .explicit false))
  | _ => none

def text? : Toml → Option String
  | .str s => some s
  | _ => none

/-- Whether a value is a list or a table without contents. -/
def isVoid : Toml → Bool
  | .array [] | .table _ _ [] => true
  | _ => false

/-- A name: a text, or the one key of a table that holds nothing under it. -/
def name? : Toml → Option String
  | .str s => some s
  | .table _ _ [(name, v)] => if isVoid v then some name else none
  | _ => none

/-- A precedence between `0` and `255`. -/
def precedence? : Toml → Option UInt8
  | .int n => if 0 ≤ n ∧ n ≤ 255 then some (UInt8.ofNat n.toNat) else none
  | _ => none

def operator? (v : Toml) : Option Operator :=
  (name? v).bind Operator.ofKey?

def assoc? (v : Toml) : Option Assoc :=
  match name? v with
  | some "left" => some .left
  | some "right" => some .right
  | _ => none

/-- The field of a rule, which is a table or the list of its fields in order. -/
def ruleField? (rule : Toml) (position : Nat) (name : String) : Option Toml :=
  match rule with
  | .table _ _ entries => entries.lookup name
  | .array items => items[position]?
  | _ => none

def operatorRule? (rule : Toml) : Option OperatorRule := do
  let symbol ← (ruleField? rule 0 "symbol").bind text?
  let operator ← (ruleField? rule 1 "operator").bind operator?
  return { symbol, operator }

def punctRule? (rule : Toml) : Option PunctRule := do
  let symbol ← (ruleField? rule 0 "symbol").bind text?
  let punct ← ((ruleField? rule 1 "punct").bind name?).bind Punct.ofKey?
  return { symbol, punct }

/-- Without an associativity an operator groups to the left. -/
def binaryRule (rule : Toml) : Option BinaryRule := do
  let operator ← (ruleField? rule 0 "operator").bind operator?
  let precedence ← (ruleField? rule 1 "precedence").bind precedence?
  let assoc ← match ruleField? rule 2 "assoc" with
    | none => some .left
    | some v => assoc? v
  return { operator, precedence, assoc }

def keywords? : Toml → Option (List (String × Keyword))
  | .table _ _ entries => entries.mapM fun (spelling, v) =>
    ((name? v).bind Keyword.ofName?).map (spelling, ·)
  | _ => none

/-- The first two of a list of delimiters. -/
def delimiters? (v : Toml) : Option (String × String) := do
  match ← items? v with
  | a :: b :: _ => return (← text? a, ← text? b)
  | _ => none

/-- The value of a field, or the fallback if the file has none. -/
def fieldOr {α : Type} (entries : Toml.Entries) (name : String) (read : Toml → Option α)
    (fallback : α) : Option α :=
  match entries.lookup name with
  | none => some fallback
  | some v => read v

/-- The grammar of a document, before validation. -/
def ofEntries? (entries : Toml.Entries) : Option Grammar := do
  return {
    keywords := ← fieldOr entries "keywords" keywords? standard.keywords
    operators :=
      ← fieldOr entries "operators" (fun v => (items? v).bind (·.mapM operatorRule?))
        standard.operators
    punctuation :=
      ← fieldOr entries "punctuation" (fun v => (items? v).bind (·.mapM punctRule?))
        standard.punctuation
    binary :=
      ← fieldOr entries "binary" (fun v => (items? v).bind (·.mapM binaryRule)) standard.binary
    unary := ← fieldOr entries "unary" (fun v => (items? v).bind (·.mapM operator?)) standard.unary
    unaryPrecedence := ← fieldOr entries "unary_precedence" precedence? standard.unaryPrecedence
    castPrecedence := ← fieldOr entries "cast_precedence" precedence? standard.castPrecedence
    lineComment := ← fieldOr entries "line_comment" text? standard.lineComment
    blockComment := ← fieldOr entries "block_comment" delimiters? standard.blockComment }

/-- The grammar of a file. -/
def ofText (text : String) : Except GrammarError Grammar :=
  match (Toml.parse? text).bind ofEntries? with
  | none => .error .malformed
  | some g => g.fillKeywords.validate

end Parlance.Grammar
