import Parlance.Token.Lexer
import Parlance.Tree.Basic

/-!
# The parser

Recursive descent for statements, precedence climbing for expressions; the precedences come
from the grammar. A malformed statement does not stop the parser: the error is recorded and
parsing resumes at the next statement.

The recursion is bounded by the number of tokens: a function calls another one with the same
tokens left at most a few times before a token is consumed.
-/

namespace Parlance

/-- An error in the order of tokens. -/
inductive SyntaxError where
  | unexpectedToken (expected : List TokenKind) (found : TokenKind) (range : Range)
  | invalidLiteral (fault : LexFault) (range : Range)
  | unknownType (name : String) (range : Range)
  | invalidCastTarget (ty : Ty) (range : Range)
  deriving Inhabited

namespace SyntaxError

def message : SyntaxError → String
  | .unexpectedToken expected found _ =>
    "unexpected token (expected " ++ ", ".intercalate (expected.map TokenKind.render)
      ++ ", found " ++ found.render ++ ")"
  | .invalidLiteral fault _ => s!"invalid literal ({fault.message})"
  | .unknownType name _ => s!"unknown type `{name}`"
  | .invalidCastTarget ty _ => s!"can not cast to {ty.render}"

def range : SyntaxError → Range
  | .unexpectedToken _ _ r | .invalidLiteral _ r | .unknownType _ r | .invalidCastTarget _ r => r

end SyntaxError

/-- A list without an item that repeats the one before it. -/
def dropRepeats {α : Type} [DecidableEq α] : List α → List α
  | [] => []
  | [a] => [a]
  | a :: b :: rest => if a = b then dropRepeats (b :: rest) else a :: dropRepeats (b :: rest)

/-! ### State -/

structure ParseState where
  grammar : Grammar
  /-- The tokens not yet consumed. -/
  tokens : List Token
  /-- Where the last consumed token ends. -/
  prevEnd : Nat
  /-- What was looked for at the current token, the last first. -/
  expected : List TokenKind
  /-- The errors so far, the last first. -/
  errors : List SyntaxError
  /-- The next label. -/
  nextId : Nat
  /-- Whether a precedence was needed that no byte holds. The parse has no result then. -/
  overflowed : Bool := false

/-- A parser fails with one error and keeps its state then. -/
abbrev Parse (α : Type) := EStateM SyntaxError ParseState α

namespace Parse

/-- The current token. After the last one comes the end of the input. -/
def current : Parse Token := do
  let s ← get
  return match s.tokens with
    | t :: _ => t
    | [] => ⟨.eof, [], ⟨s.prevEnd, s.prevEnd⟩, .first⟩

/-- The kind of the token after the current one. -/
def secondKind : Parse TokenKind := do
  return match (← get).tokens with
    | _ :: t :: _ => t.kind
    | _ => .eof

/-- Consumes the current token. -/
def bump : Parse Unit :=
  modify fun s =>
    match s.tokens with
    | t :: rest => { s with tokens := rest, prevEnd := t.range.stop, expected := [] }
    | [] => { s with expected := [] }

/-- Whether the current token is of this kind. If not, it counts as expected. -/
def check (kind : TokenKind) : Parse Bool := do
  if (← current).kind = kind then return true
  else
    modify fun s => { s with expected := kind :: s.expected }
    return false

/-- Consumes a token of this kind, if it is the current one. -/
def eat (kind : TokenKind) : Parse Bool := do
  if ← check kind then
    bump
    return true
  else return false

/-- The error at the current token. -/
def unexpected : Parse SyntaxError := do
  let token ← current
  let s ← get
  return .unexpectedToken (dropRepeats s.expected.reverse) token.kind token.range

/-- Consumes a token of this kind, or fails. -/
def expect (kind : TokenKind) : Parse Unit := do
  if ← eat kind then return ()
  else throw (← unexpected)

/-- Where the current token starts. -/
def startOffset : Parse Nat := do
  return (← current).range.start

/-- The range from an offset to the end of the last consumed token. -/
def rangeFrom (start : Nat) : Parse Range := do
  return ⟨start, max (← get).prevEnd start⟩

/-- A new label for a node that started at an offset. -/
def newNote (start : Nat) : Parse Note := do
  let range ← rangeFrom start
  modifyGet fun s => ({ id := s.nextId, range }, { s with nextId := s.nextId + 1 })

/-- Records an error. -/
def report (e : SyntaxError) : Parse Unit :=
  modify fun s => { s with errors := e :: s.errors }

/-! ### Lists of items -/

/-- Items up to and including `stop`, with commas between them and perhaps after the
last. -/
def itemsUntil {α : Type} (item : Parse α) (stop : TokenKind) : Nat → Parse (List α)
  | 0 => return []
  | fuel + 1 => do
    if ← eat stop then return []
    else
      let a ← item
      if ← eat stop then return [a]
      else
        expect (.punct .comma)
        return a :: (← itemsUntil item stop fuel)

/-- Items between `start` and `stop`. Each item consumes a token. -/
def itemsBetween {α : Type} (start : TokenKind) (item : Parse α) (stop : TokenKind) :
    Parse (List α) := do
  expect start
  itemsUntil item stop ((← get).tokens.length + 1)

/-! ### Names, literals and types -/

def ident : Parse String := do
  let token ← current
  if ← check .ident then
    bump
    return String.ofList token.text
  else throw (← unexpected)

/-- Looks for each of the kinds, so that they all count as expected. -/
def checkEach : List TokenKind → Parse Unit
  | [] => return ()
  | k :: ks => do
    let _ ← check k
    checkEach ks

/-- The value of a literal token, or its fault. -/
def literal (token : Token) : Option (Except LexFault Lit) :=
  match token.kind with
  | .keyword .trueKw => some (.ok (.bool true))
  | .keyword .falseKw => some (.ok (.bool false))
  | .lit .int => some (.int <$> readIntLiteral token.text)
  | .lit .float => some (.float <$> readFloatLiteral token.text)
  | .lit .str => some (.str <$> readStringLiteral token.text)
  | _ => none

def lit : Parse Lit := do
  let token ← current
  match literal token with
  | some (.ok v) =>
    bump
    return v
  | some (.error fault) => throw (.invalidLiteral fault token.range)
  | none =>
    checkEach [.lit .int, .lit .float, .lit .str, .keyword .trueKw, .keyword .falseKw]
    throw (← unexpected)

/-- The type that a name denotes. -/
def namedType? (name : String) : Option Ty :=
  if name = "unit" then some .unit else (Scalar.ofName? name).map Scalar.toTy

/-- A type: a name, `[T]` or `fn(T, …) -> R`. Without `-> R` the result is `unit`. -/
def type : Nat → Parse Ty
  | 0 => do throw (← unexpected)
  | fuel + 1 => do
    if ← eat (.punct .openBracket) then
      let item ← type fuel
      expect (.punct .closeBracket)
      return .list item
    else if ← eat (.keyword .fnKw) then
      let params ← itemsBetween (.punct .openParen) (type fuel) (.punct .closeParen)
      if ← eat (.punct .arrow) then return .function params (← type fuel)
      else return .function params .unit
    else
      let range := (← current).range
      let name ← ident
      match namedType? name with
      | some t => return t
      | none => throw (.unknownType name range)

/-- A type. Each level of nesting consumes a token. -/
def anyType : Parse Ty := do
  type ((← get).tokens.length + 1)

def param : Parse Param := do
  let start ← startOffset
  let name ← ident
  expect (.punct .colon)
  let ty ← anyType
  let range ← rangeFrom start
  return { name, ty, range }

/-- `(params) -> returns`. Without `-> returns` the result is `unit`. -/
def signature : Parse Signature := do
  let params ← itemsBetween (.punct .openParen) param (.punct .closeParen)
  if ← eat (.punct .arrow) then
    let returns ← anyType
    return { params, returns }
  else return { params, returns := .unit }

/-! ### Recovery -/

/-- Skips to the next statement: past a `;`, or up to `stop` or a keyword that begins a
statement. -/
def synchronize (stop : TokenKind) : Nat → Parse Unit
  | 0 => return ()
  | fuel + 1 => do
    let kind := (← current).kind
    if kind = .punct .semicolon then bump
    else if kind = .eof || kind = stop || kind.startsStmt then return ()
    else
      bump
      synchronize stop fuel

/-- Resumes after an error in a statement that began with `before` tokens left, and
consumes a token at least. -/
def recover (stop : TokenKind) (before : Nat) : Parse Unit := do
  synchronize stop ((← get).tokens.length + 1)
  if (← get).tokens.length = before then bump

/-- The result of a parser, or its error with the state kept. -/
def attempt {α : Type} (p : Parse α) : Parse (Except SyntaxError α) := fun s =>
  match p s with
  | .ok a s => .ok (.ok a) s
  | .error e s => .ok (.error e) s

/-! ### Expressions and statements -/

/-- A statement, or the expression that ends a body. -/
inductive Item where
  | stmt (s : Stmt)
  | tail (e : Expr)

/-- The prefix operator of an operator token. -/
def unaryOp (op : Operator) : UnaryOp :=
  if op = .sub then .neg else .not

/-- The least precedence of a right operand, if a byte holds it. -/
def rightPrecedence? (rule : BinaryRule) : Option UInt8 :=
  match rule.assoc with
  | .left => if rule.precedence = 255 then none else some (rule.precedence + 1)
  | .right => some rule.precedence

/-- The least precedence of a right operand. If no byte holds it, the parse has overflowed, and
what it reads from here on does not count. -/
def rightPrecedence (rule : BinaryRule) : Parse UInt8 :=
  match rightPrecedence? rule with
  | some least => return least
  | none => do
    modify fun s => { s with overflowed := true }
    return 0

/-- The node of a binary operator or an assignment. -/
def infixNode (op : Operator) (note : Note) (left right : Expr) : Expr :=
  match op.toBinary? with
  | some op => .binary note op left right
  | none => .assign note left right

mutual

/-- An expression whose operators have at least this precedence. -/
def expr : Nat → UInt8 → Parse Expr
  | 0, _ => do throw (← unexpected)
  | fuel + 1, least => do
    let start ← startOffset
    let left ← unary fuel
    operators fuel least start left

/-- The operators after a left operand that started at an offset. -/
def operators : Nat → UInt8 → Nat → Expr → Parse Expr
  | 0, _, _, left => return left
  | fuel + 1, least, start, left => do
    match (← current).kind with
    | .keyword .asKw =>
      if (← get).grammar.castPrecedence < least then return left
      else
        bump
        let typeStart ← startOffset
        let ty ← anyType
        match ty.scalar? with
        | none => throw (.invalidCastTarget ty (← rangeFrom typeStart))
        | some target => operators fuel least start (.cast (← newNote start) left target)
    | .operator op =>
      match (← get).grammar.binaryRule? op with
      | none => return left
      | some rule =>
        if rule.precedence < least then return left
        else
          bump
          let right ← expr fuel (← rightPrecedence rule)
          operators fuel least start (infixNode op (← newNote start) left right)
    | _ => return left

def unary : Nat → Parse Expr
  | 0 => do throw (← unexpected)
  | fuel + 1 => do
    let start ← startOffset
    match (← current).kind with
    | .operator op =>
      if (← get).grammar.isUnary op then
        bump
        let operand ← expr fuel (← get).grammar.unaryPrecedence
        return .unary (← newNote start) (unaryOp op) operand
      else primary fuel
    | _ => primary fuel

def primary : Nat → Parse Expr
  | 0 => do throw (← unexpected)
  | fuel + 1 => do
    let start ← startOffset
    let e ← atom fuel
    suffixes fuel start e

/-- The calls and indices after an expression that started at an offset. -/
def suffixes : Nat → Nat → Expr → Parse Expr
  | 0, _, e => return e
  | fuel + 1, start, e => do
    if ← check (.punct .openParen) then
      let args ← itemsBetween (.punct .openParen) (expr fuel 1) (.punct .closeParen)
      suffixes fuel start (.call (← newNote start) e args)
    else if ← eat (.punct .openBracket) then
      let index ← expr fuel 1
      expect (.punct .closeBracket)
      suffixes fuel start (.index (← newNote start) e index)
    else return e

def atom : Nat → Parse Expr
  | 0 => do throw (← unexpected)
  | fuel + 1 => do
    let start ← startOffset
    if ← eat (.punct .openParen) then
      let e ← expr fuel 1
      expect (.punct .closeParen)
      return e
    else if ← check .ident then
      let name ← ident
      return .ident (← newNote start) name
    else if ← check (.punct .openBracket) then
      let items ← itemsBetween (.punct .openBracket) (expr fuel 1) (.punct .closeBracket)
      return .list (← newNote start) items
    else if ← eat (.keyword .fnKw) then
      let s ← signature
      let body ← block fuel true
      return .lambda (← newNote start) s body
    else
      let v ← lit
      return .lit (← newNote start) v

/-- A block in braces. -/
def block : Nat → Bool → Parse Block
  | 0, _ => do throw (← unexpected)
  | fuel + 1, allowTail => do
    let start ← startOffset
    expect (.punct .openBrace)
    let (stmts, tail) ← body fuel (.punct .closeBrace) allowTail
    return .mk (← newNote start) stmts tail

/-- Statements up to and including `stop`. -/
def body : Nat → TokenKind → Bool → Parse (List Stmt × Option Expr)
  | 0, _, _ => return ([], none)
  | fuel + 1, stop, allowTail => do
    if ← eat stop then return ([], none)
    else if ← check .eof then
      report (← unexpected)
      return ([], none)
    else
      let before := (← get).tokens.length
      match ← attempt (item fuel stop allowTail) with
      | .ok (.stmt s) =>
        let (stmts, tail) ← body fuel stop allowTail
        return (s :: stmts, tail)
      | .ok (.tail e) =>
        bump
        return ([], some e)
      | .error e =>
        report e
        recover stop before
        body fuel stop allowTail

/-- A statement, or the expression before `stop`. -/
def item : Nat → TokenKind → Bool → Parse Item
  | 0, _, _ => do throw (← unexpected)
  | fuel + 1, stop, allowTail => do
    let start ← startOffset
    if ← eat (.keyword .letKw) then
      let name ← ident
      let declared ← if ← eat (.punct .colon) then some <$> anyType else pure none
      expect (.operator .assign)
      let init ← expr fuel 1
      expect (.punct .semicolon)
      return .stmt (.letVar (← newNote start) name declared init)
    else if (← check (.keyword .fnKw)) && (← secondKind) = .ident then
      bump
      let name ← ident
      let s ← signature
      let body ← block fuel true
      return .stmt (.fnDecl (← newNote start) name s body)
    else if ← eat (.keyword .returnKw) then
      let value ← if ← check (.punct .semicolon) then pure none else some <$> expr fuel 1
      expect (.punct .semicolon)
      return .stmt (.ret (← newNote start) value)
    else if ← check (.keyword .ifKw) then
      return .stmt (← conditional fuel)
    else if ← eat (.keyword .whileKw) then
      let test ← expr fuel 1
      let body ← block fuel false
      return .stmt (.whileLoop (← newNote start) test body)
    else if ← eat (.keyword .loopKw) then
      let body ← block fuel false
      return .stmt (.loop (← newNote start) body)
    else if ← eat (.keyword .breakKw) then
      expect (.punct .semicolon)
      return .stmt (.breakLoop (← newNote start))
    else if ← eat (.keyword .continueKw) then
      expect (.punct .semicolon)
      return .stmt (.continueLoop (← newNote start))
    else if ← check (.punct .openBrace) then
      return .stmt (.block (← block fuel false))
    else
      let e ← expr fuel 1
      let isTail ← if allowTail then check stop else pure false
      if isTail then return .tail e
      else
        expect (.punct .semicolon)
        return .stmt (.expr (← newNote start) e)

def conditional : Nat → Parse Stmt
  | 0 => do throw (← unexpected)
  | fuel + 1 => do
    let start ← startOffset
    expect (.keyword .ifKw)
    let test ← expr fuel 1
    let yes ← block fuel false
    if ← eat (.keyword .elseKw) then
      if ← check (.keyword .ifKw) then
        let no ← conditional fuel
        return .cond (← newNote start) test yes (some no)
      else
        let no ← block fuel false
        return .cond (← newNote start) test yes (some (.block no))
    else return .cond (← newNote start) test yes none

end

end Parse

/-- The parser in front of some tokens. -/
def ParseState.start (g : Grammar) (tokens : List Token) : ParseState :=
  { grammar := g, tokens, prevEnd := 0, expected := [], errors := [], nextId := 1 }

/-- Parses the tokens of a text of `size` bytes. The tree holds what could be parsed. -/
def parseTokens (g : Grammar) (size : Nat) (tokens : List Token) : Program × List SyntaxError :=
  match Parse.body (8 * tokens.length + 8) .eof true (.start g tokens) with
  | .ok (stmts, tail) s =>
    ({ root := .mk { id := 0, range := ⟨0, size⟩ } stmts tail, labels := s.nextId },
      s.errors.reverse)
  | .error e s =>
    ({ root := .mk { id := 0, range := ⟨0, size⟩ } [] none, labels := s.nextId },
      (e :: s.errors).reverse)

/-- Whether the parse of some tokens overflows. It has no result then, neither a tree nor an
error. -/
def parseOverflows (g : Grammar) (tokens : List Token) : Bool :=
  match Parse.body (8 * tokens.length + 8) .eof true (.start g tokens) with
  | .ok _ s | .error _ s => s.overflowed

end Parlance
