import Parlance.Analysis.Checker
import Parlance.Tree.Effects

/-!
# Repeated subexpressions

A pure subexpression that an expression computes more than once is computed once, into a
temporary variable that is declared right before the statement. Expressions with calls or
assignments are left alone, since what a repeated subexpression reads could change in between.
-/

namespace Parlance

/-- The structure of an expression, with identifiers by their symbols. -/
inductive ExprKey where
  | lit (v : Lit)
  | symbol (id : Nat)
  | unary (op : UnaryOp) (operand : ExprKey)
  | binary (op : StrictOp) (left right : ExprKey)
  | cast (target : Scalar) (operand : ExprKey)
  deriving DecidableEq, Inhabited

/-- A literal that stands for all literals that are the same. -/
def Lit.canonical : Lit → Lit
  | .float x => .float x.canonical
  | v => v

/-- The key of an expression of operators, casts, literals and identifiers. -/
def Expr.key? : Expr → Option ExprKey
  | .lit _ v => some (.lit v.canonical)
  | .ident n _ => n.symbol.map .symbol
  | .unary _ op e => e.key?.map (.unary op)
  | .binary _ op l r =>
    match op.split with
    | .inl op => do
      let l ← l.key?
      return .binary op l (← r.key?)
    | .inr _ => none
  | .cast _ e target => e.key?.map (.cast target)
  | _ => none

namespace Share

/-- A subexpression that may be shared. -/
structure Candidate where
  expr : Expr
  key : ExprKey

/-- The candidate that an expression is itself. -/
def candidate? (e : Expr) : Option Candidate :=
  if e.isPure then e.key?.map fun key => { expr := e, key } else none

mutual

/-- The pure compound subexpressions that are always evaluated with an expression, the outer
ones first. -/
def candidates : Expr → List Candidate
  | .lit _ _ | .ident _ _ | .lambda _ _ _ => []
  | .unary n op e => (candidate? (.unary n op e)).toList ++ candidates e
  | .binary n op l r =>
    if op.isLogical then candidates l
    else (candidate? (.binary n op l r)).toList ++ candidates l ++ candidates r
  | .cast n e target => (candidate? (.cast n e target)).toList ++ candidates e
  | .assign _ a b | .index _ a b => candidates a ++ candidates b
  | .call _ f args => candidates f ++ candidatesOf args
  | .list _ items => candidatesOf items

def candidatesOf : List Expr → List Candidate
  | [] => []
  | e :: es => candidates e ++ candidatesOf es

end

/-- The first candidate that occurs more than once, with the labels of all its
occurrences. -/
def repeated? (e : Expr) : Option (Expr × List Nat) :=
  let all := candidates e
  let alike (c : Candidate) := all.filter fun d => d.key == c.key
  (all.find? fun c => 1 < (alike c).length).map fun c =>
    (c.expr, (alike c).map fun d => d.expr.note.id)

mutual

/-- An expression with an identifier in the place of the subexpressions with these labels.
Lambdas stay as they are. -/
def substitute (labels : List Nat) (name : String) (symbol : Nat) (e : Expr) : Expr :=
  if labels.contains e.note.id then .ident { e.note with symbol := some symbol } name
  else
    match e with
    | .lit n v => .lit n v
    | .ident n x => .ident n x
    | .unary n op e => .unary n op (substitute labels name symbol e)
    | .binary n op l r =>
      .binary n op (substitute labels name symbol l) (substitute labels name symbol r)
    | .assign n t v =>
      .assign n (substitute labels name symbol t) (substitute labels name symbol v)
    | .call n f args =>
      .call n (substitute labels name symbol f) (substituteAll labels name symbol args)
    | .index n t i => .index n (substitute labels name symbol t) (substitute labels name symbol i)
    | .list n items => .list n (substituteAll labels name symbol items)
    | .cast n e target => .cast n (substitute labels name symbol e) target
    | .lambda n s b => .lambda n s b

def substituteAll (labels : List Nat) (name : String) (symbol : Nat) : List Expr → List Expr
  | [] => []
  | e :: es => substitute labels name symbol e :: substituteAll labels name symbol es

end

/-- The supply of symbols and labels, with the types of the nodes by their labels. -/
structure Supply where
  facts : Facts
  labels : Nat
  types : Array Ty := #[]

abbrev Sharing := StateM Supply

/-- A new temporary variable of a function: its name and symbol. -/
def temporary (ty : Ty) (function : Nat) : Sharing (String × Nat) := do
  let s ← get
  let name := s!"%t{s.facts.symbols.size}"
  let (facts, symbol) := s.facts.addTemporary name ty function
  set { s with facts }
  return (name, symbol)

/-- A new label, for a node of this type. -/
def label (ty : Ty) : Sharing Nat :=
  modifyGet fun s => (s.labels, { s with labels := s.labels + 1, types := s.types.push ty })

mutual

/-- The number of nodes of an expression, without those inside lambdas. -/
def extent : Expr → Nat
  | .lit _ _ | .ident _ _ | .lambda _ _ _ => 1
  | .unary _ _ e | .cast _ e _ => extent e + 1
  | .binary _ _ l r | .assign _ l r | .index _ l r => extent l + extent r + 1
  | .call _ f args => extent f + extentOf args + 1
  | .list _ items => extentOf items + 1

def extentOf : List Expr → Nat
  | [] => 0
  | e :: es => extent e + extentOf es

end

/-- Declares a temporary for every repeated subexpression. Gives the declarations in the
order of their evaluation, and the expression that reads them. Every round makes the
expression smaller, so its extent bounds their number. -/
def expr (function : Nat) : Nat → Expr → Sharing (List Stmt × Expr)
  | 0, e => return ([], e)
  | fuel + 1, e => do
    if e.mayWrite then return ([], e)
    else
      match repeated? e with
      | none => return ([], e)
      | some (first, occurrences) =>
        let range := first.range
        let ty := first.ty
        let (name, symbol) ← temporary ty function
        let init := first.withNote { id := ← label ty, range, ty }
        let declaration : Note := { id := ← label .unit, range, symbol := some symbol }
        let (inner, init) ← expr function fuel init
        let (rest, e) ← expr function fuel (substitute occurrences name symbol e)
        return (inner ++ .letVar declaration name none init :: rest, e)

/-- Declares temporaries for an expression. -/
def root (function : Nat) (e : Expr) : Sharing (List Stmt × Expr) :=
  expr function (extent e) e

/-- Declares temporaries for the expression that a statement evaluates first. Gives the
declarations and the statement. -/
def stmt (function : Nat) : Stmt → Sharing (List Stmt × Stmt)
  | .letVar n name t e => do
    let (lets, e) ← root function e
    return (lets, .letVar n name t e)
  | .expr n e => do
    let (lets, e) ← root function e
    return (lets, .expr n e)
  | .ret n (some e) => do
    let (lets, e) ← root function e
    return (lets, .ret n (some e))
  | .cond n test yes no => do
    let (lets, test) ← root function test
    return (lets, .cond n test yes no)
  | s => return ([], s)

/-- Declares temporaries for statements. Gives the statements and the number of
temporaries. -/
def stmts (function : Nat) : List Stmt → Sharing (List Stmt × Nat)
  | [] => return ([], 0)
  | s :: ss => do
    let (lets, s) ← stmt function s
    let (ss, count) ← stmts function ss
    return (lets ++ s :: ss, lets.length + count)

/-- Declares temporaries for the statements and the result of a block, but not for the
blocks inside it. -/
def block (function : Nat) : Block → Sharing (Block × Nat)
  | .mk n ss none => do
    let (ss, count) ← stmts function ss
    return (.mk n ss none, count)
  | .mk n ss (some e) => do
    let (ss, count) ← stmts function ss
    let (lets, e) ← root function e
    return (.mk n (ss ++ lets) (some e), count + lets.length)

end Share

end Parlance
