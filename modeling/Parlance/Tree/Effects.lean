import Parlance.Tree.Basic

/-!
# What evaluation may do

Conservative answers about the evaluation of an expression: whether it has no effect at all,
whether it may write a variable, and whether it refers to a symbol.
-/

namespace Parlance

namespace Expr

/-- A literal number other than zero. -/
def isNonzeroLit : Expr → Bool
  | .lit _ (.int n) => n != 0
  | .lit _ (.float x) => !x.isZero
  | _ => false

/-- A literal integer that is not negative. -/
def isNaturalLit : Expr → Bool
  | .lit _ (.int n) => 0 ≤ n
  | _ => false

/-- Whether a binary operator never faults with this right operand. -/
def safeOperator (op : BinaryOp) (right : Expr) : Bool :=
  match op with
  | .div | .rem => right.isNonzeroLit
  | .pow => right.ty == .float || right.isNaturalLit
  | _ => true

/-- Whether a cast never faults. -/
def safeCast (operand : Ty) (target : Scalar) : Bool :=
  match operand, target with
  | _, .str => true
  | .int, _ | .bool, _ => true
  | .float, .float | .float, .bool => true
  | _, _ => false

mutual

/-- Whether evaluation has no effect and does not fault. -/
def isPure : Expr → Bool
  | .lit _ _ | .ident _ _ | .lambda _ _ _ => true
  | .list _ items => allPure items
  | .unary _ _ e => e.isPure
  | .binary _ op l r => safeOperator op r && l.isPure && r.isPure
  | .cast _ e target => safeCast e.ty target && e.isPure
  | .assign _ _ _ | .call _ _ _ | .index _ _ _ => false

def allPure : List Expr → Bool
  | [] => true
  | e :: es => e.isPure && allPure es

end

mutual

/-- Whether evaluation may write a variable. The body of a lambda does not run when the lambda
is made. -/
def mayWrite : Expr → Bool
  | .call _ _ _ | .assign _ _ _ => true
  | .lit _ _ | .ident _ _ | .lambda _ _ _ => false
  | .list _ items => anyMayWrite items
  | .unary _ _ e | .cast _ e _ => e.mayWrite
  | .binary _ _ l r | .index _ l r => l.mayWrite || r.mayWrite

def anyMayWrite : List Expr → Bool
  | [] => false
  | e :: es => e.mayWrite || anyMayWrite es

end

end Expr

mutual

/-- Whether an expression refers to a symbol, also inside functions it makes. -/
def Expr.mentions (symbol : Nat) : Expr → Bool
  | .lit _ _ => false
  | .ident n _ => n.symbol == some symbol
  | .unary _ _ e | .cast _ e _ => e.mentions symbol
  | .binary _ _ a b | .assign _ a b | .index _ a b => a.mentions symbol || b.mentions symbol
  | .call _ f args => f.mentions symbol || Expr.anyMentions symbol args
  | .list _ items => Expr.anyMentions symbol items
  | .lambda _ _ b => b.mentions symbol

def Expr.anyMentions (symbol : Nat) : List Expr → Bool
  | [] => false
  | e :: es => e.mentions symbol || Expr.anyMentions symbol es

/-- Whether a statement refers to a symbol. A declaration does not refer to what it
declares. -/
def Stmt.mentions (symbol : Nat) : Stmt → Bool
  | .block b | .loop _ b | .fnDecl _ _ _ b => b.mentions symbol
  | .letVar _ _ _ e | .expr _ e | .ret _ (some e) => e.mentions symbol
  | .ret _ none | .breakLoop _ | .continueLoop _ => false
  | .cond _ test yes none => test.mentions symbol || yes.mentions symbol
  | .cond _ test yes (some no) =>
    test.mentions symbol || yes.mentions symbol || no.mentions symbol
  | .whileLoop _ test b => test.mentions symbol || b.mentions symbol

def Stmt.anyMentions (symbol : Nat) : List Stmt → Bool
  | [] => false
  | s :: ss => s.mentions symbol || Stmt.anyMentions symbol ss

def Block.mentions (symbol : Nat) : Block → Bool
  | .mk _ ss none => Stmt.anyMentions symbol ss
  | .mk _ ss (some e) => Stmt.anyMentions symbol ss || e.mentions symbol

end

end Parlance
