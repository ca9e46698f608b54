import Parlance.Tree.Basic

/-!
# The functions of a tree

Every function declaration and every lambda that analysis has numbered makes a function. The
listings go through the tree from left to right, a function before the functions inside it.
-/

namespace Parlance

/-- The body of a function with the number of the function. -/
abbrev FunctionBody := Nat × Block

mutual

/-- The functions made in an expression. With `nested` the functions inside functions are
listed too. -/
def Expr.functions (nested : Bool) : Expr → List FunctionBody
  | .lit _ _ | .ident _ _ => []
  | .unary _ _ e | .cast _ e _ => e.functions nested
  | .binary _ _ a b | .assign _ a b | .index _ a b => a.functions nested ++ b.functions nested
  | .call _ f args => f.functions nested ++ Expr.functionsOf nested args
  | .list _ items => Expr.functionsOf nested items
  | .lambda n _ b =>
    (n.function.map fun f => (f, b)).toList ++ if nested then b.functions nested else []

def Expr.functionsOf (nested : Bool) : List Expr → List FunctionBody
  | [] => []
  | e :: es => e.functions nested ++ Expr.functionsOf nested es

/-- The functions made in a statement. -/
def Stmt.functions (nested : Bool) : Stmt → List FunctionBody
  | .block b | .loop _ b => b.functions nested
  | .letVar _ _ _ e | .expr _ e | .ret _ (some e) => e.functions nested
  | .fnDecl n _ _ b =>
    (n.function.map fun f => (f, b)).toList ++ if nested then b.functions nested else []
  | .ret _ none | .breakLoop _ | .continueLoop _ => []
  | .cond _ test yes none => test.functions nested ++ yes.functions nested
  | .cond _ test yes (some no) =>
    test.functions nested ++ yes.functions nested ++ no.functions nested
  | .whileLoop _ test b => test.functions nested ++ b.functions nested

def Stmt.functionsOf (nested : Bool) : List Stmt → List FunctionBody
  | [] => []
  | s :: ss => s.functions nested ++ Stmt.functionsOf nested ss

/-- The functions made in a block. -/
def Block.functions (nested : Bool) : Block → List FunctionBody
  | .mk _ ss none => Stmt.functionsOf nested ss
  | .mk _ ss (some e) => Stmt.functionsOf nested ss ++ e.functions nested

end

/-- The functions that a block makes and another one does not, without those inside them. -/
def Block.functionsLost (before after : Block) : List FunctionBody :=
  let kept := (after.functions false).map Prod.fst
  (before.functions false).filter fun f => !kept.contains f.1

end Parlance
