import Parlance.Tree.Basic

/-!
# The blocks of a tree

A block is named by its label. `Block.blocks` lists the blocks of a tree and
`Block.update` changes one of them.
-/

namespace Parlance

/-- A block with the function it belongs to. -/
abbrev OwnedBlock := Block × Nat

mutual

/-- The blocks in an expression of a function, the outer ones first. -/
def Expr.blocks (function : Nat) : Expr → List OwnedBlock
  | .lit _ _ | .ident _ _ => []
  | .unary _ _ e | .cast _ e _ => e.blocks function
  | .binary _ _ a b | .assign _ a b | .index _ a b => a.blocks function ++ b.blocks function
  | .call _ f args => f.blocks function ++ Expr.blocksOf function args
  | .list _ items => Expr.blocksOf function items
  | .lambda n _ b => b.blocks (n.function.getD function)

def Expr.blocksOf (function : Nat) : List Expr → List OwnedBlock
  | [] => []
  | e :: es => e.blocks function ++ Expr.blocksOf function es

/-- The blocks in a statement of a function. -/
def Stmt.blocks (function : Nat) : Stmt → List OwnedBlock
  | .block b | .loop _ b => b.blocks function
  | .letVar _ _ _ e | .expr _ e | .ret _ (some e) => e.blocks function
  | .fnDecl n _ _ b => b.blocks (n.function.getD function)
  | .ret _ none | .breakLoop _ | .continueLoop _ => []
  | .cond _ test yes none => test.blocks function ++ yes.blocks function
  | .cond _ test yes (some no) =>
    test.blocks function ++ yes.blocks function ++ no.blocks function
  | .whileLoop _ test b => test.blocks function ++ b.blocks function

def Stmt.blocksOf (function : Nat) : List Stmt → List OwnedBlock
  | [] => []
  | s :: ss => s.blocks function ++ Stmt.blocksOf function ss

/-- A block of a function and the blocks inside it. -/
def Block.blocks (function : Nat) : Block → List OwnedBlock
  | .mk n ss none => (.mk n ss none, function) :: Stmt.blocksOf function ss
  | .mk n ss (some e) =>
    (.mk n ss (some e), function) :: (Stmt.blocksOf function ss ++ e.blocks function)

end

mutual

/-- Changes the block with a label. -/
def Expr.update (label : Nat) (change : Block → Block) : Expr → Expr
  | .lit n v => .lit n v
  | .ident n name => .ident n name
  | .unary n op e => .unary n op (e.update label change)
  | .binary n op l r => .binary n op (l.update label change) (r.update label change)
  | .assign n t v => .assign n (t.update label change) (v.update label change)
  | .call n f args => .call n (f.update label change) (Expr.updateAll label change args)
  | .index n t i => .index n (t.update label change) (i.update label change)
  | .list n items => .list n (Expr.updateAll label change items)
  | .cast n e t => .cast n (e.update label change) t
  | .lambda n s b => .lambda n s (b.update label change)

def Expr.updateAll (label : Nat) (change : Block → Block) : List Expr → List Expr
  | [] => []
  | e :: es => e.update label change :: Expr.updateAll label change es

def Stmt.update (label : Nat) (change : Block → Block) : Stmt → Stmt
  | .block b => .block (b.update label change)
  | .letVar n name t e => .letVar n name t (e.update label change)
  | .fnDecl n name s b => .fnDecl n name s (b.update label change)
  | .ret n none => .ret n none
  | .ret n (some e) => .ret n (some (e.update label change))
  | .cond n test yes none => .cond n (test.update label change) (yes.update label change) none
  | .cond n test yes (some no) =>
    .cond n (test.update label change) (yes.update label change) (some (no.update label change))
  | .whileLoop n test b => .whileLoop n (test.update label change) (b.update label change)
  | .loop n b => .loop n (b.update label change)
  | .breakLoop n => .breakLoop n
  | .continueLoop n => .continueLoop n
  | .expr n e => .expr n (e.update label change)

def Stmt.updateAll (label : Nat) (change : Block → Block) : List Stmt → List Stmt
  | [] => []
  | s :: ss => s.update label change :: Stmt.updateAll label change ss

def Block.update (label : Nat) (change : Block → Block) : Block → Block
  | .mk n ss none =>
    if n.id = label then change (.mk n ss none) else .mk n (Stmt.updateAll label change ss) none
  | .mk n ss (some e) =>
    if n.id = label then change (.mk n ss (some e))
    else .mk n (Stmt.updateAll label change ss) (some (e.update label change))

end

end Parlance
