import Parlance.Tree.Basic

/-!
# Outlines

An outline shows a program as a uniform tree of kinds of nodes, in which an absent part is
an explicit gap. Listings of nodes are made from it.
-/

namespace Parlance

/-- The kinds of nodes. -/
inductive NodeKind where
  | program
  | block
  | letVar
  | fnDecl
  | ret
  | cond
  | whileLoop
  | loop
  | breakLoop
  | continueLoop
  | exprStmt
  | lit
  | ident
  | unary
  | binary
  | assign
  | call
  | index
  | list
  | cast
  | lambda
  deriving DecidableEq, Repr, Inhabited

/-- How many children a kind of node has, gaps included. -/
inductive Arity where
  | exactly (n : Nat)
  | atLeast (n : Nat)
  deriving DecidableEq, Repr

def Arity.accepts : Arity → Nat → Bool
  | .exactly n, count => count == n
  | .atLeast n, count => n ≤ count

namespace NodeKind

def name : NodeKind → String
  | .program => "Program"
  | .block => "Block"
  | .letVar => "Let"
  | .fnDecl => "FnDecl"
  | .ret => "Return"
  | .cond => "If"
  | .whileLoop => "While"
  | .loop => "Loop"
  | .breakLoop => "Break"
  | .continueLoop => "Continue"
  | .exprStmt => "ExprStmt"
  | .lit => "Lit"
  | .ident => "Ident"
  | .unary => "Unary"
  | .binary => "Binary"
  | .assign => "Assign"
  | .call => "Call"
  | .index => "Index"
  | .list => "List"
  | .cast => "Cast"
  | .lambda => "Lambda"

def arity : NodeKind → Arity
  | .program | .block | .call => .atLeast 1
  | .list => .atLeast 0
  | .breakLoop | .continueLoop | .lit | .ident => .exactly 0
  | .letVar | .fnDecl | .ret | .loop | .exprStmt | .unary | .cast | .lambda => .exactly 1
  | .whileLoop | .binary | .assign | .index => .exactly 2
  | .cond => .exactly 3

def isStmt : NodeKind → Bool
  | .block | .letVar | .fnDecl | .ret | .cond | .whileLoop | .loop | .breakLoop | .continueLoop
  | .exprStmt => true
  | _ => false

end NodeKind

/-- A node of an outline: its kind, what a listing says beside the kind, and its
children. -/
inductive Outline where
  | node (note : Note) (kind : NodeKind) (detail : String) (children : List (Option Outline))

namespace Outline

def note : Outline → Note
  | .node n _ _ _ => n

def kind : Outline → NodeKind
  | .node _ k _ _ => k

def children : Outline → List (Option Outline)
  | .node _ _ _ cs => cs

end Outline

/-! ### From trees -/

mutual

def Expr.outline : Expr → Outline
  | .lit n v => .node n .lit (" " ++ v.render) []
  | .ident n name => .node n .ident (" " ++ name) []
  | .unary n op e => .node n .unary (" " ++ op.name) [some e.outline]
  | .binary n op l r => .node n .binary (" " ++ op.name) [some l.outline, some r.outline]
  | .assign n t v => .node n .assign "" [some t.outline, some v.outline]
  | .call n f args => .node n .call "" (some f.outline :: Expr.outlines args)
  | .index n t i => .node n .index "" [some t.outline, some i.outline]
  | .list n items => .node n .list "" (Expr.outlines items)
  | .cast n e t => .node n .cast (" " ++ t.name) [some e.outline]
  | .lambda n s b => .node n .lambda (" " ++ s.render) [some (b.outline .block)]

def Expr.outlines : List Expr → List (Option Outline)
  | [] => []
  | e :: es => some e.outline :: Expr.outlines es

def Stmt.outline : Stmt → Outline
  | .block b => b.outline .block
  | .letVar n name t init =>
    .node n .letVar (" " ++ name ++ (t.elim "" fun t => ": " ++ t.render)) [some init.outline]
  | .fnDecl n name s b => .node n .fnDecl (" " ++ name ++ s.render) [some (b.outline .block)]
  | .ret n none => .node n .ret "" [none]
  | .ret n (some e) => .node n .ret "" [some e.outline]
  | .cond n test yes none => .node n .cond "" [some test.outline, some (yes.outline .block), none]
  | .cond n test yes (some no) =>
    .node n .cond "" [some test.outline, some (yes.outline .block), some no.outline]
  | .whileLoop n test b => .node n .whileLoop "" [some test.outline, some (b.outline .block)]
  | .loop n b => .node n .loop "" [some (b.outline .block)]
  | .breakLoop n => .node n .breakLoop "" []
  | .continueLoop n => .node n .continueLoop "" []
  | .expr n e => .node n .exprStmt "" [some e.outline]

def Stmt.outlines : List Stmt → List (Option Outline)
  | [] => []
  | s :: ss => some s.outline :: Stmt.outlines ss

def Block.outline (kind : NodeKind) : Block → Outline
  | .mk n ss none => .node n kind "" (Stmt.outlines ss ++ [none])
  | .mk n ss (some e) => .node n kind "" (Stmt.outlines ss ++ [some e.outline])

end

def Program.outline (p : Program) : Outline :=
  p.root.outline .program

/-! ### Listings -/

mutual

/-- The nodes in order, each before its children. -/
def Outline.nodes : Outline → List Outline
  | .node n k d cs => .node n k d cs :: Outline.nodesOf cs

def Outline.nodesOf : List (Option Outline) → List Outline
  | [] => []
  | none :: cs => Outline.nodesOf cs
  | some c :: cs => c.nodes ++ Outline.nodesOf cs

end

mutual

/-- A listing with a line for each node, children deeper than their parent. -/
def Outline.dump (depth : Nat) : Outline → String
  | .node n k d cs =>
    String.ofList (List.replicate (2 * depth) ' ') ++ k.name ++ d ++ " @" ++ n.range.render ++ "\n"
      ++ Outline.dumpAll (depth + 1) cs

def Outline.dumpAll (depth : Nat) : List (Option Outline) → String
  | [] => ""
  | none :: cs =>
    String.ofList (List.replicate (2 * depth) ' ') ++ "None\n" ++ Outline.dumpAll depth cs
  | some c :: cs => c.dump depth ++ Outline.dumpAll depth cs

end

/-- All nodes of a program in order, each before its children. -/
def Program.nodes (p : Program) : List Outline :=
  p.outline.nodes

/-- A listing of a program's nodes. -/
def Program.dump (p : Program) : String :=
  p.outline.dump 0

end Parlance
