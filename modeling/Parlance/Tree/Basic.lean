import Parlance.Operators
import Parlance.Text.Position
import Parlance.Value.Basic

/-!
# Program trees

A program is a tree of expressions, statements and blocks. Every node has a note: its label,
its place in the text, and what analysis finds out about it. Labels are handed out in order
and tell the nodes of one program apart.
-/

namespace Parlance

/-- What is known about a node. Parsing fills in the label and the range, analysis the
rest. -/
structure Note where
  /-- The label of the node. -/
  id : Nat
  range : Range
  /-- The type of an expression. Statements have type `unit`. -/
  ty : Ty := .unit
  /-- The symbol that an identifier refers to or that a declaration makes. -/
  symbol : Option Nat := none
  /-- The function that a function declaration or a lambda makes. -/
  function : Option Nat := none
  deriving Inhabited

/-- A parameter of a function. -/
structure Param where
  name : String
  ty : Ty
  range : Range
  deriving Inhabited

/-- The parameters and the result type of a function. -/
structure Signature where
  params : List Param
  returns : Ty
  deriving Inhabited

namespace Signature

/-- The type of a function with this signature. -/
def ty (s : Signature) : Ty :=
  .function (s.params.map (·.ty)) s.returns

/-- `(name: type, …) -> type` -/
def render (s : Signature) : String :=
  "(" ++ ", ".intercalate (s.params.map fun p => p.name ++ ": " ++ p.ty.render) ++ ") -> "
    ++ s.returns.render

end Signature

mutual

inductive Expr where
  | lit (note : Note) (value : Lit)
  | ident (note : Note) (name : String)
  | unary (note : Note) (op : UnaryOp) (operand : Expr)
  | binary (note : Note) (op : BinaryOp) (left right : Expr)
  /-- `target = value`; analysis accepts an identifier or an item of one as target. -/
  | assign (note : Note) (target value : Expr)
  | call (note : Note) (callee : Expr) (args : List Expr)
  | index (note : Note) (target index : Expr)
  | list (note : Note) (items : List Expr)
  | cast (note : Note) (operand : Expr) (target : Scalar)
  /-- `fn(params) -> returns body` -/
  | lambda (note : Note) (signature : Signature) (body : Block)

inductive Stmt where
  | block (body : Block)
  /-- `let name: declared = init;` -/
  | letVar (note : Note) (name : String) (declared : Option Ty) (init : Expr)
  /-- `fn name(params) -> returns body` -/
  | fnDecl (note : Note) (name : String) (signature : Signature) (body : Block)
  | ret (note : Note) (value : Option Expr)
  /-- The alternative is a block or another conditional. -/
  | cond (note : Note) (test : Expr) (consequent : Block) (alternate : Option Stmt)
  | whileLoop (note : Note) (test : Expr) (body : Block)
  | loop (note : Note) (body : Block)
  | breakLoop (note : Note)
  | continueLoop (note : Note)
  | expr (note : Note) (value : Expr)

/-- Statements, and the expression that is the result of a function body. -/
inductive Block where
  | mk (note : Note) (stmts : List Stmt) (tail : Option Expr)

end

instance : Inhabited Expr :=
  ⟨.ident default ""⟩

instance : Inhabited Stmt :=
  ⟨.breakLoop default⟩

instance : Inhabited Block :=
  ⟨.mk default [] none⟩

namespace Expr

def note : Expr → Note
  | .lit n _ | .ident n _ | .unary n _ _ | .binary n _ _ _ | .assign n _ _ | .call n _ _
  | .index n _ _ | .list n _ | .cast n _ _ | .lambda n _ _ => n

/-- The same expression with another note. -/
def withNote (n : Note) : Expr → Expr
  | .lit _ v => .lit n v
  | .ident _ name => .ident n name
  | .unary _ op e => .unary n op e
  | .binary _ op l r => .binary n op l r
  | .assign _ t v => .assign n t v
  | .call _ f args => .call n f args
  | .index _ t i => .index n t i
  | .list _ items => .list n items
  | .cast _ e t => .cast n e t
  | .lambda _ s b => .lambda n s b

def range (e : Expr) : Range :=
  e.note.range

/-- The type that analysis gave the expression. -/
def ty (e : Expr) : Ty :=
  e.note.ty

/-- The value of a literal. -/
def lit? : Expr → Option Value
  | .lit _ v => some v.toValue
  | _ => none

end Expr

namespace Block

def note : Block → Note
  | .mk n _ _ => n

def stmts : Block → List Stmt
  | .mk _ ss _ => ss

def tail : Block → Option Expr
  | .mk _ _ t => t

end Block

def Stmt.note : Stmt → Note
  | .block b => b.note
  | .letVar n _ _ _ | .fnDecl n _ _ _ | .ret n _ | .cond n _ _ _ | .whileLoop n _ _ | .loop n _
  | .breakLoop n | .continueLoop n | .expr n _ => n

/-- A program: the statements at the outermost level with the result of the program, and
the number of labels handed out. The root has label `0`. -/
structure Program where
  root : Block
  labels : Nat
  /-- The types of the nodes by their labels, from analysis on. -/
  types : Array Ty := #[]
  deriving Inhabited

/-! ### Control flow -/

mutual

/-- Whether a statement contains a `break` of the enclosing loop. An inner loop has its own
breaks, and so has the body of a function. -/
def Stmt.breaks : Stmt → Bool
  | .breakLoop _ => true
  | .block b => b.breaks
  | .cond _ _ yes none => yes.breaks
  | .cond _ _ yes (some no) => yes.breaks || no.breaks
  | _ => false

/-- Whether a block contains a `break` of the enclosing loop. -/
def Block.breaks : Block → Bool
  | .mk _ ss _ => Stmt.anyBreaks ss

def Stmt.anyBreaks : List Stmt → Bool
  | [] => false
  | s :: ss => s.breaks || Stmt.anyBreaks ss

end

mutual

/-- Whether control never reaches the end of a statement because it leaves the function or
loops forever. -/
def Stmt.terminates : Stmt → Bool
  | .ret _ _ => true
  | .block b => b.terminates
  | .cond _ _ yes (some no) => yes.terminates && no.terminates
  | .loop _ b => !b.breaks
  | _ => false

def Block.terminates : Block → Bool
  | .mk _ ss _ => Stmt.anyTerminates ss

def Stmt.anyTerminates : List Stmt → Bool
  | [] => false
  | s :: ss => s.terminates || Stmt.anyTerminates ss

end

mutual

/-- Whether control never reaches the statement after this one. -/
def Stmt.diverges : Stmt → Bool
  | .ret _ _ | .breakLoop _ | .continueLoop _ => true
  | .block b => b.diverges
  | .cond _ _ yes (some no) => yes.diverges && no.diverges
  | .loop _ b => !b.breaks
  | _ => false

def Block.diverges : Block → Bool
  | .mk _ ss _ => Stmt.anyDiverges ss

def Stmt.anyDiverges : List Stmt → Bool
  | [] => false
  | s :: ss => s.diverges || Stmt.anyDiverges ss

end

end Parlance
