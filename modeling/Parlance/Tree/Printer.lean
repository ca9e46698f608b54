import Parlance.Tree.Basic

/-!
# Trees as program text

`Program.render` writes a tree in the usual grammar. Operators are written with all their
parentheses, and each statement takes lines of its own.
-/

namespace Parlance

/-- Blanks at the start of a line. -/
def padding (indent : Nat) : String :=
  String.ofList (List.replicate indent ' ')

mutual

/-- An expression whose lines after the first are indented. -/
def Expr.render (indent : Nat) : Expr → String
  | .lit _ v => v.render
  | .ident _ name => name
  | .unary _ op e => "(" ++ op.name ++ e.render indent ++ ")"
  | .binary _ op l r => "(" ++ l.render indent ++ " " ++ op.name ++ " " ++ r.render indent ++ ")"
  | .assign _ t v => t.render indent ++ " = " ++ v.render indent
  | .call _ f args =>
    f.render indent ++ "(" ++ ", ".intercalate (Expr.renderAll indent args) ++ ")"
  | .index _ t i => t.render indent ++ "[" ++ i.render indent ++ "]"
  | .list _ items => "[" ++ ", ".intercalate (Expr.renderAll indent items) ++ "]"
  | .cast _ e t => "(" ++ e.render indent ++ " as " ++ t.name ++ ")"
  | .lambda _ s b => "fn" ++ s.render ++ " " ++ b.render indent

def Expr.renderAll (indent : Nat) : List Expr → List String
  | [] => []
  | e :: es => e.render indent :: Expr.renderAll indent es

/-- A statement after the indentation of its first line. -/
def Stmt.render (indent : Nat) : Stmt → String
  | .block b => b.render indent
  | .letVar _ name none init => "let " ++ name ++ " = " ++ init.render indent ++ ";"
  | .letVar _ name (some t) init =>
    "let " ++ name ++ ": " ++ t.render ++ " = " ++ init.render indent ++ ";"
  | .fnDecl _ name s b => "fn " ++ name ++ s.render ++ " " ++ b.render indent
  | .ret _ none => "return;"
  | .ret _ (some e) => "return " ++ e.render indent ++ ";"
  | .cond _ test yes none => "if " ++ test.render indent ++ " " ++ yes.render indent
  | .cond _ test yes (some no) =>
    "if " ++ test.render indent ++ " " ++ yes.render indent ++ " else " ++ no.render indent
  | .whileLoop _ test b => "while " ++ test.render indent ++ " " ++ b.render indent
  | .loop _ b => "loop " ++ b.render indent
  | .breakLoop _ => "break;"
  | .continueLoop _ => "continue;"
  | .expr _ e => e.render indent ++ ";"

/-- The statements of a block, one per line. -/
def Stmt.renderLines (indent : Nat) : List Stmt → String
  | [] => ""
  | s :: ss => padding indent ++ s.render indent ++ "\n" ++ Stmt.renderLines indent ss

/-- The lines of a block. -/
def Block.renderLines (indent : Nat) : Block → String
  | .mk _ ss none => Stmt.renderLines indent ss
  | .mk _ ss (some e) => Stmt.renderLines indent ss ++ padding indent ++ e.render indent ++ "\n"

/-- A block in braces. -/
def Block.render (indent : Nat) : Block → String
  | .mk _ ss none => "\x7b\n" ++ Stmt.renderLines (indent + 4) ss ++ padding indent ++ "\x7d"
  | .mk _ ss (some e) =>
    "\x7b\n" ++ Stmt.renderLines (indent + 4) ss ++ padding (indent + 4) ++ e.render (indent + 4)
      ++ "\n" ++ padding indent ++ "\x7d"

end

/-- The text of a program. -/
def Program.render (p : Program) : String :=
  p.root.renderLines 0

end Parlance
