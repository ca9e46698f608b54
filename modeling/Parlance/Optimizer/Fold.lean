import Parlance.Analysis.Checker
import Parlance.Tree.Functions
import Parlance.Value.Ops

/-!
# Constant folding

Folding puts its value in the place of every operation on literals, from the leaves up. An
operation that would fault stays, so that it faults in the run.
-/

namespace Parlance

namespace Fold

/-- A literal in the place of a node. -/
def literal? (n : Note) (result : Except Fault Value) : Option Expr :=
  match result with
  | .ok v => v.toLit?.map (.lit n)
  | .error _ => none

/-- The operand that decides a logical operator alone. -/
def decisive : LogicalOp → Bool
  | .and => false
  | .or => true

/-- What stands in the place of a node whose parts are folded; `none` if it stays. A logical
operator whose left operand does not decide becomes its right operand, with the note of the
operator. -/
def node? : Expr → Option Expr
  | .unary n op (.lit _ v) => literal? n (v.toValue.unary op)
  | .binary n op (.lit _ v) r =>
    match op.split, v, r with
    | .inr op, .bool b, r => some (if b = decisive op then .lit n (.bool b) else r.withNote n)
    | .inl op, v, .lit _ w => literal? n (Value.binary op.toBinary v.toValue w.toValue)
    | _, _, _ => none
  | .cast n (.lit _ v) target => literal? n (v.toValue.cast target)
  | .index n (.lit _ v) (.lit _ i) => literal? n (v.toValue.getItem i.toValue)
  | _ => none

/-- What folding has done: the number of folded nodes, and the functions that lost their
place. -/
structure Log where
  count : Nat := 0
  dropped : List FunctionBody := []

abbrev Folding := StateM Log

/-- The operand that a folded node drops with the functions inside it. -/
def droppedBy : Expr → Expr → List FunctionBody
  | .binary _ _ _ r, .lit _ _ => r.functions false
  | _, _ => []

/-- Folds a node whose parts are folded. -/
def node (e : Expr) : Folding Expr := do
  match node? e with
  | none => return e
  | some e' =>
    modify fun log => { count := log.count + 1, dropped := log.dropped ++ droppedBy e e' }
    return e'

mutual

def expr : Expr → Folding Expr
  | .lit n v => return .lit n v
  | .ident n name => return .ident n name
  | .unary n op e => do node (.unary n op (← expr e))
  | .binary n op l r => do
    let l ← expr l
    let r ← expr r
    node (.binary n op l r)
  | .assign n t v => do
    let t ← expr t
    let v ← expr v
    return .assign n t v
  | .call n f args => do
    let f ← expr f
    return .call n f (← exprs args)
  | .index n t i => do
    let t ← expr t
    let i ← expr i
    node (.index n t i)
  | .list n items => do return .list n (← exprs items)
  | .cast n e target => do node (.cast n (← expr e) target)
  | .lambda n s b => do return .lambda n s (← block b)

def exprs : List Expr → Folding (List Expr)
  | [] => return []
  | e :: es => do
    let e ← expr e
    return e :: (← exprs es)

def stmt : Stmt → Folding Stmt
  | .block b => do return .block (← block b)
  | .letVar n name t e => do return .letVar n name t (← expr e)
  | .fnDecl n name s b => do return .fnDecl n name s (← block b)
  | .ret n none => return .ret n none
  | .ret n (some e) => do return .ret n (some (← expr e))
  | .cond n test yes none => do
    let test ← expr test
    return .cond n test (← block yes) none
  | .cond n test yes (some no) => do
    let test ← expr test
    let yes ← block yes
    return .cond n test yes (some (← stmt no))
  | .whileLoop n test b => do
    let test ← expr test
    return .whileLoop n test (← block b)
  | .loop n b => do return .loop n (← block b)
  | .breakLoop n => return .breakLoop n
  | .continueLoop n => return .continueLoop n
  | .expr n e => do return .expr n (← expr e)

def stmts : List Stmt → Folding (List Stmt)
  | [] => return []
  | s :: ss => do
    let s ← stmt s
    return s :: (← stmts ss)

def block : Block → Folding Block
  | .mk n ss none => do return .mk n (← stmts ss) none
  | .mk n ss (some e) => do
    let ss ← stmts ss
    return .mk n ss (some (← expr e))

end

end Fold

/-- Folds all constants of a program once. Gives the number of folded nodes. -/
def foldSweep (a : Analyzed) : Analyzed × Nat :=
  let (root, log) := (Fold.block a.program.root).run {}
  ({ a with program := { a.program with root }, detached := a.detached ++ log.dropped }, log.count)

end Parlance
