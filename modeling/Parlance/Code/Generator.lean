import Parlance.Analysis.Checker
import Parlance.Code.Internal
import Parlance.Code.Markers
import Parlance.Tree.Functions

/-!
# Code generation

`generate` makes the image of an analyzed program. The code of an expression leaves its value
on top of the operand stack, that of a statement leaves the stack as it was.

The code of a routine is emitted as markers, with jumps to labels that are numbered as they are
needed. When the routine is complete, its labels are resolved.
-/

namespace Parlance

/-- Where `continue` and `break` lead. -/
structure LoopEnds where
  start : Nat
  exit : Nat

/-- What code generation knows. -/
structure GenerateContext where
  facts : Facts
  /-- The function whose code is generated. -/
  function : Nat
  /-- Whether values that are dropped are shortened away. -/
  tidy : Bool

/-- What code generation has collected. -/
structure Emission where
  /-- The constants of the image. -/
  consts : Array Const
  /-- The markers of the routine, the last one first. -/
  code : List Marker := []
  /-- The number of labels of the routine. -/
  labels : Nat := 0

abbrev Emit (α : Type) := StateT Emission (Except InternalError) α

/-- The jump that skips the right operand of a logical operator. -/
def LogicalOp.skipJump : LogicalOp → Nat → Instr
  | .and => .jumpIfFalseOrPop
  | .or => .jumpIfTrueOrPop

namespace Emit

def unresolved {α : Type} (range : Range) : Emit α :=
  throw (.unresolved range)

/-- Emits a marker. -/
def push (x : GenerateContext) (marker : Marker) : Emit Unit :=
  modify fun s => { s with code := marker.emit x.tidy s.code }

/-- Emits an instruction. -/
def instr (x : GenerateContext) (i : Instr) : Emit Unit :=
  push x (.instr i)

/-- A new label. -/
def newLabel : Emit Nat :=
  modifyGet fun s => (s.labels, { s with labels := s.labels + 1 })

/-- Marks the place of a label. -/
def mark (x : GenerateContext) (l : Nat) : Emit Unit :=
  push x (.label l)

/-- The place of a constant in the pool, which it is added to if it is new. -/
def addConst (c : Const) : Emit Nat :=
  modifyGet fun s =>
    match s.consts.findIdx? (Const.same c) with
    | some index => (index, s)
    | none => (s.consts.size, { s with consts := s.consts.push c })

/-! ### Loads and stores -/

def loadConst (x : GenerateContext) (c : Const) : Emit Unit := do
  instr x (.loadConst (← addConst c))

/-- Loads a variable from the frame that declares it, or from the captures of the current
function. -/
def loadVariable (x : GenerateContext) (symbol slot owner : Nat) (range : Range) : Emit Unit :=
  if owner = x.function then instr x (.loadLocal slot)
  else
    match (x.facts.captures x.function).idxOf? symbol with
    | some index => instr x (.loadCapture index)
    | none => unresolved range

/-- Loads the symbol of a node. -/
def load (x : GenerateContext) (n : Note) : Emit Unit :=
  match n.symbol with
  | none => unresolved n.range
  | some symbol =>
    match (x.facts.symbol symbol).storage with
    | .global slot => instr x (.loadGlobal slot)
    | .frame slot => loadVariable x symbol slot (x.facts.symbol symbol).function n.range
    | .function f => loadConst x (.function f)
    | .builtin b => loadConst x (.builtin b)

/-- Loads a variable that a lambda captures. -/
def loadCaptured (x : GenerateContext) (range : Range) (symbol : Nat) : Emit Unit :=
  match (x.facts.symbol symbol).storage with
  | .frame slot => loadVariable x symbol slot (x.facts.symbol symbol).function range
  | _ => unresolved range

/-- Loads the variables that a lambda captures. -/
def loadAllCaptured (x : GenerateContext) (range : Range) : List Nat → Emit Unit
  | [] => return
  | symbol :: rest => do
    loadCaptured x range symbol
    loadAllCaptured x range rest

/-- Stores into the symbol of a node. -/
def store (x : GenerateContext) (n : Note) : Emit Unit :=
  match n.symbol with
  | none => unresolved n.range
  | some symbol =>
    match (x.facts.symbol symbol).storage with
    | .global slot => instr x (.storeGlobal slot)
    | .frame slot =>
      if (x.facts.symbol symbol).function = x.function then instr x (.storeLocal slot)
      else unresolved n.range
    | _ => unresolved n.range

/-- Makes the function value of a lambda. -/
def lambda (x : GenerateContext) (n : Note) : Emit Unit :=
  match n.function with
  | none => unresolved n.range
  | some f =>
    match x.facts.captures f with
    | [] => loadConst x (.function f)
    | captures => do
      loadAllCaptured x n.range captures
      instr x (.closure f)

/-! ### Expressions -/

mutual

/-- The code of an expression. -/
def expr (x : GenerateContext) : Expr → Emit Unit
  | .lit _ v => loadConst x v.toConst
  | .ident n _ => load x n
  | .unary _ op e => do
    expr x e
    instr x (.unary op)
  | .binary _ op l r =>
    match op.split with
    | .inl op => do
      expr x l
      expr x r
      instr x (.binary op)
    | .inr op => do
      let done ← newLabel
      expr x l
      instr x (op.skipJump done)
      expr x r
      mark x done
  | .assign _ (.index _ base index) value => do
    load x base.note
    expr x index
    expr x value
    instr x .setItem
    store x base.note
  | .assign _ target value => do
    expr x value
    instr x .copy
    store x target.note
  | .call _ callee args => do
    expr x callee
    exprs x args
    instr x (.call args.length)
  | .index _ target index => do
    expr x target
    expr x index
    instr x .getItem
  | .list _ items => do
    exprs x items
    instr x (.buildList items.length)
  | .cast _ e target => do
    expr x e
    instr x (.cast target)
  | .lambda n _ _ => lambda x n

/-- The code of expressions, one after the other. -/
def exprs (x : GenerateContext) : List Expr → Emit Unit
  | [] => return
  | e :: es => do
    expr x e
    exprs x es

end

/-- The code of an expression whose value is not used. -/
def discard (x : GenerateContext) (e : Expr) : Emit Unit := do
  expr x e
  instr x .pop

/-- The code of an optional result. -/
def result (x : GenerateContext) : Option Expr → Emit Unit
  | none => loadConst x .unit
  | some e => expr x e

/-! ### Statements -/

mutual

/-- The code of a statement, which may be inside a loop. -/
def stmt (x : GenerateContext) (loop : Option LoopEnds) : Stmt → Emit Unit
  | .block b => block x loop b
  | .letVar n _ _ init => do
    expr x init
    store x n
  | .fnDecl _ _ _ _ => return
  | .ret _ value => do
    result x value
    instr x .ret
  | .cond _ test yes none => do
    let other ← newLabel
    expr x test
    instr x (.jumpIfFalse other)
    block x loop yes
    mark x other
  | .cond _ test yes (some no) => do
    let other ← newLabel
    expr x test
    instr x (.jumpIfFalse other)
    block x loop yes
    let done ← newLabel
    instr x (.jump done)
    mark x other
    stmt x loop no
    mark x done
  | .whileLoop _ test body => do
    let start ← newLabel
    let exit ← newLabel
    mark x start
    expr x test
    instr x (.jumpIfFalse exit)
    block x (some { start, exit }) body
    instr x (.jump start)
    mark x exit
  | .loop _ body => do
    let start ← newLabel
    let exit ← newLabel
    mark x start
    block x (some { start, exit }) body
    instr x (.jump start)
    mark x exit
  | .breakLoop n =>
    match loop with
    | some ends => instr x (.jump ends.exit)
    | none => unresolved n.range
  | .continueLoop n =>
    match loop with
    | some ends => instr x (.jump ends.start)
    | none => unresolved n.range
  | .expr _ e => discard x e

/-- The code of statements, one after the other. -/
def stmts (x : GenerateContext) (loop : Option LoopEnds) : List Stmt → Emit Unit
  | [] => return
  | s :: ss => do
    stmt x loop s
    stmts x loop ss

/-- The code of a block whose result is not used. -/
def block (x : GenerateContext) (loop : Option LoopEnds) : Block → Emit Unit
  | .mk _ ss none => stmts x loop ss
  | .mk _ ss (some e) => do
    stmts x loop ss
    discard x e

end

/-! ### Routines -/

/-- The code of a function body, which returns its result. Without a result it returns unit,
unless the last thing it does is to return. -/
def body (x : GenerateContext) : Block → Emit Unit
  | .mk _ ss (some e) => do
    stmts x none ss
    expr x e
    instr x .ret
  | .mk _ ss none => do
    stmts x none ss
    if (← get).code.head? != some (.instr .ret) then
      loadConst x .unit
      instr x .ret

/-- The routine of a function. -/
def routine (x : GenerateContext) (info : FunctionInfo) (bodies : List FunctionBody) :
    Emit Routine :=
  match bodies.lookup x.function with
  | none => unresolved .origin
  | some b => do
    modify fun s => { consts := s.consts }
    body x b
    let code := Marker.resolved (← get).code.reverse
    return { name := info.name, params := info.params.length, slots := info.slots,
             captures := info.captures.length, code := code.toArray }

/-- The routines of functions, from number `function` on. -/
def routines (facts : Facts) (tidy : Bool) (bodies : List FunctionBody) :
    Nat → List FunctionInfo → Emit (List Routine)
  | _, [] => return []
  | function, info :: rest => do
    let r ← routine { facts, function, tidy } info bodies
    return r :: (← routines facts tidy bodies (function + 1) rest)

end Emit

/-- The bodies of all functions of a program, also of those that no code makes any more. -/
def Analyzed.bodies (a : Analyzed) : List FunctionBody :=
  (0, a.program.root) :: a.program.root.functions true
    ++ a.detached.flatMap fun (f, b) => (f, b) :: b.functions true

/-- The image of an analyzed program, without verification. -/
def assemble (tidy : Bool) (a : Analyzed) : Except InternalError Image := do
  let (routines, s) ←
    (Emit.routines a.facts tidy a.bodies 0 a.facts.functions.toList).run { consts := #[] }
  return { consts := s.consts, globals := a.facts.globals, routines := routines.toArray }

/-- The image of an analyzed program. -/
def generate (a : Analyzed) : Except InternalError Image := do
  let image ← assemble true a
  match image.verify with
  | .ok () => return image
  | .error e => throw (.invalidProgram e)

end Parlance
