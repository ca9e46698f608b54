import Parlance.Code.Generator

/-!
# Fragments of code

Code generation emits markers, and resolves their labels when a routine is complete. Proofs about
code go along the tree that it is made from, and there it is better to have the code of each part
by itself. So here code is put together from fragments. A fragment knows its size and can be placed
at any offset, so all jumps are computed from sizes. What is shortened is decided on the tree: a
value that is loaded only to be dropped is not loaded, and the value of an assignment is not copied
if it is dropped.

This is another way to make the code that is emitted (`assemble_eq`). It does what is said there
for every tree, shortened or not.

## Main definitions

* `Fragment`: code that can be placed.
* `Generate.expr`, `Generate.stmt`, `Generate.body`: the fragments of trees.
* `Generate.image`: the image that is made of fragments.
-/

namespace Parlance

/-- Code that can be placed at an offset of a routine, inside a loop. -/
structure Fragment where
  /-- The number of instructions. -/
  size : Nat
  /-- Whether the fragment ends with a return, with no jump to its end. -/
  returns : Bool
  /-- The instructions at an offset. -/
  place : Nat → LoopEnds → List Instr

namespace Fragment

def empty : Fragment :=
  { size := 0, returns := false, place := fun _ _ => [] }

/-- A single instruction. -/
def one (i : Instr) : Fragment :=
  { size := 1, returns := i == .ret, place := fun _ _ => [i] }

/-- One fragment after the other. -/
def seq (a b : Fragment) : Fragment :=
  { size := a.size + b.size
    returns := if b.size = 0 then a.returns else b.returns
    place := fun offset loop => a.place offset loop ++ b.place (offset + a.size) loop }

instance : Append Fragment :=
  ⟨seq⟩

/-- A jump to the start of the loop. -/
def continueLoop : Fragment :=
  { size := 1, returns := false, place := fun _ loop => [.jump loop.start] }

/-- A jump behind the loop. -/
def breakLoop : Fragment :=
  { size := 1, returns := false, place := fun _ loop => [.jump loop.exit] }

/-- `a`, then an instruction that may jump to the end, then `b`. -/
def skipping (jump : Nat → Instr) (a b : Fragment) : Fragment :=
  { size := a.size + 1 + b.size
    returns := false
    place := fun offset loop =>
      let next := offset + a.size + 1
      a.place offset loop ++ jump (next + b.size) :: b.place next loop }

/-- `test`, then `yes` or `no`. -/
def choice (test yes no : Fragment) : Fragment :=
  { size := test.size + 1 + yes.size + 1 + no.size
    returns := false
    place := fun offset loop =>
      let yesStart := offset + test.size + 1
      let noStart := yesStart + yes.size + 1
      test.place offset loop ++ .jumpIfFalse noStart :: yes.place yesStart loop
        ++ .jump (noStart + no.size) :: no.place noStart loop }

/-- `body` over and over. -/
def forever (body : Fragment) : Fragment :=
  { size := body.size + 1
    returns := false
    place := fun offset _ =>
      body.place offset { start := offset, exit := offset + body.size + 1 } ++ [.jump offset] }

/-- `body` as long as `test` holds. -/
def whileTrue (test body : Fragment) : Fragment :=
  { size := test.size + 1 + body.size + 1
    returns := false
    place := fun offset _ =>
      let next := offset + test.size + 1
      let ends : LoopEnds := { start := offset, exit := next + body.size + 1 }
      test.place offset ends ++ .jumpIfFalse ends.exit :: body.place next ends ++ [.jump offset] }

/-- The code of a whole routine. -/
def code (f : Fragment) : Array Instr :=
  (f.place 0 { start := 0, exit := 0 }).toArray

end Fragment

/-- Generation of fragments collects the constants of the image. -/
abbrev Generate (α : Type) := StateT (Array Const) (Except InternalError) α

/-- What an assignment assigns to and its value. An assignment to an item of a list changes the list
in place, and is none. -/
def Expr.assigned? : Expr → Option (Expr × Expr)
  | .assign _ (.index _ _ _) _ => none
  | .assign _ target value => some (target, value)
  | _ => none

/-- An assignment whose value may be left on the stack is one to a name. -/
theorem Expr.assigned?_eq_some {e target value : Expr} (h : e.assigned? = some (target, value)) :
    ∃ n, e = .assign n target value ∧ ∀ m base index, target ≠ .index m base index := by
  unfold assigned? at h
  split at h
  · cases h
  · next n t v hne =>
      cases h
      exact ⟨n, rfl, fun m base index he => hne m base index he⟩
  · cases h

namespace Generate

def unresolved {α : Type} (range : Range) : Generate α :=
  throw (.unresolved range)

/-! ### Loads and stores -/

/-- Loads a constant, which is added to the pool if it is new. -/
def loadConst (c : Const) : Generate Fragment := do
  let consts ← get
  match consts.findIdx? (Const.same c) with
  | some index => return .one (.loadConst index)
  | none =>
    set (consts.push c)
    return .one (.loadConst consts.size)

/-- Loads a variable from the frame that declares it, or from the captures of the current
function. -/
def loadVariable (x : GenerateContext) (symbol slot owner : Nat) (range : Range) :
    Generate Fragment :=
  if owner = x.function then return .one (.loadLocal slot)
  else
    match (x.facts.captures x.function).idxOf? symbol with
    | some index => return .one (.loadCapture index)
    | none => unresolved range

/-- Loads the symbol of a node. -/
def load (x : GenerateContext) (n : Note) : Generate Fragment :=
  match n.symbol with
  | none => unresolved n.range
  | some symbol =>
    match (x.facts.symbol symbol).storage with
    | .global slot => return .one (.loadGlobal slot)
    | .frame slot => loadVariable x symbol slot (x.facts.symbol symbol).function n.range
    | .function f => loadConst (.function f)
    | .builtin b => loadConst (.builtin b)

/-- Loads a variable that a lambda captures. -/
def loadCaptured (x : GenerateContext) (range : Range) (symbol : Nat) : Generate Fragment :=
  match (x.facts.symbol symbol).storage with
  | .frame slot => loadVariable x symbol slot (x.facts.symbol symbol).function range
  | _ => unresolved range

/-- Loads the variables that a lambda captures. -/
def loadAllCaptured (x : GenerateContext) (range : Range) : List Nat → Generate Fragment
  | [] => return .empty
  | symbol :: rest => do
    let a ← loadCaptured x range symbol
    return a ++ (← loadAllCaptured x range rest)

/-- Stores into the symbol of a node. -/
def store (x : GenerateContext) (n : Note) : Generate Fragment :=
  match n.symbol with
  | none => unresolved n.range
  | some symbol =>
    match (x.facts.symbol symbol).storage with
    | .global slot => return .one (.storeGlobal slot)
    | .frame slot =>
      if (x.facts.symbol symbol).function = x.function then return .one (.storeLocal slot)
      else unresolved n.range
    | _ => unresolved n.range

/-- Makes the function value of a lambda. -/
def lambda (x : GenerateContext) (n : Note) : Generate Fragment :=
  match n.function with
  | none => unresolved n.range
  | some f =>
    match x.facts.captures f with
    | [] => loadConst (.function f)
    | captures => do return (← loadAllCaptured x n.range captures) ++ .one (.closure f)

/-! ### Expressions -/

mutual

/-- The code of an expression. -/
def expr (x : GenerateContext) : Expr → Generate Fragment
  | .lit _ v => loadConst v.toConst
  | .ident n _ => load x n
  | .unary _ op e => do return (← expr x e) ++ .one (.unary op)
  | .binary _ op l r => do
    let l ← expr x l
    let r ← expr x r
    match op.split with
    | .inl op => return l ++ r ++ .one (.binary op)
    | .inr op => return .skipping op.skipJump l r
  | .assign _ (.index _ base index) value => do
    let loaded ← load x base.note
    let index ← expr x index
    let value ← expr x value
    return loaded ++ index ++ value ++ .one .setItem ++ (← store x base.note)
  | .assign _ target value => do
    let value ← expr x value
    return value ++ .one .copy ++ (← store x target.note)
  | .call _ callee args => do
    let callee ← expr x callee
    return callee ++ (← exprs x args) ++ .one (.call args.length)
  | .index _ target index => do
    let target ← expr x target
    return target ++ (← expr x index) ++ .one .getItem
  | .list _ items => do return (← exprs x items) ++ .one (.buildList items.length)
  | .cast _ e target => do return (← expr x e) ++ .one (.cast target)
  | .lambda n _ _ => lambda x n

/-- The code of expressions, one after the other. -/
def exprs (x : GenerateContext) : List Expr → Generate Fragment
  | [] => return .empty
  | e :: es => do
    let a ← expr x e
    return a ++ (← exprs x es)

end

/-- Whether the code of an expression is a single load. -/
def isLoad (x : GenerateContext) : Expr → Bool
  | .lit _ _ | .ident _ _ => true
  | .lambda n _ _ => n.function.any fun f => (x.facts.captures f).isEmpty
  | _ => false

/-- The code of an expression whose value is not used. -/
def discard (x : GenerateContext) (e : Expr) : Generate Fragment :=
  match e.assigned? with
  | some (target, value) => do
    let value ← expr x value
    let stored ← store x target.note
    return if x.tidy then value ++ stored else value ++ .one .copy ++ stored ++ .one .pop
  | none => do
    let value ← expr x e
    return if x.tidy && isLoad x e then .empty else value ++ .one .pop

/-- The code of an optional result. -/
def result (x : GenerateContext) : Option Expr → Generate Fragment
  | none => loadConst .unit
  | some e => expr x e

/-! ### Statements -/

mutual

/-- The code of a statement. -/
def stmt (x : GenerateContext) (inLoop : Bool) : Stmt → Generate Fragment
  | .block b => block x inLoop b
  | .letVar n _ _ init => do
    let init ← expr x init
    return init ++ (← store x n)
  | .fnDecl _ _ _ _ => return .empty
  | .ret _ value => do return (← result x value) ++ .one .ret
  | .cond _ test yes none => do
    let test ← expr x test
    return .skipping .jumpIfFalse test (← block x inLoop yes)
  | .cond _ test yes (some no) => do
    let test ← expr x test
    let yes ← block x inLoop yes
    return .choice test yes (← stmt x inLoop no)
  | .whileLoop _ test body => do
    let test ← expr x test
    return .whileTrue test (← block x true body)
  | .loop _ body => do return .forever (← block x true body)
  | .breakLoop n => if inLoop then return .breakLoop else unresolved n.range
  | .continueLoop n => if inLoop then return .continueLoop else unresolved n.range
  | .expr _ e => discard x e

/-- The code of statements, one after the other. -/
def stmts (x : GenerateContext) (inLoop : Bool) : List Stmt → Generate Fragment
  | [] => return .empty
  | s :: ss => do
    let a ← stmt x inLoop s
    return a ++ (← stmts x inLoop ss)

/-- The code of a block whose result is not used. -/
def block (x : GenerateContext) (inLoop : Bool) : Block → Generate Fragment
  | .mk _ ss none => stmts x inLoop ss
  | .mk _ ss (some e) => do
    let a ← stmts x inLoop ss
    return a ++ (← discard x e)

end

/-! ### Routines -/

/-- The code of a function body, which returns its result. Without a result it returns unit,
unless the last thing it does is to return. -/
def body (x : GenerateContext) : Block → Generate Fragment
  | .mk _ ss (some e) => do
    let a ← stmts x false ss
    return a ++ (← expr x e) ++ .one .ret
  | .mk _ ss none => do
    let a ← stmts x false ss
    if a.returns then return a
    else return a ++ (← loadConst .unit) ++ .one .ret

/-- The routine of a function. -/
def routine (x : GenerateContext) (info : FunctionInfo) (bodies : List FunctionBody) :
    Generate Routine :=
  match bodies.lookup x.function with
  | none => unresolved .origin
  | some b => do
    let a ← body x b
    return { name := info.name, params := info.params.length, slots := info.slots,
             captures := info.captures.length, code := a.code }

/-- The routines of functions, from number `function` on. -/
def routines (facts : Facts) (tidy : Bool) (bodies : List FunctionBody) :
    Nat → List FunctionInfo → Generate (List Routine)
  | _, [] => return []
  | function, info :: rest => do
    let r ← routine { facts, function, tidy } info bodies
    return r :: (← routines facts tidy bodies (function + 1) rest)

/-- The image that is made of the fragments of an analyzed program. -/
def image (tidy : Bool) (a : Analyzed) : Except InternalError Image := do
  let (routines, consts) ←
    (routines a.facts tidy a.bodies 0 a.facts.functions.toList).run #[]
  return { consts, globals := a.facts.globals, routines := routines.toArray }

end Generate

end Parlance
