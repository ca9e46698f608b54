import Parlance.Analysis.Facts
import Parlance.Tree.Outline

/-!
# Analysis

`analyze` builds the scopes and symbols of a program, finds the declaration of every name and
the type of every expression, and notes them in the tree. It reports all errors it finds. An
ill-typed expression gets the error type, so that one mistake is reported once.

Function declarations count from the start of their block, variables from their declaration
on. A lambda captures the variables of the functions around it by value; a declared function
sees the variables of the program only.
-/

namespace Parlance

/-- What is wrong with the meaning of a program. -/
inductive SemanticFault where
  | undefinedReference (name : String)
  | typeMismatch (expected found : Ty)
  | redeclaration (name : String)
  | arityMismatch (expected found : Nat)
  | invalidAssignTarget
  | invalidCapture (name : String)
  | assignToCapture (name : String)
  | breakOutsideLoop
  | continueOutsideLoop
  | invalidOperand (operator : String) (ty : Ty)
  | cannotInfer
  deriving Inhabited

def SemanticFault.message : SemanticFault → String
  | .undefinedReference name => s!"undefined reference to `{name}`"
  | .typeMismatch expected found =>
    s!"type mismatch (expected {expected.render}, found {found.render})"
  | .redeclaration name => s!"`{name}` is already declared in this scope"
  | .arityMismatch expected found =>
    s!"wrong number of arguments (expected {expected}, found {found})"
  | .invalidAssignTarget => "invalid assignment target"
  | .invalidCapture name => s!"can not capture local `{name}` of an enclosing function"
  | .assignToCapture name => s!"can not assign to captured variable `{name}`"
  | .breakOutsideLoop => "break outside loop"
  | .continueOutsideLoop => "continue outside loop"
  | .invalidOperand operator ty => s!"operator `{operator}` can not be applied to {ty.render}"
  | .cannotInfer => "can not infer the type of this expression"

structure SemanticError where
  fault : SemanticFault
  range : Range
  deriving Inhabited

/-! ### State -/

/-- How a name is used. -/
inductive Access where
  | read
  | write
  /-- Assigning an item reads the list and writes it back. -/
  | readWrite
  deriving DecidableEq, Repr

/-- The function being analyzed. -/
structure FunctionContext where
  function : Nat
  loopDepth : Nat
  /-- The next free frame slot, and the most that were in use. -/
  nextSlot : Nat
  maxSlot : Nat
  /-- The result type; `none` as long as that of the program is not known. -/
  returns : Option Ty

structure AnalysisState where
  facts : Facts
  /-- The errors so far, the last first. -/
  errors : List SemanticError
  /-- The current scope. -/
  scope : Nat
  context : FunctionContext

abbrev Analyze (α : Type) := StateM AnalysisState α

namespace Analyze

/-- The builtins, as symbols. -/
def builtinSymbols : List Symbol :=
  Builtin.all.map fun b =>
    { name := b.name, ty := .builtin b, depth := 0, kind := .builtin, storage := .builtin b,
      function := 0, scope := 0, range := .origin, reads := 0, escapes := false }

/-- The program, as the first function. -/
def mainFunction : FunctionInfo :=
  { name := "main", kind := .main, node := 0, parent := none, scope := 1, params := [],
    returns := .unit, slots := 0, captures := [] }

/-- The scope of the builtins and that of the program. -/
def initialScopes : Array Scope :=
  #[{ kind := .prelude, parent := none, depth := 0, function := 0,
      bindings := builtinSymbols.zipIdx.map fun (s, i) => (s.name, i) },
    { kind := .program, parent := some 0, depth := 1, function := 0, bindings := [] }]

/-- The state before anything is analyzed: the builtins are declared, and the scope of the
program is open. -/
def initial : AnalysisState :=
  { facts :=
      { functions := #[mainFunction], scopes := initialScopes, symbols := builtinSymbols.toArray,
        globals := 0, warnings := [] },
    errors := [],
    scope := 1,
    context := { function := 0, loopDepth := 0, nextSlot := 0, maxSlot := 0, returns := none } }

def modifyFacts (f : Facts → Facts) : Analyze Unit :=
  modify fun s => { s with facts := f s.facts }

def modifyContext (f : FunctionContext → FunctionContext) : Analyze Unit :=
  modify fun s => { s with context := f s.context }

def modifyFunction (function : Nat) (f : FunctionInfo → FunctionInfo) : Analyze Unit :=
  modifyFacts fun facts => { facts with functions := facts.functions.modify function f }

def functionInfo (function : Nat) : Analyze FunctionInfo := do
  return (← get).facts.info function

def symbolInfo (symbol : Nat) : Analyze Symbol := do
  return (← get).facts.symbol symbol

def currentScope : Analyze Scope := do
  let s ← get
  return s.facts.scopes[s.scope]?.getD default

def report (fault : SemanticFault) (range : Range) : Analyze Unit :=
  modify fun s => { s with errors := ⟨fault, range⟩ :: s.errors }

/-- Reports an operator on a type it is not made for. The result has the error type. -/
def invalidOperand (operator : String) (ty : Ty) (range : Range) : Analyze Ty := do
  if ty = .error then return .error
  else
    report (.invalidOperand operator ty) range
    return .error

/-! ### Scopes and symbols -/

/-- Runs in a new scope. The frame slots used in it are free again after it. -/
def inScope {α : Type} (kind : ScopeKind) (run : Analyze α) : Analyze α := do
  let s ← get
  let depth := (← currentScope).depth + 1
  let scope : Scope :=
    { kind, parent := some s.scope, depth, function := s.context.function, bindings := [] }
  set { s with
    facts := { s.facts with scopes := s.facts.scopes.push scope }
    scope := s.facts.scopes.size }
  let a ← run
  modify fun t =>
    { t with scope := s.scope, context := { t.context with nextSlot := s.context.nextSlot } }
  return a

/-- The storage of a new variable of the current function. -/
def allocStorage : Analyze Storage := do
  let s ← get
  if (← functionInfo s.context.function).kind = .main then
    modifyFacts fun facts => { facts with globals := facts.globals + 1 }
    return .global s.facts.globals
  else
    let slot := s.context.nextSlot
    modifyContext fun c =>
      { c with nextSlot := slot + 1, maxSlot := max c.maxSlot (slot + 1) }
    return .frame slot

/-- Declares a symbol in the current scope. `place` is what a report about it points to. -/
def declare (name : String) (ty : Ty) (kind : SymbolKind) (storage : Storage) (place range : Range) :
    Analyze Nat := do
  let s ← get
  let scope ← currentScope
  let id := s.facts.symbols.size
  let symbol : Symbol :=
    { name, ty, depth := scope.depth, kind, storage, function := s.context.function,
      scope := s.scope, range, reads := 0, escapes := false }
  modifyFacts fun facts => { facts with symbols := facts.symbols.push symbol }
  if (scope.bindings.lookup name).isSome then report (.redeclaration name) place
  else
    modifyFacts fun facts =>
      { facts with scopes := facts.scopes.modify s.scope fun scope =>
          { scope with bindings := scope.bindings ++ [(name, id)] } }
  return id

/-- A new function inside the current one. -/
def newFunction (name : String) (kind : FunctionKind) (node : Nat) (signature : Signature) :
    Analyze Nat := do
  let s ← get
  let info : FunctionInfo :=
    { name, kind, node, parent := some s.context.function, scope := s.scope, params := [],
      returns := signature.returns, slots := 0, captures := [] }
  modifyFacts fun facts => { facts with functions := facts.functions.push info }
  return s.facts.functions.size

/-- The symbol of a name in a scope or the scopes around it, within so many scopes. -/
def lookup (facts : Facts) (name : String) : Nat → Nat → Option Nat
  | 0, _ => none
  | fuel + 1, scope =>
    match facts.scopes[scope]? with
    | none => none
    | some s =>
      match s.bindings.lookup name with
      | some symbol => some symbol
      | none =>
        match s.parent with
        | none => none
        | some parent => lookup facts name fuel parent

/-- Every function between a use and the owner of a variable captures it. Fails at the first
one that is not a lambda. -/
def capture (symbol owner : Nat) : Nat → Nat → Analyze Bool
  | 0, _ => return true
  | fuel + 1, function => do
    if function = owner then return true
    else
      let info ← functionInfo function
      if info.kind = .lambda then
        modifyFunction function fun f =>
          if f.captures.contains symbol then f
          else { f with captures := f.captures ++ [symbol] }
        match info.parent with
        | none => return true
        | some parent => capture symbol owner fuel parent
      else return false

/-- Counts a use of a symbol. -/
def use (symbol : Nat) (outside : Bool) (access : Access) : Analyze Unit :=
  modifyFacts fun facts =>
    { facts with symbols := facts.symbols.modify symbol fun y =>
        { y with
          escapes := y.escapes || outside
          reads := if access = .write then y.reads else y.reads + 1 } }

/-- The symbol of a name. -/
def resolve (name : String) (range : Range) (access : Access) : Analyze (Option Nat) := do
  let s ← get
  match lookup s.facts name s.facts.scopes.size s.scope with
  | none =>
    report (.undefinedReference name) range
    return none
  | some symbol =>
    let info ← symbolInfo symbol
    let current := s.context.function
    let outside := info.function != current
    let captured := match info.storage with
      | .frame _ => outside
      | _ => false
    let allowed ←
      if captured then capture symbol info.function s.facts.functions.size current else pure true
    if !allowed then
      report (.invalidCapture name) range
      return none
    else
      if captured && access != .read then report (.assignToCapture name) range
      use symbol outside access
      return some symbol

/-! ### Expressions -/

/-- Checks the type of an expression against the wanted one. -/
def settle (want : Option Ty) (e : Expr) : Analyze Expr := do
  match want with
  | none => return e
  | some expected =>
    if !e.ty.compatible expected then report (.typeMismatch expected e.ty) e.range
    return e

/-- Whether a binary operator takes left operands of a type. The logical ones are checked
against `bool` instead. -/
def operatorAccepts (op : BinaryOp) (ty : Ty) : Bool :=
  match op with
  | .add | .lt | .le | .gt | .ge => ty.isOrdered
  | .sub | .mul | .div | .rem | .pow => ty.isNumeric
  | .eq | .ne => ty.isEquatable
  | .and | .or => true

/-- The type of an arithmetic or comparing expression with this left operand. -/
def binaryType (op : BinaryOp) (left : Ty) (range : Range) : Analyze Ty := do
  let ty ←
    if left = .error then pure .error
    else if operatorAccepts op left then pure left
    else invalidOperand op.name left range
  return if op.isComparison then .bool else ty

/-- The type of `-` on an operand. -/
def negationType (operand : Ty) (range : Range) : Analyze Ty :=
  if operand.isNumeric || operand = .error then return operand
  else invalidOperand "-" operand range

/-- The type of an item of a value. -/
def itemType (target : Ty) (range : Range) : Analyze Ty :=
  match target with
  | .list item => return item
  | .str => return .str
  | .error => return .error
  | ty => invalidOperand "[]" ty range

/-- The type that an item of a variable is assigned at. -/
def assignedItemType (target : Ty) (range : Range) : Analyze Ty :=
  match target with
  | .list item => return item
  | .error => return .error
  | ty => invalidOperand "[]=" ty range

/-- Whether the operand of a cast is a scalar. -/
def checkCast (operand : Ty) (range : Range) : Analyze Unit := do
  if operand.scalar?.isNone then
    let _ ← invalidOperand "as" operand range

/-- The type of a call to a builtin with as many arguments as it takes. -/
def builtinType (b : Builtin) (args : List Expr) : Analyze Ty :=
  match b, args with
  | .len, [a] => do
    match a.ty with
    | .list _ | .str | .error => return .int
    | ty =>
      let _ ← invalidOperand "len" ty a.range
      return .int
  | .push, [a, _] =>
    match a.ty with
    | .list item => return .list item
    | .error => return .error
    | ty => invalidOperand "push" ty a.range
  | b, _ => return b.returns

/-- The type of a call, once its parts are analyzed. -/
def callType (callee : Ty) (args : List Expr) (range : Range) : Analyze Ty :=
  match callee with
  | .function _ returns => return returns
  | .builtin b => if args.length = b.arity then builtinType b args else return b.returns
  | .error => return .error
  | ty => invalidOperand "()" ty range

/-- How the arguments of a call are checked. -/
inductive ArgMode where
  /-- Each against the type of its parameter. -/
  | params (tys : List Ty)
  /-- All against one type, if any. -/
  | all (want : Option Ty)
  /-- The second against the items of the first. -/
  | push

/-- The way to check so many arguments of a callee. -/
def argMode (callee : Ty) (count : Nat) (range : Range) : Analyze ArgMode :=
  match callee with
  | .function params _ =>
    if params.length = count then return .params params
    else do
      report (.arityMismatch params.length count) range
      return .all none
  | .builtin b =>
    if b.arity = count then
      match b with
      | .arg => return .all (some .int)
      | .push => return .push
      | _ => return .all none
    else do
      report (.arityMismatch b.arity count) range
      return .all none
  | _ => return .all none

/-- The type of the items of a list type. -/
def listItem? : Ty → Option Ty
  | .list item => some item
  | _ => none

/-- The type of a variable that is assigned to, unless the symbol is none. -/
def assignable? (symbol : Nat) : Analyze (Option Ty) := do
  let info ← symbolInfo symbol
  match info.kind with
  | .variable | .parameter => return some info.ty
  | _ => return none

/-- The type of the variable whose item is assigned. -/
def assignedBase (symbol : Option Nat) (range : Range) : Analyze Ty := do
  match symbol with
  | none => return .error
  | some symbol =>
    match ← assignable? symbol with
    | some ty => return ty
    | none =>
      report .invalidAssignTarget range
      return .error

/-! ### Functions -/

/-- Declares the parameters of a function. -/
def declareParams (place : Range) : List Param → Analyze (List Nat)
  | [] => return []
  | p :: ps => do
    let storage ← allocStorage
    let symbol ← declare p.name p.ty .parameter storage place p.range
    return symbol :: (← declareParams place ps)

/-- Runs in the context and scope of a function, after declaring its parameters. -/
def inFunction {α : Type} (function : Nat) (signature : Signature) (place : Range)
    (run : Analyze α) : Analyze α := do
  let outer := (← get).context
  modifyContext fun _ =>
    { function, loopDepth := 0, nextSlot := 0, maxSlot := 0, returns := some signature.returns }
  let a ← inScope .function do
    let scope := (← get).scope
    modifyFunction function fun f => { f with scope := scope }
    let params ← declareParams place signature.params
    modifyFunction function fun f => { f with params := params }
    run
  let slots := (← get).context.maxSlot
  modifyFunction function fun f => { f with slots := slots }
  modifyContext fun _ => outer
  return a

/-- Runs inside a loop. -/
def inLoop {α : Type} (run : Analyze α) : Analyze α := do
  modifyContext fun c => { c with loopDepth := c.loopDepth + 1 }
  let a ← run
  modifyContext fun c => { c with loopDepth := c.loopDepth - 1 }
  return a

/-- Reports a statement that belongs in a loop and is not in one. -/
def requireLoop (fault : SemanticFault) (range : Range) : Analyze Unit := do
  if (← get).context.loopDepth = 0 then report fault range

/-- Checks a result of the current function. The first result of the program decides its
type. -/
def expectReturn (ty : Ty) (range : Range) : Analyze Unit := do
  match (← get).context.returns with
  | some returns => if !ty.compatible returns then report (.typeMismatch returns ty) range
  | none => modifyContext fun c => { c with returns := some ty }

/-- The function and the symbol of a function declaration. -/
structure Declared where
  function : Nat
  symbol : Nat

/-- Declares the functions of a list of statements, before the statements are analyzed. -/
def hoist : List Stmt → Analyze (List (Option Declared))
  | [] => return []
  | .fnDecl note name signature _ :: rest => do
    let function ← newFunction name .named note.id signature
    let symbol ← declare name signature.ty .function (.function function) note.range note.range
    return some { function, symbol } :: (← hoist rest)
  | _ :: rest => return none :: (← hoist rest)

mutual

/-- Analyzes an expression that should have the wanted type, if there is one. -/
def expr (want : Option Ty) : Expr → Analyze Expr
  | .lit n v => settle want (.lit { n with ty := v.ty } v)
  | .ident n name => do
    match ← resolve name n.range .read with
    | some symbol =>
      let ty := (← symbolInfo symbol).ty
      settle want (.ident { n with ty, symbol := some symbol } name)
    | none => settle want (.ident { n with ty := .error } name)
  | .unary n .neg e => do
    let e ← expr none e
    let ty ← negationType e.ty n.range
    settle want (.unary { n with ty } .neg e)
  | .unary n .not e => do
    let e ← expr (some .bool) e
    settle want (.unary { n with ty := .bool } .not e)
  | .binary n op l r => do
    if op.isLogical then
      let l ← expr (some .bool) l
      let r ← expr (some .bool) r
      settle want (.binary { n with ty := .bool } op l r)
    else
      let l ← expr none l
      let r ← expr (some l.ty) r
      let ty ← binaryType op l.ty n.range
      settle want (.binary { n with ty } op l r)
  | .assign n (.ident tn name) value => do
    match ← resolve name tn.range .write with
    | none =>
      let value ← expr none value
      settle want (.assign { n with ty := .error } (.ident tn name) value)
    | some symbol =>
      match ← assignable? symbol with
      | none =>
        report .invalidAssignTarget tn.range
        let value ← expr none value
        settle want
          (.assign { n with ty := .error } (.ident { tn with symbol := some symbol } name) value)
      | some ty =>
        let value ← expr (some ty) value
        settle want
          (.assign { n with ty } (.ident { tn with ty, symbol := some symbol } name) value)
  | .assign n (.index tn (.ident bn name) index) value => do
    let symbol ← resolve name bn.range .readWrite
    let base ← assignedBase symbol tn.range
    let index ← expr (some .int) index
    let ty ← assignedItemType base tn.range
    let value ← expr (some ty) value
    settle want
      (.assign { n with ty } (.index { tn with ty } (.ident { bn with ty := base, symbol } name) index)
        value)
  | .assign n target value => do
    report .invalidAssignTarget target.range
    let value ← expr none value
    settle want (.assign { n with ty := .error } target value)
  | .call n callee args => do
    let callee ← expr none callee
    let args ← match ← argMode callee.ty args.length n.range with
      | .params tys => exprsAgainst tys args
      | .all want => exprs want args
      | .push => pushArgs args
    let ty ← callType callee.ty args n.range
    settle want (.call { n with ty } callee args)
  | .index n target index => do
    let target ← expr none target
    let index ← expr (some .int) index
    let ty ← itemType target.ty n.range
    settle want (.index { n with ty } target index)
  | .list n [] => do
    match want with
    | some (.list item) => return .list { n with ty := .list item } []
    | want =>
      report .cannotInfer n.range
      settle want (.list { n with ty := .error } [])
  | .list n (first :: rest) => do
    match want with
    | some (.list item) =>
      let first ← expr (some item) first
      let rest ← exprs (some item) rest
      return .list { n with ty := .list item } (first :: rest)
    | want =>
      let first ← expr none first
      let rest ← exprs (some first.ty) rest
      settle want (.list { n with ty := .list first.ty } (first :: rest))
  | .cast n e target => do
    let e ← expr none e
    checkCast e.ty n.range
    settle want (.cast { n with ty := target.toTy } e target)
  | .lambda n signature body => do
    let function ← newFunction "lambda" .lambda n.id signature
    let body ← inFunction function signature n.range (functionBody signature body)
    settle want (.lambda { n with ty := signature.ty, function := some function } signature body)

/-- Analyzes expressions that should all have the wanted type, if there is one. -/
def exprs (want : Option Ty) : List Expr → Analyze (List Expr)
  | [] => return []
  | e :: es => do
    let e ← expr want e
    return e :: (← exprs want es)

/-- Analyzes expressions against a type each. -/
def exprsAgainst : List Ty → List Expr → Analyze (List Expr)
  | _, [] => return []
  | tys, e :: es => do
    let e ← expr tys.head? e
    return e :: (← exprsAgainst tys.tail es)

/-- Analyzes a list and an item for it. -/
def pushArgs : List Expr → Analyze (List Expr)
  | [] => return []
  | e :: es => do
    let e ← expr none e
    return e :: (← exprs (listItem? e.ty) es)

/-- Analyzes the body of a function. A function with a result has to end with it. -/
def functionBody (signature : Signature) : Block → Analyze Block
  | .mk n ss none => do
    let ss' ← stmts ss (← hoist ss)
    if signature.returns != .unit && !signature.returns.isError && !Stmt.anyTerminates ss then
      report (.typeMismatch signature.returns .unit) n.range
    return .mk n ss' none
  | .mk n ss (some e) => do
    let ss ← stmts ss (← hoist ss)
    let e ← expr (some signature.returns) e
    return .mk n ss (some e)

/-- Analyzes a block in a scope of its own. -/
def block : Block → Analyze Block
  | .mk n ss tail => inScope .block do
    let ss ← stmts ss (← hoist ss)
    return .mk n ss tail

/-- Analyzes statements whose functions are declared. -/
def stmts : List Stmt → List (Option Declared) → Analyze (List Stmt)
  | [], _ => return []
  | s :: ss, declared => do
    let s ← stmt s (declared.head?.join)
    return s :: (← stmts ss declared.tail)

def stmt : Stmt → Option Declared → Analyze Stmt
  | .block b, _ => do return .block (← block b)
  | .letVar n name annotated init, _ => do
    let init ← expr annotated init
    let storage ← allocStorage
    let symbol ← declare name (annotated.getD init.ty) .variable storage n.range n.range
    return .letVar { n with symbol := some symbol } name annotated init
  | .fnDecl n name signature body, declared => do
    match declared with
    | none => return .fnDecl n name signature body
    | some d =>
      let body ← inFunction d.function signature n.range (functionBody signature body)
      return .fnDecl { n with symbol := some d.symbol, function := some d.function } name signature
        body
  | .ret n none, _ => do
    expectReturn .unit n.range
    return .ret n none
  | .ret n (some e), _ => do
    match (← get).context.returns with
    | some returns => return .ret n (some (← expr (some returns) e))
    | none =>
      let e ← expr none e
      expectReturn e.ty n.range
      return .ret n (some e)
  | .cond n test yes none, _ => do
    let test ← expr (some .bool) test
    return .cond n test (← block yes) none
  | .cond n test yes (some no), _ => do
    let test ← expr (some .bool) test
    let yes ← block yes
    let no ← stmt no none
    return .cond n test yes (some no)
  | .whileLoop n test body, _ => do
    let test ← expr (some .bool) test
    return .whileLoop n test (← inLoop (block body))
  | .loop n body, _ => do return .loop n (← inLoop (block body))
  | .breakLoop n, _ => do
    requireLoop .breakOutsideLoop n.range
    return .breakLoop n
  | .continueLoop n, _ => do
    requireLoop .continueOutsideLoop n.range
    return .continueLoop n
  | .expr n e, _ => do return .expr n (← expr none e)

end

/-- Analyzes the statements and the result of a program. -/
def programBody : Block → Analyze Block
  | .mk n ss none => do
    let ss' ← stmts ss (← hoist ss)
    if !Stmt.anyTerminates ss then expectReturn .unit n.range
    return .mk { n with function := some 0 } ss' none
  | .mk n ss (some e) => do
    let ss ← stmts ss (← hoist ss)
    let e ← expr none e
    expectReturn e.ty e.range
    return .mk { n with function := some 0 } ss (some e)

end Analyze

/-- The variables that are never read, unless their name begins with an underscore. -/
def Facts.unused (facts : Facts) : List Warning :=
  facts.symbols.toList.filterMap fun y =>
    if y.kind = .variable ∧ y.reads = 0 ∧ !y.name.startsWith "_" then
      some { name := y.name, range := y.range }
    else none

/-- A program with what is known about it. -/
structure Analyzed where
  program : Program
  facts : Facts
  /-- The functions whose place in the program optimizing took away, with
  their bodies. -/
  detached : List (Nat × Block) := []
  deriving Inhabited

/-- The table of the types of a tree's nodes. It has an entry for each label that was handed out,
and the type of every node is written to the entry of its label. -/
def Program.typeTable (p : Program) : Array Ty :=
  p.nodes.foldl (fun types o => types.setIfInBounds o.note.id o.note.ty)
    (Array.replicate p.labels .unit)

/-- Analyzes a program. Gives the tree with its notes, the facts, and all errors. -/
def analyze (p : Program) : Analyzed × List SemanticError :=
  let (root, s) := (Analyze.programBody p.root).run Analyze.initial
  let returns := s.context.returns.getD .unit
  let facts := { s.facts with functions := s.facts.functions.modify 0 fun f => { f with returns } }
  ({ program := { p with root, types := { p with root }.typeTable }
     facts := { facts with warnings := facts.unused } },
    s.errors.reverse)

end Parlance
