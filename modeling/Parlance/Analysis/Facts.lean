import Parlance.Tree.Basic

/-!
# What is known about a program

Analysis collects the functions, scopes and symbols of a program. The nodes of the tree refer
to them by number, and so do they to each other. Function `0` is the program itself, scope
`0` holds the builtins.
-/

namespace Parlance

inductive FunctionKind where
  /-- The program itself. -/
  | main
  /-- A declared function. -/
  | named
  | lambda
  deriving DecidableEq, Repr, Inhabited

structure FunctionInfo where
  name : String
  kind : FunctionKind
  /-- The label of the node that makes the function. -/
  node : Nat
  /-- The function around it. -/
  parent : Option Nat
  /-- Its outermost scope. -/
  scope : Nat
  /-- The symbols of its parameters. -/
  params : List Nat
  returns : Ty
  /-- The number of frame slots, parameters included. -/
  slots : Nat
  /-- The variables of functions around it that it captures by value, in order. -/
  captures : List Nat
  deriving Inhabited

inductive ScopeKind where
  /-- The scope of the builtins. -/
  | prelude
  | program
  | function
  | block
  deriving DecidableEq, Repr, Inhabited

structure Scope where
  kind : ScopeKind
  /-- The scope around it. -/
  parent : Option Nat
  depth : Nat
  /-- The function it belongs to. -/
  function : Nat
  /-- The symbols by name, in the order of their declaration. -/
  bindings : List (String × Nat)
  deriving Inhabited

inductive SymbolKind where
  | variable
  | parameter
  | function
  | builtin
  deriving DecidableEq, Repr, Inhabited

/-- Where the value of a symbol lives. -/
inductive Storage where
  /-- A slot of the program, for its own variables. -/
  | global (slot : Nat)
  /-- A slot in the frames of the function that declares it. -/
  | frame (slot : Nat)
  /-- A function is a constant. -/
  | function (index : Nat)
  | builtin (b : Builtin)
  deriving DecidableEq, Repr, Inhabited

structure Symbol where
  name : String
  ty : Ty
  /-- The depth of its scope. -/
  depth : Nat
  kind : SymbolKind
  storage : Storage
  /-- The function that declares it. -/
  function : Nat
  scope : Nat
  /-- The range of its declaration. -/
  range : Range
  /-- How often it is read. -/
  reads : Nat
  /-- Whether another function than its own refers to it. -/
  escapes : Bool
  deriving Inhabited

/-- A variable that is never read. -/
structure Warning where
  name : String
  range : Range
  deriving Inhabited

def Warning.message (w : Warning) : String :=
  s!"unused variable `{w.name}`"

/-- Everything that analysis knows about a program. -/
structure Facts where
  functions : Array FunctionInfo
  scopes : Array Scope
  symbols : Array Symbol
  /-- The number of global slots. -/
  globals : Nat
  warnings : List Warning
  deriving Inhabited

namespace Facts

/-! ### Reports -/

def kindName : FunctionKind → String
  | .main => "Main"
  | .named => "Named"
  | .lambda => "Lambda"

def scopeName : ScopeKind → String
  | .prelude => "Prelude"
  | .program => "Program"
  | .function => "Function"
  | .block => "Block"

def symbolName : SymbolKind → String
  | .variable => "Variable"
  | .parameter => "Parameter"
  | .function => "Function"
  | .builtin => "Builtin"

end Facts

def Storage.render : Storage → String
  | .global slot => s!"global {slot}"
  | .frame slot => s!"local {slot}"
  | .function index => s!"function {index}"
  | .builtin b => s!"builtin {b.name}"

namespace Facts

/-- What is known about a symbol. -/
def symbol (facts : Facts) (id : Nat) : Symbol :=
  facts.symbols[id]?.getD default

/-- What is known about a function. -/
def info (facts : Facts) (function : Nat) : FunctionInfo :=
  facts.functions[function]?.getD default

/-- The variables that a function captures. -/
def captures (facts : Facts) (function : Nat) : List Nat :=
  (facts.info function).captures

/-- The name of a symbol. -/
def nameOf (facts : Facts) (symbol : Nat) : String :=
  (facts.symbols[symbol]?.map (·.name)).getD ""

/-- A line for each function. -/
def renderFunctions (facts : Facts) : String :=
  String.join (facts.functions.toList.zipIdx.map fun (f, i) =>
    s!"function {i} {f.name}: params={f.params.length} slots={f.slots} captures=["
      ++ ", ".intercalate (f.captures.map facts.nameOf) ++ "]\n")

/-- A line for each scope, followed by its symbols. -/
def renderScopes (facts : Facts) : String :=
  String.join (facts.scopes.toList.zipIdx.map fun (s, i) =>
    let parent := s.parent.elim "None" fun p => s!"Some({p})"
    let symbols := s.bindings.filterMap fun (_, id) => facts.symbols[id]?
    s!"scope {i} {scopeName s.kind} depth={s.depth} parent={parent}\n"
      ++ String.join (symbols.map fun y =>
        s!"    {y.name}: {y.ty.render} {symbolName y.kind} {y.storage.render}\n"))

/-- The tables as text. -/
def render (facts : Facts) : String :=
  s!"globals: {facts.globals}\n" ++ facts.renderFunctions ++ facts.renderScopes

/-! ### Temporaries -/

/-- The facts with a further variable of a function, which no declaration makes, and its
symbol. -/
def addTemporary (facts : Facts) (name : String) (ty : Ty) (function : Nat) : Facts × Nat :=
  let info := facts.info function
  let (storage, facts) :=
    if function = 0 then
      (Storage.global facts.globals, { facts with globals := facts.globals + 1 })
    else
      (Storage.frame info.slots,
        { facts with functions := facts.functions.modify function fun f =>
            { f with slots := f.slots + 1 } })
  let depth := (facts.scopes[info.scope]?.map (·.depth)).getD 0
  let symbol : Symbol :=
    { name, ty, depth, kind := .variable, storage, function, scope := info.scope,
      range := .origin, reads := 0, escapes := false }
  ({ facts with symbols := facts.symbols.push symbol }, facts.symbols.size)

end Facts

end Parlance
