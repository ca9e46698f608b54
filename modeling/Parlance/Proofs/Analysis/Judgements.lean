import Parlance.Analysis.Checker
import Parlance.Tree.Functions

/-!
# Scoping and typing of analyzed trees

What analysis promises about the tree it accepts, without reference to how it works. The
judgements are about the code of one function, relative to the facts about the program:

* `Scoped`: every name refers to something that is there. `live` are the variables of the
  function that are declared at this place, so they have been stored.
* `Looped`: every `break` and `continue` stands in a loop.
* `Typed`: every expression has the type that its note says.

The functions made inside an expression have bodies of their own; a judgement about the
expression says nothing about them. `Facts.Accepts` puts the judgements about the body of a
function together.
-/

namespace Parlance

namespace Facts

/-- The type of the values of a function. -/
def signature (facts : Facts) (function : Nat) : Ty :=
  .function ((facts.info function).params.map fun y => (facts.symbol y).ty)
    (facts.info function).returns

/-! ### Symbols -/

/-- A function has a variable with a frame slot: its own ones while they are declared, and
those it captured. -/
def Has (facts : Facts) (function : Nat) (live : List Nat) (symbol : Nat) : Prop :=
  if (facts.symbol symbol).function = function then symbol ∈ live
  else symbol ∈ facts.captures function

/-- A function may read a symbol. The program reads its own variables where they are declared;
another function may read those that escape, perhaps before they are stored. -/
def Readable (facts : Facts) (function : Nat) (live : List Nat) (symbol : Nat) : Prop :=
  symbol < facts.symbols.size ∧
    match (facts.symbol symbol).storage with
    | .global _ => function ≠ 0 ∧ (facts.symbol symbol).escapes = true ∨
      function = 0 ∧ symbol ∈ live
    | .frame _ => facts.Has function live symbol
    | .function _ | .builtin _ => True

/-- A function may write a symbol. A captured variable is not written. -/
def Writable (facts : Facts) (function : Nat) (live : List Nat) (symbol : Nat) : Prop :=
  symbol < facts.symbols.size ∧
    match (facts.symbol symbol).storage with
    | .global _ => function ≠ 0 ∧ (facts.symbol symbol).escapes = true ∨
      function = 0 ∧ symbol ∈ live
    | .frame _ => (facts.symbol symbol).function = function ∧ symbol ∈ live
    | .function _ | .builtin _ => False

/-- A function may declare a variable: it has a place of its own. -/
structure Declarable (facts : Facts) (function : Nat) (live : List Nat) (symbol : Nat) : Prop where
  lt : symbol < facts.symbols.size
  kind : (facts.symbol symbol).kind = .variable
  owner : (facts.symbol symbol).function = function
  separate : ∀ y ∈ live, (facts.symbol y).storage ≠ (facts.symbol symbol).storage
  slot_lt : ∀ k, (facts.symbol symbol).storage = .frame k → k < (facts.info function).slots

/-- A function has all the variables that a lambda in it captures. -/
structure Makes (facts : Facts) (function : Nat) (live : List Nat) (lambda : Nat) : Prop where
  ne_zero : lambda ≠ 0
  lt : lambda < facts.functions.size
  has : ∀ y ∈ facts.captures lambda, facts.Has function live y

/-- What may be written may be read. -/
theorem Writable.readable {facts : Facts} {function symbol : Nat} {live : List Nat}
    (h : facts.Writable function live symbol) : facts.Readable function live symbol := by
  obtain ⟨hlt, h⟩ := h
  refine ⟨hlt, ?_⟩
  cases hs : (facts.symbol symbol).storage with
  | global k =>
      rw [hs] at h
      exact h
  | frame k =>
      rw [hs] at h
      simp only [Has, if_pos h.1]
      exact h.2
  | _ => trivial

end Facts

/-! ### Scoping -/

/-- The variable that a statement declares. -/
def Stmt.declared : Stmt → List Nat
  | .letVar n _ _ _ => n.symbol.toList
  | _ => []

/-- The variables that are declared after some statements. -/
def Stmt.liveAfter (live : List Nat) : List Stmt → List Nat
  | [] => live
  | s :: ss => Stmt.liveAfter (s.declared ++ live) ss

section Scoped

variable (facts : Facts) (function : Nat)

mutual

/-- The names in an expression are there where it stands. -/
def Expr.Scoped (live : List Nat) : Expr → Prop
  | .lit _ _ => True
  | .ident n _ => ∀ y, n.symbol = some y → facts.Readable function live y
  | .unary _ _ e | .cast _ e _ => e.Scoped live
  | .binary _ _ a b | .index _ a b => a.Scoped live ∧ b.Scoped live
  | .assign _ (.ident n _) v =>
    v.Scoped live ∧ ∀ y, n.symbol = some y → facts.Writable function live y
  | .assign _ (.index _ (.ident n _) i) v =>
    i.Scoped live ∧ v.Scoped live ∧ ∀ y, n.symbol = some y → facts.Writable function live y
  | .assign _ _ _ => False
  | .call _ f args => f.Scoped live ∧ Expr.AllScoped live args
  | .list _ items => Expr.AllScoped live items
  | .lambda n _ _ => ∀ f, n.function = some f → facts.Makes function live f

def Expr.AllScoped (live : List Nat) : List Expr → Prop
  | [] => True
  | e :: es => e.Scoped live ∧ Expr.AllScoped live es

end

mutual

/-- The names in a statement are there where it stands. -/
def Stmt.Scoped (live : List Nat) : Stmt → Prop
  | .block b | .loop _ b => b.Scoped live
  | .letVar n _ _ e =>
    e.Scoped facts function live ∧ ∀ y, n.symbol = some y → facts.Declarable function live y
  | .expr _ e | .ret _ (some e) => e.Scoped facts function live
  | .fnDecl _ _ _ _ | .ret _ none | .breakLoop _ | .continueLoop _ => True
  | .cond _ test yes none => test.Scoped facts function live ∧ yes.Scoped live
  | .cond _ test yes (some no) =>
    test.Scoped facts function live ∧ yes.Scoped live ∧ no.Scoped live
  | .whileLoop _ test b => test.Scoped facts function live ∧ b.Scoped live

/-- The names in statements are there, given what the statements before them declare. -/
def Stmt.AllScoped (live : List Nat) : List Stmt → Prop
  | [] => True
  | s :: ss => s.Scoped live ∧ Stmt.AllScoped (s.declared ++ live) ss

def Block.Scoped (live : List Nat) : Block → Prop
  | .mk _ ss none => Stmt.AllScoped live ss
  | .mk _ ss (some e) =>
    Stmt.AllScoped live ss ∧ e.Scoped facts function (Stmt.liveAfter live ss)

end

variable {facts function}

/-- What is assigned to is a variable, unless it is an item of a list. -/
theorem Expr.Scoped.eq_ident {live : List Nat} {n : Note} {target value : Expr}
    (h : (Expr.assign n target value).Scoped facts function live)
    (hne : ∀ m base index, target ≠ .index m base index) : ∃ m name, target = .ident m name := by
  cases target with
  | ident m name => exact ⟨m, name, rfl⟩
  | index m base index => exact absurd rfl (hne m base index)
  | _ => exact h.elim

end Scoped

/-! ### Loops -/

mutual

/-- The jumps in a statement that leave or repeat a loop stand in one. -/
def Stmt.Looped (inLoop : Prop) : Stmt → Prop
  | .block b | .cond _ _ b none => b.Looped inLoop
  | .cond _ _ yes (some no) => yes.Looped inLoop ∧ no.Looped inLoop
  | .whileLoop _ _ b | .loop _ b => b.Looped True
  | .breakLoop _ | .continueLoop _ => inLoop
  | .letVar _ _ _ _ | .fnDecl _ _ _ _ | .expr _ _ | .ret _ _ => True

def Stmt.AllLooped (inLoop : Prop) : List Stmt → Prop
  | [] => True
  | s :: ss => s.Looped inLoop ∧ Stmt.AllLooped inLoop ss

def Block.Looped (inLoop : Prop) : Block → Prop
  | .mk _ ss _ => Stmt.AllLooped inLoop ss

end

/-! ### Typing -/

/-- The result types of a unary operator. -/
def UnaryOp.Types : UnaryOp → Ty → Ty → Prop
  | .neg, operand, result => operand.isNumeric = true ∧ result = operand
  | .not, operand, result => operand = .bool ∧ result = .bool

/-- The result type of a binary operator. The operands have one type. -/
def BinaryOp.Types (op : BinaryOp) (operand result : Ty) : Prop :=
  if op.isLogical then operand = .bool ∧ result = .bool
  else Analyze.operatorAccepts op operand = true ∧
    result = if op.isComparison then .bool else operand

/-- A strict operator is the binary operator that it comes from. -/
theorem BinaryOp.toBinary_of_split {op : BinaryOp} {strict : StrictOp}
    (h : op.split = .inl strict) : strict.toBinary = op := by
  cases op <;> cases h <;> rfl

/-- A short-circuit operator comes from a logical one. -/
theorem BinaryOp.isLogical_of_split {op : BinaryOp} {logical : LogicalOp}
    (h : op.split = .inr logical) : op.isLogical = true := by
  cases op <;> cases h <;> rfl

/-- The result type of an access to an item. -/
def Ty.Items : Ty → Ty → Prop
  | .list item, result => result = item
  | .str, result => result = .str
  | _, _ => False

/-- The result type of a call. -/
def Ty.Calls : Ty → List Ty → Ty → Prop
  | .function params returns, args, result => args = params ∧ result = returns
  | .builtin .print, [_], result => result = .unit
  | .builtin .len, [.str], result => result = .int
  | .builtin .len, [.list _], result => result = .int
  | .builtin .arg, [arg], result => arg = .int ∧ result = .str
  | .builtin .argCount, [], result => result = .int
  | .builtin .push, [target, item], result => target = .list item ∧ result = .list item
  | _, _, _ => False

section Typed

variable (facts : Facts)

mutual

/-- The expression has the type that its note says, and so have its parts. -/
def Expr.Typed : Expr → Prop
  | .lit n v => n.ty = v.ty
  | .ident n _ => ∃ y, n.symbol = some y ∧ n.ty = (facts.symbol y).ty
  | .unary n op e => e.Typed ∧ op.Types e.ty n.ty
  | .binary n op l r => l.Typed ∧ r.Typed ∧ r.ty = l.ty ∧ op.Types l.ty n.ty
  | .assign n (.ident t _) v =>
    v.Typed ∧ n.ty = v.ty ∧ ∃ y, t.symbol = some y ∧ (facts.symbol y).ty = v.ty ∧ t.ty = v.ty
  | .assign n (.index m (.ident t _) i) v =>
    i.Typed ∧ i.ty = .int ∧ v.Typed ∧ n.ty = v.ty ∧
      ∃ y, t.symbol = some y ∧ (facts.symbol y).ty = .list v.ty ∧ t.ty = .list v.ty ∧ m.ty = v.ty
  | .assign _ _ _ => False
  | .call n f args => f.Typed ∧ Expr.AllTyped args ∧ f.ty.Calls (args.map Expr.ty) n.ty
  | .index n t i => t.Typed ∧ i.Typed ∧ i.ty = .int ∧ t.ty.Items n.ty
  | .list n items => Expr.AllTyped items ∧ ∃ t, n.ty = .list t ∧ ∀ e ∈ items, e.ty = t
  | .cast n e target => e.Typed ∧ e.ty.scalar?.isSome = true ∧ n.ty = target.toTy
  | .lambda n _ _ => ∃ f, n.function = some f ∧ n.ty = facts.signature f

def Expr.AllTyped : List Expr → Prop
  | [] => True
  | e :: es => e.Typed ∧ Expr.AllTyped es

end

variable (returns : Ty)

mutual

/-- The expressions of a statement are typed, and what it returns has the type `returns`. -/
def Stmt.Typed : Stmt → Prop
  | .block b | .loop _ b => b.Typed
  | .letVar n _ _ e => e.Typed facts ∧ ∃ y, n.symbol = some y ∧ (facts.symbol y).ty = e.ty
  | .expr _ e => e.Typed facts
  | .ret _ (some e) => e.Typed facts ∧ e.ty = returns
  | .ret _ none => returns = .unit
  | .fnDecl _ _ _ _ | .breakLoop _ | .continueLoop _ => True
  | .cond _ test yes none => test.Typed facts ∧ test.ty = .bool ∧ yes.Typed
  | .cond _ test yes (some no) => test.Typed facts ∧ test.ty = .bool ∧ yes.Typed ∧ no.Typed
  | .whileLoop _ test b => test.Typed facts ∧ test.ty = .bool ∧ b.Typed

def Stmt.AllTyped : List Stmt → Prop
  | [] => True
  | s :: ss => s.Typed ∧ Stmt.AllTyped ss

/-- A block inside a function. It has no result. -/
def Block.Typed : Block → Prop
  | .mk _ ss none => Stmt.AllTyped ss
  | .mk _ _ (some _) => False

end

/-- The body of a function. Control reaches the end of a body without a result only if the
function returns unit. -/
def Block.TypedBody : Block → Prop
  | .mk _ ss none =>
    Stmt.AllTyped facts returns ss ∧ (returns = .unit ∨ Stmt.anyTerminates ss = true)
  | .mk _ ss (some e) => Stmt.AllTyped facts returns ss ∧ e.Typed facts ∧ e.ty = returns

end Typed

/-! ### Functions -/

/-- The symbol is the parameter number `index` of a function. -/
structure Facts.IsParam (facts : Facts) (function index symbol : Nat) : Prop where
  lt : symbol < facts.symbols.size
  kind : (facts.symbol symbol).kind = .parameter
  storage : (facts.symbol symbol).storage = .frame index
  owner : (facts.symbol symbol).function = function

/-- **Accepted functions.** What analysis promises about a function and its body. -/
structure Facts.Accepts (facts : Facts) (function : Nat) (body : Block) : Prop where
  lt : function < facts.functions.size
  param : ∀ i y, (facts.info function).params[i]? = some y → facts.IsParam function i y
  params_le : (facts.info function).params.length ≤ (facts.info function).slots
  inScope : body.Scoped facts function (facts.info function).params
  typed : body.TypedBody facts (facts.info function).returns
  looped : body.Looped False

/-! ### Facts -/

/-- The kind, the type and the storage of a symbol go together. -/
def Symbol.Coherent (y : Symbol) : Prop :=
  y.ty.isError = false ∧
    match y.kind, y.storage with
    | .variable, .global _ => y.function = 0
    | .variable, .frame _ | .parameter, .frame _ => y.function ≠ 0
    | .function, .function f => f ≠ 0
    | .builtin, .builtin b => y.ty = .builtin b
    | _, _ => False

namespace Symbol.Coherent

variable {y : Symbol} {k : Nat}

/-- A symbol with a global slot is a variable of the program. -/
theorem of_global (h : y.Coherent) (hs : y.storage = .global k) : y.kind = .variable ∧ y.function = 0 := by
  obtain ⟨-, h⟩ := h
  rw [hs] at h
  split at h
  · next hk he => exact ⟨hk, h⟩
  all_goals simp_all

/-- A symbol with a slot of a frame is a variable or parameter of a function. -/
theorem of_frame (h : y.Coherent) (hs : y.storage = .frame k) :
    (y.kind = .variable ∨ y.kind = .parameter) ∧ y.function ≠ 0 := by
  obtain ⟨-, h⟩ := h
  rw [hs] at h
  split at h
  all_goals simp_all

/-- The program itself has no symbol. -/
theorem of_function {f : Nat} (h : y.Coherent) (hs : y.storage = .function f) : f ≠ 0 := by
  obtain ⟨-, h⟩ := h
  rw [hs] at h
  split at h
  all_goals simp_all

/-- The symbol of a builtin has its type. -/
theorem of_builtin {b : Builtin} (h : y.Coherent) (hs : y.storage = .builtin b) :
    y.ty = .builtin b := by
  obtain ⟨-, h⟩ := h
  rw [hs] at h
  split at h
  all_goals simp_all

/-- Variables and parameters have a slot. -/
theorem exists_slot (h : y.Coherent) (hk : y.kind = .variable ∨ y.kind = .parameter) :
    ∃ k, y.storage = .global k ∨ y.storage = .frame k := by
  obtain ⟨-, h⟩ := h
  cases hs : y.storage with
  | global k => exact ⟨k, .inl rfl⟩
  | frame k => exact ⟨k, .inr rfl⟩
  | _ =>
      rw [hs] at h
      rcases hk with hk | hk
      · rw [hk] at h
        exact h.elim
      · rw [hk] at h
        exact h.elim

end Symbol.Coherent

/-- What the facts of an accepted program say about its symbols. -/
structure Facts.Coherent (facts : Facts) : Prop where
  symbol : ∀ y < facts.symbols.size, (facts.symbol y).Coherent
  function : ∀ y < facts.symbols.size, ∀ f, (facts.symbol y).storage = .function f →
    f < facts.functions.size ∧ (facts.symbol y).ty = facts.signature f
  /-- A declared function captures nothing. -/
  named : ∀ y < facts.symbols.size, ∀ f, (facts.symbol y).storage = .function f →
    facts.captures f = []
  global_lt : ∀ y < facts.symbols.size, ∀ k, (facts.symbol y).storage = .global k →
    k < facts.globals
  global_inj : ∀ y < facts.symbols.size, ∀ z < facts.symbols.size, ∀ k,
    (facts.symbol y).storage = .global k → (facts.symbol z).storage = .global k → y = z
  captured : ∀ f y, y ∈ facts.captures f →
    y < facts.symbols.size ∧ (facts.symbol y).escapes = true ∧ ∃ k, (facts.symbol y).storage = .frame k

end Parlance
