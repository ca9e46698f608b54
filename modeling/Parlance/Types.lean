/-!
# Types

The types of the language: scalars, lists, functions, and one type for each builtin. Types
are compared by structure. The type `error` stands for the type of an ill-typed expression;
it agrees with every type, so that one mistake is reported once.
-/

namespace Parlance

/-- The scalar types, which casts convert between. -/
inductive Scalar where
  | int
  | float
  | bool
  | str
  deriving DecidableEq, Repr, Inhabited

namespace Scalar

def name : Scalar → String
  | .int => "int"
  | .float => "float"
  | .bool => "bool"
  | .str => "str"

def all : List Scalar :=
  [.int, .float, .bool, .str]

def ofName? (s : String) : Option Scalar :=
  all.find? fun t => t.name == s

end Scalar

/-- The functions that every program can call without declaring them. -/
inductive Builtin where
  /-- `print(any) -> unit` writes a line. -/
  | print
  /-- `len([T] | str) -> int` -/
  | len
  /-- `arg(int) -> str` is an input of the run. -/
  | arg
  /-- `arg_count() -> int` is the number of inputs of the run. -/
  | argCount
  /-- `push([T], T) -> [T]` is the list with the item appended. -/
  | push
  deriving DecidableEq, Repr, Inhabited

/-- All types. -/
inductive Ty where
  | int
  | float
  | bool
  | str
  | unit
  | list (item : Ty)
  | function (params : List Ty) (returns : Ty)
  /-- Builtins are polymorphic, so each one has its own type. -/
  | builtin (b : Builtin)
  | error
  deriving Repr, Inhabited

namespace Builtin

/-- All builtins, in the order of their declaration. -/
def all : List Builtin :=
  [.print, .len, .arg, .argCount, .push]

def name : Builtin → String
  | .print => "print"
  | .len => "len"
  | .arg => "arg"
  | .argCount => "arg_count"
  | .push => "push"

def ofName? (s : String) : Option Builtin :=
  all.find? fun b => b.name == s

def arity : Builtin → Nat
  | .argCount => 0
  | .print | .len | .arg => 1
  | .push => 2

/-- The type of a result when the types of the arguments are not known. -/
def returns : Builtin → Ty
  | .print => .unit
  | .len | .argCount => .int
  | .arg => .str
  | .push => .error

end Builtin

/-- The type of a scalar. -/
def Scalar.toTy : Scalar → Ty
  | .int => .int
  | .float => .float
  | .bool => .bool
  | .str => .str

namespace Ty

/-! ### Equality -/

mutual

def decEq (a b : Ty) : Decidable (a = b) :=
  match a, b with
  | .int, .int | .float, .float | .bool, .bool | .str, .str | .unit, .unit | .error, .error =>
    .isTrue rfl
  | .list a, .list b =>
    match decEq a b with
    | .isTrue h => .isTrue (by rw [h])
    | .isFalse h => .isFalse fun e => h (Ty.list.inj e)
  | .function ps r, .function qs s =>
    match decEqList ps qs, decEq r s with
    | .isTrue h, .isTrue k => .isTrue (by rw [h, k])
    | .isFalse h, _ => .isFalse fun e => h (Ty.function.inj e).1
    | _, .isFalse k => .isFalse fun e => k (Ty.function.inj e).2
  | .builtin a, .builtin b =>
    if h : a = b then .isTrue (by rw [h]) else .isFalse fun e => h (Ty.builtin.inj e)
  | .int, .float | .int, .bool | .int, .str | .int, .unit | .int, .error
  | .float, .int | .float, .bool | .float, .str | .float, .unit | .float, .error
  | .bool, .int | .bool, .float | .bool, .str | .bool, .unit | .bool, .error
  | .str, .int | .str, .float | .str, .bool | .str, .unit | .str, .error
  | .unit, .int | .unit, .float | .unit, .bool | .unit, .str | .unit, .error
  | .error, .int | .error, .float | .error, .bool | .error, .str | .error, .unit
  | .int, .list _ | .float, .list _ | .bool, .list _ | .str, .list _ | .unit, .list _
  | .error, .list _ | .builtin _, .list _ | .function _ _, .list _
  | .int, .function _ _ | .float, .function _ _ | .bool, .function _ _ | .str, .function _ _
  | .unit, .function _ _ | .error, .function _ _ | .builtin _, .function _ _
  | .list _, .function _ _
  | .int, .builtin _ | .float, .builtin _ | .bool, .builtin _ | .str, .builtin _
  | .unit, .builtin _ | .error, .builtin _ | .list _, .builtin _ | .function _ _, .builtin _
  | .list _, .int | .list _, .float | .list _, .bool | .list _, .str | .list _, .unit
  | .list _, .error | .function _ _, .int | .function _ _, .float | .function _ _, .bool
  | .function _ _, .str | .function _ _, .unit | .function _ _, .error | .builtin _, .int
  | .builtin _, .float | .builtin _, .bool | .builtin _, .str | .builtin _, .unit
  | .builtin _, .error => .isFalse nofun

def decEqList (as bs : List Ty) : Decidable (as = bs) :=
  match as, bs with
  | [], [] => .isTrue rfl
  | a :: as, b :: bs =>
    match decEq a b, decEqList as bs with
    | .isTrue h, .isTrue k => .isTrue (by rw [h, k])
    | .isFalse h, _ => .isFalse fun e => h (List.cons.inj e).1
    | _, .isFalse k => .isFalse fun e => k (List.cons.inj e).2
  | [], _ :: _ | _ :: _, [] => .isFalse nofun

end

instance : DecidableEq Ty :=
  decEq

/-! ### Properties -/

mutual

/-- Whether the error type occurs in a type. -/
def isError : Ty → Bool
  | .error => true
  | .list item => item.isError
  | .function params returns => anyError params || returns.isError
  | _ => false

/-- Whether the error type occurs in one of the types. -/
def anyError : List Ty → Bool
  | [] => false
  | t :: ts => t.isError || anyError ts

end

mutual

/-- Whether a value of the first type can stand where the second is required. The error
type agrees with everything. -/
def compatible : Ty → Ty → Bool
  | .error, _ | _, .error => true
  | .list a, .list b => compatible a b
  | .function ps r, .function qs s => compatibleAll ps qs && compatible r s
  | a, b => a == b

/-- Whether the types agree pairwise, with as many on either side. -/
def compatibleAll : List Ty → List Ty → Bool
  | [], [] => true
  | a :: as, b :: bs => compatible a b && compatibleAll as bs
  | _, _ => false

end

def isNumeric : Ty → Bool
  | .int | .float => true
  | _ => false

/-- Whether values of this type can be compared with `==`. -/
def isEquatable : Ty → Bool
  | .function _ _ | .builtin _ => false
  | .list item => item.isEquatable
  | _ => true

/-- Whether values of this type have an order. -/
def isOrdered : Ty → Bool
  | .int | .float | .str => true
  | _ => false

def scalar? : Ty → Option Scalar
  | .int => some .int
  | .float => some .float
  | .bool => some .bool
  | .str => some .str
  | _ => none

/-! ### Text -/

mutual

/-- A type as it is written in a program. -/
def render : Ty → String
  | .int => "int"
  | .float => "float"
  | .bool => "bool"
  | .str => "str"
  | .unit => "unit"
  | .list item => "[" ++ item.render ++ "]"
  | .function params returns =>
    "fn(" ++ ", ".intercalate (renderAll params) ++ ") -> " ++ returns.render
  | .builtin b => "builtin " ++ b.name
  | .error => "\x7berror\x7d"

def renderAll : List Ty → List String
  | [] => []
  | t :: ts => t.render :: renderAll ts

end

end Ty

end Parlance
