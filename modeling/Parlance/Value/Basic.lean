import Parlance.Binary64.Text
import Parlance.Text.Escape
import Parlance.Types

/-!
# Values

The values of a running program, and the constants of a compiled one. Lists are values:
changing one never changes another. A function value has an identity, its `tag`: two
function values are equal only if they were made at one place at one time.
-/

namespace Parlance

/-- A value of a running program. -/
inductive Value where
  | unit
  | int (n : Int64)
  | float (x : Binary64)
  | bool (b : Bool)
  | str (s : String)
  | list (items : List Value)
  /-- The function `index` of the program with the values it captured. -/
  | function (tag index : Nat) (captures : List Value)
  | builtin (b : Builtin)
  deriving Inhabited

/-- A constant of a compiled program. -/
inductive Const where
  | unit
  | int (n : Int64)
  | float (x : Binary64)
  | bool (b : Bool)
  | str (s : String)
  /-- A function without captures. -/
  | function (index : Nat)
  | builtin (b : Builtin)
  deriving DecidableEq, Inhabited

/-- A literal of a program text. -/
inductive Lit where
  | int (n : Int64)
  | float (x : Binary64)
  | bool (b : Bool)
  | str (s : String)
  deriving DecidableEq, Inhabited

/-! ### Literals -/

namespace Lit

/-- The constant of a literal. All not-a-numbers are one constant. -/
def toConst : Lit → Const
  | .int n => .int n
  | .float x => .float x.canonical
  | .bool b => .bool b
  | .str s => .str s

/-- The value of a literal. -/
def toValue : Lit → Value
  | .int n => .int n
  | .float x => .float x.canonical
  | .bool b => .bool b
  | .str s => .str s

def ty : Lit → Ty
  | .int _ => .int
  | .float _ => .float
  | .bool _ => .bool
  | .str _ => .str

/-- A literal as it is written in a program. -/
def render : Lit → String
  | .int n => toString n.toInt
  | .float x => x.render
  | .bool b => if b then "true" else "false"
  | .str s => quote s

/-- Equality of literals, with all not-a-numbers the same. -/
def same : Lit → Lit → Bool
  | .float x, .float y => x.same y
  | a, b => a == b

end Lit

/-! ### Constants -/

namespace Const

/-- Equality of constants, with all not-a-numbers the same. -/
def same : Const → Const → Bool
  | .float x, .float y => x.same y
  | a, b => a == b

/-- The value of a constant. A function constant gives the function value `tag`. -/
def toValue (tag : Nat) : Const → Value
  | .unit => .unit
  | .int n => .int n
  | .float x => .float x
  | .bool b => .bool b
  | .str s => .str s
  | .function index => .function tag index []
  | .builtin b => .builtin b

/-- A constant in a listing. -/
def render : Const → String
  | .unit => "unit"
  | .int n => "int " ++ toString n.toInt
  | .float x => "float " ++ x.render
  | .bool b => "bool " ++ if b then "true" else "false"
  | .str s => "str " ++ quote s
  | .function index => "function " ++ toString index
  | .builtin b => "builtin " ++ b.name

end Const

/-! ### Values -/

namespace Value

/-- The name of a value's type in reports. -/
def typeName : Value → String
  | .unit => "unit"
  | .int _ => "int"
  | .float _ => "float"
  | .bool _ => "bool"
  | .str _ => "str"
  | .list _ => "list"
  | .function _ _ _ => "function"
  | .builtin _ => "builtin"

/-- The literal of a scalar value. -/
def toLit? : Value → Option Lit
  | .int n => some (.int n)
  | .float x => some (.float x)
  | .bool b => some (.bool b)
  | .str s => some (.str s)
  | _ => none

/-- The constant of a value that is neither a list nor a function. -/
def toConst? : Value → Option Const
  | .unit => some .unit
  | .int n => some (.int n)
  | .float x => some (.float x)
  | .bool b => some (.bool b)
  | .str s => some (.str s)
  | .builtin b => some (.builtin b)
  | .list _ | .function _ _ _ => none

mutual

/-- The printed form of a value. -/
def display : Value → String
  | .unit => "()"
  | .int n => toString n.toInt
  | .float x => x.render
  | .bool b => if b then "true" else "false"
  | .str s => s
  | .list items => "[" ++ ", ".intercalate (reprAll items) ++ "]"
  | .function _ index _ => "<function " ++ toString index ++ ">"
  | .builtin b => "<builtin " ++ b.name ++ ">"

/-- The printed forms of values inside a list, where strings are quoted. -/
def reprAll : List Value → List String
  | [] => []
  | .str s :: rest => quote s :: reprAll rest
  | v :: rest => v.display :: reprAll rest

end

/-- The printed form of a value inside a list. -/
def repr : Value → String
  | .str s => quote s
  | v => v.display

mutual

/-- Equality of values: numbers by value, lists by their items, functions by identity. -/
def equal : Value → Value → Bool
  | .unit, .unit => true
  | .int a, .int b => a == b
  | .float a, .float b => a.numEq b
  | .bool a, .bool b => a == b
  | .str a, .str b => a == b
  | .list as, .list bs => equalAll as bs
  | .function a _ _, .function b _ _ => a == b
  | .builtin a, .builtin b => a == b
  | _, _ => false

def equalAll : List Value → List Value → Bool
  | [], [] => true
  | a :: as, b :: bs => equal a b && equalAll as bs
  | _, _ => false

end

end Value

end Parlance
