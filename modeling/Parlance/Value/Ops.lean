import Parlance.Operators
import Parlance.Text.CharClass
import Parlance.Value.Fault

/-!
# Operations on values

Arithmetic, comparison, conversion and indexing. Constant folding and the machine share
these functions, so a folded expression has the value that it would have in a run.

Integers have 64 bits and wrap around.
-/

namespace Parlance

/-! ### Integers as text -/

/-- The value of a nonempty text of decimal digits. -/
def readNat? : List Char → Option Nat
  | [] => none
  | cs => Binary64.digitsValue cs

/-- Reads a decimal integer with an optional sign. -/
def readInt? : List Char → Option Int
  | '-' :: cs => (readNat? cs).map fun n => -Int.ofNat n
  | '+' :: cs => (readNat? cs).map Int.ofNat
  | cs => (readNat? cs).map Int.ofNat

/-- The 64-bit integer of a value in range. -/
def toInt64? (n : Int) : Option Int64 :=
  if Int64.minValue.toInt ≤ n ∧ n ≤ Int64.maxValue.toInt then some (Int64.ofInt n) else none

namespace Value

/-! ### Operators -/

def unary (op : UnaryOp) (v : Value) : Except Fault Value :=
  match op, v with
  | .neg, .int n => .ok (.int (-n))
  | .neg, .float x => .ok (.float x.neg)
  | .not, .bool b => .ok (.bool (!b))
  | op, v => .error (.invalidOperand op.name v.typeName)

/-- `acc · base ^ exponent`, by squaring, for an exponent below `2 ^ fuel`. -/
def powAux : Nat → Int64 → Int64 → Nat → Int64
  | 0, acc, _, _ => acc
  | fuel + 1, acc, base, exponent =>
    if exponent = 0 then acc
    else
      powAux fuel (if exponent % 2 = 1 then acc * base else acc) (base * base) (exponent / 2)

/-- The power of an integer to an exponent below `2 ^ 64`. -/
def intPow (base : Int64) (exponent : Nat) : Int64 :=
  powAux 64 1 base exponent

/-- The order of two values, if their type has one. The inner `none` is the answer for
values that are not ordered with each other. -/
def order? : Value → Value → Option (Option Ordering)
  | .int a, .int b => some (some (compare a.toInt b.toInt))
  | .float a, .float b => some (a.compare? b)
  | .str a, .str b => some (some (compareOfLessAndEq a b))
  | _, _ => none

/-- Whether an order answers a comparison. -/
def orderHolds (op : BinaryOp) : Option Ordering → Bool
  | none => false
  | some o =>
    match op with
    | .lt => o == .lt
    | .le => o != .gt
    | .gt => o == .gt
    | _ => o != .lt

def binaryInt (op : BinaryOp) (a b : Int64) : Except Fault Value :=
  match op with
  | .add => .ok (.int (a + b))
  | .sub => .ok (.int (a - b))
  | .mul => .ok (.int (a * b))
  | .div => if b = 0 then .error .divisionByZero else .ok (.int (a / b))
  | .rem => if b = 0 then .error .divisionByZero else .ok (.int (a % b))
  | .pow => if b < 0 then .error (.negativeExponent b) else .ok (.int (intPow a b.toInt.toNat))
  | op => .error (.invalidOperand op.name "int")

def binaryFloat (op : BinaryOp) (a b : Binary64) : Except Fault Value :=
  match op with
  | .add => .ok (.float (a.add b))
  | .sub => .ok (.float (a.sub b))
  | .mul => .ok (.float (a.mul b))
  | .div => if b.isZero then .error .divisionByZero else .ok (.float (a.div b))
  | .rem => if b.isZero then .error .divisionByZero else .ok (.float (a.rem b))
  | .pow => .ok (.float (a.pow b))
  | op => .error (.invalidOperand op.name "float")

/-- `l op r`. Here `&&` and `||` take both operands; leaving the right one alone is the
work of the caller. -/
def binary (op : BinaryOp) (l r : Value) : Except Fault Value :=
  match op with
  | .eq => .ok (.bool (l.equal r))
  | .ne => .ok (.bool (!l.equal r))
  | .lt | .le | .gt | .ge =>
    match order? l r with
    | some o => .ok (.bool (orderHolds op o))
    | none => .error (.invalidOperand op.name l.typeName)
  | _ =>
    match l, r with
    | .int a, .int b => binaryInt op a b
    | .float a, .float b => binaryFloat op a b
    | .str a, .str b =>
      if op = .add then .ok (.str (a ++ b)) else .error (.invalidOperand op.name "str")
    | .bool a, .bool b =>
      match op with
      | .and => .ok (.bool (a && b))
      | .or => .ok (.bool (a || b))
      | op => .error (.invalidOperand op.name "bool")
    | l, _ => .error (.invalidOperand op.name l.typeName)

/-! ### Casts -/

/-- The integer part of a number, if it is a 64-bit integer. -/
def truncate? (x : Binary64) : Option Int64 :=
  if x.isFinite then toInt64? x.truncate else none

/-- Reads a truth value. -/
def readBool? (cs : List Char) : Option Bool :=
  if cs = "true".toList then some true else if cs = "false".toList then some false else none

/-- `v as target`, or nothing if there is no such value. White space around text is
ignored. -/
def cast? (v : Value) (target : Scalar) : Option Value :=
  match v, target with
  | .int n, .int => some (.int n)
  | .int n, .float => some (.float (Binary64.ofInt n.toInt))
  | .int n, .bool => some (.bool (n != 0))
  | .int n, .str => some (.str (toString n.toInt))
  | .float x, .int => (truncate? x).map .int
  | .float x, .float => some (.float x)
  | .float x, .bool => some (.bool (!x.isZero))
  | .float x, .str => some (.str x.render)
  | .bool b, .int => some (.int (if b then 1 else 0))
  | .bool b, .float => some (.float (Binary64.ofInt (if b then 1 else 0)))
  | .bool b, .bool => some (.bool b)
  | .bool b, .str => some (.str (if b then "true" else "false"))
  | .str s, .int => ((readInt? (trim s.toList)).bind toInt64?).map .int
  | .str s, .float => (Binary64.read? (String.ofList (trim s.toList))).map .float
  | .str s, .bool => (readBool? (trim s.toList)).map .bool
  | .str s, .str => some (.str s)
  | _, _ => none

/-- `v as target` -/
def cast (v : Value) (target : Scalar) : Except Fault Value :=
  match v.cast? target with
  | some w => .ok w
  | none => .error (.invalidCast v.repr target)

/-! ### Items -/

/-- An index below `length`. -/
def checkedIndex (index : Value) (length : Nat) : Except Fault Nat :=
  match index with
  | .int i =>
    if 0 ≤ i.toInt ∧ i.toInt < length then .ok i.toInt.toNat
    else .error (.indexOutOfRange i length)
  | v => .error (.invalidOperand "[]" v.typeName)

/-- `target[index]`. The items of a string are its characters. -/
def getItem (target index : Value) : Except Fault Value :=
  match target with
  | .list items => do
    let i ← checkedIndex index items.length
    return items.getD i .unit
  | .str s => do
    let i ← checkedIndex index s.toList.length
    return .str (String.ofList ((s.toList.drop i).take 1))
  | v => .error (.invalidOperand "[]" v.typeName)

/-- The list after `target[index] = value`. -/
def setItem (target index value : Value) : Except Fault Value :=
  match target with
  | .list items => do
    let i ← checkedIndex index items.length
    return .list (items.set i value)
  | v => .error (.invalidOperand "[]=" v.typeName)

/-- The list with an item appended. -/
def push (target item : Value) : Except Fault Value :=
  match target with
  | .list items => .ok (.list (items ++ [item]))
  | v => .error (.invalidOperand "push" v.typeName)

/-- The number of items of a list or characters of a string. -/
def length (v : Value) : Except Fault Nat :=
  match v with
  | .list items => .ok items.length
  | .str s => .ok s.length
  | v => .error (.invalidOperand "len" v.typeName)

end Value

end Parlance
