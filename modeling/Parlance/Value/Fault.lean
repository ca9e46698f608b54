import Parlance.Value.Basic

/-!
# Faults

What can go wrong while a program runs.
-/

namespace Parlance

/-- The cause of a failed run. -/
inductive Fault where
  | divisionByZero
  | negativeExponent (exponent : Int64)
  /-- The printed form of the value, and the type it was cast to. -/
  | invalidCast (value : String) (target : Scalar)
  | indexOutOfRange (index : Int64) (length : Nat)
  /-- The operator, and the name of the type it was applied to. -/
  | invalidOperand (operator : String) (ty : String)
  | arityMismatch (expected found : Nat)
  | stackExhausted (limit : Nat)
  | budgetExceeded
  | cancelled
  | stackUnderflow
  /-- The output refused a line. -/
  | output (reason : String)
  /-- The code refers to something that the program does not have. No verified program
  faults so. -/
  | danglingReference
  deriving DecidableEq, Repr, Inhabited

def Fault.message : Fault → String
  | .divisionByZero => "division by zero"
  | .negativeExponent e => s!"negative exponent {e.toInt}"
  | .invalidCast value target => s!"can not cast {value} to {target.name}"
  | .indexOutOfRange index length =>
    s!"index out of range (index {index.toInt}, length {length})"
  | .invalidOperand operator ty => s!"operator `{operator}` can not be applied to {ty}"
  | .arityMismatch expected found =>
    s!"wrong number of arguments (expected {expected}, found {found})"
  | .stackExhausted limit => s!"call stack exhausted (max depth {limit})"
  | .budgetExceeded => "instruction budget exceeded"
  | .cancelled => "cancelled"
  | .stackUnderflow => "operand stack underflow"
  | .output reason => s!"output error ({reason})"
  | .danglingReference => "dangling reference"

/-- A fault with the instruction that raised it. -/
structure RuntimeError where
  fault : Fault
  /-- The index of the function. -/
  function : Nat
  /-- The offset of the instruction. -/
  pc : Nat
  deriving DecidableEq, Repr, Inhabited

def RuntimeError.message (e : RuntimeError) : String :=
  s!"{e.fault.message} (in function {e.function} at {e.pc})"

end Parlance
