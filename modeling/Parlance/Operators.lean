/-!
# Operators of expressions
-/

namespace Parlance

inductive UnaryOp where
  /-- Negation, `-` -/
  | neg
  /-- Logical inversion, `!` -/
  | not
  deriving DecidableEq, Repr, Inhabited

def UnaryOp.name : UnaryOp → String
  | .neg => "-"
  | .not => "!"

inductive BinaryOp where
  /-- Addition or concatenation -/
  | add
  | sub
  | mul
  | div
  | rem
  | pow
  | eq
  | ne
  | lt
  | le
  | gt
  | ge
  /-- `&&`, which evaluates its right operand only if the left one is true -/
  | and
  /-- `||`, which evaluates its right operand only if the left one is false -/
  | or
  deriving DecidableEq, Repr, Inhabited

namespace BinaryOp

def name : BinaryOp → String
  | .add => "+"
  | .sub => "-"
  | .mul => "*"
  | .div => "/"
  | .rem => "%"
  | .pow => "**"
  | .eq => "=="
  | .ne => "!="
  | .lt => "<"
  | .le => "<="
  | .gt => ">"
  | .ge => ">="
  | .and => "&&"
  | .or => "||"

/-- The operators whose result is a `bool` whatever they compare. -/
def isComparison : BinaryOp → Bool
  | .eq | .ne | .lt | .le | .gt | .ge => true
  | _ => false

/-- The operators that may leave their right operand alone. -/
def isLogical : BinaryOp → Bool
  | .and | .or => true
  | _ => false

end BinaryOp

/-- The binary operators that always evaluate both operands. -/
inductive StrictOp where
  | add
  | sub
  | mul
  | div
  | rem
  | pow
  | eq
  | ne
  | lt
  | le
  | gt
  | ge
  deriving DecidableEq, Repr, Inhabited

def StrictOp.toBinary : StrictOp → BinaryOp
  | .add => .add
  | .sub => .sub
  | .mul => .mul
  | .div => .div
  | .rem => .rem
  | .pow => .pow
  | .eq => .eq
  | .ne => .ne
  | .lt => .lt
  | .le => .le
  | .gt => .gt
  | .ge => .ge

/-- All strict operators. -/
def StrictOp.all : List StrictOp :=
  [.add, .sub, .mul, .div, .rem, .pow, .eq, .ne, .lt, .le, .gt, .ge]

/-- The binary operators that may skip their right operand: `and` if the left one is false,
`or` if it is true. -/
inductive LogicalOp where
  | and
  | or
  deriving DecidableEq, Repr, Inhabited

/-- A binary operator is either strict or logical. -/
def BinaryOp.split : BinaryOp → StrictOp ⊕ LogicalOp
  | .add => .inl .add
  | .sub => .inl .sub
  | .mul => .inl .mul
  | .div => .inl .div
  | .rem => .inl .rem
  | .pow => .inl .pow
  | .eq => .inl .eq
  | .ne => .inl .ne
  | .lt => .inl .lt
  | .le => .inl .le
  | .gt => .inl .gt
  | .ge => .inl .ge
  | .and => .inr .and
  | .or => .inr .or

end Parlance
