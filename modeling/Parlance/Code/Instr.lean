import Parlance.Operators
import Parlance.Text.Column
import Parlance.Types

/-!
# Instructions

The instructions of the stack machine. The topmost operand is the last one pushed. Jumps lead
to an offset in the code of the same routine.
-/

namespace Parlance

inductive Instr where
  /-- Drops the topmost operand. -/
  | pop
  /-- Pushes the topmost operand once more. -/
  | copy
  | loadConst (index : Nat)
  | loadLocal (slot : Nat)
  | storeLocal (slot : Nat)
  | loadGlobal (slot : Nat)
  | storeGlobal (slot : Nat)
  /-- Pushes a value that the running function captured. -/
  | loadCapture (index : Nat)
  /-- Pops the captures of a routine and pushes the function value. -/
  | closure (routine : Nat)
  /-- Pops `count` items and pushes the list of them. -/
  | buildList (count : Nat)
  /-- Pops an index and a list or string, and pushes the item. -/
  | getItem
  /-- Pops a value, an index and a list, and pushes the value and the changed list. -/
  | setItem
  | unary (op : UnaryOp)
  /-- Pops the right and the left operand and pushes the result. -/
  | binary (op : StrictOp)
  | cast (target : Scalar)
  | jump (target : Nat)
  /-- Pops a condition and jumps if it is false. -/
  | jumpIfFalse (target : Nat)
  /-- Jumps if the topmost operand is true, and else pops it. -/
  | jumpIfTrueOrPop (target : Nat)
  /-- Jumps if the topmost operand is false, and else pops it. -/
  | jumpIfFalseOrPop (target : Nat)
  /-- Pops `count` arguments and a callee, and calls it. -/
  | call (count : Nat)
  /-- Leaves the routine with the topmost operand. -/
  | ret
  deriving DecidableEq, Repr, Inhabited

namespace Instr

/-! ### Jumps -/

/-- The offset that an instruction may jump to. -/
def target? : Instr → Option Nat
  | .jump t | .jumpIfFalse t | .jumpIfTrueOrPop t | .jumpIfFalseOrPop t => some t
  | _ => none

/-- The instruction with the offset that it may jump to replaced. -/
def mapTarget (f : Nat → Nat) : Instr → Instr
  | .jump t => .jump (f t)
  | .jumpIfFalse t => .jumpIfFalse (f t)
  | .jumpIfTrueOrPop t => .jumpIfTrueOrPop (f t)
  | .jumpIfFalseOrPop t => .jumpIfFalseOrPop (f t)
  | i => i

/-- Whether control never goes on to the next instruction. -/
def isFinal : Instr → Bool
  | .ret | .jump _ => true
  | _ => false

/-! ### Loads and stores -/

/-- The instruction pushes a value that is there. -/
def isLoad : Instr → Bool
  | .loadConst _ | .loadLocal _ | .loadGlobal _ | .loadCapture _ => true
  | _ => false

/-- The instruction takes a value and keeps it in a slot. -/
def isStore : Instr → Bool
  | .storeLocal _ | .storeGlobal _ => true
  | _ => false

/-! ### Text -/

def unaryName : UnaryOp → String
  | .neg => "Neg"
  | .not => "Not"

def binaryName : StrictOp → String
  | .add => "Add"
  | .sub => "Sub"
  | .mul => "Mul"
  | .div => "Div"
  | .rem => "Rem"
  | .pow => "Pow"
  | .eq => "Eq"
  | .ne => "Ne"
  | .lt => "Lt"
  | .le => "Le"
  | .gt => "Gt"
  | .ge => "Ge"

/-- The name of an instruction in a listing. -/
def name : Instr → String
  | .pop => "Pop"
  | .copy => "Copy"
  | .loadConst _ => "LoadConst"
  | .loadLocal _ => "LoadLocal"
  | .storeLocal _ => "StoreLocal"
  | .loadGlobal _ => "LoadGlobal"
  | .storeGlobal _ => "StoreGlobal"
  | .loadCapture _ => "LoadCapture"
  | .closure _ => "Closure"
  | .buildList _ => "BuildList"
  | .getItem => "GetItem"
  | .setItem => "SetItem"
  | .unary op => unaryName op
  | .binary op => binaryName op
  | .cast _ => "Cast"
  | .jump _ => "Jump"
  | .jumpIfFalse _ => "JumpIfFalse"
  | .jumpIfTrueOrPop _ => "JumpIfTrueOrPop"
  | .jumpIfFalseOrPop _ => "JumpIfFalseOrPop"
  | .call _ => "Call"
  | .ret => "Return"

/-- The operand of an instruction in a listing. -/
def operand? : Instr → Option String
  | .loadConst n | .loadLocal n | .storeLocal n | .loadGlobal n | .storeGlobal n | .loadCapture n
  | .closure n | .buildList n | .jump n | .jumpIfFalse n | .jumpIfTrueOrPop n
  | .jumpIfFalseOrPop n | .call n => some (toString n)
  | .cast target => some target.name
  | _ => none

/-- An instruction in a listing: operands start at column 20. -/
def render (i : Instr) : String :=
  match i.operand? with
  | none => i.name
  | some operand => padRight 20 i.name ++ operand

end Instr

end Parlance
