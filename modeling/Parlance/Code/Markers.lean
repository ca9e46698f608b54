import Parlance.Code.Instr

/-!
# Markers

While the code of a routine is put together, it is a list of markers: instructions, and the labels
that jumps lead to. An instruction is not placed yet, so its jump names a label. Only when the
routine is complete is every label resolved to the offset of the instruction behind it.

Two combinations are shortened when a value is dropped: a load in front of a `pop` is taken back,
and of a copied value that is stored, only the store is left.
-/

namespace Parlance

/-- What code generation emits. -/
inductive Marker where
  /-- An instruction. If it jumps, it jumps to a label. -/
  | instr (i : Instr)
  /-- The place that jumps to a label lead to. -/
  | label (l : Nat)
  deriving DecidableEq, Repr, Inhabited

namespace Marker

/-! ### Emission -/

/-- Drops the value that some markers, the last one first, leave on top of the stack. -/
def popped (code : List Marker) : List Marker :=
  match code with
  | .instr i :: rest =>
    -- `load; Pop` does nothing
    if i.isLoad then rest
    -- `Copy; store; Pop` is a store
    else if i.isStore && rest.head? == some (.instr .copy) then .instr i :: rest.tail
    else .instr .pop :: code
  | _ => .instr .pop :: code

/-- Emits a marker behind others, the last one first. Whether a `pop` is shortened is up to the
first argument. -/
def emit (tidy : Bool) (marker : Marker) (code : List Marker) : List Marker :=
  if tidy && marker == .instr .pop then popped code else marker :: code

/-! ### Resolution -/

/-- The labels among some markers, each with the offset of the instruction behind it. The first
instruction has an offset that is given. -/
def labelOffsets (offset : Nat) : List Marker → List (Nat × Nat)
  | [] => []
  | .instr _ :: rest => labelOffsets (offset + 1) rest
  | .label l :: rest => (l, offset) :: labelOffsets offset rest

/-- The instructions among some markers, with the labels that their jumps lead to replaced. -/
def instrs (resolve : Nat → Nat) : List Marker → List Instr
  | [] => []
  | .instr i :: rest => i.mapTarget resolve :: instrs resolve rest
  | .label _ :: rest => instrs resolve rest

/-- The code of a routine that is complete. A label that is marked twice is the last one, and a
label that is not marked stands for itself. -/
def resolved (code : List Marker) : List Instr :=
  let offsets := (labelOffsets 0 code).reverse
  instrs (fun l => (offsets.lookup l).getD l) code

end Marker

end Parlance
