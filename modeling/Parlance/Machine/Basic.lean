import Parlance.Code.Image
import Parlance.Machine.Budget
import Parlance.Machine.Output
import Parlance.Value.Fault

/-!
# Machines

A machine runs an image. It has the values of the global slots and a stack of frames, one for
each call that has not returned. Each frame has its own operand stack.
-/

namespace Parlance

/-- The state of a running function. -/
structure Frame where
  /-- The routine. -/
  function : Nat
  captures : List Value
  /-- The offset of the next instruction. -/
  pc : Nat
  /-- Parameters first, then local variables. -/
  slots : Array Value
  /-- The operands, the topmost first. -/
  stack : List Value
  deriving Inhabited

namespace Frame

/-- The frame of a call: arguments fill the first slots, the others are unit. -/
def enter (r : Routine) (function : Nat) (captures args : List Value) : Except Fault Frame :=
  if args.length = r.params then
    .ok { function, captures, pc := 0, stack := []
          slots := (args ++ List.replicate (r.slots - args.length) Value.unit).toArray }
  else .error (.arityMismatch r.params args.length)

/-- Values in brackets. -/
def renderValues (vs : List Value) : String :=
  "[" ++ ", ".intercalate (vs.map Value.repr) ++ "]"

/-- A frame in a report, the operand stack from the bottom. -/
def render (f : Frame) : String :=
  s!"function: {f.function}\npc: {f.pc}\nslots: {renderValues f.slots.toList}\n"
    ++ s!"captures: {renderValues f.captures}\nstack: {renderValues f.stack.reverse}"

end Frame

/-- The inputs and limits of a run. -/
structure RunOptions where
  /-- What the builtin `arg` gives. -/
  inputs : List String := []
  /-- The most instructions that may be executed; `none` is no limit. -/
  maxSteps : Option Nat := none
  /-- The most frames at a time. -/
  maxDepth : Nat := 1024
  /-- The most bytes that may be printed; `none` is no limit. -/
  outputLimit : Option Nat := none
  deriving DecidableEq, Repr, Inhabited

/-- The way a run ends. -/
abbrev Outcome := Except RuntimeError Value

structure Machine where
  image : Image
  /-- The values of the constants. -/
  consts : Array Value
  inputs : List String
  maxDepth : Nat
  globals : Array Value
  /-- The calls that have not returned, the running one first. -/
  frames : List Frame
  /-- The identity of the next function value. -/
  nextTag : Nat
  output : Output
  budget : Budget
  /-- Whether the run is asked to stop. -/
  cancelled : Bool
  /-- Set once the run has ended. -/
  outcome : Option Outcome
  /-- The number of executed instructions. -/
  steps : Nat
  deriving Inhabited

namespace Machine

/-- The machine before the first instruction of a verified image. -/
def start (image : Image) (o : RunOptions) : Except VerifyError Machine := do
  image.verify
  match Frame.enter (image.routines[0]?.getD default) 0 [] [] with
  | .error _ => throw .invalidEntry
  | .ok frame =>
    return { image
             consts := image.consts.mapIdx fun i c => c.toValue i
             inputs := o.inputs
             maxDepth := o.maxDepth
             globals := Array.replicate image.globals .unit
             frames := [frame]
             nextTag := image.consts.size
             output := { limit := o.outputLimit }
             budget := ⟨o.maxSteps⟩
             cancelled := false
             outcome := none
             steps := 0 }

/-- Asks a run to stop before the next instruction. -/
def cancel (m : Machine) : Machine :=
  { m with cancelled := true }

/-- The number of calls that have not returned. -/
def depth (m : Machine) : Nat :=
  m.frames.length

/-- The instruction that a frame is about to execute. -/
def fetch? (m : Machine) (f : Frame) : Option Instr :=
  (m.image.routines[f.function]?).bind fun r => r.code[f.pc]?

/-- The next instruction with the operands it finds, for a trace; `none` if there is no next
instruction. -/
def traceLine? (m : Machine) : Option String :=
  if m.outcome.isSome || m.cancelled || m.budget.consume?.isNone then none
  else
    match m.frames with
    | [] => none
    | f :: _ => (m.fetch? f).map fun i =>
      s!"[{f.function}:{f.pc}] {i.render} | {Frame.renderValues f.stack.reverse}"

end Machine

end Parlance
