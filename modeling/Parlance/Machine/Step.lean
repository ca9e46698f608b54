import Parlance.Machine.Basic
import Parlance.Value.Ops

/-!
# Running a machine

`Machine.step` executes one instruction. Once the run has ended, it changes nothing.
`Machine.run` makes a number of steps.

An instruction that faults keeps what it did before the fault: the operands it took stay
taken.
-/

namespace Parlance

namespace Machine

/-- What an instruction did: the machine after it, and the fault if it failed. -/
abbrev Executed := Machine × Option Fault

/-! ### Builtins -/

/-- The input at an index. -/
def input (m : Machine) (index : Int64) : Except Fault Value :=
  let i := index.toInt
  match if 0 ≤ i then m.inputs[i.toNat]? else none with
  | some s => .ok (.str s)
  | none => .error (.indexOutOfRange index m.inputs.length)

/-- The input whose index a value is. -/
def inputAt (m : Machine) : Value → Except Fault Value
  | .int i => m.input i
  | v => .error (.invalidOperand "arg" v.typeName)

/-- Calls a builtin. Only `print` changes the machine. -/
def callBuiltin (m : Machine) (b : Builtin) (args : List Value) : Machine × Except Fault Value :=
  match b, args with
  | .print, [v] =>
    let (output, written) := m.output.writeLine v.display
    ({ m with output }, if written then .ok .unit else .error (.output "output limit"))
  | .len, [v] => (m, v.length.map fun n => .int (Int64.ofNat n))
  | .arg, [v] => (m, m.inputAt v)
  | .argCount, [] => (m, .ok (.int (Int64.ofNat m.inputs.length)))
  | .push, [target, item] => (m, target.push item)
  | b, args => (m, .error (.arityMismatch b.arity args.length))

/-! ### Instructions -/

/-- The top `count` operands, the topmost last, and those below them. -/
def popMany? (count : Nat) (stack : List Value) : Option (List Value × List Value) :=
  if stack.length < count then none else some ((stack.take count).reverse, stack.drop count)

/-- The truth of a condition. -/
def truth : Value → Except Fault Bool
  | .bool b => .ok b
  | v => .error (.invalidOperand "if" v.typeName)

/-- The machine with another running frame. -/
def resume (m : Machine) (callers : List Frame) (f : Frame) : Machine :=
  { m with frames := f :: callers }

/-- The instruction is done. -/
def done (m : Machine) : Executed :=
  (m, none)

/-- The instruction failed. -/
def faulted (fault : Fault) (m : Machine) : Executed :=
  (m, some fault)

/-- Pushes a result, or faults. -/
def pushResult (m : Machine) (callers : List Frame) (f : Frame) (stack : List Value)
    (result : Except Fault Value) : Executed :=
  match result with
  | .ok v => done (m.resume callers { f with stack := v :: stack })
  | .error fault => faulted fault (m.resume callers { f with stack })

/-- Calls a value. -/
def call (m : Machine) (callers : List Frame) (f : Frame) (callee : Value) (args : List Value) :
    Executed :=
  let here := m.resume callers f
  match callee with
  | .function _ index captures =>
    if m.maxDepth ≤ here.depth then faulted (.stackExhausted m.maxDepth) here
    else
      match m.image.routines[index]? with
      | none => faulted .danglingReference here
      | some r =>
        match Frame.enter r index captures args with
        | .ok frame => done { here with frames := frame :: f :: callers }
        | .error fault => faulted fault here
  | .builtin b =>
    let (m, result) := m.callBuiltin b args
    m.pushResult callers f f.stack result
  | v => faulted (.invalidOperand "()" v.typeName) here

/-- Hands a result to the caller. The result of the last frame is that of the run. -/
def leave (m : Machine) (callers : List Frame) (v : Value) : Executed :=
  match callers with
  | [] => done { m with frames := [], outcome := some (.ok v) }
  | f :: callers => done (m.resume callers { f with stack := v :: f.stack })

/-- Executes an instruction in the running frame, whose `pc` is already at the next one. -/
def execute (m : Machine) (callers : List Frame) (f : Frame) (i : Instr) : Executed :=
  let keep (f : Frame) : Machine := m.resume callers f
  let push (stack : List Value) : Executed := done (keep { f with stack })
  let underflow : Executed := faulted .stackUnderflow (keep { f with stack := [] })
  match i, f.stack with
  | .pop, _ :: stack => push stack
  | .copy, v :: stack => push (v :: v :: stack)
  | .loadConst i, stack =>
    match m.consts[i]? with
    | some v => push (v :: stack)
    | none => faulted .danglingReference (keep f)
  | .loadLocal i, stack =>
    match f.slots[i]? with
    | some v => push (v :: stack)
    | none => faulted .danglingReference (keep f)
  | .storeLocal i, v :: stack => done (keep { f with stack, slots := f.slots.setIfInBounds i v })
  | .loadGlobal i, stack =>
    match m.globals[i]? with
    | some v => push (v :: stack)
    | none => faulted .danglingReference (keep f)
  | .storeGlobal i, v :: stack =>
    done { keep { f with stack } with globals := m.globals.setIfInBounds i v }
  | .loadCapture i, stack =>
    match f.captures[i]? with
    | some v => push (v :: stack)
    | none => faulted .stackUnderflow (keep f)
  | .closure index, stack =>
    match m.image.routines[index]? with
    | none => faulted .danglingReference (keep f)
    | some r =>
      match popMany? r.captures stack with
      | none => faulted .stackUnderflow (keep f)
      | some (captures, stack) =>
        let v := Value.function m.nextTag index captures
        done { keep { f with stack := v :: stack } with nextTag := m.nextTag + 1 }
  | .buildList count, stack =>
    match popMany? count stack with
    | none => faulted .stackUnderflow (keep f)
    | some (items, stack) => push (.list items :: stack)
  | .getItem, index :: target :: stack => m.pushResult callers f stack (target.getItem index)
  | .setItem, v :: index :: target :: stack =>
    match target.setItem index v with
    | .ok changed => push (changed :: v :: stack)
    | .error fault => faulted fault (keep { f with stack })
  | .unary op, v :: stack => m.pushResult callers f stack (v.unary op)
  | .binary op, r :: l :: stack => m.pushResult callers f stack (Value.binary op.toBinary l r)
  | .cast target, v :: stack => m.pushResult callers f stack (v.cast target)
  | .jump target, _ => done (keep { f with pc := target })
  | .jumpIfFalse target, v :: stack =>
    match truth v with
    | .ok true => push stack
    | .ok false => done (keep { f with stack, pc := target })
    | .error fault => faulted fault (keep { f with stack })
  | .jumpIfTrueOrPop target, v :: stack =>
    match truth v with
    | .ok true => done (keep { f with pc := target })
    | .ok false => push stack
    | .error fault => faulted fault (keep f)
  | .jumpIfFalseOrPop target, v :: stack =>
    match truth v with
    | .ok true => push stack
    | .ok false => done (keep { f with pc := target })
    | .error fault => faulted fault (keep f)
  | .call count, stack =>
    match popMany? count stack with
    | none => faulted .stackUnderflow (keep f)
    | some (_, []) => underflow
    | some (args, callee :: stack) => m.call callers { f with stack } callee args
  | .ret, v :: _ => m.leave callers v
  | _, _ => underflow

/-! ### Steps -/

/-- Ends the run with an error at an instruction. -/
def fail (m : Machine) (fault : Fault) (function pc : Nat) : Machine :=
  { m with outcome := some (.error { fault, function, pc }) }

/-- Executes one instruction, unless the run has ended. A cancelled run and one without
budget end before the instruction. -/
def step (m : Machine) : Machine :=
  match m.outcome, m.frames with
  | some _, _ => m
  | none, [] => { m with outcome := some (.ok .unit) }
  | none, f :: callers =>
    if m.cancelled then m.fail .cancelled f.function f.pc
    else
      match m.budget.consume? with
      | none => m.fail .budgetExceeded f.function f.pc
      | some budget =>
        match m.fetch? f with
        | none => m.fail .danglingReference f.function f.pc
        | some i =>
          let m := { m with budget, steps := m.steps + 1 }
          match m.execute callers { f with pc := f.pc + 1 } i with
          | (m, none) => m
          | (m, some fault) => m.fail fault f.function f.pc

/-- Makes so many steps. -/
def run : Nat → Machine → Machine
  | 0, m => m
  | n + 1, m => run n m.step

end Machine

end Parlance
