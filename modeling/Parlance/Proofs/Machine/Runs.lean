import Mathlib.Tactic.Common
import Parlance.Machine.Step

/-!
# Steps and runs

The equations of a step, one for each way it can go, and how runs of a machine are put
together. A machine that has ended changes no more, so all runs that end, end alike.

## Main results

* `Machine.step_of_fetch`: a step of a machine that is not stopped executes its instruction.
* `Machine.step_way`: everything that a step of a machine that goes on can do.
* `Machine.run_add`: a run in two parts.
* `Machine.run_eq_run`: two runs of a machine that have ended are in the same state.
-/

namespace Parlance

/-- The instruction pushes the result of an operation on its operands. Together with loads, stores
and jumps these are the instructions that proofs about steps can take in families. -/
def Instr.isOperator : Instr → Bool
  | .getItem | .unary _ | .binary _ | .cast _ => true
  | _ => false

/-- How many operands an instruction takes from the top of the stack. Instructions that take
several at once, as many as they say, look for them on their own and count for none here. -/
def Instr.operands : Instr → Nat
  | .pop | .copy | .storeLocal _ | .storeGlobal _ | .unary _ | .cast _ | .jumpIfFalse _
  | .jumpIfTrueOrPop _ | .jumpIfFalseOrPop _ | .ret => 1
  | .getItem | .binary _ => 2
  | .setItem => 3
  | _ => 0

namespace Machine

/-! ### The ways of a step -/

/-- The machine with one more step on its count, in which an instruction is executed. -/
def counted (m : Machine) : Machine :=
  { m with steps := m.steps + 1 }

section Ways

variable {m : Machine} {f : Frame} {callers : List Frame}

/-- A machine that has ended does not go on. -/
theorem step_of_outcome {o : Outcome} (ho : m.outcome = some o) : m.step = m := by
  simp only [step, ho]

/-- A cancelled machine fails before its next instruction. -/
theorem step_of_cancelled (ho : m.outcome = none) (hf : m.frames = f :: callers)
    (hc : m.cancelled = true) : m.step = m.fail .cancelled f.function f.pc := by
  simp only [step, ho, hf, hc, if_true]

/-- A machine without budget fails before its next instruction. -/
theorem step_of_budget (ho : m.outcome = none) (hf : m.frames = f :: callers)
    (hc : m.cancelled = false) (hb : m.budget.consume? = none) :
    m.step = m.fail .budgetExceeded f.function f.pc := by
  simp only [step, ho, hf, hc, hb, Bool.false_eq_true, if_false]

/-- **Execution.** A step of a machine that is not stopped executes the next instruction. -/
theorem step_of_fetch (ho : m.outcome = none) (hf : m.frames = f :: callers)
    (hc : m.cancelled = false) {budget : Budget} (hb : m.budget.consume? = some budget)
    {i : Instr} (hi : m.fetch? f = some i) :
    m.step = match { m with budget, steps := m.steps + 1 }.execute callers
        { f with pc := f.pc + 1 } i with
      | (m, none) => m
      | (m, some fault) => m.fail fault f.function f.pc := by
  generalize hn : m.step = n
  simp only [step, ho, hf, hc, hb, hi, Bool.false_eq_true, if_false] at hn ⊢
  exact hn.symm

/-- A machine whose frame stands at no instruction fails. -/
theorem step_of_fetch_none (ho : m.outcome = none) (hf : m.frames = f :: callers)
    (hc : m.cancelled = false) {budget : Budget} (hb : m.budget.consume? = some budget)
    (hi : m.fetch? f = none) : m.step = m.fail .danglingReference f.function f.pc := by
  simp only [step, ho, hf, hc, hb, hi, Bool.false_eq_true, if_false]

/-- What a machine with the frame `f` on top can become in one step. It may be stopped before its
next instruction, for one of three reasons, and otherwise executes it, well or with a fault. -/
inductive Way (m : Machine) (f : Frame) (callers : List Frame) : Machine → Prop
  | cancelled (hc : m.cancelled = true) : Way m f callers (m.fail .cancelled f.function f.pc)
  | exhausted (hc : m.cancelled = false) (hb : m.budget.consume? = none) :
      Way m f callers (m.fail .budgetExceeded f.function f.pc)
  | missing {budget : Budget} (hc : m.cancelled = false) (hb : m.budget.consume? = some budget)
      (hi : m.fetch? f = none) : Way m f callers (m.fail .danglingReference f.function f.pc)
  | executed {budget : Budget} {i : Instr} {n : Machine} (hc : m.cancelled = false)
      (hb : m.budget.consume? = some budget) (hi : m.fetch? f = some i)
      (hx : { m with budget, steps := m.steps + 1 }.execute callers { f with pc := f.pc + 1 } i =
        (n, none)) : Way m f callers n
  | faulted {budget : Budget} {i : Instr} {n : Machine} {fault : Fault} (hc : m.cancelled = false)
      (hb : m.budget.consume? = some budget) (hi : m.fetch? f = some i)
      (hx : { m with budget, steps := m.steps + 1 }.execute callers { f with pc := f.pc + 1 } i =
        (n, some fault)) : Way m f callers (n.fail fault f.function f.pc)

/-- **Inversion.** A step of a machine that goes on is one of these. What a step keeps is proved
by cases of it. -/
theorem step_way (ho : m.outcome = none) (hf : m.frames = f :: callers) :
    m.Way f callers m.step := by
  cases hc : m.cancelled with
  | true =>
      rw [step_of_cancelled ho hf hc]
      exact .cancelled hc
  | false =>
      cases hb : m.budget.consume? with
      | none =>
          rw [step_of_budget ho hf hc hb]
          exact .exhausted hc hb
      | some budget =>
          cases hi : m.fetch? f with
          | none =>
              rw [step_of_fetch_none ho hf hc hb hi]
              exact .missing hc hb hi
          | some i =>
              rw [step_of_fetch ho hf hc hb hi]
              split
              · next hx => exact .executed hc hb hi hx
              · next hx => exact .faulted hc hb hi hx

/-- **Missing operands.** An instruction that does not find its operands clears the stack and
faults, whichever it is. So the instructions can be looked at with their operands there. -/
theorem execute_of_short {i : Instr} (h : f.stack.length < i.operands) :
    m.execute callers f i =
      faulted .stackUnderflow (m.resume callers { f with stack := [] }) := by
  -- At most two operands are there, or no instruction misses any.
  rcases hs : f.stack with _ | ⟨_, _ | ⟨_, _ | ⟨_, _⟩⟩⟩ <;> rw [hs] at h <;> cases i <;>
    first
    | simp only [execute, hs]; done
    | simp only [Instr.operands, List.length_cons, List.length_nil] at h; omega

end Ways

/-! ### Conditions -/

/-- What becomes of an instruction that asks for the truth of a condition: one of two ways, or a
fault if the condition is no truth value. -/
theorem truth_cases {C : Executed → Prop} {v : Value} {yes no : Executed}
    {other : Fault → Executed} (hyes : C yes) (hno : C no)
    (hother : ∀ fault, truth v = .error fault → C (other fault)) :
    C (match truth v with
      | .ok true => yes
      | .ok false => no
      | .error fault => other fault) := by
  cases ht : truth v with
  | error fault => exact hother fault ht
  | ok b =>
      cases b with
      | true => exact hyes
      | false => exact hno

/-! ### Calls of functions -/

section Calls

variable {m : Machine} {callers : List Frame} {f : Frame} {tag index : Nat}
  {captures args : List Value}

/-- A call above the limit of depth fails. -/
theorem call_of_depth (h : m.maxDepth ≤ callers.length + 1) :
    m.call callers f (.function tag index captures) args =
      faulted (.stackExhausted m.maxDepth) (m.resume callers f) := by
  simp only [call]
  exact if_pos h

/-- A call of a function that is not there fails. -/
theorem call_of_missing (h : ¬ m.maxDepth ≤ callers.length + 1)
    (hr : m.image.routines[index]? = none) :
    m.call callers f (.function tag index captures) args =
      faulted .danglingReference (m.resume callers f) := by
  simp only [call, hr]
  exact if_neg h

/-- A call within the limit enters the function, if the arguments are as many as it takes. -/
theorem call_of_enter {r : Routine} (h : ¬ m.maxDepth ≤ callers.length + 1)
    (hr : m.image.routines[index]? = some r) :
    m.call callers f (.function tag index captures) args =
      match Frame.enter r index captures args with
      | .ok frame => done { m with frames := frame :: f :: callers }
      | .error fault => faulted fault (m.resume callers f) := by
  simp only [call, hr]
  exact if_neg h

end Calls

/-! ### Runs -/

section Runs

variable {m : Machine}

/-- **Composition.** A run in two parts. -/
theorem run_add (a b : Nat) : m.run (a + b) = (m.run a).run b := by
  induction a generalizing m with
  | zero => rw [Nat.zero_add, run]
  | succ a ih => rw [Nat.succ_add, run, run, ih]

/-- A run that has ended stays as it is. -/
theorem run_of_outcome {o : Outcome} (ho : m.outcome = some o) (n : Nat) : m.run n = m := by
  induction n with
  | zero => rfl
  | succ n ih => rw [run, step_of_outcome ho, ih]

/-- A run that has not ended had not ended before. -/
theorem outcome_of_le {a b : Nat} (hab : a ≤ b) (h : (m.run b).outcome = none) :
    (m.run a).outcome = none := by
  obtain ⟨c, rfl⟩ := Nat.exists_eq_add_of_le hab
  rw [run_add] at h
  cases ho : (m.run a).outcome with
  | none => rfl
  | some o => rw [run_of_outcome ho, ho] at h; exact h

/-- **Determinism.** Two runs of a machine that have ended are in the same state. -/
theorem run_eq_run {a b : Nat} {o o' : Outcome} (ha : (m.run a).outcome = some o)
    (hb : (m.run b).outcome = some o') : m.run a = m.run b := by
  rcases Nat.le_total a b with h | h
  · obtain ⟨c, rfl⟩ := Nat.exists_eq_add_of_le h
    rw [run_add, run_of_outcome ha]
  · obtain ⟨c, rfl⟩ := Nat.exists_eq_add_of_le h
    rw [run_add, run_of_outcome hb]

end Runs

end Machine

end Parlance
