import Parlance.Machine.Step
import Parlance.Pipeline

/-!
# Evaluation

Compiles a program text and prepares a machine for it.
-/

namespace Parlance

/-- Why an evaluation has no value. -/
inductive EvalError where
  | compile (ds : Diagnostics)
  | invalid (e : VerifyError)
  | runtime (e : RuntimeError)

def EvalError.message : EvalError → String
  | .compile ds => ds.render
  | .invalid e => s!"invalid program ({e.message})"
  | .runtime e => s!"runtime error: {e.message}"

/-- The machine that is about to run a text. -/
def CompileOptions.prepare (o : CompileOptions) (r : RunOptions) (text : List Char) :
    Except EvalError Machine := do
  let c ← (o.compile text).mapError .compile
  (Machine.start c.image r).mapError .invalid

namespace Machine

/-- The value of a run that has ended. -/
def value? (m : Machine) : Option (Except EvalError Value) :=
  m.outcome.map fun outcome => outcome.mapError .runtime

/-- Makes so many steps, and gives a line about each executed instruction. -/
def runTraced : Nat → Machine → List String × Machine
  | 0, m => ([], m)
  | n + 1, m =>
    let (lines, last) := runTraced n m.step
    (m.traceLine?.toList ++ lines, last)

end Machine

end Parlance
