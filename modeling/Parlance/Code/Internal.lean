import Parlance.Code.Image
import Parlance.Text.Position

/-!
# Internal errors

Failures of the compiler itself, which an analyzed program should not meet.
-/

namespace Parlance

inductive InternalError where
  /-- The passes were still changing the program after so many rounds. -/
  | optimizerDiverged (rounds : Nat)
  /-- A node lacks the symbol, function or loop it needs. -/
  | unresolved (range : Range)
  /-- The generated image fails verification. -/
  | invalidProgram (e : VerifyError)
  deriving Inhabited

namespace InternalError

def message : InternalError → String
  | .optimizerDiverged rounds =>
    s!"optimizer did not reach a fixed point after {rounds} iterations"
  | .unresolved _ => "unresolved identifier reached code generation"
  | .invalidProgram e => s!"generated program is invalid: {e.message}"

/-- The place of the failure; the empty range at the start if there is none. -/
def range : InternalError → Range
  | .unresolved range => range
  | .optimizerDiverged _ | .invalidProgram _ => .origin

end InternalError

end Parlance
