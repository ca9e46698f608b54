/-!
# Instruction budgets
-/

namespace Parlance

/-- How many more instructions a run may execute; `none` is no limit. -/
structure Budget where
  remaining : Option Nat
  deriving DecidableEq, Repr, Inhabited

/-- The budget after one more instruction, `none` if it is used up. -/
def Budget.consume? (b : Budget) : Option Budget :=
  match b.remaining with
  | none => some b
  | some 0 => none
  | some (n + 1) => some ⟨some n⟩

end Parlance
