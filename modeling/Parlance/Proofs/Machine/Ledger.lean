import Parlance.Proofs.Code.Typing
import Parlance.Proofs.Machine.Safety

/-!
# The ledger of a run

What a run has stored is not part of its state: a slot that was never stored holds unit like
one that was. A ledger is kept beside a run. It lists the global slots that were stored, says
for every frame slot which variable it was stored for, and notes whether a global was ever
loaded before it was stored.

The variable of a frame slot is the one in scope that has the slot. Sibling scopes share slots,
so this depends on the offset in the code: a load is for the variable in scope where it stands,
a store for the one in scope behind it, since a declaration is in scope only then.

## Main definitions

* `Machine.due?`: the instruction that the next step executes.
* `Ledger.next`: what a step adds to the ledger.
* `Machine.Recorded`: the states of a run with their ledgers.
-/

namespace Parlance

/-- The variable of a frame slot at an offset: the one in scope there that has the slot. -/
def Analyzed.variableAt (a : Analyzed) (function pc slot : Nat) : Option Nat :=
  (a.chart function pc).bind fun p =>
    p.live.find? fun y => (a.facts.symbol y).storage = .frame slot

/-- What a run has stored so far. -/
structure Ledger where
  /-- The global slots that were stored. -/
  stored : List Nat
  /-- Whether every global that was loaded had been stored. -/
  careful : Bool
  /-- For each call that has not returned, the running one first, the variable that each slot of
  its frame was stored for. Arguments count as stored for the parameters. -/
  owners : List (Nat → Option Nat)

namespace Ledger

/-- The variables of the slots when a function is entered. -/
def entry (a : Analyzed) (function : Nat) : Nat → Option Nat :=
  fun slot => (a.facts.info function).params[slot]?

/-- The ledger before the first instruction. -/
def start (a : Analyzed) : Ledger :=
  { stored := [], careful := true, owners := [entry a 0] }

/-- The slot of the running frame is stored for a variable. -/
def own (l : Ledger) (slot : Nat) (y : Option Nat) : Ledger :=
  { l with owners := l.owners.modifyHead fun owner => Function.update owner slot y }

/-- The ledger after an instruction of the running frame `f`, which left the frames `frames`. -/
def after (a : Analyzed) (l : Ledger) (f : Frame) (frames : List Frame) : Instr → Ledger
  | .loadGlobal slot => { l with careful := l.careful && l.stored.contains slot }
  | .storeGlobal slot => { l with stored := slot :: l.stored }
  | .storeLocal slot => l.own slot (a.variableAt f.function (f.pc + 1) slot)
  -- A builtin has no frame.
  | .call _ =>
    match frames with
    | g :: _ =>
      if l.owners.length < frames.length then { l with owners := entry a g.function :: l.owners }
      else l
    | [] => l
  | .ret => { l with owners := l.owners.tail }
  | _ => l

end Ledger

namespace Machine

/-- The instruction that the next step executes, with the running frame; `none` if it executes
none. -/
def due? (m : Machine) : Option (Frame × Instr) :=
  if m.outcome.isNone && !m.cancelled && m.budget.consume?.isSome then
    m.frames.head?.bind fun f => (m.fetch? f).map fun i => (f, i)
  else none

end Machine

/-- What a step adds to the ledger. -/
def Ledger.next (a : Analyzed) (l : Ledger) (m : Machine) : Ledger :=
  match m.due? with
  | some (f, i) => l.after a f m.step.frames i
  | none => l

namespace Machine

/-- The states of a run, as in `Reachable`, with their ledgers. -/
inductive Recorded (a : Analyzed) (start : Machine) : Ledger → Machine → Prop
  | start : Recorded a start (.start a) start
  | step {l : Ledger} {m : Machine} : Recorded a start l m → Recorded a start (l.next a m) m.step
  | cancel {l : Ledger} {m : Machine} : Recorded a start l m → Recorded a start l m.cancel

/-- So many steps of a run, with the ledger. -/
def record (a : Analyzed) : Nat → Ledger → Machine → Ledger × Machine
  | 0, l, m => (l, m)
  | n + 1, l, m => record a n (l.next a m) m.step

section

variable {a : Analyzed} {l : Ledger} {start m : Machine}

/-- A recorded run may go on. -/
theorem Recorded.record (h : Recorded a start l m) (n : Nat) :
    Recorded a start (record a n l m).1 (record a n l m).2 := by
  induction n generalizing l m with
  | zero => exact h
  | succ n ih => exact ih h.step

/-- A recorded state is a reachable one. -/
theorem Recorded.reachable (h : Recorded a start l m) : Reachable start m := by
  induction h with
  | start => exact .start
  | step _ ih => exact ih.step
  | cancel _ ih => exact ih.cancel

/-- Every state of a run has a ledger. -/
theorem Reachable.recorded (a : Analyzed) (h : Reachable start m) : ∃ l, Recorded a start l m := by
  induction h with
  | start => exact ⟨_, .start⟩
  | step _ ih => exact ih.imp' (Ledger.next a · _) fun _ => .step
  | cancel _ ih => exact ih.imp fun _ => .cancel

/-- An instruction is due in a machine that has not ended and was not cancelled, whose budget is not
spent, and whose running frame stands at it. -/
theorem due?_eq_some {f : Frame} {i : Instr} (h : m.due? = some (f, i)) :
    m.outcome = none ∧ m.cancelled = false ∧ (∃ budget, m.budget.consume? = some budget) ∧
      (∃ callers, m.frames = f :: callers) ∧ m.fetch? f = some i := by
  unfold due? at h
  split at h
  · next hc =>
      simp only [Bool.and_eq_true, Option.isNone_iff_eq_none, Bool.not_eq_true',
        Option.isSome_iff_exists] at hc
      obtain ⟨⟨ho, hcancel⟩, hb⟩ := hc
      obtain ⟨g, hg, h⟩ := Option.bind_eq_some_iff.mp h
      obtain ⟨j, hj, he⟩ := Option.map_eq_some_iff.mp h
      cases he
      obtain ⟨callers, hf⟩ := List.head?_eq_some_iff.mp hg
      exact ⟨ho, hcancel, hb, ⟨callers, hf⟩, hj⟩
  · cases h

/-- In such a machine the instruction of the running frame is due. -/
theorem due?_of_fetch {f : Frame} {callers : List Frame} {i : Instr} {budget : Budget}
    (ho : m.outcome = none) (hc : m.cancelled = false) (hb : m.budget.consume? = some budget)
    (hf : m.frames = f :: callers) (hi : m.fetch? f = some i) : m.due? = some (f, i) := by
  simp only [due?, ho, hc, hb, hf, hi, Option.isNone_none, Option.isSome_some, Bool.not_false,
    Bool.and_self, if_true, List.head?_cons, Option.bind_some, Option.map_some]

/-- Nothing is due in a machine that has ended. -/
theorem due?_of_outcome {outcome : Outcome} (ho : m.outcome = some outcome) : m.due? = none := by
  simp only [due?, ho, Option.isNone_some, Bool.false_and, Bool.false_eq_true, if_false]

/-- Nothing is due in a cancelled machine. -/
theorem due?_of_cancelled (hc : m.cancelled = true) : m.due? = none := by
  simp only [due?, hc, Bool.not_true, Bool.and_false, Bool.false_and, Bool.false_eq_true, if_false]

/-- Nothing is due in a machine without budget. -/
theorem due?_of_budget (hb : m.budget.consume? = none) : m.due? = none := by
  simp only [due?, hb, Option.isSome_none, Bool.and_false, Bool.false_eq_true, if_false]

end

end Machine

end Parlance
