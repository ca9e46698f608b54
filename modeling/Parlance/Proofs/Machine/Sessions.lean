import Parlance.Proofs.Machine.Safety

/-!
# Sessions

A machine is driven by actions: a single step, a run to the end, a request to stop. A budget
and a request to stop only cut a run short: as far as a session comes, it is at a state of the
run that nobody limits or stops, and an interruption leaves that state as it is.

An instruction does not see the budget, the request to stop or the count of steps
(`Machine.execute_relimit`), and it never ends a run with an interruption of its own
(`Machine.execute_ownEnd`). So a session is compared with the free run by forgetting all three
(`Machine.released`): each of its steps is a step of the free run or changes nothing.

## Main results

* `Machine.stopped_or_advanced`: one step, compared with the free run.
* `Machine.Reachable.follows`: every state of a run follows the free run.
* `Machine.session_cutShort`: sessions only cut runs short.
* `Machine.cancelled_of_usedUp`: a request to stop is noticed before a used up budget.
-/

namespace Parlance

/-- Whether a fault comes from outside the program: the budget is used up, or the run is asked
to stop. -/
def Fault.isInterrupt : Fault → Bool
  | .budgetExceeded | .cancelled => true
  | _ => false

/-! ### Faults of operations -/

/-- No unary operation asks the run to stop or looks at its budget. -/
theorem Value.unary_own {op : UnaryOp} {v : Value} {fault : Fault}
    (h : v.unary op = .error fault) : fault.isInterrupt = false := by
  unfold Value.unary at h
  split at h <;> cases h
  rfl

/-- No operation on integers interrupts the run. -/
theorem Value.binaryInt_own {op : BinaryOp} {a b : Int64} {fault : Fault}
    (h : Value.binaryInt op a b = .error fault) : fault.isInterrupt = false := by
  unfold Value.binaryInt at h
  split at h <;> (try split at h) <;> cases h <;> rfl

/-- No operation on floats interrupts the run. -/
theorem Value.binaryFloat_own {op : BinaryOp} {a b : Binary64} {fault : Fault}
    (h : Value.binaryFloat op a b = .error fault) : fault.isInterrupt = false := by
  unfold Value.binaryFloat at h
  split at h <;> (try split at h) <;> cases h <;> rfl

/-- No binary operation interrupts the run. -/
theorem Value.binary_own {op : BinaryOp} {l r : Value} {fault : Fault}
    (h : Value.binary op l r = .error fault) : fault.isInterrupt = false := by
  unfold Value.binary at h
  split at h
  · cases h
  · cases h
  iterate 4
    · split at h <;> cases h
      rfl
  · split at h
    · exact Value.binaryInt_own h
    · exact Value.binaryFloat_own h
    · split at h <;> cases h
      rfl
    · split at h <;> cases h
      rfl
    · cases h
      rfl

/-- No cast interrupts the run. -/
theorem Value.cast_own {v : Value} {target : Scalar} {fault : Fault}
    (h : v.cast target = .error fault) : fault.isInterrupt = false := by
  unfold Value.cast at h
  split at h <;> cases h
  rfl

/-- No check of an index interrupts the run. -/
theorem Value.checkedIndex_own {index : Value} {length : Nat} {fault : Fault}
    (h : Value.checkedIndex index length = .error fault) : fault.isInterrupt = false := by
  unfold Value.checkedIndex at h
  split at h
  · split at h <;> cases h
    rfl
  · cases h
    rfl

/-- Reading an item does not interrupt the run. -/
theorem Value.getItem_own {target index : Value} {fault : Fault}
    (h : target.getItem index = .error fault) : fault.isInterrupt = false := by
  unfold Value.getItem at h
  split at h
  · next items =>
      cases hi : Value.checkedIndex index items.length with
      | error e => rw [hi] at h; cases h; exact Value.checkedIndex_own hi
      | ok i => rw [hi] at h; cases h
  · next s =>
      cases hi : Value.checkedIndex index s.toList.length with
      | error e => rw [hi] at h; cases h; exact Value.checkedIndex_own hi
      | ok i => rw [hi] at h; cases h
  · cases h
    rfl

/-- Setting an item does not interrupt the run. -/
theorem Value.setItem_own {target index v : Value} {fault : Fault}
    (h : target.setItem index v = .error fault) : fault.isInterrupt = false := by
  unfold Value.setItem at h
  split at h
  · next items =>
      cases hi : Value.checkedIndex index items.length with
      | error e => rw [hi] at h; cases h; exact Value.checkedIndex_own hi
      | ok i => rw [hi] at h; cases h
  · cases h
    rfl

namespace Machine

/-- Asking for a truth value does not interrupt the run. -/
theorem truth_own {v : Value} {fault : Fault} (h : truth v = .error fault) :
    fault.isInterrupt = false := by
  unfold truth at h
  split at h <;> cases h
  rfl

/-- No builtin interrupts the run. -/
theorem callBuiltin_own {m : Machine} {b : Builtin} {args : List Value} {fault : Fault}
    (h : (m.callBuiltin b args).2 = .error fault) : fault.isInterrupt = false := by
  unfold callBuiltin at h
  split at h
  · split at h
    dsimp only at h
    split at h <;> cases h
    rfl
  · next v =>
      unfold Value.length at h
      split at h <;> cases h
      rfl
  · next v =>
      unfold inputAt input at h
      split at h
      · dsimp only at h
        split at h <;> cases h
        rfl
      · cases h
        rfl
  · cases h
  · unfold Value.push at h
    split at h <;> cases h
    rfl
  · cases h
    rfl

/-! ### Instructions -/

/-- The machine with another budget, another request to stop and another count of steps. -/
def relimit (m : Machine) (b : Budget) (stop : Bool) (steps : Nat) : Machine :=
  { m with budget := b, cancelled := stop, steps }

/-- What an instruction leaves does not come from outside: it records no error, and the fault
it reports is no interruption. -/
structure Executed.OwnEnd (x : Executed) : Prop where
  unfailed : ∀ e, x.1.outcome ≠ some (.error e)
  own : ∀ fault, x.2 = some fault → fault.isInterrupt = false

section Execute

variable {m : Machine} {callers : List Frame} {f : Frame}

/-- An instruction that is done without an error ends nothing from outside. -/
theorem ownEnd_done {n : Machine} (h : ∀ e, n.outcome ≠ some (.error e)) : (done n).OwnEnd :=
  ⟨h, fun _ hx => by cases hx⟩

/-- An instruction that fails by itself ends nothing from outside. -/
theorem ownEnd_faulted {n : Machine} {fault : Fault} (h : ∀ e, n.outcome ≠ some (.error e))
    (hf : fault.isInterrupt = false) : (faulted fault n).OwnEnd :=
  ⟨h, fun _ hx => by cases hx; exact hf⟩

/-- An operation comes to a value or to a fault of its own. -/
theorem ownEnd_pushResult {stack : List Value} {result : Except Fault Value}
    (ho : ∀ e, m.outcome ≠ some (.error e))
    (h : ∀ fault, result = .error fault → fault.isInterrupt = false) :
    (m.pushResult callers f stack result).OwnEnd := by
  cases result with
  | ok v => exact ownEnd_done ho
  | error fault => exact ownEnd_faulted ho (h fault rfl)

/-- A call comes to a new frame, to a value or to a fault of its own. It never ends the run because
of a limit on the steps or a request to stop. -/
theorem ownEnd_call {callee : Value} {args : List Value} (ho : ∀ e, m.outcome ≠ some (.error e)) :
    (m.call callers f callee args).OwnEnd := by
  cases callee with
  | function tag index captures =>
      by_cases hdepth : m.maxDepth ≤ callers.length + 1
      · rw [call_of_depth hdepth]
        exact ownEnd_faulted ho rfl
      · cases hr : m.image.routines[index]? with
        | none =>
            rw [call_of_missing hdepth hr]
            exact ownEnd_faulted ho rfl
        | some r =>
            rw [call_of_enter hdepth hr]
            unfold Frame.enter
            split
            · exact ownEnd_done ho
            · next h =>
                split at h <;> cases h
                exact ownEnd_faulted ho rfl
  | builtin b =>
      obtain ⟨output, hm⟩ := callBuiltin_machine m b args
      simp only [call, hm]
      exact ownEnd_pushResult ho fun fault hfault => callBuiltin_own hfault
  | _ => exact ownEnd_faulted ho rfl

/-- A return comes to the caller or to the end of the run. -/
theorem ownEnd_leave {v : Value} (ho : ∀ e, m.outcome ≠ some (.error e)) :
    (m.leave callers v).OwnEnd := by
  cases callers with
  | nil => exact ownEnd_done fun _ h => by cases h
  | cons g callers => exact ownEnd_done ho

/-- **Own ends.** An instruction never ends a run the way a budget or a request to stop does. -/
theorem execute_ownEnd (ho : m.outcome = none) (callers : List Frame) (f : Frame) (i : Instr) :
    (m.execute callers f i).OwnEnd := by
  have ho' : ∀ e, m.outcome ≠ some (.error e) := by simp [ho]
  fun_cases execute m callers f i
  -- Operations on values have faults of their own.
  case case18 => exact ownEnd_pushResult ho' fun _ => Value.getItem_own
  case case20 h => exact ownEnd_faulted ho' (Value.setItem_own h)
  case case21 => exact ownEnd_pushResult ho' fun _ => Value.unary_own
  case case22 => exact ownEnd_pushResult ho' fun _ => Value.binary_own
  case case23 => exact ownEnd_pushResult ho' fun _ => Value.cast_own
  case case27 h | case30 h | case33 h => exact ownEnd_faulted ho' (truth_own h)
  case case36 => exact ownEnd_call ho'
  case case37 => exact ownEnd_leave ho'
  all_goals first | exact ownEnd_done ho' | exact ownEnd_faulted ho' rfl

/-! ### Limits -/

variable {b : Budget} {stop : Bool} {steps : Nat}

/-- The result of an operation does not depend on the budget, the request to stop or the count of
steps. -/
theorem pushResult_relimit {stack : List Value} {result : Except Fault Value} :
    (m.relimit b stop steps).pushResult callers f stack result =
      ((m.pushResult callers f stack result).1.relimit b stop steps,
        (m.pushResult callers f stack result).2) := by
  cases result <;> rfl

/-- What a builtin does is independent of them too. -/
theorem callBuiltin_relimit {k : Builtin} {args : List Value} :
    (m.relimit b stop steps).callBuiltin k args =
      ((m.callBuiltin k args).1.relimit b stop steps, (m.callBuiltin k args).2) := by
  unfold callBuiltin
  split <;> rfl

/-- What a call does is independent of them too. -/
theorem call_relimit {callee : Value} {args : List Value} :
    (m.relimit b stop steps).call callers f callee args =
      ((m.call callers f callee args).1.relimit b stop steps,
        (m.call callers f callee args).2) := by
  cases callee with
  | function tag index captures =>
      by_cases hdepth : m.maxDepth ≤ callers.length + 1
      · rw [call_of_depth hdepth, call_of_depth (show (m.relimit b stop steps).maxDepth ≤ _ from hdepth)]
        rfl
      · have hdepth' : ¬ (m.relimit b stop steps).maxDepth ≤ callers.length + 1 := hdepth
        cases hr : m.image.routines[index]? with
        | none =>
            rw [call_of_missing hdepth hr, call_of_missing hdepth' hr]
            rfl
        | some r =>
            rw [call_of_enter hdepth hr, call_of_enter hdepth' hr]
            cases Frame.enter r index captures args <;> rfl
  | builtin k =>
      simp only [call, callBuiltin_relimit]
      exact pushResult_relimit
  | _ => rfl

/-- **Limits are invisible.** An instruction does the same whatever the budget, the request to
stop and the count of steps are, and keeps all three. -/
theorem execute_relimit (m : Machine) (callers : List Frame) (f : Frame) (b : Budget)
    (stop : Bool) (steps : Nat) (i : Instr) :
    (m.relimit b stop steps).execute callers f i =
      ((m.execute callers f i).1.relimit b stop steps, (m.execute callers f i).2) := by
  fun_cases execute m callers f i
  case case18 hs | case21 hs | case22 hs | case23 hs =>
    simp only [execute, hs]
    exact pushResult_relimit
  case case36 hs =>
    simp only [execute, hs]
    exact call_relimit
  case case37 hs =>
    simp only [execute, hs]
    cases callers <;> rfl
  all_goals simp only [execute, relimit, *]; rfl

end Execute

/-! ### Steps -/

/-- What a run has come to by itself. An interruption does not count. -/
def ownOutcome : Option Outcome → Option Outcome
  | some (.error e) => if e.fault.isInterrupt then none else some (.error e)
  | o => o

/-- The machine as it would be if nobody had limited it or asked it to stop. -/
def released (m : Machine) : Machine :=
  { m with budget := ⟨none⟩, cancelled := false, outcome := ownOutcome m.outcome }

/-- An outcome that is no interruption is the run's own. -/
theorem ownOutcome_eq_self {o : Option Outcome}
    (h : ∀ e, o = some (.error e) → e.fault.isInterrupt = false) : ownOutcome o = o := by
  unfold ownOutcome
  split
  · next e => rw [if_neg (by simp [h e rfl])]
  · rfl

section Step

variable {image : Image} {m : Machine} {f : Frame} {callers : List Frame}

/-- An interruption is forgotten when a machine is released. -/
theorem released_fail (ho : m.outcome = none) {fault : Fault} (hf : fault.isInterrupt = true)
    {function pc : Nat} : (m.fail fault function pc).released = m.released := by
  simp only [released, fail, ownOutcome, hf, if_true, ho]

/-- What an executed instruction does to the limits, and to the released machine. -/
structure Advanced (m : Machine) (budget : Budget) (m' : Machine) : Prop where
  released : m'.released = m.released.step
  steps : m'.steps = m.steps + 1
  budget : m'.budget = budget
  cancelled : m'.cancelled = m.cancelled
  own : ∀ e, m'.outcome = some (.error e) → e.fault.isInterrupt = false

/-- A step that executes an instruction is a step of the released machine. No instruction reads the
budget, the count of the steps or the request to stop. -/
theorem advanced_step (ho : m.outcome = none) (hf : m.frames = f :: callers)
    (hc : m.cancelled = false) {budget : Budget} (hb : m.budget.consume? = some budget)
    {i : Instr} (hi : m.fetch? f = some i) : m.Advanced budget m.step := by
  have ho' : m.released.outcome = none := by simp only [Machine.released, ho, ownOutcome]
  have hb' : m.released.budget.consume? = some ⟨none⟩ := rfl
  have hfree := step_of_fetch ho' hf rfl hb' hi
  -- Both execute the instruction on the same machine but for the limits.
  have hexec := execute_relimit m callers { f with pc := f.pc + 1 } budget m.cancelled
    (m.steps + 1) i
  have hexec' := execute_relimit m callers { f with pc := f.pc + 1 } ⟨none⟩ false (m.steps + 1) i
  have hlimit : { m with budget, steps := m.steps + 1 } =
      m.relimit budget m.cancelled (m.steps + 1) := rfl
  have hlimit' : { m.released with budget := ⟨none⟩, steps := m.released.steps + 1 } =
      m.relimit ⟨none⟩ false (m.steps + 1) := by
    simp only [Machine.released, ho, ownOutcome, relimit]
  have hown := execute_ownEnd ho callers { f with pc := f.pc + 1 } i
  rw [hlimit', hexec'] at hfree
  rw [step_of_fetch ho hf hc hb hi, hlimit, hexec]
  generalize m.execute callers { f with pc := f.pc + 1 } i = x at hfree hown ⊢
  obtain ⟨n, fault⟩ := x
  cases fault with
  | none =>
      have herr : ∀ e, n.outcome = some (.error e) → e.fault.isInterrupt = false :=
        fun e he => absurd he (hown.unfailed e)
      refine ⟨?_, rfl, rfl, rfl, herr⟩
      rw [hfree]
      simp only [Machine.released, relimit, ownOutcome_eq_self herr]
  | some fault =>
      have hfault : fault.isInterrupt = false := hown.own fault rfl
      refine ⟨?_, rfl, rfl, rfl, ?_⟩
      · rw [hfree]
        simp only [Machine.released, relimit, fail, ownOutcome, hfault]
        rfl
      · intro e he
        cases he
        exact hfault

/-- **One step.** A machine that has not ended is stopped, or has used up its budget, or executes
an instruction, in this order. -/
theorem stopped_or_advanced (hs : m.Safe) (ho : m.outcome = none) :
    ∃ f callers, m.frames = f :: callers ∧
      (m.cancelled = true ∧ m.step = m.fail .cancelled f.function f.pc ∨
        m.cancelled = false ∧ m.budget.consume? = none ∧
          m.step = m.fail .budgetExceeded f.function f.pc ∨
        m.cancelled = false ∧ ∃ budget, m.budget.consume? = some budget ∧
          m.Advanced budget m.step) := by
  obtain ⟨f, callers, r, i, hf, hr, hi, -⟩ := hs.next ho
  have hfetch : m.fetch? f = some i := by simp only [fetch?, hr, Option.bind_some, hi]
  refine ⟨f, callers, hf, ?_⟩
  have hway := step_way ho hf
  generalize hn : m.step = n at hway ⊢
  cases hway with
  | cancelled hc => exact .inl ⟨hc, rfl⟩
  | exhausted hc hb => exact .inr (.inl ⟨hc, hb, rfl⟩)
  | missing _ _ hnone => cases hfetch.symm.trans hnone
  | @executed budget _ _ hc hb | @faulted budget _ _ _ hc hb =>
      exact .inr (.inr ⟨hc, budget, hb, hn ▸ advanced_step ho hf hc hb hfetch⟩)

end Step

/-! ### Runs -/

/-- A budget of `limit` instructions of which some were used. -/
structure Spent (limit : Option Nat) (used : Nat) (b : Budget) : Prop where
  remaining : b.remaining = limit.map (· - used)
  le : ∀ n, limit = some n → used ≤ n

namespace Spent

variable {limit : Option Nat} {used : Nat} {b : Budget}

/-- A budget is used up exactly when the limit is reached. -/
theorem consume?_eq_none (h : Spent limit used b) : b.consume? = none ↔ limit = some used := by
  unfold Budget.consume?
  cases limit with
  | none => simp [h.remaining]
  | some n =>
      have hle := h.le n rfl
      simp only [h.remaining, Option.map_some, Option.some.injEq]
      cases hn : n - used with
      | zero => simpa using Nat.le_antisymm (by omega) hle
      | succ k => simp only [reduceCtorEq, false_iff]; omega

/-- One more unit of the budget is spent, and it is counted. -/
theorem consume (h : Spent limit used b) {b' : Budget} (hb : b.consume? = some b') :
    Spent limit (used + 1) b' := by
  unfold Budget.consume? at hb
  cases limit with
  | none =>
      simp only [h.remaining, Option.map_none, Option.some.injEq] at hb
      exact ⟨by rw [← hb, h.remaining]; rfl, by simp⟩
  | some n =>
      have hle := h.le n rfl
      simp only [h.remaining, Option.map_some] at hb
      cases hn : n - used with
      | zero => simp [hn] at hb
      | succ k =>
          simp only [hn, Option.some.injEq] at hb
          refine ⟨?_, by rintro m ⟨⟩; omega⟩
          rw [← hb, Option.map_some, show n - (used + 1) = k by omega]

end Spent

/-- The invariant of a session: what it has in common with the free run, and how far its budget
is used. -/
structure Follows (m : Machine) (limit : Option Nat) (free : Machine) : Prop where
  released : m.released = free.run m.steps
  spent : Spent limit m.steps m.budget
  /-- An interruption names the instruction that is not executed. -/
  pending : ∀ e, m.outcome = some (.error e) → e.fault.isInterrupt = true →
    ∃ f callers, m.frames = f :: callers ∧ e.function = f.function ∧ e.pc = f.pc
  exceeded : ∀ e, m.outcome = some (.error e) → e.fault = .budgetExceeded → limit = some m.steps
  stopped : ∀ e, m.outcome = some (.error e) → e.fault = .cancelled → m.cancelled = true

section Runs

variable {image : Image} {o : RunOptions} {start m : Machine} {limit : Option Nat} {free : Machine}

/-- A step of a session is a step of the free run, or only ends it. What the session has printed is
then what the free run has printed so far. -/
theorem Follows.step (hs : m.Safe) (h : m.Follows limit free) : m.step.Follows limit free := by
  cases ho : m.outcome with
  | some outcome => rwa [step_of_outcome ho]
  | none =>
      obtain ⟨f, callers, hf, ⟨hc, heq⟩ | ⟨hc, hb, heq⟩ | ⟨hc, budget, hb, hadv⟩⟩ :=
        stopped_or_advanced hs ho
      · rw [heq]
        refine ⟨(released_fail ho rfl).trans h.released, h.spent, ?_, ?_, fun _ _ _ => hc⟩
        · rintro e ⟨⟩ -
          exact ⟨f, callers, hf, rfl, rfl⟩
        · rintro e ⟨⟩ ⟨⟩
      · rw [heq]
        refine ⟨(released_fail ho rfl).trans h.released, h.spent, ?_, ?_, ?_⟩
        · rintro e ⟨⟩ -
          exact ⟨f, callers, hf, rfl, rfl⟩
        · exact fun _ _ _ => h.spent.consume?_eq_none.mp hb
        · rintro e ⟨⟩ ⟨⟩
      · -- What the program ends with by itself is no interruption.
        have hown : ∀ e, m.step.outcome = some (.error e) → e.fault.isInterrupt ≠ true :=
          fun e he => by simp [hadv.own e he]
        refine ⟨?_, ?_, fun e he hi => absurd hi (hown e he), fun e he hi => ?_, fun e he hi => ?_⟩
        · rw [hadv.released, h.released, hadv.steps, run_add]
          rfl
        · rw [hadv.steps, hadv.budget]
          exact h.spent.consume hb
        · exact absurd (by rw [hi]; rfl) (hown e he)
        · exact absurd (by rw [hi]; rfl) (hown e he)

/-- Without a budget, a machine starts released. -/
theorem start_released (hs : Machine.start image o = .ok start) :
    Machine.start image { o with maxSteps := none } = .ok start.released := by
  obtain ⟨hv, entry, frame, he, hf, rfl⟩ := start_eq_ok hs
  simp only [Machine.start, hv, bind, Except.bind, he, Option.getD_some, hf, pure, Except.pure]
  rfl

/-- **Runs.** Every state of a run follows the free run. -/
theorem Reachable.follows (hs : Machine.start image o = .ok start) (h : Reachable start m) :
    m.Follows o.maxSteps start.released := by
  induction h with
  | start =>
      obtain ⟨-, entry, frame, -, -, rfl⟩ := start_eq_ok hs
      refine ⟨rfl, ⟨by simp [initial], fun _ _ => Nat.zero_le _⟩, ?_, ?_, ?_⟩ <;> rintro e ⟨⟩
  | step hreach ih => exact ih.step ((hreach.sound hs).safe (start_eq_ok hs).1)
  | cancel _ ih => exact ⟨ih.released, ih.spent, ih.pending, ih.exceeded, fun _ _ _ => rfl⟩

end Runs

/-! ### Sessions -/

/-- What can be done with a machine. -/
inductive Action where
  | step
  /-- Steps until the run has ended. -/
  | run
  | cancel
  deriving DecidableEq

/-- An action on a machine returns and leaves another machine. -/
inductive Action.Does : Action → Machine → Machine → Prop
  | step {m : Machine} : Does .step m m.step
  | run {m : Machine} {n : Nat} {outcome : Outcome} :
      (m.run n).outcome = some outcome → Does .run m (m.run n)
  | cancel {m : Machine} : Does .cancel m m.cancel

/-- Actions, one after the other, lead from a machine to another. -/
inductive Session : List Action → Machine → Machine → Prop
  | nil {m : Machine} : Session [] m m
  | snoc {actions : List Action} {action : Action} {start m m' : Machine} :
      Session actions start m → action.Does m m' → Session (actions ++ [action]) start m'

section Sessions

variable {image : Image} {o : RunOptions} {actions : List Action} {start m : Machine}

/-- A run leads to states that are reached. -/
theorem Reachable.run (h : Reachable start m) (n : Nat) : Reachable start (m.run n) := by
  induction n generalizing m with
  | zero => exact h
  | succ n ih => exact ih h.step

/-- A session leads to a state that is reached, whatever its actions are. -/
theorem Session.reachable (h : Session actions start m) : Reachable start m := by
  induction h with
  | nil => exact .start
  | snoc _ hdoes ih =>
      cases hdoes with
      | step => exact ih.step
      | run => exact ih.run _
      | cancel => exact ih.cancel

/-- A run is asked to stop by the action for it, and by nothing else. -/
theorem step_cancelled (m : Machine) : m.step.cancelled = m.cancelled := by
  unfold Machine.step
  split
  · rfl
  · rfl
  · next f callers _ _ =>
      split
      · rfl
      · split
        · rfl
        · split
          · rfl
          · next budget _ _ i _ =>
              have h := execute_relimit m callers { f with pc := f.pc + 1 } budget m.cancelled
                (m.steps + 1) i
              have hlimit : { m with budget, steps := m.steps + 1 } =
                  m.relimit budget m.cancelled (m.steps + 1) := rfl
              dsimp only
              rw [hlimit, h]
              cases (m.execute callers { f with pc := f.pc + 1 } i).2 <;> rfl

/-- Running does not ask to stop, and does not take back that it was asked. -/
theorem run_cancelled (n : Nat) (m : Machine) : (m.run n).cancelled = m.cancelled := by
  induction n generalizing m with
  | zero => rfl
  | succ n ih => rw [Machine.run, ih, step_cancelled]

/-- A machine was asked to stop exactly if one of the actions did so. -/
theorem Session.cancelled_iff (hs : start.cancelled = false) (h : Session actions start m) :
    m.cancelled = true ↔ .cancel ∈ actions := by
  induction h with
  | nil => simp [hs]
  | snoc _ hdoes ih =>
      cases hdoes with
      | step => simpa [step_cancelled] using ih hs
      | run => simpa [run_cancelled] using ih hs
      | cancel => simp [cancel]

/-- **Ends are final.** Once a run has ended, no action changes anything but the request to
stop. -/
theorem Session.final {outcome : Outcome} (h : Session actions start m)
    (ho : start.outcome = some outcome) :
    m.outcome = some outcome ∧ m = { start with cancelled := m.cancelled } := by
  induction h with
  | nil => exact ⟨ho, rfl⟩
  | snoc _ hdoes ih =>
      obtain ⟨houtcome, heq⟩ := ih ho
      cases hdoes with
      | step => rw [step_of_outcome houtcome]; exact ⟨houtcome, heq⟩
      | run => rw [run_of_outcome houtcome]; exact ⟨houtcome, heq⟩
      | cancel => exact ⟨houtcome, by rw [heq]; rfl⟩

end Sessions

/-- What a step comes to: one more instruction is executed, unless the run was asked to stop or
has used up its budget. Then nothing happens but the end of the run. -/
def Due (m : Machine) (limit : Option Nat) (actions : List Action) : Prop :=
  ∃ f callers, m.frames = f :: callers ∧
    if .cancel ∈ actions then m.step = m.fail .cancelled f.function f.pc
    else if limit = some m.steps then m.step = m.fail .budgetExceeded f.function f.pc
    else m.step.steps = m.steps + 1 ∧
      ∀ e, m.step.outcome = some (.error e) → e.fault.isInterrupt = false

/-- A machine, compared with the run that has no budget and is never asked to stop. -/
structure CutShort (m : Machine) (limit : Option Nat) (actions : List Action) (free : Machine) :
    Prop where
  /-- The machine is where the free run is after as many instructions. -/
  frames : m.frames = (free.run m.steps).frames
  globals : m.globals = (free.run m.steps).globals
  output : m.output = (free.run m.steps).output
  steps : m.steps = (free.run m.steps).steps
  /-- What the program ends with by itself, it ends with in the free run. -/
  outcome : (∀ e, m.outcome = some (.error e) → e.fault.isInterrupt = false) →
    m.outcome = (free.run m.steps).outcome
  /-- An interruption leaves the free run before its end, and names the instruction that is not
  executed. -/
  interrupted : ∀ e, m.outcome = some (.error e) → e.fault.isInterrupt = true →
    (free.run m.steps).outcome = none ∧
      ∃ f callers, m.frames = f :: callers ∧ e.function = f.function ∧ e.pc = f.pc
  exceeded : ∀ e, m.outcome = some (.error e) → e.fault = .budgetExceeded → limit = some m.steps
  stopped : ∀ e, m.outcome = some (.error e) → e.fault = .cancelled → .cancel ∈ actions
  next : m.outcome = none → m.Due limit actions
  /-- Whatever is done after the end, the outcome stays, and so does all but the request to
  stop. -/
  final : ∀ outcome, m.outcome = some outcome → ∀ later m', Session later m m' →
    m'.outcome = some outcome ∧ m' = { m with cancelled := m'.cancelled }

/-- **Steps.** A step after a session does what is due: it executes one more instruction or ends the
run. -/
theorem Follows.due {m free : Machine} {limit : Option Nat} {actions : List Action}
    (hs : m.Safe) (h : m.Follows limit free) (hc : m.cancelled = true ↔ .cancel ∈ actions)
    (ho : m.outcome = none) : m.Due limit actions := by
  obtain ⟨f, callers, hf, ⟨hstop, heq⟩ | ⟨hgo, hb, heq⟩ | ⟨hgo, budget, hb, hadv⟩⟩ :=
    stopped_or_advanced hs ho
  · exact ⟨f, callers, hf, by rwa [if_pos (hc.mp hstop)]⟩
  · have hn : .cancel ∉ actions := fun h => by simp [hc.mpr h] at hgo
    exact ⟨f, callers, hf, by rwa [if_neg hn, if_pos (h.spent.consume?_eq_none.mp hb)]⟩
  · have hn : .cancel ∉ actions := fun h => by simp [hc.mpr h] at hgo
    have hlimit : limit ≠ some m.steps := fun hl => by
      simp [h.spent.consume?_eq_none.mpr hl] at hb
    exact ⟨f, callers, hf, by rw [if_neg hn, if_neg hlimit]; exact ⟨hadv.steps, hadv.own⟩⟩

/-- **Sessions only cut runs short.** Whatever is done with a machine of a verified image, it is
where the run without budget and without requests to stop is after as many instructions. A
budget ends a run when its instructions are executed and one more is due, unless the run was
asked to stop; then the request ends it. Once a run has ended, it stays as it is. -/
theorem session_cutShort {image : Image} {o : RunOptions} {actions : List Action}
    {start m : Machine} (hs : Machine.start image o = .ok start) (h : Session actions start m) :
    ∃ free, Machine.start image { o with maxSteps := none } = .ok free ∧
      m.CutShort o.maxSteps actions free := by
  have hf := h.reachable.follows hs
  have hstart : start.cancelled = false := by
    obtain ⟨-, entry, frame, -, -, rfl⟩ := start_eq_ok hs
    rfl
  have hc := h.cancelled_iff hstart
  refine ⟨start.released, start_released hs, ?_⟩
  have hrel := hf.released
  exact {
    frames := by rw [← hrel]; rfl
    globals := by rw [← hrel]; rfl
    output := by rw [← hrel]; rfl
    steps := by rw [← hrel]; rfl
    outcome := fun hown => by rw [← hrel]; exact (ownOutcome_eq_self hown).symm
    interrupted := fun e he hi => by
      refine ⟨?_, hf.pending e he hi⟩
      rw [← hrel]
      simp only [released, he, ownOutcome, hi, if_true]
    exceeded := hf.exceeded
    stopped := fun e he hi => hc.mp (hf.stopped e he hi)
    next := hf.due ((h.reachable.sound hs).safe (start_eq_ok hs).1) hc
    final := fun outcome ho later m' hlater => hlater.final ho }

/-- A budget of two instructions ends the run of `callsClosure` inside, and a later request to
stop and another run change nothing. -/
theorem callsClosure_cutShort :
    ∃ start m free, Machine.start callsClosure { maxSteps := some 2 } = .ok start ∧
      Session [.step, .run, .cancel, .run] start m ∧
      m.outcome = some (.error ⟨.budgetExceeded, 0, 2⟩) ∧
      Machine.start callsClosure {} = .ok free ∧
      m.CutShort (some 2) [.step, .run, .cancel, .run] free := by
  have hs : ∃ start, Machine.start callsClosure { maxSteps := some 2 } = .ok start ∧
      (start.step.run 2).outcome = some (.error ⟨.budgetExceeded, 0, 2⟩) := ⟨_, rfl, rfl⟩
  obtain ⟨start, hs, ho⟩ := hs
  have hsession : Session [.step, .run, .cancel, .run] start
      (((start.step.run 2).cancel).run 0) :=
    .snoc (.snoc (.snoc (.snoc .nil .step) (.run ho)) .cancel) (.run (n := 0) ho)
  obtain ⟨free, hfree, hcut⟩ := session_cutShort hs hsession
  exact ⟨start, _, free, hs, hsession, ho, hfree, hcut⟩

/-- **Requests come first.** A run whose budget is used up does not end with that fault when it
was also asked to stop. -/
theorem cancelled_of_usedUp :
    ∃ start, Machine.start callsClosure { maxSteps := some 0 } = .ok start ∧
      start.cancel.steps = 0 ∧ start.cancel.outcome = none ∧
      Session [.cancel, .step] start start.cancel.step ∧
      start.cancel.step.outcome = some (.error ⟨.cancelled, 0, 0⟩) :=
  ⟨_, rfl, rfl, rfl, .snoc (.snoc .nil .cancel) .step, rfl⟩

end Machine

end Parlance
