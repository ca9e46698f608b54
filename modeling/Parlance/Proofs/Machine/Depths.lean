import Parlance.Proofs.Machine.Printing

/-!
# Limits of depth

A limit of depth only cuts a run short. It is looked at in one place, when a function is called,
and only to refuse the call. So the same machine with a larger limit makes the same steps, until
the smaller limit refuses a call.

## Main definitions

* `Machine.withDepth`: the machine with another limit.
* `Machine.Exhausted`: the run has ended because a call was refused.

## Main results

* `Machine.execute_withDepth`: one instruction under two limits.
* `Machine.run_withDepth`: a run under two limits.
* `Machine.depth_cutsShort`: runs of an image under two limits.
-/

namespace Parlance

namespace Machine

/-- The machine with another limit of depth. -/
def withDepth (m : Machine) (d : Nat) : Machine :=
  { m with maxDepth := d }

/-- The run has ended because it was as deep as its limit allows. -/
def Exhausted (m : Machine) : Prop :=
  ∃ e k, m.outcome = some (.error e) ∧ e.fault = .stackExhausted k

/-! ### Instructions -/

section Execute

variable {m : Machine} {callers : List Frame} {f : Frame} {d : Nat}

/-- The limit of depth does not matter to a result. -/
theorem pushResult_withDepth {stack : List Value} {result : Except Fault Value} :
    (m.withDepth d).pushResult callers f stack result =
      ((m.pushResult callers f stack result).1.withDepth d,
        (m.pushResult callers f stack result).2) := by
  cases result <;> rfl

/-- The limit of depth does not matter to a builtin. -/
theorem callBuiltin_withDepth {b : Builtin} {args : List Value} :
    (m.withDepth d).callBuiltin b args =
      ((m.callBuiltin b args).1.withDepth d, (m.callBuiltin b args).2) := by
  unfold callBuiltin
  split <;> rfl

/-- A call that a limit does not refuse goes the same way under a larger limit, and the functions
that it enters are the same. -/
theorem call_withDepth (hd : m.maxDepth ≤ d) {callee : Value} {args : List Value}
    (h : (m.call callers f callee args).2 ≠ some (.stackExhausted m.maxDepth)) :
    (m.withDepth d).call callers f callee args =
      ((m.call callers f callee args).1.withDepth d, (m.call callers f callee args).2) := by
  cases callee with
  | function tag index captures =>
      have hdepth : ¬ m.maxDepth ≤ callers.length + 1 := by
        intro hdepth
        rw [call_of_depth hdepth] at h
        exact h rfl
      have hdepth' : ¬ (m.withDepth d).maxDepth ≤ callers.length + 1 :=
        fun h' => hdepth (Nat.le_trans hd h')
      cases hr : m.image.routines[index]? with
      | none =>
          rw [call_of_missing hdepth hr, call_of_missing hdepth' hr]
          rfl
      | some r =>
          rw [call_of_enter hdepth hr, call_of_enter hdepth' hr]
          cases Frame.enter r index captures args <;> rfl
  | builtin b =>
      simp only [call, callBuiltin_withDepth]
      exact pushResult_withDepth
  | _ => rfl

/-- **One instruction.** Unless the smaller limit refuses a call, an instruction does the same
under a larger one. -/
theorem execute_withDepth (hd : m.maxDepth ≤ d) (i : Instr)
    (h : (m.execute callers f i).2 ≠ some (.stackExhausted m.maxDepth)) :
    (m.withDepth d).execute callers f i =
      ((m.execute callers f i).1.withDepth d, (m.execute callers f i).2) := by
  revert h
  fun_cases execute m callers f i
  case case18 hs | case21 hs | case22 hs | case23 hs =>
    intro _
    simp only [execute, hs]
    exact pushResult_withDepth
  case case36 hs =>
    intro h
    simp only [execute, hs]
    exact call_withDepth hd h
  case case37 hs =>
    intro _
    simp only [execute, hs]
    cases callers <;> rfl
  all_goals
    intro _
    simp only [execute, withDepth, *]
    rfl

/-- A builtin that printed does not fail as a refused call does. -/
theorem output_callBuiltin_of_exhausted {b : Builtin} {args : List Value} {k : Nat}
    (h : (m.callBuiltin b args).2 = .error (.stackExhausted k)) :
    (m.callBuiltin b args).1.output = m.output := by
  revert h
  unfold callBuiltin
  split
  · next v =>
      intro h
      dsimp only at h
      split at h <;> cases h
  all_goals exact fun _ => rfl

/-- A refused call prints nothing. Only a call can be refused, and it is refused before the function
or the builtin is entered. -/
theorem output_of_exhausted {i : Instr} {k : Nat}
    (h : (m.execute callers f i).2 = some (.stackExhausted k)) :
    (m.execute callers f i).1.output = m.output := by
  revert h
  fun_cases execute m callers f i
  case case18 | case21 | case22 | case23 => exact fun _ => output_pushResult _ _
  case case36 args callee stack hs =>
    intro h
    cases callee with
    | function tag index captures =>
        by_cases hdepth : m.maxDepth ≤ callers.length + 1
        · rw [call_of_depth hdepth]
          rfl
        · cases hr : m.image.routines[index]? with
          | none =>
              rw [call_of_missing hdepth hr]
              rfl
          | some r =>
              rw [call_of_enter hdepth hr]
              cases Frame.enter r index captures args <;> rfl
    | builtin b =>
        simp only [call, output_pushResult] at h ⊢
        refine output_callBuiltin_of_exhausted (k := k) ?_
        cases hb : (m.callBuiltin b args).2 with
        | ok v =>
            rw [hb] at h
            cases h
        | error fault =>
            rw [hb] at h
            cases h
            rfl
    | _ => rfl
  case case37 =>
    intro h
    cases callers <;> cases h
  all_goals exact fun _ => rfl

end Execute

/-! ### Steps -/

section Step

variable {m : Machine} {d : Nat}

/-- A machine that goes on was refused no call. -/
theorem not_exhausted_of_outcome (h : m.outcome = none) : ¬ m.Exhausted := by
  rintro ⟨e, k, he, -⟩
  rw [h] at he
  cases he

/-- An executed instruction, with the end of the run if it failed. -/
theorem ended_withDepth {callers : List Frame} {f g : Frame} {i : Instr} (hd : m.maxDepth ≤ d)
    (h : ¬ Exhausted (match m.execute callers g i with
      | (m, none) => m
      | (m, some fault) => m.fail fault f.function f.pc)) :
    (match (m.withDepth d).execute callers g i with
      | (m, none) => m
      | (m, some fault) => m.fail fault f.function f.pc) =
    withDepth (match m.execute callers g i with
      | (m, none) => m
      | (m, some fault) => m.fail fault f.function f.pc) d := by
  have hown : (m.execute callers g i).2 ≠ some (.stackExhausted m.maxDepth) := by
    intro hfault
    generalize m.execute callers g i = x at h hfault
    obtain ⟨n, fault⟩ := x
    cases hfault
    exact h ⟨_, _, rfl, rfl⟩
  rw [execute_withDepth hd i hown]
  generalize m.execute callers g i = x
  obtain ⟨n, _ | fault⟩ := x <;> rfl

/-- **One step.** Unless the smaller limit refuses a call, a step does the same under a larger
one. -/
theorem step_withDepth (hd : m.maxDepth ≤ d) (h : ¬ m.step.Exhausted) :
    (m.withDepth d).step = m.step.withDepth d := by
  cases ho : m.outcome with
  | some o =>
      rw [step_of_outcome ho]
      exact step_of_outcome ho
  | none =>
      cases hf : m.frames with
      | nil =>
          simp only [step, withDepth, ho, hf]
      | cons f callers =>
          have hway := step_way ho hf
          generalize hn : m.step = n at hway h ⊢
          cases hway with
          | cancelled hc => exact step_of_cancelled (m := m.withDepth d) ho hf hc
          | exhausted hc hb => exact step_of_budget (m := m.withDepth d) ho hf hc hb
          | missing hc hb hi => exact step_of_fetch_none (m := m.withDepth d) ho hf hc hb hi
          | @executed budget _ _ hc hb hi | @faulted budget _ _ _ hc hb hi =>
              -- The limit only matters to the instruction, and there only if a call is refused.
              rw [← hn, step_of_fetch ho hf hc hb hi] at h ⊢
              rw [step_of_fetch (m := m.withDepth d) ho hf hc hb hi]
              exact ended_withDepth (m := { m with budget, steps := m.steps + 1 }) hd h

/-- A step that a refused call ends has executed an instruction. -/
theorem fetch_of_exhausted (ho : m.outcome = none) (h : m.step.Exhausted) :
    ∃ f callers budget i, m.frames = f :: callers ∧ m.cancelled = false ∧
      m.budget.consume? = some budget ∧ m.fetch? f = some i := by
  obtain ⟨e, k, he, hfault⟩ := h
  cases hf : m.frames with
  | nil =>
      simp only [step, ho, hf, Option.some.injEq, reduceCtorEq] at he
  | cons f callers =>
      have hway := step_way ho hf
      generalize m.step = n at hway he
      cases hway with
      | cancelled | exhausted | missing =>
          cases he
          cases hfault
      | executed hc hb hi | faulted hc hb hi => exact ⟨f, callers, _, _, rfl, hc, hb, hi⟩

/-- The step that a refused call ends prints nothing. -/
theorem output_step_of_exhausted (ho : m.outcome = none) (h : m.step.Exhausted) :
    m.step.output = m.output := by
  obtain ⟨f, callers, budget, i, hf, hc, hb, hi⟩ := fetch_of_exhausted ho h
  rw [step_of_fetch ho hf hc hb hi] at h ⊢
  have hown := execute_ownEnd (m := { m with budget, steps := m.steps + 1 }) ho callers
    { f with pc := f.pc + 1 } i
  have hout (k : Nat) : (execute { m with budget, steps := m.steps + 1 } callers
      { f with pc := f.pc + 1 } i).2 = some (.stackExhausted k) → _ := output_of_exhausted
  generalize execute _ callers _ i = x at h hown hout ⊢
  obtain ⟨e, k, he, hfault⟩ := h
  obtain ⟨n, _ | fault⟩ := x
  · exact absurd he (hown.unfailed e)
  · cases he
    exact hout k (congrArg some hfault)

/-- A step keeps the limit. -/
theorem step_maxDepth (h : ¬ m.step.Exhausted) : m.step.maxDepth = m.maxDepth := by
  have hstep : m.step = m.step.withDepth m.maxDepth := step_withDepth (Nat.le_refl _) h
  rw [hstep]
  rfl

end Step

/-! ### Runs -/

section Run

variable {m : Machine} {d : Nat}

/-- A run that a refused call has not ended was not ended by one before. -/
theorem not_exhausted_step {n : Nat} (h : ¬ (m.run (n + 1)).Exhausted) : ¬ m.step.Exhausted := by
  rintro ⟨e, k, he, hk⟩
  rw [run, run_of_outcome he] at h
  exact h ⟨e, k, he, hk⟩

/-- **Runs.** Unless the smaller limit refuses a call, a run goes the same way under a larger
one. -/
theorem run_withDepth (hd : m.maxDepth ≤ d) {n : Nat} (h : ¬ (m.run n).Exhausted) :
    (m.withDepth d).run n = (m.run n).withDepth d := by
  induction n generalizing m with
  | zero => rfl
  | succ n ih =>
      have hstep := not_exhausted_step h
      rw [run, run, step_withDepth hd hstep]
      exact ih (step_maxDepth hstep ▸ hd) h

/-- The step that ended a run. -/
theorem exists_last_step (ho : m.outcome = none) {n : Nat} {o : Outcome}
    (h : (m.run n).outcome = some o) :
    ∃ k < n, (m.run k).outcome = none ∧ m.run n = (m.run k).step := by
  induction n with
  | zero =>
      rw [run, ho] at h
      cases h
  | succ n ih =>
      rw [run_add] at h ⊢
      cases hn : (m.run n).outcome with
      | none => exact ⟨n, Nat.lt_succ_self n, hn, rfl⟩
      | some o' =>
          rw [run_of_outcome hn] at h ⊢
          obtain ⟨k, hk, hnone, heq⟩ := ih h
          exact ⟨k, Nat.lt_succ_of_lt hk, hnone, heq⟩

end Run

section Start

variable {image : Image} {o : RunOptions} {m : Machine}

/-- Up to the end of a run, a machine counts all steps. -/
theorem steps_run (hm : Machine.start image o = .ok m) {n : Nat} (h : (m.run n).outcome = none) :
    (m.run n).steps = n := by
  induction n with
  | zero =>
      obtain ⟨-, entry, frame, -, -, rfl⟩ := start_eq_ok hm
      rfl
  | succ n ih =>
      have hn := outcome_of_le (Nat.le_succ n) h
      obtain ⟨f, callers, hf, ⟨-, heq⟩ | ⟨-, -, heq⟩ | ⟨-, budget, -, hadv⟩⟩ :=
        stopped_or_advanced ((Reachable.start.run n).sound hm |>.safe (start_eq_ok hm).1) hn
      · rw [run_add, run, run, heq] at h
        cases h
      · rw [run_add, run, run, heq] at h
        cases h
      · rw [run_add, run, run, hadv.steps, ih hn]

/-- A refused call is counted as an executed instruction. -/
theorem steps_of_exhausted (hm : Machine.start image o = .ok m) {k : Nat}
    (hk : (m.run k).outcome = none) (h : (m.run k).step.Exhausted) :
    (m.run k).step.steps = k + 1 := by
  obtain ⟨e, depth, he, hfault⟩ := h
  obtain ⟨f, callers, hf, ⟨-, heq⟩ | ⟨-, -, heq⟩ | ⟨-, budget, -, hadv⟩⟩ :=
    stopped_or_advanced ((Reachable.start.run k).sound hm |>.safe (start_eq_ok hm).1) hk
  · rw [heq] at he
    cases he
    cases hfault
  · rw [heq] at he
    cases he
    cases hfault
  · rw [hadv.steps, steps_run hm hk]

/-- Another limit of depth leads to the same start with this limit. -/
theorem start_withDepth (hm : Machine.start image o = .ok m) (d : Nat) :
    Machine.start image { o with maxDepth := d } = .ok (m.withDepth d) := by
  obtain ⟨hv, entry, frame, he, hf, rfl⟩ := start_eq_ok hm
  simp only [Machine.start, hv, bind, Except.bind, he, Option.getD_some, hf, pure, Except.pure]
  rfl

/-- **A limit of depth only cuts runs short.** Under a larger limit, the run of an image is in
the same state after every number of steps, as long as the smaller limit refuses no call. If it
refuses one, with the last of `k + 1` instructions, then both runs are in the same states before
that instruction, and the run under the larger limit prints all that the other one does. -/
theorem depth_cutsShort {d : Nat} (hd : o.maxDepth ≤ d) (hm : Machine.start image o = .ok m) :
    ∃ m', Machine.start image { o with maxDepth := d } = .ok m' ∧
      (∀ n, ¬ (m.run n).Exhausted → m'.run n = { m.run n with maxDepth := d }) ∧
      ∀ n, (m.run n).Exhausted → ∃ k < n, (m.run n).steps = k + 1 ∧
        (∀ j ≤ k, (m.run j).outcome = none ∧ m'.run j = { m.run j with maxDepth := d }) ∧
        ∀ j, k ≤ j → (m'.run j).output.Continues (m.run n).output := by
  have hdm : m.maxDepth ≤ d := by
    obtain ⟨-, entry, frame, -, -, rfl⟩ := start_eq_ok hm
    exact hd
  have hnone : m.outcome = none := by
    obtain ⟨-, entry, frame, -, -, rfl⟩ := start_eq_ok hm
    rfl
  refine ⟨m.withDepth d, start_withDepth hm d, fun n => run_withDepth hdm, fun n hn => ?_⟩
  obtain ⟨e, depth, he, hfault⟩ := hn
  obtain ⟨k, hkn, hk, hlast⟩ := exists_last_step hnone he
  have hstep : (m.run k).step.Exhausted := ⟨e, depth, hlast ▸ he, hfault⟩
  have hsame : ∀ j ≤ k, (m.run j).outcome = none ∧
      (m.withDepth d).run j = (m.run j).withDepth d := fun j hj =>
    have hj := outcome_of_le hj hk
    ⟨hj, run_withDepth hdm (not_exhausted_of_outcome hj)⟩
  refine ⟨k, hkn, hlast ▸ steps_of_exhausted hm hk hstep, hsame, fun j hj => ?_⟩
  have hprinted := output_run (m.withDepth d) hj
  rw [(hsame k (Nat.le_refl k)).2] at hprinted
  rw [hlast, output_step_of_exhausted hk hstep]
  exact hprinted

/-- An image whose program prints and then calls itself. -/
def callsItself : Image :=
  { consts := #[.function 0, .builtin .print, .int 7], globals := 0
    routines := #[
      { name := "main", params := 0, slots := 0, captures := 0,
        code := #[.loadConst 1, .loadConst 2, .call 1, .pop, .loadConst 0, .call 0, .ret] }] }

/-- A limit of two frames refuses the second call of `callsItself`, and a limit of three frames
does not. -/
theorem callsItself_cutsShort :
    ∃ m m', Machine.start callsItself { maxDepth := 2 } = .ok m ∧
      Machine.start callsItself { maxDepth := 3 } = .ok m' ∧ (m.run 12).Exhausted ∧
      ¬ (m'.run 12).Exhausted ∧ m'.run 11 = { m.run 11 with maxDepth := 3 } ∧
      ∀ j, 11 ≤ j → (m'.run j).output.Continues (m.run 12).output := by
  obtain ⟨m, hm, hrun⟩ : ∃ m, Machine.start callsItself { maxDepth := 2 } = .ok m ∧
      (m.run 12).Exhausted ∧ (m.run 12).steps = 12 := ⟨_, rfl, ⟨_, 2, rfl, rfl⟩, rfl⟩
  obtain ⟨m', hm', -, hcut⟩ := depth_cutsShort (d := 3) (by decide) hm
  obtain ⟨k, -, hk, hbefore, hprinted⟩ := hcut 12 hrun.1
  obtain rfl : k = 11 := by
    rw [hrun.2] at hk
    exact (Nat.succ.inj hk).symm
  refine ⟨m, m', hm, hm', hrun.1, ?_, (hbefore 11 (Nat.le_refl _)).2, hprinted⟩
  cases hm'
  rintro ⟨e, k, ⟨⟩, -⟩

end Start

end Machine

end Parlance
