import Mathlib
import Parlance.Evaluation
import Parlance.Proofs.Code.Refinement

/-!
# Code generation is correct

The run of a generated image and the big-step evaluation of the tree it was made from have the
same results: the same value, up to the identities of functions, or the same fault, after the
same output.

Only one direction is a simulation. The other one follows, since evaluation is total and the
machine deterministic: a run that ends needs a number of steps, and an evaluation with more
fuel than that cannot run out of it.

## Main results

* `Simulation.invoke_handles`: calls, by induction on the fuel.
* `CompileOptions.run_iff_evaluates`: the theorem about texts that are compiled as they are.
-/

namespace Parlance

namespace Simulation

open BigStep Generate

/-! ### Functions -/

/-- The machine is at a `return`, with a value that matches on top. -/
def Finished (c : Site) (v : Value) (s : Store) (φ : Identities) (m : Machine) : Prop :=
  ∃ offset stack, c.routine.code[offset]? = some .ret ∧ Pushed c offset stack v s φ m

variable {c : Site} {g : GenerateContext} {φ : Identities} {s : Store} {m : Machine}

/-- **Bodies.** The code of a function body comes to a `return` with its result. If the statements
end with a return of their own, there is no code behind them and they do not come to their end. -/
theorem body_sim (hc : Scene c g) (b : Block) :
    Implements c (Generate.body g b) (BigStep.body c.active b) fun _ _ _ => Finished c := by
  intro a loop φ s m pc stack hy hp h
  cases b with
  | mk _ ss tail =>
      cases tail with
      | some e =>
          rw [Generate.body] at hy
          rw [BigStep.body]
          obtain ⟨a₁, hs₁, hy₁, hy⟩ := hy.bind (produces_stmts false ss) (by simp)
          obtain ⟨a₂, hs₂, hy₂, hy⟩ := hy.bind (produces_expr e) (by simp)
          cases hy.pure_eq
          rw [(hs₁.append hs₂).placed_append, hs₁.placed_append, Fragment.placed_one] at hp
          refine (stmts_sim hc false ss _ _ _ _ _ _ _ hy₁ hp.1.1 h).bind ?_
          intro signal s' φ' m' _ hQ
          cases signal with
          | returned v => exact Sim.pure hQ
          | broke => cases hQ.1
          | continued => cases hQ.1
          | normal =>
              refine (expr_sim hc e _ _ _ _ _ _ _ hy₂ hp.1.2 hQ).mono ?_
              intro v s₂ φ₂ m₂ _ hpush
              rw [Fragment.size_append, ← Nat.add_assoc] at hp
              exact ⟨_, _, hp.2, hpush⟩
      | none =>
          rw [Generate.body] at hy
          rw [BigStep.body]
          obtain ⟨a₁, hs₁, hy₁, hy⟩ := hy.bind (produces_stmts false ss) (by
            intro a
            split
            · exact grows_pure
            · exact grows_bind (produces_loadConst (c := .unit) trivial).grows fun _ => grows_pure)
          by_cases hret : a₁.returns = true
          · rw [if_pos hret] at hy
            cases hy.pure_eq
            refine ((stmts_sim hc false ss _ _ _ _ _ _ _ hy₁ hp h).and_eval).bind ?_
            rintro signal s' φ' m' - ⟨heval, hQ⟩
            cases signal with
            | returned v => exact Sim.pure hQ
            | broke => cases hQ.1
            | continued => cases hQ.1
            | normal => exact absurd heval (stmts_not_normal false ss _ hy₁ hret s s')
          · rw [if_neg hret] at hy
            obtain ⟨a₂, hs₂, hy₂, hy⟩ := hy.bind (produces_loadConst (c := .unit) trivial)
              fun _ => grows_pure
            cases hy.pure_eq
            obtain ⟨i, rfl, hi⟩ := yields_loadConst (c := .unit) trivial hy₂
            rw [(hs₁.append hs₂).placed_append, hs₁.placed_append, Fragment.placed_one,
              Fragment.placed_one] at hp
            refine (stmts_sim hc false ss _ _ _ _ _ _ _ hy₁ hp.1.1 h).bind ?_
            intro signal s' φ' m' _ hQ
            cases signal with
            | returned v => exact Sim.pure hQ
            | broke => cases hQ.1
            | continued => cases hQ.1
            | normal =>
                rw [Fragment.size_append, ← Nat.add_assoc] at hp
                exact Sim.of_step (Sim.pure ⟨_, _, hp.2, .unit, by simp, hQ.loadConst hp.1.2 hi⟩)

/-- The slots of a call match the slots of its frame. -/
theorem slots_match {args args' : List Value} (h : List.Forall₂ (Value.Matches φ) args args')
    (n i : Nat) (w : Value)
    (hw : (args' ++ List.replicate n Value.unit).toArray[i]? = some w) :
    (args.getD i .unit).Matches φ w := by
  rw [List.getElem?_toArray] at hw
  have hd := Value.forall₂_getD h i
  rw [List.getD_eq_getElem?_getD (l := args')] at hd
  by_cases hi : i < args'.length
  · rw [List.getElem?_append_left hi] at hw
    rw [hw] at hd
    exact hd
  · rw [List.getElem?_append_right (by omega), List.getElem?_replicate] at hw
    split at hw
    · cases hw
      rw [List.getElem?_eq_none (by omega)] at hd
      exact hd
    · cases hw

variable {image : Image} {p : Environment}

/-- A routine is entered with as many arguments as it takes, and they are stored in its first slots.
-/
theorem enter_eq_ok {r : Routine} {f : Nat} {captures args : List Value} {frame : Frame}
    (h : Frame.enter r f captures args = .ok frame) :
    args.length = r.params ∧
      frame = { function := f, captures, pc := 0, stack := [],
                slots := (args ++ List.replicate (r.slots - args.length) Value.unit).toArray } := by
  unfold Frame.enter at h
  split at h
  · next hl =>
      cases h
      exact ⟨hl, rfl⟩
  · cases h

/-- The body of a function runs in a frame of its own, with the arguments in its first slots. What
it leaves of its store but the slots is what the caller goes on with. -/
theorem call_sim (hg : image.Generated p.program) {fuel depth f : Nat}
    (hh : ∀ depth, Handles image p.inputs p.maxDepth fuel depth (invoke p fuel depth))
    {callers : List Frame} {captures captures' args args' : List Value} {info : FunctionInfo}
    {b : Block} {a : Fragment} (hrun : Running image p.inputs p.maxDepth m)
    (hlink : Linked image φ s m) (hr : image.routines[f]? = some (routineOf info a))
    (hd : callers.length + 1 = depth)
    (hf : m.frames =
      { function := f, captures := captures', pc := 0, stack := [],
        slots := (args' ++ List.replicate (info.slots - args'.length) Value.unit).toArray } ::
        callers)
    (hcap : List.Forall₂ (Value.Matches φ) captures captures')
    (hargs : List.Forall₂ (Value.Matches φ) args args')
    (hy : Yields image.consts
      (Generate.body { facts := p.program.facts, function := f, tidy := true } b) a) :
    Sim fuel φ m
      (Eval.within (fun i => args.getD i .unit)
        (BigStep.body
          { facts := p.program.facts, inputs := p.inputs, maxDepth := p.maxDepth, function := f,
            captures, depth, fuel, call := invoke p fuel (depth + 1) } b)) s
      fun v s' φ' m' => s'.slots = s.slots ∧
        Returns image p.inputs p.maxDepth (routineOf info a) callers φ' v s' m' := by
  let c : Site :=
    { image, routine := routineOf info a, callers
      active :=
        { facts := p.program.facts, inputs := p.inputs, maxDepth := p.maxDepth, function := f,
          captures, depth, fuel, call := invoke p fuel (depth + 1) } }
  have hscene : Scene c { facts := p.program.facts, function := f, tidy := true } := by
    refine ⟨rfl, rfl, rfl, hd, hh (depth + 1), fun f' r hr' => ?_⟩
    obtain ⟨info', hinfo'⟩ := hg.info_of_routine hr'
    obtain ⟨b', a', -, -, -, hr''⟩ := hg.routine f' info' hinfo'
    obtain rfl := Option.some.inj (hr'.symm.trans hr'')
    simp only [Facts.captures, Facts.info, hinfo', Option.getD_some]
    rfl
  have hat : At c φ { s with slots := fun i => args.getD i .unit } m 0 [] := by
    refine ⟨hrun, ⟨hlink.oneToOne, hlink.below, hlink.constants, hlink.globals_size,
      hlink.globals, hlink.output⟩, hr, captures', _, hf, hcap, ?_, slots_match hargs _⟩
    obtain ⟨r, hs⟩ := hrun.frame_sound hf
    obtain rfl := Option.some.inj (hr.symm.trans hs.routine)
    exact hs.slots_size
  have hp : a.Placed c.routine.code 0 { start := 0, exit := 0 } := a.placed_code
  refine Sim.bind_store (Sim.bind_update ((body_sim hscene b _ _ _ _ _ _ _ hy hp hat).bind ?_))
  rintro v s' φ' m' - ⟨offset, stack, hret, w, hv, hat'⟩
  refine Sim.bind_update (Sim.pure ⟨rfl, hat'.running, ?_, ?_⟩)
  · exact ⟨hat'.linked.oneToOne, hat'.linked.below, hat'.linked.constants,
      hat'.linked.globals_size, hat'.linked.globals, hat'.linked.output⟩
  · obtain ⟨captures'', slots'', hf', -⟩ := hat'.frame
    exact ⟨w, _, stack, hv, hf', hr, hret, rfl⟩

/-- **Calls.** The machine does what calls of functions of the program do. The induction is on the
fuel: a body with less of it makes calls that are handled. -/
theorem invoke_handles (hg : image.Generated p.program) (fuel : Nat) :
    ∀ depth, Handles image p.inputs p.maxDepth fuel depth (invoke p fuel depth) := by
  induction fuel with
  | zero =>
      intro depth
      refine ⟨?_, ?_, ?_⟩
      · intro φ s m callers frame f r captures captures' args args' hrun hlink _ _ _ _ _ _
        exact Sim.timeout ⟨0, Nat.le_refl 0, hrun.outcome_eq, hlink.output⟩
      · intro f r captures args s q _ _ hq
        exact .inr ⟨rfl, hq⟩
      · intro f captures args s q _ hq
        exact .inr ⟨rfl, hq⟩
  | succ fuel ih =>
      intro depth
      refine ⟨?_, ?_, ?_⟩
      · intro φ s m callers frame f r captures captures' args args' hrun hlink hr hd hf henter
          hcap hargs
        obtain ⟨info, hinfo⟩ := hg.info_of_routine hr
        obtain ⟨b, a, hb, -, hy, hr'⟩ := hg.routine f info hinfo
        obtain rfl := Option.some.inj (hr.symm.trans hr')
        obtain ⟨hlen, rfl⟩ := enter_eq_ok henter
        have hlen' : args.length = info.params.length := hargs.length_eq.trans hlen
        simp only [invoke, hinfo, hb, if_pos hlen']
        exact call_sim hg ih hrun hlink hr hd hf hcap hargs hy
      · intro f r captures args s q hr hne hq
        obtain ⟨info, hinfo⟩ := hg.info_of_routine hr
        obtain ⟨b, a, hb, -, -, hr'⟩ := hg.routine f info hinfo
        obtain rfl := Option.some.inj (hr.symm.trans hr')
        have hne' : ¬ args.length = info.params.length := hne
        simp only [invoke, hinfo, hb, if_neg hne'] at hq
        exact .inl hq
      · intro f captures args s q hr hq
        have hinfo : p.program.facts.functions[f]? = none := by
          rw [Array.getElem?_eq_none_iff] at hr ⊢
          rw [← hg.size_eq]
          exact hr
        simp only [invoke, hinfo] at hq
        exact .inl hq

/-! ### Programs -/

/-- The identities of function constants. -/
def constantIdentities (image : Image) : Identities :=
  fun f i => image.consts[i]? = some (.function f)

variable {a : Analyzed} {o : RunOptions}

/-- At the start the machine is linked to the store of the evaluation. Globals are unit on both
sides, and function values of the pool have the identities of their constants. -/
theorem linked_start (hg : image.Generated a) (hm : Machine.start image o = .ok m) :
    Linked image (constantIdentities image) (BigStep.start a o.outputLimit) m := by
  obtain ⟨-, entry, frame, -, -, rfl⟩ := Machine.start_eq_ok hm
  refine ⟨?_, ?_, fun f i h => h, by simp [Machine.initial], ?_, rfl⟩
  · intro t u t' u' h h'
    constructor
    · rintro rfl
      exact hg.distinct.unique u u' _ h h'
    · rintro rfl
      have := h.symm.trans h'
      simpa using this
  · intro f i h
    have hi := (Array.getElem?_eq_some_iff.mp h).1
    obtain ⟨r, hr, -⟩ := (Image.verify_eq_ok_iff.mp hg.verified).2.1 i _ h
    have hf := (Array.getElem?_eq_some_iff.mp hr).1
    rw [hg.size_eq] at hf
    exact ⟨hf, hi⟩
  · intro i w hw
    simp only [Machine.initial, Array.getElem?_replicate] at hw
    split at hw
    · cases hw
      simp [BigStep.start]
    · cases hw

/-- **Programs.** The machine of a generated image does what the program does. The program is called
like a function, and its `return` ends the run. -/
theorem program_sim (hg : image.Generated a) (hm : Machine.start image o = .ok m)
    (hsteps : o.maxSteps = none) (fuel : Nat) :
    Sim (fuel - 1) (constantIdentities image) m
      (invoke { program := a, inputs := o.inputs, maxDepth := o.maxDepth } fuel 1 0 [] [])
      (BigStep.start a o.outputLimit)
      fun v s' φ' m' => m'.output = s'.output ∧ ∃ w, v.Matches φ' w ∧ m'.outcome = some (.ok w) := by
  have hlink := linked_start hg hm
  have hsound := Machine.sound_start hm
  obtain ⟨hv, entry, frame, he, hf, rfl⟩ := Machine.start_eq_ok hm
  have hrun : Running image o.inputs o.maxDepth (Machine.initial image o frame) :=
    ⟨rfl, rfl, rfl, rfl, congrArg Budget.mk hsteps, rfl, rfl, hv, hsound⟩
  have hh := invoke_handles (p := { program := a, inputs := o.inputs, maxDepth := o.maxDepth })
    hg fuel 1
  refine (hh.enters _ _ _ [] frame 0 entry [] [] [] [] hrun hlink he rfl rfl hf .nil .nil).then_run ?_
  rintro v s' φ' m' - ⟨-, hrun', hlink', w, f, stack, hvw, hf', hr', hret, hstack⟩
  refine ⟨1, ?_⟩
  have hb : m'.budget.consume? = some m'.budget := by
    rw [hrun'.budget_eq]
    rfl
  have hfetch : m'.fetch? f = some .ret := by
    simp only [Machine.fetch?, hrun'.image_eq, hr', Option.bind_some]
    exact hret
  have hstep := Machine.step_of_fetch hrun'.outcome_eq hf' hrun'.cancelled_eq hb hfetch
  simp only [Machine.execute, hstack] at hstep
  rw [Machine.run, Machine.run, hstep]
  exact ⟨hlink'.output, w, hvw, rfl⟩

end Simulation

namespace Analyzed

variable {a : Analyzed} {image : Image} {o : RunOptions} {m : Machine}

/-- **Soundness of evaluation.** A run ends with the value that a program evaluates to. -/
theorem run_of_evaluates_ok (hg : generate a = .ok image) (hm : Machine.start image o = .ok m)
    (hsteps : o.maxSteps = none) {v : Value} {s : BigStep.Store}
    (h : a.Evaluates o (.ok v s)) :
    ∃ n w, (m.run n).outcome = some (.ok w) ∧ v.Alike w ∧ (m.run n).output = s.output := by
  obtain ⟨fuel, h⟩ := h
  obtain ⟨n, φ, -, ho, w, hvw, hw⟩ :=
    Simulation.program_sim (Image.generated_of_generate hg) hm hsteps fuel _ h
  exact ⟨n, w, hw, hvw.alike, ho⟩

/-- A run ends with the fault that a program evaluates to. -/
theorem run_of_evaluates_fault (hg : generate a = .ok image)
    (hm : Machine.start image o = .ok m) (hsteps : o.maxSteps = none) {k : Fault} {out : Output}
    (h : a.Evaluates o (.fault k out)) :
    ∃ n e, (m.run n).outcome = some (.error e) ∧ e.fault = k ∧ (m.run n).output = out := by
  obtain ⟨fuel, h⟩ := h
  exact Simulation.program_sim (Image.generated_of_generate hg) hm hsteps fuel _ h

/-- **Completeness of evaluation.** A program whose run ends evaluates to a value or a fault. -/
theorem evaluates_of_run (hg : generate a = .ok image) (hm : Machine.start image o = .ok m)
    (hsteps : o.maxSteps = none) {n : Nat} {outcome : Outcome}
    (h : (m.run n).outcome = some outcome) :
    (∃ v s, a.Evaluates o (.ok v s)) ∨ ∃ k out, a.Evaluates o (.fault k out) := by
  obtain ⟨r, hr⟩ := BigStep.invoke_total
    { program := a, inputs := o.inputs, maxDepth := o.maxDepth } (n + 1) 1 0 [] []
    (BigStep.start a o.outputLimit)
  cases r with
  | ok v s => exact .inl ⟨v, s, _, hr⟩
  | fault k out => exact .inr ⟨k, out, _, hr⟩
  | timeout out =>
      obtain ⟨k, hk, hrun, -⟩ :=
        Simulation.program_sim (Image.generated_of_generate hg) hm hsteps (n + 1) _ hr
      rw [Nat.add_sub_cancel] at hk
      rw [Machine.outcome_of_le hk hrun] at h
      cases h

end Analyzed

namespace CompileOptions

variable {o : CompileOptions} {text : List Char} {r : RunOptions} {m : Machine}

/-- A prepared run is that of the code of an optimized program. -/
theorem prepare_eq_ok (h : o.prepare r text = .ok m) :
    ∃ a image, o.optimized text = .ok a ∧ generate a = .ok image ∧
      Machine.start image r = .ok m := by
  unfold prepare compile at h
  cases ha : o.optimized text with
  | error e => simp [ha, bind, Except.bind, Except.mapError] at h
  | ok a =>
      cases hg : generate a with
      | error e =>
          simp [ha, hg, bind, Except.bind, Except.mapError, throw, throwThe,
            MonadExceptOf.throw] at h
      | ok image =>
          simp only [ha, hg, bind, Except.bind, Except.mapError, pure, Except.pure] at h
          cases hs : Machine.start image r with
          | error e => simp [hs] at h
          | ok m' =>
              simp only [hs, Except.ok.injEq] at h
              exact ⟨a, image, rfl, hg, h ▸ hs⟩

/-- **Code generation is correct.** Take a text that analysis accepts and that is compiled
without optimizing, and a run of it without a step budget. The run finishes with a value and an
output exactly if the tree evaluates to this value and output, and it ends with a fault after
some output exactly if evaluation does. Values are compared up to the identities of
functions. -/
theorem run_iff_evaluates (ho : o.optimize = false) (hr : r.maxSteps = none) {a : Analyzed}
    (ha : o.analyze text = .ok a) (hm : o.prepare r text = .ok m) :
    (∀ v out, (∃ n w, (m.run n).outcome = some (.ok w) ∧ w.Alike v ∧ (m.run n).output.text = out) ↔
      ∃ w s, a.Evaluates r (.ok w s) ∧ w.Alike v ∧ s.output.text = out) ∧
    ∀ k out, (∃ n e, (m.run n).outcome = some (.error e) ∧ e.fault = k ∧
        (m.run n).output.text = out) ↔
      ∃ o, a.Evaluates r (.fault k o) ∧ o.text = out := by
  obtain ⟨a', image, ha', hg, hs⟩ := prepare_eq_ok hm
  obtain rfl : a' = a := by
    simp only [optimized, ha, ho, bind, Except.bind, pure, Except.pure] at ha'
    simpa using ha'.symm
  refine ⟨fun v out => ⟨?_, ?_⟩, fun k out => ⟨?_, ?_⟩⟩
  · rintro ⟨n, w, hw, hv, hout⟩
    rcases Analyzed.evaluates_of_run hg hs hr hw with ⟨u, s, hu⟩ | ⟨k, o, hk⟩
    · obtain ⟨n', w', hw', huw, ho'⟩ := Analyzed.run_of_evaluates_ok hg hs hr hu
      have heq := Machine.run_eq_run hw hw'
      rw [heq] at hw hout
      obtain rfl : w' = w := by simpa using hw'.symm.trans hw
      exact ⟨u, s, hu, huw.trans hv, by rw [← ho', hout]⟩
    · obtain ⟨n', e, he, -⟩ := Analyzed.run_of_evaluates_fault hg hs hr hk
      rw [Machine.run_eq_run hw he, he] at hw
      cases hw
  · rintro ⟨w, s, hw, hv, hout⟩
    obtain ⟨n, w', hw', hww, ho'⟩ := Analyzed.run_of_evaluates_ok hg hs hr hw
    exact ⟨n, w', hw', hww.symm.trans hv, by rw [ho', hout]⟩
  · rintro ⟨n, e, he, hk, hout⟩
    rcases Analyzed.evaluates_of_run hg hs hr he with ⟨u, s, hu⟩ | ⟨k', o, hk'⟩
    · obtain ⟨n', w, hw, -⟩ := Analyzed.run_of_evaluates_ok hg hs hr hu
      rw [Machine.run_eq_run he hw, hw] at he
      cases he
    · obtain ⟨n', e', he', hke, ho'⟩ := Analyzed.run_of_evaluates_fault hg hs hr hk'
      have heq := Machine.run_eq_run he he'
      rw [heq] at he hout
      obtain rfl : e' = e := by simpa using he'.symm.trans he
      obtain rfl : k' = k := hke.symm.trans hk
      exact ⟨o, hk', by rw [← ho', hout]⟩
  · rintro ⟨o', ho', hout⟩
    obtain ⟨n, e, he, hk, h⟩ := Analyzed.run_of_evaluates_fault hg hs hr ho'
    exact ⟨n, e, he, hk, by rw [h, hout]⟩

/-- A program that prints the item of a list. -/
def printItem : List Char :=
  "print([1][0])".toList

/-- The analysis accepts `printItem`. -/
theorem analyze_printItem : (analyze { optimize := false } printItem).toOption.isSome = true := by
  rw [Grammar.standard_eq]
  decide +kernel

/-- What the run of `printItem` comes to. -/
theorem prepare_printItem :
    (prepare { optimize := false } {} printItem).toOption.map (fun m =>
      ((m.run 7).outcome.map (·.toOption.map Value.display), (m.run 7).output.text)) =
      some (some (some "()"), "1\n") := by
  rw [Grammar.standard_eq]
  decide +kernel

/-- The run of `printItem` is one that `run_iff_evaluates` speaks of: it finishes after printing
a line, and so does the evaluation of its tree. -/
theorem printItem_evaluates :
    ∃ a, analyze { optimize := false } printItem = .ok a ∧
      ∃ w s, a.Evaluates {} (.ok w s) ∧ s.output.text = "1\n" := by
  obtain ⟨a, ha⟩ : ∃ a, analyze { optimize := false } printItem = .ok a := by
    have h := analyze_printItem
    cases hx : analyze { optimize := false } printItem with
    | error e => simp [hx, Except.toOption] at h
    | ok a => exact ⟨a, rfl⟩
  have h := prepare_printItem
  cases hm : prepare { optimize := false } {} printItem with
  | error e => simp [hm, Except.toOption] at h
  | ok m =>
      simp only [hm, Except.toOption, Option.map_some, Option.some.injEq, Prod.mk.injEq] at h
      obtain ⟨hv, hout⟩ := h
      cases hr : (m.run 7).outcome with
      | none => simp [hr] at hv
      | some r =>
          cases r with
          | error e => simp [hr] at hv
          | ok v =>
              obtain ⟨w, s, hw, -, hs⟩ :=
                ((run_iff_evaluates rfl rfl ha hm).1 v "1\n").1 ⟨7, v, hr, rfl, hout⟩
              exact ⟨a, ha, w, s, hw, hs⟩

end CompileOptions

end Parlance
