import Parlance.Proofs.Code.Correctness
import Parlance.Proofs.Code.Total
import Parlance.Proofs.Machine.Heights
import Parlance.Proofs.Machine.Printing
import Parlance.Proofs.Optimizer.Sweeping

/-!
# Constant folding is exact

A folded program runs like the program it was made from: it finishes with the same value, or it
ends with the same fault, or neither of them ends, and in all cases it prints the same.

Only one direction is shown about trees: each result of a tree, also running out of fuel, is a
result of the folded tree. The other direction follows as in the correctness of code generation,
since evaluation is total and the machine deterministic.

## Main definitions

* `Analyzed.CarriedBy`: the results of a program carry over to another one.

## Main results

* `Analyzed.CarriedBy.runsLike`: if results carry over, the machines run alike.
* `CompileOptions.folded_runsLike`: constant folding.
-/

namespace Parlance

open BigStep

namespace Analyzed

/-! ### Programs whose results carry over -/

/-- The results of a program carry over to another one, except for dangling references. -/
def CarriedBy (a a' : Analyzed) : Prop :=
  ∀ inputs maxDepth limit fuel r,
    invoke { program := a, inputs, maxDepth } fuel 1 0 [] [] (start a limit) r →
      invoke { program := a', inputs, maxDepth } fuel 1 0 [] [] (start a' limit) r ∨
        ∃ o, r = .fault .danglingReference o

/-- A program is carried by itself. -/
theorem CarriedBy.refl (a : Analyzed) : a.CarriedBy a :=
  fun _ _ _ _ _ => .inl

/-- Carriers may follow one another. -/
theorem CarriedBy.trans {a b c : Analyzed} (h : a.CarriedBy b) (h' : b.CarriedBy c) :
    a.CarriedBy c := by
  intro inputs maxDepth limit fuel r hr
  rcases h inputs maxDepth limit fuel r hr with hr | hr
  · exact h' inputs maxDepth limit fuel r hr
  · exact .inr hr

variable {a a' : Analyzed} {image image' : Image} {o : RunOptions} {m m' : Machine}

/-- A program with an image does not come to a dangling reference. -/
theorem not_evaluates_dangling (hg : generate a = .ok image) (hm : Machine.start image o = .ok m)
    (hsteps : o.maxSteps = none) (out : Output) :
    ¬ a.Evaluates o (.fault .danglingReference out) := by
  intro h
  obtain ⟨n, e, he, hk, -⟩ := run_of_evaluates_fault hg hm hsteps h
  exact ((Machine.reachable_run n).sound hm).no_dangling e he hk

/-- **Runs.** If the results of a program carry over to another one, their machines run alike.
Either both end with the result of the evaluation, or neither evaluation ends for any fuel, and then
the machines go on for as many steps as the fuel says and print the same meanwhile. -/
theorem CarriedBy.runsLike (h : a.CarriedBy a') (hg : generate a = .ok image)
    (hm : Machine.start image o = .ok m) (hg' : generate a' = .ok image')
    (hm' : Machine.start image' o = .ok m') (hsteps : o.maxSteps = none) : m.RunsLike m' := by
  have hcarry : ∀ fuel r, invoke { program := a, inputs := o.inputs, maxDepth := o.maxDepth } fuel 1
      0 [] [] (start a o.outputLimit) r →
        invoke { program := a', inputs := o.inputs, maxDepth := o.maxDepth } fuel 1 0 [] []
          (start a' o.outputLimit) r := by
    intro fuel r hr
    rcases h _ _ _ _ _ hr with hr' | ⟨out, rfl⟩
    · exact hr'
    · exact absurd ⟨fuel, hr⟩ (not_evaluates_dangling hg hm hsteps out)
  by_cases hend : ∃ v s, a.Evaluates o (.ok v s)
  · obtain ⟨v, s, fuel, hv⟩ := hend
    obtain ⟨n, w, hw, hvw, hout⟩ := run_of_evaluates_ok hg hm hsteps ⟨fuel, hv⟩
    obtain ⟨n', w', hw', hvw', hout'⟩ := run_of_evaluates_ok hg' hm' hsteps ⟨fuel, hcarry fuel _ hv⟩
    exact .finish hw hw' (hvw.symm.trans hvw') (hout.trans hout'.symm)
  by_cases hfault : ∃ k out, a.Evaluates o (.fault k out)
  · obtain ⟨k, out, fuel, hk⟩ := hfault
    obtain ⟨n, e, he, hek, hout⟩ := run_of_evaluates_fault hg hm hsteps ⟨fuel, hk⟩
    obtain ⟨n', e', he', hek', hout'⟩ :=
      run_of_evaluates_fault hg' hm' hsteps ⟨fuel, hcarry fuel _ hk⟩
    exact .fault he he' (hek.trans hek'.symm) (hout.trans hout'.symm)
  -- Whatever the fuel is, both evaluations run out of it after the same output.
  have hgo : ∀ n, ∃ out, Simulation.Goes n m out ∧ Simulation.Goes n m' out := by
    intro n
    obtain ⟨r, hr⟩ := invoke_total { program := a, inputs := o.inputs, maxDepth := o.maxDepth }
      (n + 1) 1 0 [] [] (start a o.outputLimit)
    cases r with
    | ok v s => exact absurd ⟨v, s, _, hr⟩ hend
    | fault k out => exact absurd ⟨k, out, _, hr⟩ hfault
    | timeout out =>
        exact ⟨out,
          Simulation.program_sim (Image.generated_of_generate hg) hm hsteps (n + 1) _ hr,
          Simulation.program_sim (Image.generated_of_generate hg') hm' hsteps (n + 1) _
            (hcarry _ _ hr)⟩
  refine .never (fun n => ?_) (fun n => ?_) fun text => ⟨?_, ?_⟩
  · obtain ⟨out, ⟨k, hk, hrun, -⟩, -⟩ := hgo n
    exact Machine.outcome_of_le hk hrun
  · obtain ⟨out, -, k, hk, hrun, -⟩ := hgo n
    exact Machine.outcome_of_le hk hrun
  · refine Machine.prints_of_outputs fun n => ?_
    obtain ⟨out, ⟨k, hk, -, hout⟩, k', -, -, hout'⟩ := hgo n
    exact ⟨k, k', hk, hout.trans hout'.symm⟩
  · refine Machine.prints_of_outputs fun n => ?_
    obtain ⟨out, ⟨k, -, -, hout⟩, k', hk', -, hout'⟩ := hgo n
    exact ⟨k', k, hk', hout'.trans hout.symm⟩

/-! ### Folding -/

variable {owner : Nat → Nat}

/-- **One sweep.** The results of a program carry over to the folded one. -/
theorem Sound.carriedBy_sweep (h : a.Sound owner) :
    a.CarriedBy (Pass.constantFolding.sweep a).1 := by
  intro inputs maxDepth limit fuel
  have hcalls : CallsCarry (invoke ⟨a, inputs, maxDepth⟩ fuel 1)
      (invoke ⟨(Pass.constantFolding.sweep a).1, inputs, maxDepth⟩ fuel 1) := by
    refine invoke_carries (by rfl) (by rfl) (by rfl) (fun f b hb => ?_) fuel 1
    have hmem : (f, b) ∈ a.bodies := mem_of_lookup hb
    have hlookup : ∀ {b'}, (f, b') ∈ (Pass.constantFolding.sweep a).1.bodies →
        (Pass.constantFolding.sweep a).1.bodies.lookup f = some b' :=
      lookup_of_mem h.foldSweep.1.keys
    rcases List.mem_append.mp hmem with hroot | hrest
    · refine ⟨b.folded, hlookup (h.perm_foldSweep.mem_iff.mpr ?_), ?_⟩
      · exact List.mem_append_left _ (List.mem_map_of_mem hroot)
      · exact Block.bodyCarries_folded (h.noted _ hmem) (h.fits _ hmem).inScope
    · exact ⟨b, hlookup (h.perm_foldSweep.mem_iff.mpr (List.mem_append_right _ hrest)),
        fun _ => .refl _⟩
  exact hcalls 0 [] [] (start a limit)

/-- **All sweeps.** -/
theorem Sound.carriedBy_repeatSweep (h : a.Sound owner) (rounds : Nat) (changed : Bool) :
    a.CarriedBy (repeatSweep Pass.constantFolding.sweep rounds changed a).1 := by
  induction rounds generalizing a changed with
  | zero => exact .refl a
  | succ rounds ih =>
      have hsweep := h.carriedBy_sweep
      have hsound := (Pass.constantFolding.sound_sweep h).1
      rw [repeatSweep]
      split
      · next heq =>
          rw [heq] at hsweep
          exact hsweep
      · next heq =>
          rw [heq] at hsweep hsound
          exact hsweep.trans (ih hsound true)

/-- The pass. -/
theorem Sound.carriedBy_runPass (h : a.Sound owner) :
    a.CarriedBy (a.runPass .constantFolding).1 := by
  have hrounds := h.carriedBy_repeatSweep maxRounds false
  unfold runPass
  split
  · next heq =>
      rw [heq] at hrounds
      exact hrounds
  · next heq =>
      rw [heq] at hrounds
      exact hrounds

end Analyzed

/-! ### Texts -/

namespace CompileOptions

variable {o : CompileOptions} {text : List Char} {a : Analyzed}

/-- **Constant folding is exact.** Take a text that analysis accepts, and suppose that there is
code for its tree after the pass that folds constants. Then there is code for the tree itself, and
with any inputs and limits but a step budget, both images run alike. -/
theorem folded_runsLike (ha : o.analyze text = .ok a) {image' : Image}
    (hg' : generate (a.runPass .constantFolding).1 = .ok image') {r : RunOptions}
    (hr : r.maxSteps = none) :
    ∃ image m m', generate a = .ok image ∧ Machine.start image r = .ok m ∧
      Machine.start image' r = .ok m' ∧ m.RunsLike m' := by
  obtain ⟨owner, hsound⟩ := analyze_sound ha
  obtain ⟨image, hg⟩ := (analyze_accepted ha).1.exists_image
  obtain ⟨m, hm⟩ := Machine.exists_start (generate_eq_ok_iff.mp hg).2 r
  obtain ⟨m', hm'⟩ := Machine.exists_start (generate_eq_ok_iff.mp hg').2 r
  exact ⟨image, m, m', hg, hm, hm', hsound.carriedBy_runPass.runsLike hg hm hg' hm' hr⟩

/-- A program with a sum that is folded, and a division that must not be. -/
def printDivide : List Char :=
  "print(1+2);1/0".toList

/-- What folding leaves of `printDivide`: the division is still in its code. -/
theorem generate_printDivide :
    ((analyze {} printDivide).toOption.bind fun a =>
      (generate (a.runPass .constantFolding).1).toOption.map fun image =>
        image.routines.toList.map (·.code.toList.filter (· matches .binary _))) =
      some [[.binary .div]] := by
  rw [Grammar.standard_eq]
  decide +kernel

/-- The run of `printDivide` is like that of the folded program, which has no addition. -/
theorem printDivide_runsLike :
    ∃ a image image' m m', analyze {} printDivide = .ok a ∧ generate a = .ok image ∧
      generate (a.runPass .constantFolding).1 = .ok image' ∧
      image'.routines.toList.map (·.code.toList.filter (· matches .binary _)) = [[.binary .div]] ∧
      Machine.start image {} = .ok m ∧ Machine.start image' {} = .ok m' ∧ m.RunsLike m' := by
  have h := generate_printDivide
  cases ha : analyze {} printDivide with
  | error e => simp [ha, Except.toOption] at h
  | ok a =>
      cases hg' : generate (a.runPass .constantFolding).1 with
      | error e => simp [ha, hg', Except.toOption] at h
      | ok image' =>
          obtain ⟨image, m, m', hg, hm, hm', hlike⟩ := folded_runsLike ha hg' (r := {}) rfl
          exact ⟨a, image, image', m, m', rfl, hg, hg', by simpa [ha, hg', Except.toOption] using h,
            hm, hm', hlike⟩

end CompileOptions

end Parlance
