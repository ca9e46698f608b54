import Parlance.Proofs.BigStep.Closed
import Parlance.Proofs.Code.Correctness
import Parlance.Proofs.Optimizer.Sweeping

/-!
# Optimizing keeps results

A text that is compiled with the optimizer computes what it computes without it: if the run of the
plain program finishes, the run of the optimized program finishes with the same value, after
printing the same.

Both runs are compared with the evaluation of their trees. A finished run gives a value of the
plain tree; each sweep of the optimizer keeps it; and what a tree evaluates to, its image runs to.

## Main results

* `Analyzed.Sweeps.run_ok`: any sweeps, in any order.
* `CompileOptions.optimized_run_ok`: the optimizer.
-/

namespace Parlance

/-! ### Sweeps -/

namespace Analyzed

variable {a b : Analyzed} {image image' : Image} {r : RunOptions} {m m' : Machine}

/-- A run that finishes has a value of the program. -/
theorem evaluates_of_run_ok (hg : generate a = .ok image) (hm : Machine.start image r = .ok m)
    (hr : r.maxSteps = none) {n : Nat} {v : Value} (hv : (m.run n).outcome = some (.ok v)) :
    ∃ u s, a.Evaluates r (.ok u s) ∧ u.Alike v ∧ s.output = (m.run n).output := by
  rcases evaluates_of_run hg hm hr hv with ⟨u, s, hu⟩ | ⟨k, out, hk⟩
  · obtain ⟨n', w, hw, huw, ho⟩ := run_of_evaluates_ok hg hm hr hu
    have heq := Machine.run_eq_run hv hw
    rw [heq] at hv ⊢
    obtain rfl : w = v := by simpa using hw.symm.trans hv
    exact ⟨u, s, hu, huw, ho.symm⟩
  · obtain ⟨n', e, he, -⟩ := run_of_evaluates_fault hg hm hr hk
    rw [Machine.run_eq_run hv he, he] at hv
    cases hv

/-- **Sweeps keep results.** Take an accepted program and what any sweeps make of it. If the run
of its image finishes, the run of the other image finishes with the same value and output. -/
theorem Sweeps.run_ok {owner : Nat → Nat} (hs : a.Sweeps b) (ha : a.Accepted)
    (hsound : a.Sound owner) (hg : generate a = .ok image) (hm : Machine.start image r = .ok m)
    (hg' : generate b = .ok image') (hm' : Machine.start image' r = .ok m')
    (hr : r.maxSteps = none) {n : Nat} {v : Value} (hv : (m.run n).outcome = some (.ok v)) :
    ∃ n' w, (m'.run n').outcome = some (.ok w) ∧ w.Alike v ∧
      (m'.run n').output = (m.run n).output := by
  obtain ⟨u, s, hu, huv, ho⟩ := evaluates_of_run_ok hg hm hr hv
  obtain ⟨hsound', hrefined⟩ := hs.sound hsound
  -- Refinement speaks of evaluation without calls of the program by itself.
  obtain ⟨fuel, henter⟩ := ha.enters hu
  obtain ⟨t, ht, hst⟩ := hrefined _ _ _ _ _ _ henter
  obtain ⟨t', hu', htt⟩ := hsound'.inScope.evaluates ht
  obtain ⟨n', w, hw, huw, ho'⟩ := run_of_evaluates_ok hg' hm' hr hu'
  exact ⟨n', w, hw, huw.symm.trans huv, by rw [ho', htt, hst, ho]⟩

end Analyzed

/-! ### The optimizer -/

namespace CompileOptions

variable {o : CompileOptions} {text : List Char} {r : RunOptions} {m m' : Machine}

/-- An optimized program comes from an accepted one by sweeps, and is this one if nothing is to be
optimized. -/
theorem analyze_of_optimized {a : Analyzed} (h : o.optimized text = .ok a) :
    ∃ b, o.analyze text = .ok b ∧ b.Sweeps a ∧ (o.optimize = false → a = b) := by
  unfold optimized at h
  cases hb : o.analyze text with
  | error e => simp [hb, bind, Except.bind] at h
  | ok b =>
      simp only [hb, bind, Except.bind] at h
      split at h
      · next hopt =>
          split at h
          · next heq =>
              cases h
              have hs : b.Sweeps b.optimize.1 := Analyzed.Sweeps.refl.optimize
              rw [heq] at hs
              exact ⟨b, rfl, hs, fun hno => absurd (hopt.symm.trans hno) (by decide)⟩
          · cases h
      · cases h
        exact ⟨a, rfl, .refl, fun _ => rfl⟩

/-- **Optimizing keeps results.** Take a text that compiles with and without the optimizer, and
runs without a step budget on the same inputs and with the same limits. If the run of the plain
program finishes with a value, then the run of the optimized program finishes with that value, up
to the identities of functions, after printing the same. -/
theorem optimized_run_ok (hr : r.maxSteps = none)
    (hm : { o with optimize := false }.prepare r text = .ok m)
    (hm' : { o with optimize := true }.prepare r text = .ok m') {n : Nat} {v : Value}
    (hv : (m.run n).outcome = some (.ok v)) :
    ∃ n' w, (m'.run n').outcome = some (.ok w) ∧ w.Alike v ∧
      (m'.run n').output = (m.run n).output := by
  obtain ⟨a, image, ha, hg, hs⟩ := prepare_eq_ok hm
  obtain ⟨a', image', ha', hg', hs'⟩ := prepare_eq_ok hm'
  obtain ⟨b, hb, -, heq⟩ := analyze_of_optimized ha
  obtain ⟨b', hb', hsweeps, -⟩ := analyze_of_optimized ha'
  obtain rfl := heq rfl
  -- Analysis does not look at the optimizer's option.
  obtain rfl : b' = a := Except.ok.inj (hb'.symm.trans hb)
  obtain ⟨owner, hsound⟩ := analyze_sound hb
  exact hsweeps.run_ok (analyze_accepted hb).1 hsound hg hs hg' hs' hr hv

/-- A program with work for the optimizer: a statement without effect, and a constant sum. -/
def printSum : List Char :=
  "4;print(1+2)".toList

/-- What the run of `printSum` comes to without optimization. -/
theorem prepare_printSum :
    (prepare { optimize := false } {} printSum).toOption.map (fun m =>
      ((m.run 10).outcome.map (·.toOption.map Value.display), (m.run 10).output.text)) =
      some (some (some "()"), "3\n") := by
  rw [Grammar.standard_eq]
  decide +kernel

/-- It can be prepared with optimization as well. -/
theorem prepare_optimized_printSum :
    (prepare { optimize := true } {} printSum).toOption.isSome = true := by
  rw [Grammar.standard_eq]
  decide +kernel

/-- The optimized run of `printSum` finishes and prints the sum, since the plain run does. -/
theorem printSum_optimized :
    ∃ m', prepare { optimize := true } {} printSum = .ok m' ∧
      ∃ n' w, (m'.run n').outcome = some (.ok w) ∧ (m'.run n').output.text = "3\n" := by
  have h := prepare_printSum
  have h' := prepare_optimized_printSum
  cases hm' : prepare { optimize := true } {} printSum with
  | error e => simp [hm', Except.toOption] at h'
  | ok m' =>
      cases hm : prepare { optimize := false } {} printSum with
      | error e => simp [hm, Except.toOption] at h
      | ok m =>
          simp only [hm, Except.toOption, Option.map_some, Option.some.injEq, Prod.mk.injEq] at h
          obtain ⟨hv, hout⟩ := h
          cases hr : (m.run 10).outcome with
          | none => simp [hr] at hv
          | some result =>
              cases result with
              | error e => simp [hr] at hv
              | ok v =>
                  obtain ⟨n', w, hw, -, ho⟩ := optimized_run_ok (o := {}) rfl hm hm' hr
                  exact ⟨m', rfl, n', w, hw, by rw [ho, hout]⟩

end CompileOptions

end Parlance
