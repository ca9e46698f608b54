import Parlance.Proofs.Code.Total
import Parlance.Proofs.Machine.Twins
import Parlance.Proofs.Optimizer.Equivalence
import Parlance.Proofs.Optimizer.Frames

/-!
# Shortened code

Code generation leaves out a value that is loaded only to be dropped, and a copy of an assigned
value that is dropped. Nothing of this shows in a run, except that the run takes fewer steps.

The code that is not shortened may refer to slots that the shortened code does not mention. For
the trees of texts, whatever the optimizer made of them, it passes verification all the same.

## Main results

* `Analyzed.Sweeps.verifies`: code that is generated from the tree of a text is verified.
* `generate_shortens`: shortened code.
-/

namespace Parlance

namespace Machine

variable {m m' : Machine}

/-- A run shows no difference to another one, and does not take more steps. -/
structure Shortens (m m' : Machine) : Prop where
  runsLike : m.RunsLike m'
  steps_le : ∀ (n n' : Nat) (o o' : Outcome), (m.run n).outcome = some o →
    (m'.run n').outcome = some o' → (m.run n).steps ≤ (m'.run n').steps

end Machine

namespace Image

variable {image image' : Image}

/-- Twins run alike, and the one without detours takes no more steps. -/
theorem Twins.shortens (h : image.Twins image') (hv : image.verify = .ok ()) {r : RunOptions}
    (hr : r.maxSteps = none) {m m' : Machine} (hm : Machine.start image r = .ok m)
    (hm' : Machine.start image' r = .ok m') : m.Shortens m' := by
  obtain ⟨charts, hg⟩ := h.exists_guided hv (Machine.start_eq_ok hm').1
  have htwins := Machine.twins_start hg hr hm hm'
  exact ⟨htwins.runsLike hg, fun _ _ _ _ => htwins.steps_le hg⟩

end Image

namespace Analyzed

/-- **Verification.** Take the tree of a text and what any sweeps make of it. What is assembled of
it passes, shortened or not. -/
theorem Sweeps.verifies {o : CompileOptions} {text : List Char} {a b : Analyzed} {tidy : Bool}
    {image : Image} (hs : b.Sweeps a) (hb : o.analyze text = .ok b)
    (h : assemble tidy a = .ok image) : image.verify = .ok () := by
  obtain ⟨owner, hsound⟩ := CompileOptions.analyze_sound hb
  have hacc := (CompileOptions.analyze_accepted hb).1
  have hext := (hs.spawns hsound).extends
  have hsound' := (hs.sound hsound).1
  refine Image.verifies_of_assemble h ⟨hsound'.orderly.global_lt, fun y hy f hf => ?_⟩
    hsound'.inScope.fits ?_ ?_
  · obtain ⟨hlt, -, hcaptures⟩ := hsound'.settled.function y hy f hf
    exact ⟨hlt, hcaptures⟩
  · rw [hext.params]
    exact hacc.params
  · rw [hext.captures]
    exact hacc.captures

end Analyzed

/-- **Shortened code.** Take a tree with code, and the code that is generated from it if nothing is
left out. If both start on the same inputs, without a step budget and with the same limits, they
end with the same value, up to the identities of functions, or with the same fault, or never, and
print the same; and where they end, the shortened code has taken no more steps. The shortened code
always starts. So does the other one for the tree of a text, whatever the optimizer made of it. -/
theorem generate_shortens {a : Analyzed} {image : Image} (h : generate a = .ok image) :
    ∃ image', assemble false a = .ok image' ∧
      (∀ r : RunOptions, r.maxSteps = none → ∃ m, Machine.start image r = .ok m ∧
        ∀ m', Machine.start image' r = .ok m' → m.Shortens m') ∧
      ∀ (o : CompileOptions) (text : List Char) (b : Analyzed), o.analyze text = .ok b →
        b.Sweeps a → ∀ r : RunOptions, ∃ m', Machine.start image' r = .ok m' := by
  obtain ⟨hassemble, hv⟩ := generate_eq_ok_iff.mp h
  obtain ⟨image', himage', htwins⟩ := exists_twins hassemble
  refine ⟨image', himage', fun r hr => ?_, fun o text b hb hs r => ?_⟩
  · obtain ⟨m, hm⟩ := Machine.exists_start hv r
    exact ⟨m, hm, fun m' hm' => htwins.shortens hv hr hm hm'⟩
  · exact Machine.exists_start (hs.verifies hb himage') r

namespace CompileOptions

/-- A program with a value that is not used and an assigned value that is not used. -/
def dropsValues : List Char :=
  "let a = 1; a; a = 2; print(a)".toList

/-- What `dropsValues` is assembled to with values left out and without. -/
theorem assemble_dropsValues :
    (analyze { optimize := false } dropsValues).toOption.map (fun a =>
      [true, false].map fun tidy => (assemble tidy a).toOption.map fun image =>
        image.routines.map fun r => r.code.size) = some [some #[8], some #[12]] := by
  rw [Grammar.standard_eq]
  decide +kernel

/-- Four instructions of `dropsValues` are left out, and both images run alike. -/
theorem dropsValues_shortened :
    ∃ a image image', analyze { optimize := false } dropsValues = .ok a ∧
      generate a = .ok image ∧ assemble false a = .ok image' ∧
      image.routines.map (fun r => r.code.size) = #[8] ∧
      image'.routines.map (fun r => r.code.size) = #[12] ∧
      ∃ m m', Machine.start image {} = .ok m ∧ Machine.start image' {} = .ok m' ∧
        m.Shortens m' := by
  have h := assemble_dropsValues
  cases ha : analyze { optimize := false } dropsValues with
  | error e => simp [ha, Except.toOption] at h
  | ok a =>
      obtain ⟨image, hg⟩ := (analyze_accepted ha).1.exists_image
      obtain ⟨image', hg', hruns, hstarts⟩ := generate_shortens hg
      obtain ⟨m, hm, hm'⟩ := hruns {} rfl
      obtain ⟨m', hs⟩ := hstarts _ _ a ha .refl {}
      simp only [ha, Except.toOption, Option.map_some, List.map_cons, List.map_nil,
        (generate_eq_ok_iff.mp hg).1, hg', Option.some.injEq, List.cons.injEq, and_true] at h
      exact ⟨a, image, image', rfl, hg, hg', h.1, h.2, m, m', hm, hs, hm' m' hs⟩

end CompileOptions

end Parlance
