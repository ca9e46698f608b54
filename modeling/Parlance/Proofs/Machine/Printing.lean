import Parlance.Proofs.Machine.Sessions
import Parlance.Proofs.Value.Correspondence

/-!
# What a run prints

No step takes back what was printed, so also a run that never ends prints something definite:
every text with which its output begins sooner or later. Runs of two machines are alike if they
come to the same end, or both to none, and print the same.

## Main definitions

* `Machine.Prints`: a run begins its output with a text.
* `Machine.RunsLike`: the runs of two machines are alike.

## Main results

* `Machine.output_run`: the output of a run grows at its end only.
-/

namespace Parlance

/-! ### Growth -/

/-- An output has what another one has, and then more. -/
def Output.Continues (o o' : Output) : Prop :=
  ∃ more, o.text = o'.text ++ more

/-- An output continues itself. -/
theorem Output.Continues.refl (o : Output) : o.Continues o :=
  ⟨"", by simp⟩

/-- Outputs continue one another. -/
theorem Output.Continues.trans {o o' o'' : Output} (h : o.Continues o') (h' : o'.Continues o'') :
    o.Continues o'' := by
  obtain ⟨more, h⟩ := h
  obtain ⟨more', h'⟩ := h'
  exact ⟨more' ++ more, by rw [h, h', String.append_assoc]⟩

/-- What is written is put behind the output. -/
theorem Output.continues_of_write? {o o' : Output} {s : String} (h : o.write? s = some o') :
    o'.Continues o := by
  unfold Output.write? at h
  split at h
  · cases h
  · cases h
    exact ⟨s, rfl⟩

/-- A line is put behind the output, as far as the limit allows it. -/
theorem Output.continues_writeLine (o : Output) (s : String) : (o.writeLine s).1.Continues o := by
  unfold Output.writeLine
  split
  · exact .refl o
  · next h =>
      split
      · exact continues_of_write? h
      · next h' => exact (continues_of_write? h').trans (continues_of_write? h)

namespace Machine

section Execute

variable {m : Machine} {callers : List Frame} {f : Frame}

/-- A builtin only adds to the output. -/
theorem output_callBuiltin (m : Machine) (b : Builtin) (args : List Value) :
    (m.callBuiltin b args).1.output.Continues m.output := by
  unfold callBuiltin
  split
  · exact Output.continues_writeLine _ _
  all_goals exact .refl _

/-- A result is not printed. -/
theorem output_pushResult (stack : List Value) (result : Except Fault Value) :
    (m.pushResult callers f stack result).1.output = m.output := by
  cases result <;> rfl

/-- A call only adds to the output. -/
theorem output_call (callee : Value) (args : List Value) :
    (m.call callers f callee args).1.output.Continues m.output := by
  cases callee with
  | function tag index captures =>
      by_cases hdepth : m.maxDepth ≤ callers.length + 1
      · rw [call_of_depth hdepth]
        exact .refl _
      · cases hr : m.image.routines[index]? with
        | none =>
            rw [call_of_missing hdepth hr]
            exact .refl _
        | some r =>
            rw [call_of_enter hdepth hr]
            cases Frame.enter r index captures args <;> exact .refl _
  | builtin b =>
      simp only [call, output_pushResult]
      exact output_callBuiltin m b args
  | _ => exact .refl _

/-- An instruction prints at the end of the output. -/
theorem output_execute (m : Machine) (callers : List Frame) (f : Frame) (i : Instr) :
    (m.execute callers f i).1.output.Continues m.output := by
  fun_cases execute m callers f i
  case case18 | case21 | case22 | case23 =>
    rw [output_pushResult]
    exact .refl _
  case case36 => exact output_call _ _
  case case37 => cases callers <;> exact .refl _
  all_goals exact .refl _

end Execute

/-- A step only adds to the output. Most instructions do not touch it, and a builtin that prints
appends or fails. -/
theorem output_step (m : Machine) : m.step.output.Continues m.output := by
  unfold step
  split
  · exact .refl _
  · exact .refl _
  · next f callers _ _ =>
      split
      · exact .refl _
      · split
        · exact .refl _
        · next budget _ =>
            split
            · exact .refl _
            · next i _ =>
                have h := output_execute { m with budget, steps := m.steps + 1 } callers
                  { f with pc := f.pc + 1 } i
                dsimp only
                split
                · next heq =>
                    rw [heq] at h
                    exact h
                · next heq =>
                    rw [heq] at h
                    exact h

/-- **Runs.** What a run has printed stays printed. -/
theorem output_run (m : Machine) {n k : Nat} (h : n ≤ k) :
    (m.run k).output.Continues (m.run n).output := by
  induction h with
  | refl => exact .refl _
  | @step k _ ih =>
      rw [Nat.succ_eq_add_one, run_add]
      exact (output_step _).trans ih

/-! ### Comparing runs -/

/-- A run prints a text, and perhaps more behind it. -/
def Prints (m : Machine) (text : String) : Prop :=
  ∃ n more, (m.run n).output.text = text ++ more

/-- **Runs that are alike.** Both finish with the same value, up to the identities of functions,
or both end with the same fault, or neither ends; and both print the same. -/
inductive RunsLike (m m' : Machine) : Prop
  | finish {n n' : Nat} {v v' : Value} (hv : (m.run n).outcome = some (.ok v))
      (hv' : (m'.run n').outcome = some (.ok v')) (halike : v.Alike v')
      (houtput : (m.run n).output = (m'.run n').output)
  | fault {n n' : Nat} {e e' : RuntimeError} (he : (m.run n).outcome = some (.error e))
      (he' : (m'.run n').outcome = some (.error e')) (hfault : e.fault = e'.fault)
      (houtput : (m.run n).output = (m'.run n').output)
  | never (h : ∀ n, (m.run n).outcome = none) (h' : ∀ n, (m'.run n).outcome = none)
      (hprints : ∀ text, m.Prints text ↔ m'.Prints text)

/-- Runs that have the same output again and again print the same. -/
theorem prints_of_outputs {m m' : Machine}
    (h : ∀ n, ∃ k k', n ≤ k ∧ (m.run k).output = (m'.run k').output) {text : String}
    (ht : m.Prints text) : m'.Prints text := by
  obtain ⟨n, more, hn⟩ := ht
  obtain ⟨k, k', hk, ho⟩ := h n
  obtain ⟨more', hmore⟩ := m.output_run hk
  exact ⟨k', more ++ more', by rw [← ho, hmore, hn, String.append_assoc]⟩

end Machine

end Parlance
