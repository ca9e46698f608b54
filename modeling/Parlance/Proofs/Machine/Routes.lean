import Parlance.Proofs.Machine.Sessions

/-!
# Where control comes

A run comes only to some of the offsets of a routine. A set of offsets confines a routine if it
contains the first one, and with an offset all those that its instruction leads to. Calls and
returns do not matter: a call enters another routine at its first offset, and its frame waits at
the next one.

## Main results

* `Machine.execute_within`: an instruction does not lead out of the sets.
* `Machine.Reachable.within`: nor does a run.
-/

namespace Parlance

/-- An instruction that stands in a set of offsets leads to offsets of the set only, and the
first offset is in it. -/
structure Routine.Confined (area : Nat → Prop) (r : Routine) : Prop where
  entry : area 0
  next : ∀ (pc : Nat) (i : Instr), r.code[pc]? = some i → area pc → i.isFinal = false →
    area (pc + 1)
  target : ∀ (pc : Nat) (i : Instr) (t : Nat), r.code[pc]? = some i → area pc →
    i.target? = some t → area t

/-- Each routine of an image is confined to a set of offsets. -/
def Image.Confined (area : Nat → Nat → Prop) (image : Image) : Prop :=
  ∀ (f : Nat) (r : Routine), image.routines[f]? = some r → r.Confined (area f)

/-- One routine is confined, and nothing is said about the others. -/
theorem Image.confined_one {image : Image} {f : Nat} {r : Routine} {area : Nat → Prop}
    (hr : image.routines[f]? = some r) (h : r.Confined area) :
    image.Confined fun g pc => g = f → area pc := by
  intro g r' hr'
  refine ⟨fun _ => h.entry, fun pc i hi hpc hfin hf => ?_, fun pc i t hi hpc ht hf => ?_⟩
  all_goals
    obtain rfl := hf
    cases hr.symm.trans hr'
  · exact h.next pc i hi (hpc rfl) hfin
  · exact h.target pc i t hi (hpc rfl) ht

/-- A frame stands in the set of its routine. -/
def Frame.Within (area : Nat → Nat → Prop) (f : Frame) : Prop :=
  area f.function f.pc

namespace Machine

variable {area : Nat → Nat → Prop} {m : Machine} {callers : List Frame} {f : Frame}

/-! ### Instructions -/

/-- After an instruction that did not fault all frames stand in their sets. -/
def Executed.Within (area : Nat → Nat → Prop) (x : Executed) : Prop :=
  x.2 = none → ∀ g ∈ x.1.frames, g.Within area

/-- A fault goes nowhere. -/
theorem within_faulted {n : Machine} {fault : Fault} : Executed.Within area (faulted fault n) :=
  nofun

/-- Going on with frames in the area stays in it. -/
theorem within_done {n : Machine} (hn : n.frames = f :: callers) (hf : f.Within area)
    (hc : ∀ g ∈ callers, g.Within area) : Executed.Within area (done n) := by
  intro _ g hg
  change g ∈ n.frames at hg
  rw [hn] at hg
  rcases List.mem_cons.mp hg with rfl | hg
  · exact hf
  · exact hc g hg

/-- A result leaves the frames where they are. -/
theorem within_pushResult {stack : List Value} {result : Except Fault Value}
    (hf : f.Within area) (hc : ∀ g ∈ callers, g.Within area) :
    Executed.Within area (m.pushResult callers f stack result) := by
  cases result with
  | ok v => exact within_done rfl hf hc
  | error fault => exact within_faulted

/-- A call enters the routine at its first offset. -/
theorem within_call (hm : m.image.Confined area) (hf : f.Within area)
    (hc : ∀ g ∈ callers, g.Within area) {callee : Value} {args : List Value} :
    Executed.Within area (m.call callers f callee args) := by
  cases callee with
  | function tag index captures =>
      by_cases hdepth : m.maxDepth ≤ callers.length + 1
      · rw [call_of_depth hdepth]
        exact within_faulted
      · cases hr : m.image.routines[index]? with
        | none =>
            rw [call_of_missing hdepth hr]
            exact within_faulted
        | some r =>
            rw [call_of_enter hdepth hr]
            unfold Frame.enter
            split
            · next frame he =>
                have hframe : frame.Within area := by
                  split at he <;> cases he
                  exact (hm index r hr).entry
                exact within_done rfl hframe (List.forall_mem_cons.mpr ⟨hf, hc⟩)
            · exact within_faulted
  | builtin b => exact within_pushResult hf hc
  | _ => exact within_faulted

/-- A return leaves the callers where they are. -/
theorem within_leave (hc : ∀ g ∈ callers, g.Within area) {v : Value} :
    Executed.Within area (m.leave callers v) := by
  cases callers with
  | nil => exact fun _ _ hg => by cases hg
  | cons f callers =>
      rw [List.forall_mem_cons] at hc
      exact within_done rfl hc.1 hc.2

/-- **Instructions.** An instruction does not lead out of the sets. The frame stands behind it. -/
theorem execute_within (hm : m.image.Confined area) (hc : ∀ g ∈ callers, g.Within area) {i : Instr}
    (hnext : i.isFinal = false → f.Within area)
    (htarget : ∀ t, i.target? = some t → Frame.Within area { f with pc := t }) :
    Executed.Within area (m.execute callers f i) := by
  fun_cases execute m callers f i
  case case18 | case21 | case22 | case23 => exact within_pushResult (hnext rfl) hc
  case case36 =>
    refine within_call hm ?_ hc
    exact hnext rfl
  case case37 => exact within_leave hc
  all_goals first
    | exact within_faulted
    | exact within_done rfl (htarget _ rfl) hc
    | exact within_done rfl (hnext rfl) hc

/-! ### Runs -/

/-- As long as a run has not ended, all frames stand in their sets. -/
def Within (area : Nat → Nat → Prop) (m : Machine) : Prop :=
  m.outcome = none → ∀ g ∈ m.frames, g.Within area

/-- **One step.** A step from the area stays in it. The area is closed under the next offset and the
targets of jumps, and callers wait in it. -/
theorem Within.step (hm : m.image.Confined area) (hs : m.Safe) (h : m.Within area) :
    m.step.Within area := by
  cases ho : m.outcome with
  | some o =>
      rw [step_of_outcome ho]
      exact h
  | none =>
      obtain ⟨f, callers, r, i, hfs, hr, hi, -⟩ := hs.next ho
      have hfetch : m.fetch? f = some i := by rw [fetch?, hr, Option.bind_some, hi]
      have hall := h ho
      rw [hfs, List.forall_mem_cons] at hall
      have hexec (budget : Budget) := execute_within
        (m := { m with budget, steps := m.steps + 1 }) (f := { f with pc := f.pc + 1 }) hm hall.2
        ((hm f.function r hr).next f.pc i hi hall.1)
        fun t => (hm f.function r hr).target f.pc i t hi hall.1
      have hway := step_way ho hfs
      generalize m.step = n at hway ⊢
      cases hway with
      | executed _ _ hsome hx =>
          cases hfetch.symm.trans hsome
          have hwithin := hx ▸ hexec _
          exact fun _ => hwithin rfl
      -- A machine that has failed has no frame to run.
      | cancelled | exhausted | missing | faulted => exact fun hgo => by cases hgo

/-- **Runs.** A run does not lead out of the sets. -/
theorem Reachable.within {image : Image} {o : RunOptions} {start : Machine}
    (hi : image.Confined area) (hs : Machine.start image o = .ok start) (h : Reachable start m) :
    m.Within area := by
  induction h with
  | start =>
      obtain ⟨-, entry, frame, he, hf, rfl⟩ := start_eq_ok hs
      have hframe : frame.Within area := by
        unfold Frame.enter at hf
        split at hf <;> cases hf
        exact (hi 0 entry he).entry
      exact fun _ => by simpa [initial] using hframe
  | step hreach ih =>
      have himage := (hreach.sound hs).pools.image_eq
      exact ih.step (himage ▸ hi) ((hreach.sound hs).safe (start_eq_ok hs).1)
  | cancel _ ih => exact ih

end Machine

end Parlance
