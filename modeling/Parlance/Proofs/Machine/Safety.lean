import Mathlib.Tactic.Common
import Parlance.Proofs.Code.Verify
import Parlance.Proofs.Machine.Runs

/-!
# Verified images run safely

The checks of `Image.verify` are static and local. This module turns them into an invariant
of whole runs: whatever a machine of a verified image does, every frame belongs to a routine
of the image and has its number of slots and captures, and every function value held
anywhere exists and has the captures of its routine.

The invariant has two strengths. `Machine.Sound` holds in every state, also after a fault.
The offsets of the frames are a matter of their own (`Machine.OnTrack`): the running frame is
past the instruction that faulted, which may have been the last one of its routine.

## Main results

* `Machine.Reachable.sound`: every state of a run of a verified image is sound.
* `Machine.safe_of_reachable`: no state of such a run refers to anything out of range.
* `Machine.pc_eq_size_of_underflow`: after a fault the running frame may be past its code.
-/

namespace Parlance

/-! ### Function values -/

mutual

/-- Every function inside a value exists and has as many captures as its routine takes. -/
def Value.Fits (image : Image) : Value → Prop
  | .list items => Value.AllFit image items
  | .function _ index captures =>
      (∃ r, image.routines[index]? = some r ∧ captures.length = r.captures) ∧
        Value.AllFit image captures
  | _ => True

/-- All values fit an image. -/
def Value.AllFit (image : Image) : List Value → Prop
  | [] => True
  | v :: vs => v.Fits image ∧ Value.AllFit image vs

end

section Fits

variable {image : Image}

/-- Values fit together if each of them does. -/
theorem Value.allFit_iff {vs : List Value} :
    Value.AllFit image vs ↔ ∀ v ∈ vs, v.Fits image := by
  induction vs with
  | nil => simp [Value.AllFit]
  | cons v vs ih => simp [Value.AllFit, ih]

/-- A list fits if its items do. -/
@[simp] theorem Value.fits_list {items : List Value} :
    (Value.list items).Fits image ↔ ∀ v ∈ items, v.Fits image := by
  rw [Value.Fits, Value.allFit_iff]

/-- A function fits if its routine is there and takes as many captures as it has, and the captured
values fit. -/
@[simp] theorem Value.fits_function {tag index : Nat} {captures : List Value} :
    (Value.function tag index captures).Fits image ↔
      (∃ r, image.routines[index]? = some r ∧ captures.length = r.captures) ∧
        ∀ v ∈ captures, v.Fits image := by
  rw [Value.Fits, Value.allFit_iff]

/-- The unit value has no function inside. -/
@[simp] theorem Value.fits_unit : Value.unit.Fits image := trivial

/-- An integer has no function inside. -/
@[simp] theorem Value.fits_int {n : Int64} : (Value.int n).Fits image := trivial

/-- A float has no function inside. -/
@[simp] theorem Value.fits_float {x : Binary64} : (Value.float x).Fits image := trivial

/-- A bool has no function inside. -/
@[simp] theorem Value.fits_bool {b : Bool} : (Value.bool b).Fits image := trivial

/-- A string has no function inside. -/
@[simp] theorem Value.fits_str {s : String} : (Value.str s).Fits image := trivial

/-- A builtin needs no routine. -/
@[simp] theorem Value.fits_builtin {b : Builtin} : (Value.builtin b).Fits image := trivial

/-! ### Operations make no function values -/

/-- The value of a unary operation fits, since it has no function inside. -/
theorem Value.fits_of_unary {op : UnaryOp} {v w : Value} (h : v.unary op = .ok w) :
    w.Fits image := by
  unfold Value.unary at h
  split at h <;> simp at h <;> subst h <;> simp

/-- The value of an operation on integers fits. -/
theorem Value.fits_of_binaryInt {op : BinaryOp} {a b : Int64} {w : Value}
    (h : Value.binaryInt op a b = .ok w) : w.Fits image := by
  unfold Value.binaryInt at h
  split at h <;> (try split at h) <;> simp at h <;> subst h <;> simp

/-- The value of an operation on floats fits. -/
theorem Value.fits_of_binaryFloat {op : BinaryOp} {a b : Binary64} {w : Value}
    (h : Value.binaryFloat op a b = .ok w) : w.Fits image := by
  unfold Value.binaryFloat at h
  split at h <;> (try split at h) <;> simp at h <;> subst h <;> simp

/-- The value of a binary operation fits, since it has no function inside. -/
theorem Value.fits_of_binary {op : BinaryOp} {l r w : Value} (h : Value.binary op l r = .ok w) :
    w.Fits image := by
  unfold Value.binary at h
  split at h
  · simp at h; subst h; simp
  · simp at h; subst h; simp
  iterate 4
    · split at h <;> simp at h
      subst h; simp
  · split at h
    · exact Value.fits_of_binaryInt h
    · exact Value.fits_of_binaryFloat h
    · split at h <;> simp at h
      subst h; simp
    · split at h <;> simp at h <;> subst h <;> simp
    · simp at h

/-- The value of a cast fits, since it has no function inside. -/
theorem Value.fits_of_cast {v w : Value} {target : Scalar} (h : v.cast target = .ok w) :
    w.Fits image := by
  unfold Value.cast at h
  split at h
  · next u hu =>
      simp only [Except.ok.injEq] at h
      subst h
      unfold Value.cast? at hu
      split at hu <;>
        simp only [Option.map_eq_some_iff, Option.some.injEq, reduceCtorEq] at hu
      all_goals first
        | (subst hu; simp)
        | (obtain ⟨_, _, rfl⟩ := hu; simp)
  · simp at h

/-- An item of a list that fits does so too. -/
theorem Value.fits_of_getItem {target index w : Value} (ht : target.Fits image)
    (h : target.getItem index = .ok w) : w.Fits image := by
  unfold Value.getItem at h
  split at h
  · next items =>
      cases hi : Value.checkedIndex index items.length with
      | error e => simp [hi, bind, Except.bind] at h
      | ok i =>
          simp only [hi, bind, Except.bind, pure, Except.pure, Except.ok.injEq] at h
          subst h
          rw [List.getD_eq_getElem?_getD]
          cases hv : items[i]? with
          | none => simp
          | some v => simpa using Value.fits_list.mp ht v (List.mem_of_getElem? hv)
  · next s =>
      cases hi : Value.checkedIndex index s.toList.length with
      | error e => simp [hi, bind, Except.bind] at h
      | ok i =>
          simp only [hi, bind, Except.bind, pure, Except.pure, Except.ok.injEq] at h
          subst h
          simp
  · simp at h

/-- A list fits after a value that fits was set in it. -/
theorem Value.fits_of_setItem {target index v w : Value} (ht : target.Fits image)
    (hv : v.Fits image) (h : target.setItem index v = .ok w) : w.Fits image := by
  unfold Value.setItem at h
  split at h
  · next items =>
      cases hi : Value.checkedIndex index items.length with
      | error e => simp [hi, bind, Except.bind] at h
      | ok i =>
          simp only [hi, bind, Except.bind, pure, Except.pure, Except.ok.injEq] at h
          subst h
          rw [Value.fits_list]
          intro u hu
          rcases List.mem_or_eq_of_mem_set hu with hu | rfl
          · exact Value.fits_list.mp ht u hu
          · exact hv
  · simp at h

/-- A list fits after a value that fits was added to it. -/
theorem Value.fits_of_push {target v w : Value} (ht : target.Fits image) (hv : v.Fits image)
    (h : target.push v = .ok w) : w.Fits image := by
  unfold Value.push at h
  split at h
  · next items =>
      simp only [Except.ok.injEq] at h
      subst h
      simp only [Value.fits_list, List.mem_append, List.mem_singleton]
      rintro u (hu | rfl)
      · exact Value.fits_list.mp ht u hu
      · exact hv
  · simp at h

/-! ### Faults of operations -/

/-- A fault of an operation on values. The others are faults of the code: a reference that
dangles, or an operand that is missing. -/
def Fault.Ordinary (fault : Fault) : Prop :=
  fault ≠ .danglingReference ∧ fault ≠ .stackUnderflow

/-- A unary operation fails only for its operand. -/
theorem Value.unary_ordinary {op : UnaryOp} {v : Value} {fault : Fault}
    (h : v.unary op = .error fault) : fault.Ordinary := by
  unfold Value.unary at h
  split at h <;> simp at h
  simp [Fault.Ordinary, ← h]

/-- An operation on integers fails only for its operands. -/
theorem Value.binaryInt_ordinary {op : BinaryOp} {a b : Int64} {fault : Fault}
    (h : Value.binaryInt op a b = .error fault) : fault.Ordinary := by
  unfold Value.binaryInt at h
  split at h <;> (try split at h) <;> simp at h <;> simp [Fault.Ordinary, ← h]

/-- An operation on floats fails only for its operands. -/
theorem Value.binaryFloat_ordinary {op : BinaryOp} {a b : Binary64} {fault : Fault}
    (h : Value.binaryFloat op a b = .error fault) : fault.Ordinary := by
  unfold Value.binaryFloat at h
  split at h <;> (try split at h) <;> simp at h <;> simp [Fault.Ordinary, ← h]

/-- A binary operation fails only for its operands. -/
theorem Value.binary_ordinary {op : BinaryOp} {l r : Value} {fault : Fault}
    (h : Value.binary op l r = .error fault) : fault.Ordinary := by
  unfold Value.binary at h
  split at h
  · simp at h
  · simp at h
  iterate 4
    · split at h <;> simp at h
      simp [Fault.Ordinary, ← h]
  · split at h
    · exact Value.binaryInt_ordinary h
    · exact Value.binaryFloat_ordinary h
    · split at h <;> simp at h
      simp [Fault.Ordinary, ← h]
    · split at h <;> simp at h
      simp [Fault.Ordinary, ← h]
    · simp at h
      simp [Fault.Ordinary, ← h]

/-- A cast fails only for its operand. -/
theorem Value.cast_ordinary {v : Value} {target : Scalar} {fault : Fault}
    (h : v.cast target = .error fault) : fault.Ordinary := by
  unfold Value.cast at h
  split at h <;> simp at h
  simp [Fault.Ordinary, ← h]

/-- An index fails only for its type or because it is out of range. -/
theorem Value.checkedIndex_ordinary {index : Value} {length : Nat} {fault : Fault}
    (h : Value.checkedIndex index length = .error fault) : fault.Ordinary := by
  unfold Value.checkedIndex at h
  split at h
  · split at h <;> simp at h
    simp [Fault.Ordinary, ← h]
  · simp at h
    simp [Fault.Ordinary, ← h]

/-- Reading an item fails only for the list and the index. -/
theorem Value.getItem_ordinary {target index : Value} {fault : Fault}
    (h : target.getItem index = .error fault) : fault.Ordinary := by
  unfold Value.getItem at h
  split at h
  · next items =>
      cases hi : Value.checkedIndex index items.length with
      | error e =>
          simp only [hi, bind, Except.bind, Except.error.injEq] at h
          exact h ▸ Value.checkedIndex_ordinary hi
      | ok i => simp [hi, bind, Except.bind, pure, Except.pure] at h
  · next s =>
      cases hi : Value.checkedIndex index s.toList.length with
      | error e =>
          simp only [hi, bind, Except.bind, Except.error.injEq] at h
          exact h ▸ Value.checkedIndex_ordinary hi
      | ok i => simp [hi, bind, Except.bind, pure, Except.pure] at h
  · simp only [Except.error.injEq] at h
    simp [Fault.Ordinary, ← h]

/-- Setting an item fails only for the list and the index. -/
theorem Value.setItem_ordinary {target index v : Value} {fault : Fault}
    (h : target.setItem index v = .error fault) : fault.Ordinary := by
  unfold Value.setItem at h
  split at h
  · next items =>
      cases hi : Value.checkedIndex index items.length with
      | error e =>
          simp only [hi, bind, Except.bind, Except.error.injEq] at h
          exact h ▸ Value.checkedIndex_ordinary hi
      | ok i => simp [hi, bind, Except.bind, pure, Except.pure] at h
  · simp only [Except.error.injEq] at h
    simp [Fault.Ordinary, ← h]

/-- Adding an item fails only for the list. -/
theorem Value.push_ordinary {target v : Value} {fault : Fault}
    (h : target.push v = .error fault) : fault.Ordinary := by
  unfold Value.push at h
  split at h
  · simp at h
  · simp only [Except.error.injEq] at h
    simp [Fault.Ordinary, ← h]

/-- A condition fails only because it is no bool. -/
theorem Machine.truth_ordinary {v : Value} {fault : Fault}
    (h : Machine.truth v = .error fault) : fault.Ordinary := by
  unfold Machine.truth at h
  split at h <;> simp at h
  simp [Fault.Ordinary, ← h]

/-- A constant that refers to something gives a value that fits. -/
theorem Const.fits_toValue {c : Const} (h : c.Refers image) (tag : Nat) :
    (c.toValue tag).Fits image := by
  cases c with
  | function f =>
      obtain ⟨r, hr, hc⟩ := h
      simp [Const.toValue, hr, hc]
  | _ => simp [Const.toValue]

end Fits

/-! ### Frames -/

/-- A frame runs a routine of the image, has its number of slots and captures, and holds
values that fit. -/
structure Frame.Sound (image : Image) (r : Routine) (f : Frame) : Prop where
  routine : image.routines[f.function]? = some r
  slots_size : f.slots.size = r.slots
  captures_length : f.captures.length = r.captures
  slots_fit : ∀ v ∈ f.slots, v.Fits image
  captures_fit : ∀ v ∈ f.captures, v.Fits image
  stack_fit : ∀ v ∈ f.stack, v.Fits image

namespace Frame.Sound

variable {image : Image} {r : Routine} {f : Frame}

/-- A sound frame stays sound when it moves on and changes its operands. -/
theorem moved (h : f.Sound image r) {pc : Nat} {stack : List Value}
    (hs : ∀ v ∈ stack, v.Fits image) : Frame.Sound image r { f with pc, stack } :=
  ⟨h.routine, h.slots_size, h.captures_length, h.slots_fit, h.captures_fit, hs⟩

/-- A sound frame stays sound when a value that fits is stored. -/
theorem stored (h : f.Sound image r) {slot : Nat} {v : Value} {stack : List Value}
    (hv : v.Fits image) (hs : ∀ v ∈ stack, v.Fits image) :
    Frame.Sound image r { f with stack, slots := f.slots.setIfInBounds slot v } := by
  refine ⟨h.routine, by simpa using h.slots_size, h.captures_length, ?_, h.captures_fit, hs⟩
  intro u hu
  rcases Array.mem_or_eq_of_mem_setIfInBounds hu with hu | rfl
  · exact h.slots_fit u hu
  · exact hv

end Frame.Sound

/-- The frame of a call is sound and at the start of its code. Its slots are the arguments and
units, as many as the routine says. -/
theorem Frame.sound_enter {image : Image} {r : Routine} {function : Nat}
    {captures args : List Value} {f : Frame} (hr : image.routines[function]? = some r)
    (hv : r.Verified image) (hl : captures.length = r.captures)
    (hc : ∀ v ∈ captures, v.Fits image) (ha : ∀ v ∈ args, v.Fits image)
    (h : Frame.enter r function captures args = .ok f) :
    f.Sound image r ∧ f.pc < r.code.size := by
  unfold Frame.enter at h
  split at h
  · next hp =>
      simp only [Except.ok.injEq] at h
      subst h
      refine ⟨⟨hr, ?_, hl, ?_, hc, by simp⟩, ?_⟩
      · have := hv.params_le
        simp only [List.size_toArray, List.length_append, List.length_replicate]
        omega
      · intro v hm
        simp only [List.mem_toArray, List.mem_append, List.mem_replicate] at hm
        rcases hm with hm | ⟨-, rfl⟩
        · exact ha v hm
        · simp
      · obtain ⟨i, hi, -⟩ := hv.ends
        rw [Array.back?_eq_getElem?] at hi
        have := (Array.getElem?_eq_some_iff.mp hi).1
        show 0 < r.code.size
        omega
  · simp at h

/-! ### Machines -/

/-- The constants and the globals of a machine are those of its image, and fit it. -/
structure Machine.Pools (image : Image) (m : Machine) : Prop where
  image_eq : m.image = image
  consts_size : m.consts.size = image.consts.size
  consts_fit : ∀ v ∈ m.consts, v.Fits image
  globals_size : m.globals.size = image.globals
  globals_fit : ∀ v ∈ m.globals, v.Fits image

/-- A frame is sound and about to execute an instruction of its routine. -/
def Frame.OnTrack (image : Image) (f : Frame) : Prop :=
  ∃ r, f.Sound image r ∧ f.pc < r.code.size

/-- A frame is sound and behind the last instruction of its routine. -/
def Frame.PastEnd (image : Image) (f : Frame) : Prop :=
  ∃ r, f.Sound image r ∧ f.pc = r.code.size

/-- What may be left of an instruction. Without a fault all frames are on track, and there is
none only if the run has a result. A fault leaves the callers alone, and the running frame
is past its end only if an operand was missing. -/
structure Machine.Executed.Sound (image : Image) (callers : List Frame) (limit : Nat)
    (x : Machine.Executed) : Prop where
  pools : x.1.Pools image
  limit_eq : x.1.maxDepth = limit
  depth_le : x.1.frames.length ≤ max 1 limit
  of_done : x.2 = none → (∀ f ∈ x.1.frames, f.OnTrack image) ∧
    (x.1.frames = [] → ∃ v, x.1.outcome = some (.ok v)) ∧
    ∀ e, x.1.outcome ≠ some (.error e)
  of_fault : ∀ fault, x.2 = some fault → fault ≠ .danglingReference ∧
    ∃ f, x.1.frames = f :: callers ∧
      (f.OnTrack image ∨ fault = .stackUnderflow ∧ f.PastEnd image)

namespace Machine

/-! ### One instruction -/

section Execute

variable {image : Image} {m : Machine} {callers : List Frame} {f : Frame} {r : Routine}

/-- The machine before an instruction of the running frame `f`, whose offset is already that
of the next one. -/
structure Ready (image : Image) (m : Machine) (callers : List Frame) (f : Frame) (r : Routine) :
    Prop where
  verified : ∀ (g : Nat) (s : Routine), image.routines[g]? = some s → s.Verified image
  pools : m.Pools image
  callers_onTrack : ∀ g ∈ callers, g.OnTrack image
  depth_le : callers.length + 1 ≤ max 1 m.maxDepth
  running : m.outcome = none
  frame : f.Sound image r

/-- Going on with a sound frame inside its code is a sound end of an instruction. -/
theorem Ready.done_resume (h : Ready image m callers f r) {g : Frame}
    (hg : g.OnTrack image) : Executed.Sound image callers m.maxDepth (done (m.resume callers g)) where
  pools := ⟨h.pools.image_eq, h.pools.consts_size, h.pools.consts_fit, h.pools.globals_size,
    h.pools.globals_fit⟩
  limit_eq := rfl
  depth_le := by simpa [done, resume] using h.depth_le
  of_done _ := by
    refine ⟨?_, by simp [done, resume], by simp [done, resume, h.running]⟩
    intro g' hg'
    rcases List.mem_cons.mp hg' with rfl | hg'
    · exact hg
    · exact h.callers_onTrack g' hg'
  of_fault := by simp [done]

/-- A fault other than a dangling reference is a sound end of an instruction, if the running
frame is left inside its code or an operand was missing. -/
theorem Ready.faulted_resume (h : Ready image m callers f r) {g : Frame} {fault : Fault}
    (hg : g.OnTrack image ∨ fault = .stackUnderflow ∧ g.PastEnd image)
    (hf : fault ≠ .danglingReference) :
    Executed.Sound image callers m.maxDepth (faulted fault (m.resume callers g)) where
  pools := ⟨h.pools.image_eq, h.pools.consts_size, h.pools.consts_fit, h.pools.globals_size,
    h.pools.globals_fit⟩
  limit_eq := rfl
  depth_le := by simpa [faulted, resume] using h.depth_le
  of_done := by simp [faulted]
  of_fault fault' hfault := by
    simp only [faulted, Option.some.injEq] at hfault
    subst hfault
    exact ⟨hf, g, rfl, hg⟩

/-- Pushing the result of an operation is sound if the result fits. -/
theorem Ready.pushResult (h : Ready image m callers f r) (hpc : f.pc < r.code.size)
    {stack : List Value} {result : Except Fault Value} (hs : ∀ v ∈ stack, v.Fits image)
    (hok : ∀ v, result = .ok v → v.Fits image)
    (herr : ∀ fault, result = .error fault → fault ≠ .danglingReference) :
    Executed.Sound image callers m.maxDepth (m.pushResult callers f stack result) := by
  cases result with
  | ok v =>
      refine h.done_resume ⟨r, h.frame.moved ?_, hpc⟩
      simpa using ⟨hok v rfl, hs⟩
  | error fault => exact h.faulted_resume (.inl ⟨r, h.frame.moved hs, hpc⟩) (herr fault rfl)

/-- Taking operands splits the stack. -/
theorem popMany?_eq_some {count : Nat} {stack items rest : List Value}
    (h : popMany? count stack = some (items, rest)) :
    items.length = count ∧ stack = items.reverse ++ rest := by
  unfold popMany? at h
  split at h
  · simp at h
  · next hlt =>
      simp only [Option.some.injEq, Prod.mk.injEq] at h
      obtain ⟨rfl, rfl⟩ := h
      simp only [List.length_reverse, List.length_take, List.reverse_reverse,
        List.take_append_drop, and_true]
      omega

/-- An input is a string, so it fits. -/
theorem fits_of_inputAt {u v : Value} (h : m.inputAt u = .ok v) : v.Fits image := by
  unfold inputAt input at h
  split at h
  · dsimp only at h
    split at h <;> simp at h
    subst h; simp
  · simp at h

/-- A result of a builtin fits if its arguments do. -/
theorem fits_of_callBuiltin {b : Builtin} {args : List Value} {v : Value}
    (ha : ∀ v ∈ args, v.Fits image) (h : (m.callBuiltin b args).2 = .ok v) : v.Fits image := by
  unfold callBuiltin at h
  split at h
  · split at h
    simp only at h
    split at h <;> simp at h
    subst h; simp
  · next u =>
      cases hl : u.length with
      | error e => simp [hl, Except.map] at h
      | ok n => simp [hl, Except.map] at h; subst h; simp
  · exact fits_of_inputAt h
  · simp at h; subst h; simp
  · exact Value.fits_of_push (ha _ (by simp)) (ha _ (by simp)) h
  · simp at h

/-- Reading an input fails only for its index. -/
theorem inputAt_ordinary {u : Value} {fault : Fault} (h : m.inputAt u = .error fault) :
    fault.Ordinary := by
  unfold inputAt input at h
  split at h
  · dsimp only at h
    split at h <;> simp at h
    simp [Fault.Ordinary, ← h]
  · simp at h
    simp [Fault.Ordinary, ← h]

/-- A builtin fails only for its arguments, or for their number. -/
theorem callBuiltin_ordinary {b : Builtin} {args : List Value} {fault : Fault}
    (h : (m.callBuiltin b args).2 = .error fault) : fault.Ordinary := by
  unfold callBuiltin at h
  split at h
  · split at h
    simp only at h
    split at h <;> simp at h
    simp [Fault.Ordinary, ← h]
  · next u =>
      unfold Value.length at h
      split at h <;> simp [Except.map] at h
      simp [Fault.Ordinary, ← h]
  · exact inputAt_ordinary h
  · simp at h
  · exact Value.push_ordinary h
  · simp at h
    simp [Fault.Ordinary, ← h]

/-- A builtin changes nothing but the output. -/
theorem callBuiltin_machine (m : Machine) (b : Builtin) (args : List Value) :
    ∃ output, (m.callBuiltin b args).1 = { m with output } := by
  unfold callBuiltin
  split
  · exact ⟨_, rfl⟩
  all_goals exact ⟨m.output, rfl⟩

/-- **Calls.** Calling a value that fits is sound. A function has a routine, which enters if the
limit of the depth and the number of its arguments allow it; a builtin only pushes its result. -/
theorem Ready.call (h : Ready image m callers f r) (hpc : f.pc < r.code.size) {callee : Value}
    {args : List Value} (hc : callee.Fits image) (ha : ∀ v ∈ args, v.Fits image) :
    Executed.Sound image callers m.maxDepth (m.call callers f callee args) := by
  have hf : f.OnTrack image := ⟨r, h.frame, hpc⟩
  cases callee with
  | function tag index captures =>
      obtain ⟨⟨s, hs, hl⟩, hcap⟩ := Value.fits_function.mp hc
      simp only [Machine.call, h.pools.image_eq, hs]
      by_cases hdepth : m.maxDepth ≤ (m.resume callers f).depth
      · rw [if_pos hdepth]
        exact h.faulted_resume (.inl hf) (by simp)
      · rw [if_neg hdepth]
        cases he : Frame.enter s index captures args with
        | error fault =>
            refine h.faulted_resume (.inl hf) ?_
            unfold Frame.enter at he
            split at he <;> simp at he
            simp [← he]
        | ok g =>
            obtain ⟨hg, hgpc⟩ := Frame.sound_enter hs (h.verified index s hs) hl hcap ha he
            refine ⟨⟨h.pools.image_eq, h.pools.consts_size, h.pools.consts_fit,
              h.pools.globals_size, h.pools.globals_fit⟩, rfl, ?_, ?_, by simp [done]⟩
            · simp only [depth, resume, List.length_cons] at hdepth
              simp only [done, resume, List.length_cons]
              omega
            · intro _
              refine ⟨?_, by simp [done, resume], by simp [done, resume, h.running]⟩
              intro g' hg'
              simp only [done, resume, List.mem_cons] at hg'
              rcases hg' with rfl | rfl | hg'
              · exact ⟨s, hg, hgpc⟩
              · exact hf
              · exact h.callers_onTrack g' hg'
  | builtin b =>
      obtain ⟨output, hm⟩ := callBuiltin_machine m b args
      simp only [Machine.call, hm]
      have h' : Ready image { m with output } callers f r :=
        ⟨h.verified, ⟨h.pools.image_eq, h.pools.consts_size, h.pools.consts_fit,
          h.pools.globals_size, h.pools.globals_fit⟩, h.callers_onTrack, h.depth_le, h.running,
          h.frame⟩
      exact h'.pushResult hpc h.frame.stack_fit (fun v hv => fits_of_callBuiltin ha hv)
        (fun fault hfault => (callBuiltin_ordinary hfault).1)
  | _ => exact h.faulted_resume (.inl hf) (by simp)

/-- **Returns.** Handing over a value that fits is sound. Without a caller it is the result of the
run, and otherwise the caller goes on with it. -/
theorem Ready.leave (h : Ready image m callers f r) {v : Value} (hv : v.Fits image) :
    Executed.Sound image callers m.maxDepth (m.leave callers v) := by
  have hp : ∀ (fs : List Frame) (o : Option Outcome),
      Pools image { m with frames := fs, outcome := o } := fun _ _ =>
    ⟨h.pools.image_eq, h.pools.consts_size, h.pools.consts_fit, h.pools.globals_size,
      h.pools.globals_fit⟩
  cases callers with
  | nil => exact ⟨hp _ _, rfl, by simp [Machine.leave, done], by simp [Machine.leave, done],
      by simp [Machine.leave, done]⟩
  | cons g callers =>
      obtain ⟨s, hs, hpc⟩ := h.callers_onTrack g (by simp)
      have hd := h.depth_le
      refine ⟨hp _ _, rfl, ?_, ?_, by simp [Machine.leave, done]⟩
      · simp only [Machine.leave, done, resume, List.length_cons] at hd ⊢
        omega
      · intro _
        refine ⟨?_, by simp [Machine.leave, done, resume],
          by simp [Machine.leave, done, resume, h.running]⟩
        intro g' hg'
        simp only [Machine.leave, done, resume, List.mem_cons] at hg'
        rcases hg' with rfl | hg'
        · refine ⟨s, hs.moved ?_, hpc⟩
          simpa using ⟨hv, hs.stack_fit⟩
        · exact h.callers_onTrack g' (by simp [hg'])

/-- An instruction without operands on the stack faults for want of them. -/
theorem Ready.underflow (h : Ready image m callers f r) (hpc : f.pc ≤ r.code.size) :
    Executed.Sound image callers m.maxDepth
      (faulted .stackUnderflow (m.resume callers { f with stack := [] })) := by
  refine h.faulted_resume ?_ (by simp)
  rcases Nat.lt_or_eq_of_le hpc with hlt | heq
  · exact .inl ⟨r, h.frame.moved (by simp), hlt⟩
  · exact .inr ⟨rfl, r, h.frame.moved (by simp), heq⟩

/-! ### Families of instructions

Instructions that treat their operands alike are taken together, with their operands on the stack.
If some are missing, all instructions do the same. -/

/-- The topmost operand and those below it fit, if there is one. -/
theorem Ready.operand (h : Ready image m callers f r) (hlen : 1 ≤ f.stack.length) :
    ∃ v st, f.stack = v :: st ∧ v.Fits image ∧ ∀ u ∈ st, u.Fits image := by
  obtain ⟨v, st, hs⟩ := List.exists_cons_of_length_pos hlen
  exact ⟨v, st, hs, List.forall_mem_cons.mp (hs ▸ h.frame.stack_fit)⟩

/-- The two topmost operands and those below them fit, if there are two. -/
theorem Ready.two_operands (h : Ready image m callers f r) (hlen : 2 ≤ f.stack.length) :
    ∃ v w st, f.stack = v :: w :: st ∧ v.Fits image ∧ w.Fits image ∧ ∀ u ∈ st, u.Fits image := by
  obtain ⟨v, rest, hs, hv, hrest⟩ := h.operand (Nat.le_of_succ_le hlen)
  rw [hs, List.length_cons] at hlen
  obtain ⟨w, st, rfl⟩ := List.exists_cons_of_length_pos (Nat.le_of_succ_le_succ hlen)
  exact ⟨v, w, st, hs, hv, List.forall_mem_cons.mp hrest⟩

/-- Operands that are taken fit, and so do those that stay. -/
theorem Ready.operands (h : Ready image m callers f r) {count : Nat} {items rest : List Value}
    (hp : popMany? count f.stack = some (items, rest)) :
    items.length = count ∧ (∀ u ∈ items, u.Fits image) ∧ ∀ u ∈ rest, u.Fits image := by
  obtain ⟨hl, hsplit⟩ := popMany?_eq_some hp
  have hst := h.frame.stack_fit
  rw [hsplit] at hst
  exact ⟨hl, fun u hu => hst u (by simp [hu]), fun u hu => hst u (by simp [hu])⟩

/-- Going on with other operands, which fit. -/
theorem Ready.next (h : Ready image m callers f r) (hpc : f.pc < r.code.size) {stack : List Value}
    (hs : ∀ v ∈ stack, v.Fits image) :
    Executed.Sound image callers m.maxDepth (done (m.resume callers { f with stack })) :=
  h.done_resume ⟨r, h.frame.moved hs, hpc⟩

/-- **Loads.** What is loaded is there, since the image was verified: slots, globals, captures and
constants are looked up below their numbers. -/
theorem Ready.execute_load (h : Ready image m callers f r) {i : Instr} (hi : i.Refers image r)
    (hpc : f.pc < r.code.size) (hload : i.isLoad = true) :
    Executed.Sound image callers m.maxDepth (m.execute callers f i) := by
  have hpush : ∀ {v : Value}, v.Fits image →
      Executed.Sound image callers m.maxDepth
        (done (m.resume callers { f with stack := v :: f.stack })) := fun hv =>
    h.next hpc (List.forall_mem_cons.mpr ⟨hv, h.frame.stack_fit⟩)
  cases i with
  | loadConst c =>
      have hc : c < m.consts.size := by rw [h.pools.consts_size]; exact hi
      simp only [Machine.execute, Array.getElem?_eq_getElem hc]
      exact hpush (h.pools.consts_fit _ (Array.getElem_mem hc))
  | loadLocal slot =>
      have hc : slot < f.slots.size := by rw [h.frame.slots_size]; exact hi
      simp only [Machine.execute, Array.getElem?_eq_getElem hc]
      exact hpush (h.frame.slots_fit _ (Array.getElem_mem hc))
  | loadGlobal slot =>
      have hc : slot < m.globals.size := by rw [h.pools.globals_size]; exact hi
      simp only [Machine.execute, Array.getElem?_eq_getElem hc]
      exact hpush (h.pools.globals_fit _ (Array.getElem_mem hc))
  | loadCapture c =>
      have hc : c < f.captures.length := by rw [h.frame.captures_length]; exact hi
      simp only [Machine.execute, List.getElem?_eq_getElem hc]
      exact hpush (h.frame.captures_fit _ (List.getElem_mem hc))
  | _ => cases hload

/-- **Stores.** A slot keeps a value that fits. -/
theorem Ready.execute_store (h : Ready image m callers f r) {i : Instr}
    (hpc : f.pc < r.code.size) (hstore : i.isStore = true)
    (hlen : i.operands ≤ f.stack.length) :
    Executed.Sound image callers m.maxDepth (m.execute callers f i) := by
  cases i with
  | storeLocal slot =>
      obtain ⟨v, st, hs, hv, hst⟩ := h.operand hlen
      simp only [Machine.execute, hs]
      exact h.done_resume ⟨r, h.frame.stored hv hst, hpc⟩
  | storeGlobal slot =>
      obtain ⟨v, st, hs, hv, hst⟩ := h.operand hlen
      simp only [Machine.execute, hs]
      have h' : Ready image { m with globals := m.globals.setIfInBounds slot v } callers f r := by
        refine ⟨h.verified, ⟨h.pools.image_eq, h.pools.consts_size, h.pools.consts_fit, ?_, ?_⟩,
          h.callers_onTrack, h.depth_le, h.running, h.frame⟩
        · simpa using h.pools.globals_size
        · intro u hu
          rcases Array.mem_or_eq_of_mem_setIfInBounds hu with hu | rfl
          · exact h.pools.globals_fit u hu
          · exact hv
      exact h'.next hpc hst
  | _ => cases hstore

/-- **Function values.** A function that is made exists and gets the captures of its routine. -/
theorem Ready.execute_closure (h : Ready image m callers f r) {g : Nat}
    (hg : g < image.routines.size) (hpc : f.pc < r.code.size) :
    Executed.Sound image callers m.maxDepth (m.execute callers f (.closure g)) := by
  obtain ⟨s, hs⟩ : ∃ s, image.routines[g]? = some s := ⟨_, Array.getElem?_eq_getElem hg⟩
  simp only [Machine.execute, h.pools.image_eq, hs]
  cases hp : popMany? s.captures f.stack with
  | none => exact h.faulted_resume (.inl ⟨r, h.frame, hpc⟩) (by simp)
  | some split =>
      obtain ⟨captures, rest⟩ := split
      obtain ⟨hl, hcaptures, hrest⟩ := h.operands hp
      have h' : Ready image { m with nextTag := m.nextTag + 1 } callers f r :=
        ⟨h.verified, ⟨h.pools.image_eq, h.pools.consts_size, h.pools.consts_fit,
          h.pools.globals_size, h.pools.globals_fit⟩, h.callers_onTrack, h.depth_le, h.running,
          h.frame⟩
      have hv : (Value.function m.nextTag g captures).Fits image :=
        Value.fits_function.mpr ⟨⟨s, hs, hl⟩, hcaptures⟩
      exact h'.next hpc (List.forall_mem_cons.mpr ⟨hv, hrest⟩)

/-- **Lists.** A list of values that fit fits. -/
theorem Ready.execute_buildList (h : Ready image m callers f r) (count : Nat)
    (hpc : f.pc < r.code.size) :
    Executed.Sound image callers m.maxDepth (m.execute callers f (.buildList count)) := by
  simp only [Machine.execute]
  cases hp : popMany? count f.stack with
  | none => exact h.faulted_resume (.inl ⟨r, h.frame, hpc⟩) (by simp)
  | some split =>
      obtain ⟨items, rest⟩ := split
      obtain ⟨-, hitems, hrest⟩ := h.operands hp
      exact h.next hpc (List.forall_mem_cons.mpr ⟨Value.fits_list.mpr hitems, hrest⟩)

/-- **Items.** A changed list fits if the list and the new item do. -/
theorem Ready.execute_setItem (h : Ready image m callers f r) (hpc : f.pc < r.code.size)
    (hlen : 3 ≤ f.stack.length) :
    Executed.Sound image callers m.maxDepth (m.execute callers f .setItem) := by
  obtain ⟨v, index, rest, hs, hv, -, hrest⟩ := h.two_operands (Nat.le_of_succ_le hlen)
  rw [hs, List.length_cons, List.length_cons] at hlen
  obtain ⟨target, st, rfl⟩ :=
    List.exists_cons_of_length_pos (Nat.le_of_succ_le_succ (Nat.le_of_succ_le_succ hlen))
  obtain ⟨htarget, hst⟩ := List.forall_mem_cons.mp hrest
  simp only [Machine.execute, hs]
  cases hset : target.setItem index v with
  | error fault =>
      exact h.faulted_resume (.inl ⟨r, h.frame.moved hst, hpc⟩) (Value.setItem_ordinary hset).1
  | ok changed =>
      have hch := Value.fits_of_setItem htarget hv hset
      exact h.next hpc (List.forall_mem_cons.mpr ⟨hch, List.forall_mem_cons.mpr ⟨hv, hst⟩⟩)

/-- **Operators.** What is computed from operands that fit fits. A list only holds what it was
given, and other operators make no lists and no functions. -/
theorem Ready.execute_operator (h : Ready image m callers f r) {i : Instr}
    (hpc : f.pc < r.code.size) (hop : i.isOperator = true)
    (hlen : i.operands ≤ f.stack.length) :
    Executed.Sound image callers m.maxDepth (m.execute callers f i) := by
  cases i with
  | unary op =>
      obtain ⟨v, st, hs, -, hst⟩ := h.operand hlen
      simp only [Machine.execute, hs]
      exact h.pushResult hpc hst (fun _ => Value.fits_of_unary)
        fun _ he => (Value.unary_ordinary he).1
  | cast target =>
      obtain ⟨v, st, hs, -, hst⟩ := h.operand hlen
      simp only [Machine.execute, hs]
      exact h.pushResult hpc hst (fun _ => Value.fits_of_cast)
        fun _ he => (Value.cast_ordinary he).1
  | binary op =>
      obtain ⟨right, left, st, hs, -, -, hst⟩ := h.two_operands hlen
      simp only [Machine.execute, hs]
      exact h.pushResult hpc hst (fun _ => Value.fits_of_binary)
        fun _ he => (Value.binary_ordinary he).1
  | getItem =>
      obtain ⟨index, target, st, hs, -, htarget, hst⟩ := h.two_operands hlen
      simp only [Machine.execute, hs]
      exact h.pushResult hpc hst (fun _ => Value.fits_of_getItem htarget)
        fun _ he => (Value.getItem_ordinary he).1
  | _ => cases hop

/-- A condition is a truth value, or the instruction fails. -/
theorem Ready.branch (h : Ready image m callers f r) {v : Value} {yes no other : Frame}
    (hyes : yes.OnTrack image) (hno : no.OnTrack image) (hother : other.OnTrack image) :
    Executed.Sound image callers m.maxDepth (match truth v with
      | .ok true => done (m.resume callers yes)
      | .ok false => done (m.resume callers no)
      | .error fault => faulted fault (m.resume callers other)) :=
  truth_cases (h.done_resume hyes) (h.done_resume hno)
    fun _ ht => h.faulted_resume (.inl hother) (truth_ordinary ht).1

/-- **Jumps.** A jump leads into the code of the routine, whether it is taken or not. -/
theorem Ready.execute_jump (h : Ready image m callers f r) {i : Instr} {target : Nat}
    (hi : i.Refers image r) (hjump : i.target? = some target)
    (hlt : i.isFinal = false → f.pc < r.code.size) (hlen : i.operands ≤ f.stack.length) :
    Executed.Sound image callers m.maxDepth (m.execute callers f i) := by
  cases i with
  | jump target => exact h.done_resume ⟨r, h.frame.moved h.frame.stack_fit, hi⟩
  | jumpIfFalse target =>
      obtain ⟨v, st, hs, hv, hst⟩ := h.operand hlen
      simp only [Machine.execute, hs]
      exact h.branch ⟨r, h.frame.moved hst, hlt rfl⟩ ⟨r, h.frame.moved hst, hi⟩
        ⟨r, h.frame.moved hst, hlt rfl⟩
  | jumpIfTrueOrPop target =>
      obtain ⟨v, st, hs, hv, hst⟩ := h.operand hlen
      simp only [Machine.execute, hs]
      exact h.branch ⟨r, h.frame.moved (List.forall_mem_cons.mpr ⟨hv, hst⟩), hi⟩
        ⟨r, h.frame.moved hst, hlt rfl⟩ ⟨r, h.frame, hlt rfl⟩
  | jumpIfFalseOrPop target =>
      obtain ⟨v, st, hs, hv, hst⟩ := h.operand hlen
      simp only [Machine.execute, hs]
      exact h.branch ⟨r, h.frame.moved hst, hlt rfl⟩
        ⟨r, h.frame.moved (List.forall_mem_cons.mpr ⟨hv, hst⟩), hi⟩ ⟨r, h.frame, hlt rfl⟩
  | _ => cases hjump

/-- **Calls.** The arguments and the callee are operands, so they fit. -/
theorem Ready.execute_call (h : Ready image m callers f r) (count : Nat)
    (hpc : f.pc < r.code.size) :
    Executed.Sound image callers m.maxDepth (m.execute callers f (.call count)) := by
  simp only [Machine.execute]
  cases hp : popMany? count f.stack with
  | none => exact h.faulted_resume (.inl ⟨r, h.frame, hpc⟩) (by simp)
  | some split =>
      obtain ⟨args, rest⟩ := split
      obtain ⟨-, hargs, hrest⟩ := h.operands hp
      cases rest with
      | nil => exact h.underflow (Nat.le_of_lt hpc)
      | cons callee st =>
          obtain ⟨hcallee, hst⟩ := List.forall_mem_cons.mp hrest
          have h' : Ready image m callers { f with stack := st } r :=
            ⟨h.verified, h.pools, h.callers_onTrack, h.depth_le, h.running, h.frame.moved hst⟩
          exact h'.call hpc hcallee hargs

/-- **One instruction.** An instruction of a verified routine that finds its operand is sound,
whatever is on the stack. -/
theorem Ready.execute (h : Ready image m callers f r) {i : Instr} (hi : i.Refers image r)
    (hle : f.pc ≤ r.code.size) (hlt : i.isFinal = false → f.pc < r.code.size) :
    Executed.Sound image callers m.maxDepth (m.execute callers f i) := by
  rcases Nat.lt_or_ge f.stack.length i.operands with hshort | hlen
  · rw [execute_of_short hshort]
    exact h.underflow hle
  cases i with
  | pop =>
      obtain ⟨v, st, hs, -, hst⟩ := h.operand hlen
      simpa only [Machine.execute, hs] using h.next (hlt rfl) hst
  | copy =>
      obtain ⟨v, st, hs, hv, hst⟩ := h.operand hlen
      simp only [Machine.execute, hs]
      exact h.next (hlt rfl) (by simpa using ⟨hv, hst⟩)
  | loadConst _ | loadLocal _ | loadGlobal _ | loadCapture _ =>
      exact h.execute_load hi (hlt rfl) rfl
  | storeLocal _ | storeGlobal _ => exact h.execute_store (hlt rfl) rfl hlen
  | closure g => exact h.execute_closure hi (hlt rfl)
  | buildList count => exact h.execute_buildList count (hlt rfl)
  | getItem | unary _ | binary _ | cast _ => exact h.execute_operator (hlt rfl) rfl hlen
  | setItem => exact h.execute_setItem (hlt rfl) hlen
  | jump _ | jumpIfFalse _ | jumpIfTrueOrPop _ | jumpIfFalseOrPop _ =>
      exact h.execute_jump hi rfl hlt hlen
  | call count => exact h.execute_call count (hlt rfl)
  | ret =>
      obtain ⟨v, st, hs, hv, -⟩ := h.operand hlen
      simpa only [Machine.execute, hs] using h.leave hv

end Execute

/-! ### Runs -/

/-- The states of a run: any number of steps from the start, and requests to stop in
between. -/
inductive Reachable (start : Machine) : Machine → Prop
  | start : Reachable start start
  | step {m : Machine} : Reachable start m → Reachable start m.step
  | cancel {m : Machine} : Reachable start m → Reachable start m.cancel

/-- The invariant of a run of an image. -/
structure Sound (image : Image) (m : Machine) : Prop where
  pools : m.Pools image
  depth_le : m.frames.length ≤ max 1 m.maxDepth
  result : m.frames = [] → ∃ v, m.outcome = some (.ok v)
  callers : ∀ f ∈ m.frames.tail, f.OnTrack image
  top : ∀ f ∈ m.frames.head?, f.OnTrack image ∨
    f.PastEnd image ∧ ∃ e, m.outcome = some (.error e) ∧ e.fault = .stackUnderflow
  no_dangling : ∀ e, m.outcome = some (.error e) → e.fault ≠ .danglingReference

section Runs

variable {image : Image} {m : Machine}

/-- The machine before the first instruction, in the frame of the entry. -/
def initial (image : Image) (o : RunOptions) (frame : Frame) : Machine :=
  { image
    consts := image.consts.mapIdx fun i c => c.toValue i
    inputs := o.inputs
    maxDepth := o.maxDepth
    globals := Array.replicate image.globals .unit
    frames := [frame]
    nextTag := image.consts.size
    output := { limit := o.outputLimit }
    budget := ⟨o.maxSteps⟩
    cancelled := false
    outcome := none
    steps := 0 }

/-- A machine that starts has a verified image and is in the frame of its entry. -/
theorem start_eq_ok {o : RunOptions} (h : Machine.start image o = .ok m) :
    image.verify = .ok () ∧ ∃ entry frame, image.routines[0]? = some entry ∧
      Frame.enter entry 0 [] [] = .ok frame ∧ m = initial image o frame := by
  unfold Machine.start at h
  cases hv : image.verify with
  | error e => simp [hv, bind, Except.bind] at h
  | ok _ =>
      obtain ⟨⟨entry, he, -⟩, -⟩ := Image.verify_eq_ok_iff.mp hv
      simp only [hv, bind, Except.bind, he, Option.getD_some] at h
      cases hf : Frame.enter entry 0 [] [] with
      | error e => simp [hf, throw, throwThe, MonadExceptOf.throw] at h
      | ok frame =>
          simp only [hf, pure, Except.pure, Except.ok.injEq] at h
          exact ⟨rfl, entry, frame, he, hf, h.symm⟩

/-- A verified image starts: its entry has no parameters. -/
theorem exists_start {image : Image} (h : image.verify = .ok ()) (o : RunOptions) :
    ∃ m, Machine.start image o = .ok m := by
  obtain ⟨⟨entry, hentry, hparams, -⟩, -⟩ := Image.verify_eq_ok_iff.mp h
  simp [Machine.start, h, hentry, Frame.enter, hparams, bind, Except.bind, pure, Except.pure]

/-- A machine starts sound. -/
theorem sound_start {o : RunOptions} (h : Machine.start image o = .ok m) : m.Sound image := by
  obtain ⟨hv, entry, frame, he, hf, rfl⟩ := start_eq_ok h
  obtain ⟨⟨entry', he', -, hc⟩, hconst, hroutine⟩ := Image.verify_eq_ok_iff.mp hv
  obtain rfl := Option.some.inj (he.symm.trans he')
  have hsound := Frame.sound_enter he (hroutine 0 entry he) (by simp [hc]) (by simp)
    (by simp) hf
  refine ⟨⟨rfl, by simp [initial], ?_, by simp [initial], by simp [initial]⟩,
    Nat.le_max_left _ _, by simp [initial], by simp [initial], ?_, by simp [initial]⟩
  · intro v hv
    obtain ⟨i, hi, rfl⟩ := Array.mem_mapIdx.mp hv
    exact Const.fits_toValue (hconst i _ (Array.getElem?_eq_getElem hi)) i
  · intro g hg
    simp only [initial, List.head?_cons, Option.mem_def, Option.some.injEq] at hg
    subst hg
    exact .inl ⟨entry, hsound⟩

/-- Ending a run with a fault before an instruction keeps it sound. -/
theorem Sound.fail (h : m.Sound image) (hr : m.outcome = none) {fault : Fault}
    {function pc : Nat} (hne : m.frames ≠ []) (hf : fault ≠ .danglingReference) :
    (m.fail fault function pc).Sound image where
  pools := ⟨h.pools.image_eq, h.pools.consts_size, h.pools.consts_fit, h.pools.globals_size,
    h.pools.globals_fit⟩
  depth_le := h.depth_le
  result hnil := absurd hnil hne
  callers := h.callers
  top f hf' := by
    rcases h.top f hf' with ht | ⟨-, e, he, -⟩
    · exact .inl ht
    · simp [hr] at he
  no_dangling e he := by
    simp only [Machine.fail, Option.some.injEq, Except.error.injEq] at he
    simpa [← he] using hf

/-- An instruction that is done leaves a sound machine. -/
theorem Executed.Sound.sound_of_done {callers : List Frame} {limit : Nat} {n : Machine}
    (h : Executed.Sound image callers limit (n, none)) : n.Sound image := by
  obtain ⟨htrack, hresult, hok⟩ := h.of_done rfl
  have hdepth := h.depth_le
  rw [← h.limit_eq] at hdepth
  exact ⟨h.pools, hdepth, hresult, fun f hf => htrack f (List.mem_of_mem_tail hf),
    fun f hf => .inl (htrack f (List.mem_of_mem_head? hf)), fun e he => absurd he (hok e)⟩

/-- An instruction that faults leaves a sound machine, once the fault is recorded. The frame on top
may stand behind its code now, if the fault says that an operand is missing. -/
theorem Executed.Sound.sound_of_fault {callers : List Frame} {limit function pc : Nat}
    {n : Machine} {fault : Fault} (hc : ∀ g ∈ callers, g.OnTrack image)
    (h : Executed.Sound image callers limit (n, some fault)) :
    (n.fail fault function pc).Sound image := by
  obtain ⟨hne, f, hf, htop⟩ := h.of_fault fault rfl
  have hdepth := h.depth_le
  rw [← h.limit_eq] at hdepth
  have hframes : (n.fail fault function pc).frames = f :: callers := hf
  refine ⟨⟨h.pools.image_eq, h.pools.consts_size, h.pools.consts_fit, h.pools.globals_size,
    h.pools.globals_fit⟩, hdepth, by simp [hframes], ?_, ?_, ?_⟩
  · intro g hg
    rw [hframes] at hg
    exact hc g hg
  · intro g hg
    rw [hframes, List.head?_cons, Option.mem_def, Option.some.injEq] at hg
    subst hg
    rcases htop with ht | ⟨rfl, hend⟩
    · exact .inl ht
    · exact .inr ⟨hend, _, rfl, rfl⟩
  · intro e he
    simp only [Machine.fail, Option.some.injEq, Except.error.injEq] at he
    simpa [← he] using hne

/-- **One step.** A step of a sound machine of a verified image is sound. The verifier has looked at
the instruction that the running frame stands at, so that is there and refers to what is there. -/
theorem Sound.step (hv : image.verify = .ok ()) (h : m.Sound image) : m.step.Sound image := by
  obtain ⟨-, -, hroutine⟩ := Image.verify_eq_ok_iff.mp hv
  cases ho : m.outcome with
  | some o =>
      rw [step_of_outcome ho]
      exact h
  | none =>
      rcases hfs : m.frames with - | ⟨f, callers⟩
      · obtain ⟨v, hval⟩ := h.result hfs
        simp [ho] at hval
      have hne : m.frames ≠ [] := by simp [hfs]
      -- The running frame is on track, so there is an instruction to fetch.
      obtain ⟨r, hf, hpc⟩ : f.OnTrack image := by
        rcases h.top f (by simp [hfs]) with ht | ⟨-, e, he, -⟩
        · exact ht
        · simp [ho] at he
      have hr := hroutine _ _ hf.routine
      obtain ⟨i, hi⟩ : ∃ i, r.code[f.pc]? = some i := ⟨_, Array.getElem?_eq_getElem hpc⟩
      have hfetch : m.fetch? f = some i := by
        simp only [fetch?, h.pools.image_eq, hf.routine, Option.bind_some, hi]
      have hcallers : ∀ g ∈ callers, g.OnTrack image := fun g hg =>
        h.callers g (by simp [hfs, hg])
      have hready (budget : Budget) : Ready image { m with budget, steps := m.steps + 1 } callers
          { f with pc := f.pc + 1 } r :=
        ⟨hroutine, ⟨h.pools.image_eq, h.pools.consts_size, h.pools.consts_fit,
          h.pools.globals_size, h.pools.globals_fit⟩, hcallers,
          by simpa [hfs] using h.depth_le, ho, hf.moved hf.stack_fit⟩
      have hexec (budget : Budget) :=
        (hready budget).execute (hr.refers _ _ hi) hpc (hr.succ_lt_size hi)
      have hway := step_way ho hfs
      generalize m.step = n at hway ⊢
      cases hway with
      | cancelled => exact h.fail ho hne (by simp)
      | exhausted => exact h.fail ho hne (by simp)
      | missing _ _ hnone => cases hfetch.symm.trans hnone
      | executed _ _ hsome hx =>
          cases hfetch.symm.trans hsome
          exact (hx ▸ hexec _).sound_of_done
      | faulted _ _ hsome hx =>
          cases hfetch.symm.trans hsome
          exact (hx ▸ hexec _).sound_of_fault hcallers

/-- Every state of a run of a verified image is sound. -/
theorem Reachable.sound {o : RunOptions} {start : Machine}
    (hs : Machine.start image o = .ok start) (h : Reachable start m) : m.Sound image := by
  have hv := (start_eq_ok hs).1
  induction h with
  | start => exact sound_start hs
  | step _ ih => exact ih.step hv
  | cancel _ ih =>
      exact ⟨⟨ih.pools.image_eq, ih.pools.consts_size, ih.pools.consts_fit, ih.pools.globals_size,
        ih.pools.globals_fit⟩, ih.depth_le, ih.result, ih.callers, ih.top, ih.no_dangling⟩

end Runs

/-! ### Nothing is out of range -/

/-- Everything that the next instruction of a frame looks up is there: constants, slots,
globals, captures, routines (also those of the functions it may call) and jump targets. -/
def InRange (m : Machine) (f : Frame) (r : Routine) : Instr → Prop
  | .loadConst i => i < m.consts.size
  | .loadLocal i | .storeLocal i => i < f.slots.size
  | .loadGlobal i | .storeGlobal i => i < m.globals.size
  | .loadCapture i => i < f.captures.length
  | .closure i => i < m.image.routines.size
  | .jump t | .jumpIfFalse t | .jumpIfTrueOrPop t | .jumpIfFalseOrPop t => t < r.code.size
  | .call _ => ∀ tag index captures, .function tag index captures ∈ f.stack →
      index < m.image.routines.size
  | _ => True

/-- A state in which nothing is out of range. -/
structure Safe (m : Machine) : Prop where
  /-- Every frame runs a routine and has exactly its slots and captures. Its offset is inside
  the code, but for the running frame of a run that ended because an operand was missing. -/
  frames : ∀ f ∈ m.frames, ∃ r, m.image.routines[f.function]? = some r ∧
    f.slots.size = r.slots ∧ f.captures.length = r.captures ∧
    (f.pc < r.code.size ∨ f.pc = r.code.size ∧ m.frames.head? = some f ∧
      ∃ e, m.outcome = some (.error e) ∧ e.fault = .stackUnderflow)
  /-- Every function value held anywhere exists and has exactly the captures of its
  routine. -/
  values : (∀ v ∈ m.consts, v.Fits m.image) ∧ (∀ v ∈ m.globals, v.Fits m.image) ∧
    ∀ f ∈ m.frames, (∀ v ∈ f.slots, v.Fits m.image) ∧ (∀ v ∈ f.captures, v.Fits m.image) ∧
      ∀ v ∈ f.stack, v.Fits m.image
  /-- A run that has not ended has a next instruction, and what it looks up is there. -/
  next : m.outcome = none → ∃ f callers r i, m.frames = f :: callers ∧
    m.image.routines[f.function]? = some r ∧ r.code[f.pc]? = some i ∧ m.InRange f r i
  no_dangling : ∀ e, m.outcome = some (.error e) → e.fault ≠ .danglingReference
  depth_le : m.depth ≤ max 1 m.maxDepth
  result : m.frames = [] → ∃ v, m.outcome = some (.ok v)

/-- What the operand of an instruction refers to is there in a sound machine. -/
theorem Pools.inRange {image : Image} {m : Machine} {f : Frame} {r : Routine} {i : Instr}
    (h : m.Pools image) (hf : f.Sound image r) (hi : i.Refers image r) : m.InRange f r i := by
  have himage := h.image_eq
  cases i with
  | loadConst c => exact lt_of_lt_of_eq hi h.consts_size.symm
  | loadLocal s | storeLocal s => exact lt_of_lt_of_eq hi hf.slots_size.symm
  | loadGlobal s | storeGlobal s => exact lt_of_lt_of_eq hi h.globals_size.symm
  | loadCapture c => exact lt_of_lt_of_eq hi hf.captures_length.symm
  | closure g => rw [InRange, himage]; exact hi
  | jump t | jumpIfFalse t | jumpIfTrueOrPop t | jumpIfFalseOrPop t => exact hi
  | call count =>
      intro tag index captures hmem
      obtain ⟨⟨s, hs, -⟩, -⟩ := Value.fits_function.mp (hf.stack_fit _ hmem)
      rw [himage]
      exact (Array.getElem?_eq_some_iff.mp hs).1
  | _ => trivial

/-- A sound machine of a verified image is safe: its frames have routines, its values refer to what
is there, and unless it has ended there is an instruction to execute. -/
theorem Sound.safe {image : Image} {m : Machine} (hv : image.verify = .ok ())
    (h : m.Sound image) : m.Safe := by
  obtain ⟨-, -, hroutine⟩ := Image.verify_eq_ok_iff.mp hv
  have himage := h.pools.image_eq
  -- Each frame is the running one or a caller.
  have hsound : ∀ f ∈ m.frames, ∃ r, f.Sound image r ∧
      (f.pc < r.code.size ∨ f.pc = r.code.size ∧ m.frames.head? = some f ∧
        ∃ e, m.outcome = some (.error e) ∧ e.fault = .stackUnderflow) := by
    intro f hf
    rcases hfs : m.frames with - | ⟨g, callers⟩
    · simp [hfs] at hf
    rw [hfs] at hf
    rcases List.mem_cons.mp hf with rfl | hf
    · rcases h.top f (by simp [hfs]) with ⟨r, hr, hpc⟩ | ⟨⟨r, hr, hpc⟩, he⟩
      · exact ⟨r, hr, .inl hpc⟩
      · exact ⟨r, hr, .inr ⟨hpc, rfl, he⟩⟩
    · obtain ⟨r, hr, hpc⟩ := h.callers f (by simp [hfs, hf])
      exact ⟨r, hr, .inl hpc⟩
  refine ⟨?_, ?_, ?_, h.no_dangling, h.depth_le, h.result⟩
  · intro f hf
    obtain ⟨r, hr, hpc⟩ := hsound f hf
    exact ⟨r, himage ▸ hr.routine, hr.slots_size, hr.captures_length, hpc⟩
  · rw [himage]
    refine ⟨h.pools.consts_fit, h.pools.globals_fit, fun f hf => ?_⟩
    obtain ⟨r, hr, -⟩ := hsound f hf
    exact ⟨hr.slots_fit, hr.captures_fit, hr.stack_fit⟩
  · intro ho
    rcases hfs : m.frames with - | ⟨f, callers⟩
    · obtain ⟨v, hval⟩ := h.result hfs
      simp [ho] at hval
    obtain ⟨r, hr, hpc | ⟨-, -, e, he, -⟩⟩ := hsound f (by simp [hfs])
    · obtain ⟨i, hi⟩ : ∃ i, r.code[f.pc]? = some i := ⟨_, Array.getElem?_eq_getElem hpc⟩
      exact ⟨f, callers, r, i, rfl, himage ▸ hr.routine, hi,
        h.pools.inRange hr ((hroutine _ _ hr.routine).refers _ _ hi)⟩
    · simp [ho] at he

/-- **Verified images run safely.** Whatever steps are made from the start of a machine, and
whenever it is asked to stop, nothing is out of range. -/
theorem safe_of_reachable {image : Image} {o : RunOptions} {start m : Machine}
    (hs : Machine.start image o = .ok start) (h : Reachable start m) : m.Safe :=
  (h.sound hs).safe (start_eq_ok hs).1

/-- An image that makes a function with a capture and calls it. -/
def callsClosure : Image :=
  { consts := #[.int 7], globals := 1
    routines := #[
      { name := "main", params := 0, slots := 1, captures := 0,
        code := #[.loadConst 0, .closure 1, .call 0, .ret] },
      { name := "f", params := 0, slots := 0, captures := 1, code := #[.loadCapture 0, .ret] }] }

/-- Inside the call of a capturing function nothing is out of range. -/
theorem callsClosure_safe :
    ∃ start, Machine.start callsClosure {} = .ok start ∧ start.step.step.step.depth = 2 ∧
      start.step.step.step.Safe :=
  ⟨_, rfl, rfl, @safe_of_reachable callsClosure {} _ _ rfl (.step (.step (.step .start)))⟩

/-- A verified image whose only instruction returns a missing operand. -/
def returnsNothing : Image :=
  { consts := #[], globals := 0
    routines := #[{ name := "main", params := 0, slots := 0, captures := 0, code := #[.ret] }] }

/-- The offset of a frame is not always inside the code of its routine: a return without an
operand faults and leaves the frame behind it. -/
theorem pc_eq_size_of_underflow :
    ∃ start, Machine.start returnsNothing {} = .ok start ∧
      ∃ f ∈ start.step.frames, ∃ r, start.step.image.routines[f.function]? = some r ∧
        ¬ f.pc < r.code.size :=
  ⟨_, rfl, _, List.mem_cons_self, _, rfl, by decide⟩

end Machine

end Parlance
