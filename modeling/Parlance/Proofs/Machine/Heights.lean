import Mathlib
import Parlance.Pipeline
import Parlance.Proofs.Code.Heights
import Parlance.Proofs.Machine.Runs
import Parlance.Proofs.Machine.Safety

/-!
# The operand stack follows the heights of the code

A machine that runs disciplined routines never misses an operand, and the operand stack of each
frame has the height that the code has at the offset of the frame. A frame that waits for the
result of a call has one operand less: the result is pushed when the call returns.

## Main results

* `Machine.execute_balanced`: one instruction keeps the heights.
* `Machine.Reachable.balanced`: so does a whole run.
* `CompileOptions.operands_disciplined`: every compiled text has disciplined routines, and no
  run of it misses an operand or leaves one behind.
-/

namespace Parlance

/-- The running frame has the height of its offset. -/
def Frame.Level (height : Nat → Nat → Nat) (f : Frame) : Prop :=
  f.stack.length = height f.function f.pc

/-- A frame that waits for a result lacks one operand. -/
def Frame.Waits (height : Nat → Nat → Nat) (f : Frame) : Prop :=
  f.stack.length + 1 = height f.function f.pc

/-- Each routine of an image has heights. -/
def Image.Disciplined (image : Image) (height : Nat → Nat → Nat) : Prop :=
  ∀ (f : Nat) (r : Routine), image.routines[f]? = some r →
    r.Disciplined image.captureCount (height f)

/-- A frame starts with no operands. -/
theorem Frame.level_enter {captures : Nat → Nat} {height : Nat → Nat → Nat} {r : Routine}
    {function : Nat} {values args : List Value} {f : Frame}
    (h : Frame.enter r function values args = .ok f) (hr : r.Disciplined captures (height function)) :
    f.Level height := by
  unfold Frame.enter at h
  split at h
  · cases h
    exact hr.entry.symm
  · cases h

namespace Machine

variable {image : Image} {height : Nat → Nat → Nat} {m : Machine} {callers : List Frame}
  {f g : Frame} {r : Routine}

/-! ### Instructions -/

/-- What an instruction did keeps the heights. -/
structure Executed.Balanced (height : Nat → Nat → Nat) (e : Executed) : Prop where
  fault_ne : e.2 ≠ some .stackUnderflow
  unfailed : ∀ error, e.1.outcome ≠ some (.error error)
  waiting : ∀ g ∈ e.1.frames.tail, g.Waits height
  running : e.2 = none → ∀ g ∈ e.1.frames.head?, g.Level height

section Executed

variable (ho : m.outcome = none) (hc : ∀ g ∈ callers, g.Waits height)

include ho hc

/-- Going on with a frame at the height of its offset keeps the heights. -/
theorem balanced_done (hg : g.Level height) :
    Executed.Balanced height (done (m.resume callers g)) :=
  ⟨by simp [done], by simp [done, resume, ho], by simpa [done, resume] using hc,
    by simpa [done, resume] using hg⟩

/-- A fault keeps the heights, if it is not that of a missing operand. -/
theorem balanced_faulted {fault : Fault} (hf : fault ≠ .stackUnderflow) :
    Executed.Balanced height (faulted fault (m.resume callers g)) :=
  ⟨by simpa [faulted] using hf, by simp [faulted, resume, ho], by simpa [faulted, resume] using hc,
    by simp [faulted]⟩

/-- A result keeps the heights if the offset has room for one more operand. A fault in its place is
an ordinary one. -/
theorem balanced_pushResult {stack : List Value} {result : Except Fault Value}
    (hs : stack.length + 1 = height f.function f.pc)
    (hr : ∀ fault, result = .error fault → fault.Ordinary) :
    Executed.Balanced height (m.pushResult callers f stack result) := by
  cases result with
  | ok v => exact balanced_done ho hc hs
  | error fault => exact balanced_faulted ho hc (hr fault rfl).2

/-- A call leaves a frame that waits for the result, or pushes it at once. Either way the frame has
one operand more when it goes on. -/
theorem balanced_call (hd : m.image.Disciplined height) (hf : f.Waits height) {callee : Value}
    {args : List Value} : Executed.Balanced height (m.call callers f callee args) := by
  cases callee with
  | function tag index captures =>
      unfold Machine.call
      dsimp only
      split
      · exact balanced_faulted ho hc (by simp)
      · split
        · exact balanced_faulted ho hc (by simp)
        · next r hr =>
            cases he : Frame.enter r index captures args with
            | error fault =>
                refine balanced_faulted ho hc ?_
                unfold Frame.enter at he
                split at he <;> simp at he
                simp [← he]
            | ok g =>
                have hg : g.Level height := Frame.level_enter he (hd index r hr)
                refine ⟨by simp [done], by simp [done, resume, ho], ?_, by simpa [done] using hg⟩
                simpa [done] using ⟨hf, hc⟩
  | builtin b =>
      obtain ⟨output, hm⟩ := callBuiltin_machine m b args
      simp only [Machine.call, hm]
      exact @balanced_pushResult _ { m with output } _ _ ho hc _ _ hf
        fun fault h => callBuiltin_ordinary h
  | _ => exact balanced_faulted ho hc (by simp)

/-- A return resumes the caller with the result it waits for. -/
theorem balanced_leave {v : Value} : Executed.Balanced height (m.leave callers v) := by
  cases callers with
  | nil => constructor <;> simp [leave, done]
  | cons g callers =>
      have hg : g.Waits height := hc g (by simp)
      exact balanced_done ho (fun f hf => hc f (by simp [hf])) hg

end Executed

/-- Operands that are there can be taken. -/
theorem popMany?_of_le {count : Nat} {stack : List Value} (h : count ≤ stack.length) :
    ∃ items rest, popMany? count stack = some (items, rest) ∧
      rest.length = stack.length - count := by
  refine ⟨_, _, if_neg (by omega), ?_⟩
  rw [List.length_drop]

/-! ### Families of instructions

An instruction of a disciplined routine has its operands, and the heights of the offsets that it
leads to are those that it leaves. This is all that each family of instructions needs. -/

/-- The machine in front of an instruction of a disciplined routine. The offset of the running frame
`f` is already that of the next instruction. -/
structure Supplied (height : Nat → Nat → Nat) (m : Machine) (callers : List Frame) (f : Frame)
    (i : Instr) : Prop where
  running : m.outcome = none
  waiting : ∀ g ∈ callers, g.Waits height
  disciplined : m.image.Disciplined height
  enough : i.pops m.image.captureCount ≤ f.stack.length
  next : i.isFinal = false →
    f.stack.length - i.pops m.image.captureCount + i.pushes = height f.function f.pc
  target : ∀ t, i.target? = some t →
    f.stack.length - i.pops m.image.captureCount + i.keeps = height f.function t

section Families

variable {i : Instr}

/-- The machine stands in front of the instruction if its stack has the height of the offset. -/
theorem supplied_of_level (ho : m.outcome = none) (hc : ∀ g ∈ callers, g.Waits height)
    (hd : m.image.Disciplined height) (hr : m.image.routines[f.function]? = some r) {pc : Nat}
    (hpc : f.pc = pc + 1) (hi : r.code[pc]? = some i)
    (hlen : f.stack.length = height f.function pc) : Supplied height m callers f i := by
  have hroutine := hd f.function r hr
  refine ⟨ho, hc, hd, hlen ▸ hroutine.enough pc i hi, fun hf => ?_, fun t ht => ?_⟩
  · rw [hlen, hpc]
    exact (hroutine.next pc i hi hf).2.symm
  · rw [hlen]
    exact (hroutine.target pc i t hi ht).2.symm

namespace Supplied

variable (h : Supplied height m callers f i)

include h

/-- The topmost operand is there. -/
theorem operand (hpops : i.pops m.image.captureCount = 1) : ∃ v st, f.stack = v :: st :=
  List.exists_cons_of_length_pos (Nat.lt_of_lt_of_le Nat.one_pos (hpops ▸ h.enough))

/-- The two topmost operands are there. -/
theorem two_operands (hpops : i.pops m.image.captureCount = 2) :
    ∃ v w st, f.stack = v :: w :: st := by
  have henough := hpops ▸ h.enough
  obtain ⟨v, rest, hs⟩ := List.exists_cons_of_length_pos (Nat.le_of_succ_le henough)
  rw [hs, List.length_cons] at henough
  obtain ⟨w, st, rfl⟩ := List.exists_cons_of_length_pos (Nat.le_of_succ_le_succ henough)
  exact ⟨v, w, st, hs⟩

/-- Going on with the next instruction. -/
theorem go (hfinal : i.isFinal = false) {stack : List Value} {slots : Array Value}
    (hs : stack.length = f.stack.length - i.pops m.image.captureCount + i.pushes) :
    Executed.Balanced height (done (m.resume callers { f with stack, slots })) :=
  balanced_done h.running h.waiting (hs.trans (h.next hfinal))

/-- Going on with the target. -/
theorem jump {t : Nat} (ht : i.target? = some t) {stack : List Value}
    (hs : stack.length = f.stack.length - i.pops m.image.captureCount + i.keeps) :
    Executed.Balanced height (done (m.resume callers { f with stack, pc := t })) :=
  balanced_done h.running h.waiting (hs.trans (h.target t ht))

/-- Going on with the result of an operation. -/
theorem push (hfinal : i.isFinal = false) {stack : List Value} {result : Except Fault Value}
    (hs : stack.length + 1 = f.stack.length - i.pops m.image.captureCount + i.pushes)
    (hr : ∀ fault, result = .error fault → fault.Ordinary) :
    Executed.Balanced height (m.pushResult callers f stack result) :=
  balanced_pushResult h.running h.waiting (hs.trans (h.next hfinal)) hr

/-- **Loads.** One operand more, if what is loaded is there. -/
theorem execute_load (hin : m.InRange f r i) (hload : i.isLoad = true) :
    Executed.Balanced height (m.execute callers f i) := by
  cases i with
  | loadConst c | loadLocal slot | loadGlobal slot =>
      simp only [Machine.execute, Array.getElem?_eq_getElem hin]
      exact h.go rfl rfl
  | loadCapture c =>
      simp only [Machine.execute, List.getElem?_eq_getElem hin]
      exact h.go rfl rfl
  | _ => cases hload

/-- **Stores.** One operand less. -/
theorem execute_store (hstore : i.isStore = true) :
    Executed.Balanced height (m.execute callers f i) := by
  cases i with
  | storeLocal slot =>
      obtain ⟨v, st, hs⟩ := h.operand rfl
      simp only [Machine.execute, hs]
      exact h.go rfl (by simp [hs, Instr.pops, Instr.pushes])
  | storeGlobal slot =>
      obtain ⟨v, st, hs⟩ := h.operand rfl
      simp only [Machine.execute, hs]
      have h' : Supplied height { m with globals := m.globals.setIfInBounds slot v } callers f
          (.storeGlobal slot) :=
        ⟨h.running, h.waiting, h.disciplined, h.enough, h.next, h.target⟩
      exact h'.go rfl (by simp [hs, Instr.pops, Instr.pushes])
  | _ => cases hstore

/-- **Operators.** The result takes the place of the operands. -/
theorem execute_operator (hoperator : i.isOperator = true) :
    Executed.Balanced height (m.execute callers f i) := by
  cases i with
  | getItem =>
      obtain ⟨index, target, st, hs⟩ := h.two_operands rfl
      simp only [Machine.execute, hs]
      exact h.push rfl (by simp [hs, Instr.pops, Instr.pushes]) fun _ => Value.getItem_ordinary
  | unary op =>
      obtain ⟨v, st, hs⟩ := h.operand rfl
      simp only [Machine.execute, hs]
      exact h.push rfl (by simp [hs, Instr.pops, Instr.pushes]) fun _ => Value.unary_ordinary
  | binary op =>
      obtain ⟨right, left, st, hs⟩ := h.two_operands rfl
      simp only [Machine.execute, hs]
      exact h.push rfl (by simp [hs, Instr.pops, Instr.pushes]) fun _ => Value.binary_ordinary
  | cast target =>
      obtain ⟨v, st, hs⟩ := h.operand rfl
      simp only [Machine.execute, hs]
      exact h.push rfl (by simp [hs, Instr.pops, Instr.pushes]) fun _ => Value.cast_ordinary
  | _ => cases hoperator

/-- **Jumps.** The target has what the instruction keeps, and the next instruction what it leaves.
A condition that is no bool is an ordinary fault. -/
theorem execute_jump {t : Nat} (ht : i.target? = some t) :
    Executed.Balanced height (m.execute callers f i) := by
  have hother : ∀ {v : Value} {g : Frame} (fault : Fault), truth v = .error fault →
      Executed.Balanced height (faulted fault (m.resume callers g)) := fun _ he =>
    balanced_faulted h.running h.waiting (truth_ordinary he).2
  cases i with
  | jump t =>
      simp only [Machine.execute]
      exact h.jump rfl rfl
  | jumpIfFalse t =>
      obtain ⟨v, st, hs⟩ := h.operand rfl
      simp only [Machine.execute, hs]
      exact truth_cases (h.go rfl (by simp [hs, Instr.pops, Instr.pushes]))
        (h.jump rfl (by simp [hs, Instr.pops, Instr.keeps])) hother
  | jumpIfTrueOrPop t =>
      obtain ⟨v, st, hs⟩ := h.operand rfl
      simp only [Machine.execute, hs]
      exact truth_cases (h.jump rfl (by simp [hs, Instr.pops, Instr.keeps]))
        (h.go rfl (by simp [hs, Instr.pops, Instr.pushes])) hother
  | jumpIfFalseOrPop t =>
      obtain ⟨v, st, hs⟩ := h.operand rfl
      simp only [Machine.execute, hs]
      exact truth_cases (h.go rfl (by simp [hs, Instr.pops, Instr.pushes]))
        (h.jump rfl (by simp [hs, Instr.pops, Instr.keeps])) hother
  | _ => cases ht

end Supplied

/-- **Function values.** The captured values are there, and the function takes their place. -/
theorem Supplied.execute_closure {index : Nat} (h : Supplied height m callers f (.closure index))
    (hin : index < m.image.routines.size) :
    Executed.Balanced height (m.execute callers f (.closure index)) := by
  obtain ⟨s, hs⟩ : ∃ s, m.image.routines[index]? = some s := ⟨_, Array.getElem?_eq_getElem hin⟩
  have hcount : m.image.captureCount index = s.captures := by simp [Image.captureCount, hs]
  have henough : s.captures ≤ f.stack.length := hcount ▸ h.enough
  obtain ⟨items, rest, hp, hrest⟩ := popMany?_of_le henough
  simp only [Machine.execute, hs, hp]
  have h' : Supplied height { m with nextTag := m.nextTag + 1 } callers f (.closure index) :=
    ⟨h.running, h.waiting, h.disciplined, h.enough, h.next, h.target⟩
  exact h'.go rfl (by simp [Instr.pops, Instr.pushes, hcount, hrest])

/-- **Lists.** The items are there, and the list takes their place. -/
theorem Supplied.execute_buildList {count : Nat}
    (h : Supplied height m callers f (.buildList count)) :
    Executed.Balanced height (m.execute callers f (.buildList count)) := by
  have henough : count ≤ f.stack.length := h.enough
  obtain ⟨items, rest, hp, hrest⟩ := popMany?_of_le henough
  simp only [Machine.execute, hp]
  exact h.go rfl (by simp [Instr.pops, Instr.pushes, hrest])

/-- **Items.** The changed list takes the place of the list, the index and the item. -/
theorem Supplied.execute_setItem (h : Supplied height m callers f .setItem) :
    Executed.Balanced height (m.execute callers f .setItem) := by
  rcases hs : f.stack with - | ⟨v, - | ⟨index, - | ⟨target, st⟩⟩⟩
  iterate 3
    · have henough := h.enough
      simp [hs, Instr.pops] at henough
  · simp only [Machine.execute, hs]
    cases hset : target.setItem index v with
    | ok changed => exact h.go rfl (by simp [hs, Instr.pops, Instr.pushes])
    | error fault => exact balanced_faulted h.running h.waiting (Value.setItem_ordinary hset).2

/-- **Calls.** Behind the arguments there is a callee. The frame waits at the height of the next
instruction, less the result. -/
theorem Supplied.execute_call {count : Nat} (h : Supplied height m callers f (.call count)) :
    Executed.Balanced height (m.execute callers f (.call count)) := by
  have henough : count + 1 ≤ f.stack.length := h.enough
  have hnext : f.stack.length - (count + 1) + 1 = height f.function f.pc := h.next rfl
  obtain ⟨args, rest, hp, hrest⟩ := popMany?_of_le (Nat.le_of_succ_le henough)
  obtain ⟨callee, st, rfl⟩ := List.exists_cons_of_length_pos (show 0 < rest.length by omega)
  rw [List.length_cons] at hrest
  simp only [Machine.execute, hp]
  refine balanced_call h.running h.waiting h.disciplined ?_
  simp only [Frame.Waits]
  omega

end Families

/-- **One instruction.** An instruction of a disciplined routine that finds its operand keeps
the heights. -/
theorem execute_balanced (ho : m.outcome = none) (hc : ∀ g ∈ callers, g.Waits height)
    (hd : m.image.Disciplined height) (hr : m.image.routines[f.function]? = some r) {pc : Nat}
    (hpc : f.pc = pc + 1) {i : Instr} (hi : r.code[pc]? = some i) (hin : m.InRange f r i)
    (hlen : f.stack.length = height f.function pc) :
    Executed.Balanced height (m.execute callers f i) := by
  have h := supplied_of_level ho hc hd hr hpc hi hlen
  cases i with
  | pop | copy =>
      obtain ⟨v, st, hs⟩ := h.operand rfl
      simp only [Machine.execute, hs]
      exact h.go rfl (by simp [hs, Instr.pops, Instr.pushes])
  | loadConst c | loadLocal slot | loadGlobal slot | loadCapture c => exact h.execute_load hin rfl
  | storeLocal slot | storeGlobal slot => exact h.execute_store rfl
  | closure index => exact h.execute_closure hin
  | buildList count => exact h.execute_buildList
  | setItem => exact h.execute_setItem
  | getItem | unary op | binary op | cast target => exact h.execute_operator rfl
  | jump t | jumpIfFalse t | jumpIfTrueOrPop t | jumpIfFalseOrPop t => exact h.execute_jump rfl
  | call count => exact h.execute_call
  | ret =>
      obtain ⟨v, st, hs⟩ := h.operand rfl
      simp only [Machine.execute, hs]
      exact balanced_leave ho hc

/-! ### Runs -/

/-- The operand stacks of a machine have the heights of the code. -/
structure Balanced (height : Nat → Nat → Nat) (m : Machine) : Prop where
  /-- No operand is ever missing. -/
  no_underflow : ∀ e, m.outcome = some (.error e) → e.fault ≠ .stackUnderflow
  running : m.outcome = none → ∀ f ∈ m.frames.head?, f.Level height
  waiting : ∀ f ∈ m.frames.tail, f.Waits height

/-- A machine that fails for another reason than a missing operand is balanced if it was before. -/
theorem Balanced.fail (h : m.Balanced height) {fault : Fault} (hf : fault ≠ .stackUnderflow)
    {function pc : Nat} : (m.fail fault function pc).Balanced height :=
  ⟨by simpa [Machine.fail] using hf, by simp [Machine.fail], h.waiting⟩

/-- **One step.** A step of a disciplined image keeps the heights. A machine that is stopped before
its instruction has lost no operand, and one that executes it has as many as the code says. -/
theorem Balanced.step (hd : m.image.Disciplined height) (hs : m.Safe) (h : m.Balanced height) :
    m.step.Balanced height := by
  cases ho : m.outcome with
  | some o =>
      rw [step_of_outcome ho]
      exact h
  | none =>
      obtain ⟨f, callers, r, i, hfs, hr, hi, hin⟩ := hs.next ho
      have hfetch : m.fetch? f = some i := by simp [fetch?, hr, hi]
      -- Whatever is left of the budget, the instruction finds its operands.
      have hexec (budget : Budget) := @execute_balanced _ { m with budget, steps := m.steps + 1 }
        callers { f with pc := f.pc + 1 } r ho (by simpa [hfs] using h.waiting) hd hr f.pc rfl i hi
        (by cases i <;> exact hin) (h.running ho f (by simp [hfs]))
      have hway := step_way ho hfs
      generalize m.step = n at hway ⊢
      cases hway with
      | cancelled => exact h.fail (by simp)
      | exhausted => exact h.fail (by simp)
      | missing _ _ hnone => cases hfetch.symm.trans hnone
      | executed _ _ hsome hx =>
          cases hfetch.symm.trans hsome
          have hbal := hx ▸ hexec _
          exact ⟨fun e he => absurd he (hbal.unfailed e), fun _ => hbal.running rfl, hbal.waiting⟩
      | @faulted _ _ n fault _ _ hsome hx =>
          cases hfetch.symm.trans hsome
          have hbal := hx ▸ hexec _
          have hne : fault ≠ .stackUnderflow := by
            rintro rfl
            exact hbal.fault_ne rfl
          exact ⟨by simpa [Machine.fail] using hne, by simp [Machine.fail], hbal.waiting⟩

/-- **Runs.** In every state of a run of disciplined routines the operand stacks have the heights
of the code. -/
theorem Reachable.balanced {o : RunOptions} {start : Machine} (hd : image.Disciplined height)
    (hs : Machine.start image o = .ok start) (h : Reachable start m) : m.Balanced height := by
  induction h with
  | start =>
      obtain ⟨-, entry, frame, he, hf, rfl⟩ := start_eq_ok hs
      have hg : frame.Level height := Frame.level_enter hf (hd 0 entry he)
      exact ⟨by simp [initial], by simpa [initial] using hg, by simp [initial]⟩
  | step hreach ih =>
      have himage := (hreach.sound hs).pools.image_eq
      exact ih.step (himage ▸ hd) ((hreach.sound hs).safe (start_eq_ok hs).1)
  | cancel _ ih => exact ⟨ih.no_underflow, ih.running, ih.waiting⟩

/-- So many steps lead to a reachable state. -/
theorem reachable_run (n : Nat) : Reachable m (m.run n) := by
  induction n with
  | zero => exact .start
  | succ n ih =>
      rw [run_add]
      exact .step ih

/-- A run of disciplined routines returns a value when it is the only operand. -/
theorem Balanced.single_of_ret (hd : m.image.Disciplined height) (h : m.Balanced height)
    (ho : m.outcome = none) (hf : f ∈ m.frames.head?) (hi : m.fetch? f = some .ret) :
    f.stack.length = 1 := by
  obtain ⟨r, hr, hi⟩ := Option.bind_eq_some_iff.mp hi
  rw [h.running ho f hf]
  exact (hd f.function r hr).ret f.pc hi

end Machine

/-! ### Compiled texts -/

namespace CompileOptions

variable {o : CompileOptions} {text : List Char} {c : Compilation}

/-- A compiled program is the code of an optimized one. -/
theorem compile_eq_ok (h : o.compile text = .ok c) :
    ∃ a, o.optimized text = .ok a ∧ generate a = .ok c.image := by
  unfold compile at h
  cases ha : o.optimized text with
  | error e => simp [ha, bind, Except.bind] at h
  | ok a =>
      cases hg : generate a with
      | error e => simp [ha, hg, bind, Except.bind, throw, throwThe, MonadExceptOf.throw] at h
      | ok image =>
          simp only [ha, hg, bind, Except.bind, pure, Except.pure, Except.ok.injEq] at h
          exact ⟨a, rfl, by rw [← h, hg]⟩

/-- **Compiled code keeps the stack discipline.** Each routine of a compiled text, optimized or
not, has one height of the operand stack at each offset. In every state of every run the operand
stack of the running frame has the height of its offset, and the frames that wait for a result
lack one operand. So no operand is ever missing, and a function that returns leaves none
behind. -/
theorem operands_disciplined (h : o.compile text = .ok c) :
    ∃ height : Nat → Nat → Nat,
      (∀ (f : Nat) (r : Routine), c.image.routines[f]? = some r →
        r.Disciplined c.image.captureCount (height f)) ∧
      ∀ (run : RunOptions) (start m : Machine), Machine.start c.image run = .ok start →
        Machine.Reachable start m → m.Balanced height ∧
          ∀ f ∈ m.frames.head?, m.outcome = none → m.fetch? f = some .ret →
            f.stack.length = 1 := by
  obtain ⟨a, -, hg⟩ := compile_eq_ok h
  have hassembled := (Image.generated_of_generate hg).toAssembled
  have hheights : ∀ f : Nat, ∃ height, ∀ r : Routine, c.image.routines[f]? = some r →
      r.Disciplined c.image.captureCount height := by
    intro f
    cases hr : c.image.routines[f]? with
    | none => exact ⟨fun _ => 0, by simp⟩
    | some r =>
        obtain ⟨height, hh⟩ := hassembled.disciplined hr
        exact ⟨height, by rintro r' ⟨⟩; exact hh⟩
  choose height hd using hheights
  refine ⟨height, hd, fun run start m hs hreach => ?_⟩
  have hb := hreach.balanced hd hs
  have himage := (hreach.sound hs).pools.image_eq
  exact ⟨hb, fun f hf ho hi => hb.single_of_ret (himage ▸ hd) ho hf hi⟩

/-- A loop with a condition of two parts and a way out in between. -/
def countsUp : List Char :=
  ("let n = 0; while n < 9 && n != 5 \x7b n = n + 1; if n == 3 \x7b break; \x7d \x7d n").toList

/-- What `countsUp` compiles to: the jumps of its loop. -/
theorem compile_countsUp :
    (compile { optimize := false } countsUp).toOption.map (fun c =>
      (Machine.start c.image {}).toOption.map fun m => (m.run 60).outcome.map
        (·.toOption.map Value.display)) = some (some (some (some "3"))) := by
  rw [Grammar.standard_eq]
  decide +kernel

/-- The routines of `countsUp` have heights, and its run keeps to them to its end. -/
theorem countsUp_disciplined :
    ∃ c height start m, compile { optimize := false } countsUp = .ok c ∧
      Machine.start c.image {} = .ok start ∧ Machine.Reachable start m ∧
      m.outcome.isSome = true ∧ c.image.Disciplined height ∧ m.Balanced height := by
  have h := compile_countsUp
  cases hc : compile { optimize := false } countsUp with
  | error e => simp [hc, Except.toOption] at h
  | ok c =>
      cases hm : Machine.start c.image {} with
      | error e => simp [hc, hm, Except.toOption] at h
      | ok start =>
          obtain ⟨height, hd, hrun⟩ := operands_disciplined hc
          have hreach : Machine.Reachable start (start.run 60) := Machine.reachable_run 60
          refine ⟨c, height, start, start.run 60, rfl, hm, hreach, ?_, hd,
            (hrun {} start _ hm hreach).1⟩
          cases ho : (start.run 60).outcome with
          | none => simp [hc, hm, ho, Except.toOption] at h
          | some outcome => rfl

end CompileOptions

end Parlance
