import Parlance.Proofs.BigStep.Basic
import Parlance.Proofs.Machine.Safety
import Parlance.Proofs.Value.Correspondence

/-!
# Machines that follow an evaluation

The logic in which generated code is proved right. `Sim n φ m M s Q` says that the machine `m`
does what the evaluation `M` does in the store `s`: for every result of `M` that is a value, a
run of `m` comes to a state described by `Q`; for every fault, a run of `m` ends with this
fault and this output; and if `M` runs out of fuel, `m` has not ended after some `n` steps or
more, and has written this output then.

`At` relates a machine that runs in some frame to a store, and there is one lemma for each
instruction that leads from `At` to `At`.

## Main results

* `Sim.bind`, `Sim.of_step`: the rules of sequence and of a single instruction.
* `At.sim_pushResult`, `At.store`, `At.branch` and others: the instructions.
-/

namespace Parlance

open BigStep

/-- More identities are related. -/
def Identities.Le (φ ψ : Identities) : Prop :=
  ∀ t u, φ t u → ψ t u

/-- The same identities are related as before. -/
theorem Identities.Le.refl (φ : Identities) : φ.Le φ :=
  fun _ _ h => h

/-- Identities that are related stay so step after step. -/
theorem Identities.Le.trans {φ ψ χ : Identities} (h : φ.Le ψ) (h' : ψ.Le χ) : φ.Le χ :=
  fun t u htu => h' t u (h t u htu)

/-- Values that match in pairs still match when more identities are related. -/
theorem Value.forall₂_mono {φ ψ : Identities} (h : φ.Le ψ) {as bs : List Value}
    (hs : List.Forall₂ (Value.Matches φ) as bs) : List.Forall₂ (Value.Matches ψ) as bs :=
  hs.imp fun _ _ hm => hm.mono h

/-- In lists that match, an item of one list has an item of the other one that it matches. -/
theorem Value.forall₂_getElem? {φ : Identities} {as bs : List Value}
    (h : List.Forall₂ (Value.Matches φ) as bs) {i : Nat} {a : Value} (ha : as[i]? = some a) :
    ∃ b, bs[i]? = some b ∧ a.Matches φ b := by
  induction h generalizing i with
  | nil => simp at ha
  | cons hab _ ih =>
      cases i with
      | zero =>
          simp only [List.getElem?_cons_zero, Option.some.injEq] at ha
          subst ha
          exact ⟨_, rfl, hab⟩
      | succ i => exact ih ha

namespace Simulation

/-! ### The logic -/

/-- A run of a machine ends with a fault and an output. -/
def Faults (m : Machine) (k : Fault) (o : Output) : Prop :=
  ∃ n e, (m.run n).outcome = some (.error e) ∧ e.fault = k ∧ (m.run n).output = o

/-- A machine still runs after so many steps or more, with an output. -/
def Goes (n : Nat) (m : Machine) (o : Output) : Prop :=
  ∃ k, n ≤ k ∧ (m.run k).outcome = none ∧ (m.run k).output = o

/-- A machine does what an evaluation does: see the head of this module. -/
def Sim {α : Type} (n : Nat) (φ : Identities) (m : Machine) (M : Eval α) (s : Store)
    (Q : α → Store → Identities → Machine → Prop) : Prop :=
  ∀ r, M s r →
    match r with
    | .ok a s' => ∃ k φ', φ.Le φ' ∧ Q a s' φ' (m.run k)
    | .fault k o => Faults m k o
    | .timeout o => Goes n m o

section Rules

variable {α β : Type} {n : Nat} {φ : Identities} {m : Machine} {s : Store}
  {Q R : α → Store → Identities → Machine → Prop}

/-- A machine whose run ends with a fault after some steps ends with it from the start. -/
theorem Faults.of_run {k : Fault} {o : Output} {a : Nat} (h : Faults (m.run a) k o) :
    Faults m k o := by
  obtain ⟨b, e, he, hk, ho⟩ := h
  rw [← Machine.run_add] at he ho
  exact ⟨a + b, e, he, hk, ho⟩

/-- A value that is there already needs no step of the machine. -/
theorem Sim.pure {a : α} (h : Q a s φ m) : Sim n φ m (pure a : Eval α) s Q := by
  intro r hr
  rw [Eval.pure_apply] at hr
  subst hr
  exact ⟨0, φ, .refl φ, h⟩

/-- Steps that were made count together with those that follow. -/
theorem Goes.of_run {o : Output} {a : Nat} (h : Goes n (m.run a) o) : Goes (a + n) m o := by
  obtain ⟨k, hk, he, ho⟩ := h
  rw [← Machine.run_add] at he ho
  exact ⟨a + k, Nat.add_le_add_left hk a, he, ho⟩

/-- A machine that still runs after some steps ran after fewer of them. -/
theorem Goes.mono {o : Output} {n' : Nat} (hn : n' ≤ n) (h : Goes n m o) : Goes n' m o :=
  h.imp fun _ hk => ⟨Nat.le_trans hn hk.1, hk.2⟩

/-- An evaluation that runs out of fuel is one of a machine that still runs. -/
theorem Sim.timeout (h : Goes n m s.output) : Sim n φ m (Eval.timeout : Eval α) s Q := by
  intro r hr
  cases hr
  exact h

/-- A fault of an evaluation is the fault that the machine ends with. -/
theorem Sim.fail {k : Fault} (h : Faults m k s.output) :
    Sim n φ m (Eval.fail k : Eval α) s Q := by
  intro r hr
  cases hr
  exact h

/-- A change of the store has to be made by the machine before. -/
theorem Sim.update {f : Store → Store} {Q : Unit → Store → Identities → Machine → Prop}
    (h : Q () (f s) φ m) : Sim n φ m (Eval.update f) s Q := by
  intro r hr
  cases hr
  exact ⟨0, φ, .refl φ, h⟩

/-- **Steps.** What a machine does after some steps, it does. -/
theorem Sim.of_run {M : Eval α} (a : Nat) (h : Sim n φ (m.run a) M s Q) : Sim n φ m M s Q := by
  intro r hr
  have := h r hr
  cases r with
  | ok b s' =>
      obtain ⟨k, φ', hle, hQ⟩ := this
      rw [← Machine.run_add] at hQ
      exact ⟨a + k, φ', hle, hQ⟩
  | fault k o => exact Faults.of_run this
  | timeout o => exact this.of_run.mono (Nat.le_add_left n a)

/-- If a machine does what an evaluation does after one step, it does so from the start. -/
theorem Sim.of_step {M : Eval α} (h : Sim n φ m.step M s Q) : Sim n φ m M s Q :=
  Sim.of_run 1 h

/-- A step is one more step for an evaluation that runs out of fuel. -/
theorem Sim.of_step_succ {M : Eval α} (h : Sim n φ m.step M s Q) : Sim (n + 1) φ m M s Q := by
  intro r hr
  cases r with
  | ok a s' => exact Sim.of_step h _ hr
  | fault k o => exact Sim.of_step h _ hr
  | timeout o =>
      have hgo : Goes n (m.run 1) o := h _ hr
      exact hgo.of_run.mono (Nat.le_of_eq (Nat.add_comm n 1))

/-- The step may be one of those that are counted as fuel. -/
theorem Sim.of_step_pred {M : Eval α} (h : Sim (n - 1) φ m.step M s Q) : Sim n φ m M s Q := by
  cases n with
  | zero => exact Sim.of_step h
  | succ n => exact Sim.of_step_succ h

/-- A machine that is promised to run for many steps runs for fewer of them too. -/
theorem Sim.mono_fuel {M : Eval α} {n' : Nat} (hn : n' ≤ n) (h : Sim n φ m M s Q) :
    Sim n' φ m M s Q := by
  intro r hr
  have := h r hr
  cases r with
  | ok a s' => exact this
  | fault k o => exact this
  | timeout o => exact this.mono hn

/-- What holds in the end may be weakened. More identities may be related by then. -/
theorem Sim.mono {M : Eval α} (h : Sim n φ m M s Q)
    (hQ : ∀ a s' φ' m', φ.Le φ' → Q a s' φ' m' → R a s' φ' m') : Sim n φ m M s R := by
  intro r hr
  have := h r hr
  cases r with
  | ok a s' =>
      obtain ⟨k, φ', hle, hq⟩ := this
      exact ⟨k, φ', hle, hQ a s' φ' _ hle hq⟩
  | fault k o => exact this
  | timeout o => exact this

/-- Some more steps after an evaluation. -/
theorem Sim.then_run {M : Eval α} (h : Sim n φ m M s Q)
    (hQ : ∀ a s' φ' m', φ.Le φ' → Q a s' φ' m' → ∃ k, R a s' φ' (m'.run k)) :
    Sim n φ m M s R := by
  intro r hr
  have := h r hr
  cases r with
  | ok a s' =>
      obtain ⟨k, φ', hle, hq⟩ := this
      obtain ⟨k', hR⟩ := hQ a s' φ' _ hle hq
      rw [← Machine.run_add] at hR
      exact ⟨k + k', φ', hle, hR⟩
  | fault k o => exact this
  | timeout o => exact this

/-- **Sequence.** The machine does two parts one after the other. A fault of the first part, or no
value in time, is that of both. -/
theorem Sim.bind {M : Eval α} {f : α → Eval β} {R : β → Store → Identities → Machine → Prop}
    (h : Sim n φ m M s Q)
    (hf : ∀ a s' φ' m', φ.Le φ' → Q a s' φ' m' → Sim n φ' m' (f a) s' R) :
    Sim n φ m (M >>= f) s R := by
  intro r hr
  obtain ⟨q, hq, hr⟩ := hr
  have := h q hq
  cases q with
  | ok a s' =>
      obtain ⟨k, φ', hle, hQ⟩ := this
      have hsim := Sim.of_run k (hf a s' φ' _ hle hQ) r hr
      cases r with
      | ok b s'' =>
          obtain ⟨k', φ'', hle', hR⟩ := hsim
          exact ⟨k', φ'', hle.trans hle', hR⟩
      | fault k o => exact hsim
      | timeout o => exact hsim
  | fault k o =>
      cases hr
      exact this
  | timeout o =>
      cases hr
      exact this

/-- In the end it is also known that the evaluation has the value. -/
theorem Sim.and_eval {M : Eval α} (h : Sim n φ m M s Q) :
    Sim n φ m M s fun a s' φ' m' => M s (.ok a s') ∧ Q a s' φ' m' := by
  intro r hr
  have := h r hr
  cases r with
  | ok a s' =>
      obtain ⟨k, φ', hle, hq⟩ := this
      exact ⟨k, φ', hle, hr, hq⟩
  | fault k o => exact this
  | timeout o => exact this

/-- An evaluation that looks at the store goes on with the store the machine corresponds to. -/
theorem Sim.bind_store {f : Store → Eval α} (h : Sim n φ m (f s) s Q) :
    Sim n φ m (Eval.store >>= f) s Q := by
  rintro r ⟨q, rfl, hr⟩
  exact h r hr

/-- An evaluation that changes the store goes on with the changed one. -/
theorem Sim.bind_update {u : Store → Store} {f : Unit → Eval α} (h : Sim n φ m (f ()) (u s) Q) :
    Sim n φ m (Eval.update u >>= f) s Q := by
  rintro r ⟨q, rfl, hr⟩
  exact h r hr

end Rules

/-! ### Machines and stores -/

/-- A machine that runs an image without limits, apart from that of calls, and has not
ended. -/
structure Running (image : Image) (inputs : List String) (maxDepth : Nat) (m : Machine) :
    Prop where
  image_eq : m.image = image
  consts_eq : m.consts = image.consts.mapIdx fun i c => c.toValue i
  inputs_eq : m.inputs = inputs
  maxDepth_eq : m.maxDepth = maxDepth
  budget_eq : m.budget = ⟨none⟩
  cancelled_eq : m.cancelled = false
  outcome_eq : m.outcome = none
  verified : image.verify = .ok ()
  sound : m.Sound image

/-- A machine goes on running after a step that changes neither its image nor its limits. -/
theorem Running.of_step {image : Image} {inputs : List String} {maxDepth : Nat} {m m' : Machine}
    (h : Running image inputs maxDepth m) (hs : m.step = m') (hi : m'.image = m.image)
    (hc : m'.consts = m.consts) (hin : m'.inputs = m.inputs) (hd : m'.maxDepth = m.maxDepth)
    (hb : m'.budget = m.budget) (hca : m'.cancelled = m.cancelled)
    (ho : m'.outcome = m.outcome) : Running image inputs maxDepth m' :=
  ⟨hi.trans h.image_eq, hc.trans h.consts_eq, hin.trans h.inputs_eq, hd.trans h.maxDepth_eq,
    hb.trans h.budget_eq, hca.trans h.cancelled_eq, ho.trans h.outcome_eq, h.verified,
    hs ▸ h.sound.step h.verified⟩

/-- The running frame is sound. -/
theorem Running.frame_sound {image : Image} {inputs : List String} {maxDepth : Nat} {m : Machine}
    (h : Running image inputs maxDepth m) {f : Frame} {callers : List Frame}
    (hf : m.frames = f :: callers) : ∃ r, f.Sound image r := by
  rcases h.sound.top f (by rw [hf]; rfl) with ⟨r, hs, -⟩ | ⟨-, e, he, -⟩
  · exact ⟨r, hs⟩
  · rw [h.outcome_eq] at he
    cases he

/-- What a machine and a store share outside of frames: the variables of the program, the
output, and the identities given out. -/
structure Linked (image : Image) (φ : Identities) (s : Store) (m : Machine) : Prop where
  oneToOne : φ.OneToOne
  below : ∀ t u, φ t u → t < s.fresh ∧ u < m.nextTag
  constants : ∀ (f i : Nat), image.consts[i]? = some (.function f) → φ f i
  globals_size : m.globals.size = image.globals
  globals : ∀ (i : Nat) (w : Value), m.globals[i]? = some w → (s.globals i).Matches φ w
  output : m.output = s.output

/-- The place where generated code runs: the function that runs, its routine, and the frames
of its callers. -/
structure Site where
  image : Image
  active : Activation
  routine : Routine
  callers : List Frame

/-- A machine runs at an offset of a routine, in a state that corresponds to a store. -/
structure At (c : Site) (φ : Identities) (s : Store) (m : Machine) (pc : Nat)
    (stack : List Value) : Prop where
  running : Running c.image c.active.inputs c.active.maxDepth m
  linked : Linked c.image φ s m
  routine : c.image.routines[c.active.function]? = some c.routine
  frame : ∃ captures slots,
    m.frames = { function := c.active.function, captures, pc, slots, stack } :: c.callers ∧
      List.Forall₂ (Value.Matches φ) c.active.captures captures ∧
      slots.size = c.routine.slots ∧
      ∀ (i : Nat) (w : Value), slots[i]? = some w → (s.slots i).Matches φ w

section Instructions

variable {c : Site} {φ : Identities} {s : Store} {m : Machine} {pc n : Nat} {stack : List Value}

/-- A machine at an offset of a routine has not ended. -/
theorem At.outcome (h : At c φ s m pc stack) : m.outcome = none :=
  h.running.outcome_eq

/-- A running function has as many captures as its routine takes. -/
theorem At.captures_length (h : At c φ s m pc stack) :
    c.active.captures.length = c.routine.captures := by
  obtain ⟨captures, slots, hf, hc, -⟩ := h.frame
  obtain ⟨r, hs⟩ := h.running.frame_sound hf
  obtain rfl := Option.some.inj (h.routine.symm.trans hs.routine)
  exact hc.length_eq.trans hs.captures_length

/-- The step of a machine at an instruction. -/
theorem At.step_eq (h : At c φ s m pc stack) {i : Instr} (hi : c.routine.code[pc]? = some i)
    {captures : List Value} {slots : Array Value}
    (hf : m.frames = { function := c.active.function, captures, pc, slots, stack } :: c.callers) :
    m.step =
      match m.counted.execute c.callers
        { function := c.active.function, captures, pc := pc + 1, slots, stack } i with
      | (m, none) => m
      | (m, some fault) => m.fail fault c.active.function pc := by
  have hb : m.budget.consume? = some m.budget := by
    rw [h.running.budget_eq]
    rfl
  have hfetch : m.fetch? { function := c.active.function, captures, pc, slots, stack } = some i := by
    simp only [Machine.fetch?, h.running.image_eq, h.routine, Option.bind_some]
    exact hi
  exact Machine.step_of_fetch h.outcome hf h.running.cancelled_eq hb hfetch

/-- An instruction that only changes the operands and goes on at some offset. -/
theorem At.resumed (h : At c φ s m pc stack) {i : Instr} (hi : c.routine.code[pc]? = some i)
    {captures : List Value} {slots : Array Value}
    (hf : m.frames = { function := c.active.function, captures, pc, slots, stack } :: c.callers)
    (hc : List.Forall₂ (Value.Matches φ) c.active.captures captures)
    (hsize : slots.size = c.routine.slots)
    (hslots : ∀ (i : Nat) (w : Value), slots[i]? = some w → (s.slots i).Matches φ w)
    {target : Nat} {stack' : List Value}
    (he : m.counted.execute c.callers
      { function := c.active.function, captures, pc := pc + 1, slots, stack } i =
        Machine.done (m.counted.resume c.callers
          { function := c.active.function, captures, pc := target, slots, stack := stack' })) :
    At c φ s m.step target stack' := by
  have hstep := h.step_eq hi hf
  rw [he] at hstep
  rw [hstep]
  exact ⟨h.running.of_step hstep rfl rfl rfl rfl rfl rfl rfl,
    ⟨h.linked.oneToOne, h.linked.below, h.linked.constants, h.linked.globals_size,
      h.linked.globals, h.linked.output⟩,
    h.routine, captures, slots, rfl, hc, hsize, hslots⟩

/-- **Operands.** An instruction that only changes the operands, whatever the slots are. -/
theorem At.moved (h : At c φ s m pc stack) {i : Instr} (hi : c.routine.code[pc]? = some i)
    {target : Nat} {stack' : List Value}
    (he : ∀ captures slots, m.counted.execute c.callers
      { function := c.active.function, captures, pc := pc + 1, slots, stack } i =
        Machine.done (m.counted.resume c.callers
          { function := c.active.function, captures, pc := target, slots, stack := stack' })) :
    At c φ s m.step target stack' := by
  obtain ⟨captures, slots, hf, hc, hsize, hslots⟩ := h.frame
  exact h.resumed hi hf hc hsize hslots (he captures slots)

/-- **Faults.** An instruction that faults ends the run, with the output so far. -/
theorem At.faults (h : At c φ s m pc stack) {i : Instr} (hi : c.routine.code[pc]? = some i)
    {k : Fault}
    (he : ∀ captures slots, ∃ m', m.counted.execute c.callers
      { function := c.active.function, captures, pc := pc + 1, slots, stack } i =
        Machine.faulted k m' ∧ m'.output = m.output) :
    Faults m k s.output := by
  obtain ⟨captures, slots, hf, -⟩ := h.frame
  obtain ⟨m', he, ho⟩ := he captures slots
  have hstep := h.step_eq hi hf
  rw [he] at hstep
  refine ⟨1, { fault := k, function := c.active.function, pc }, ?_, rfl, ?_⟩
  · rw [Machine.run, Machine.run, hstep]
    rfl
  · rw [Machine.run, Machine.run, hstep]
    exact ho.trans h.linked.output

/-- **Results.** An instruction that pushes the result of an operation, or faults. The operation is
done on values that match, so `hr` is all that is to be shown of it. -/
theorem At.sim_pushResult (h : At c φ s m pc stack) {i : Instr}
    (hi : c.routine.code[pc]? = some i) {rest : List Value} {res res' : Except Fault Value}
    (he : ∀ captures slots, m.counted.execute c.callers
      { function := c.active.function, captures, pc := pc + 1, slots, stack } i =
        m.counted.pushResult c.callers
          { function := c.active.function, captures, pc := pc + 1, slots, stack } rest res')
    (hr : ResultsMatch φ res res') :
    Sim n φ m (Eval.lift res) s fun v s' φ' m' =>
      ∃ w, v.Matches φ' w ∧ At c φ' s' m' (pc + 1) (w :: rest) := by
  cases res with
  | ok v =>
      cases res' with
      | error k => exact hr.elim
      | ok w => exact Sim.of_step (Sim.pure ⟨w, hr, h.moved hi he⟩)
  | error k =>
      cases res' with
      | ok w => exact hr.elim
      | error k' =>
          cases hr
          exact Sim.fail (h.faults hi fun captures slots => ⟨_, he captures slots, rfl⟩)

/-! ### Loads -/

/-- Loading a constant puts its value on the stack, which is the same on both sides. -/
theorem At.loadConst (h : At c φ s m pc stack) {i : Nat} {k : Const}
    (hi : c.routine.code[pc]? = some (.loadConst i)) (hk : c.image.consts[i]? = some k) :
    At c φ s m.step (pc + 1) (k.toValue i :: stack) := by
  have hv : m.counted.consts[i]? = some (k.toValue i) := by
    have hconsts : m.counted.consts = _ := h.running.consts_eq
    rw [hconsts, Array.getElem?_mapIdx, hk]
    rfl
  refine h.moved hi fun captures slots => ?_
  simp only [Machine.execute, hv]

/-- Loading a slot puts a value on the stack that matches the one in the store's slot. -/
theorem At.loadLocal (h : At c φ s m pc stack) {slot : Nat}
    (hi : c.routine.code[pc]? = some (.loadLocal slot)) (hs : slot < c.routine.slots) :
    ∃ w, (s.slots slot).Matches φ w ∧ At c φ s m.step (pc + 1) (w :: stack) := by
  obtain ⟨captures, slots, hf, hc, hsize, hslots⟩ := h.frame
  have hlt : slot < slots.size := by
    rw [hsize]
    exact hs
  have hw := Array.getElem?_eq_getElem hlt
  refine ⟨_, hslots slot _ hw, h.resumed hi hf hc hsize hslots ?_⟩
  simp only [Machine.execute, hw]

/-- Loading a variable of the program puts a value on the stack that matches the one in the store.
-/
theorem At.loadGlobal (h : At c φ s m pc stack) {slot : Nat}
    (hi : c.routine.code[pc]? = some (.loadGlobal slot)) (hs : slot < c.image.globals) :
    ∃ w, (s.globals slot).Matches φ w ∧ At c φ s m.step (pc + 1) (w :: stack) := by
  have hlt : slot < m.counted.globals.size := h.linked.globals_size ▸ hs
  have hw := Array.getElem?_eq_getElem hlt
  refine ⟨_, h.linked.globals slot _ hw, h.moved hi fun captures slots => ?_⟩
  simp only [Machine.execute, hw]

/-- Loading a captured value does what the evaluation does, which reads its own captures. -/
theorem At.sim_loadCapture (h : At c φ s m pc stack) {index : Nat}
    (hi : c.routine.code[pc]? = some (.loadCapture index)) (hlt : index < c.routine.captures) :
    Sim n φ m (BigStep.captured c.active index) s fun v s' φ' m' =>
      ∃ w, v.Matches φ' w ∧ At c φ' s' m' (pc + 1) (w :: stack) := by
  obtain ⟨captures, slots, hf, hc, hsize, hslots⟩ := h.frame
  rw [← h.captures_length] at hlt
  have hv := List.getElem?_eq_getElem hlt
  obtain ⟨w, hw, hvw⟩ := Value.forall₂_getElem? hc hv
  simp only [BigStep.captured, hv]
  refine Sim.of_step (Sim.pure ⟨w, hvw, h.resumed hi hf hc hsize hslots ?_⟩)
  simp only [Machine.execute, hw]

/-! ### Stores -/

/-- Storing to a slot takes the value from the stack and changes the slot in the store too. -/
theorem At.storeLocal {v w : Value} (h : At c φ s m pc (w :: stack)) {slot : Nat}
    (hi : c.routine.code[pc]? = some (.storeLocal slot)) (hv : v.Matches φ w) :
    At c φ { s with slots := Function.update s.slots slot v } m.step (pc + 1) stack := by
  obtain ⟨captures, slots, hf, hc, hsize, hslots⟩ := h.frame
  have hstep := h.step_eq hi hf
  rw [hstep]
  refine ⟨h.running.of_step hstep rfl rfl rfl rfl rfl rfl rfl,
    ⟨h.linked.oneToOne, h.linked.below, h.linked.constants, h.linked.globals_size,
      h.linked.globals, h.linked.output⟩,
    h.routine, captures, slots.setIfInBounds slot w, rfl, hc, by simpa using hsize, ?_⟩
  intro i u hu
  rw [Array.getElem?_setIfInBounds] at hu
  by_cases hsi : slot = i
  · subst hsi
    simp only [if_true] at hu
    split at hu
    · cases hu
      simpa using hv
    · cases hu
  · rw [if_neg hsi] at hu
    have : Function.update s.slots slot v i = s.slots i := Function.update_of_ne (Ne.symm hsi) _ _
    simpa [this] using hslots i u hu

/-- Storing to a variable of the program takes the value from the stack and changes the variable in
the store too. -/
theorem At.storeGlobal {v w : Value} (h : At c φ s m pc (w :: stack)) {slot : Nat}
    (hi : c.routine.code[pc]? = some (.storeGlobal slot)) (hv : v.Matches φ w) :
    At c φ { s with globals := Function.update s.globals slot v } m.step (pc + 1) stack := by
  obtain ⟨captures, slots, hf, hc, hsize, hslots⟩ := h.frame
  have hstep := h.step_eq hi hf
  rw [hstep]
  refine ⟨h.running.of_step hstep rfl rfl rfl rfl rfl rfl rfl,
    ⟨h.linked.oneToOne, h.linked.below, h.linked.constants, ?_, ?_, h.linked.output⟩,
    h.routine, captures, slots, rfl, hc, hsize, hslots⟩
  · change (m.globals.setIfInBounds slot w).size = c.image.globals
    rw [Array.size_setIfInBounds]
    exact h.linked.globals_size
  · intro i u hu
    change (m.globals.setIfInBounds slot w)[i]? = some u at hu
    rw [Array.getElem?_setIfInBounds] at hu
    by_cases hsi : slot = i
    · subst hsi
      simp only [if_true] at hu
      split at hu
      · cases hu
        simpa using hv
      · cases hu
    · rw [if_neg hsi] at hu
      have : Function.update s.globals slot v i = s.globals i :=
        Function.update_of_ne (Ne.symm hsi) _ _
      simpa [this] using h.linked.globals i u hu

/-- **Items.** The changed list lies on top of the assigned value, which is what the assignment
leaves when the list has been stored. -/
theorem At.sim_setItem {v w i j u t : Value} (h : At c φ s m pc (t :: j :: w :: stack))
    (hi : c.routine.code[pc]? = some .setItem) (hv : v.Matches φ w) (hj : i.Matches φ j)
    (hu : u.Matches φ t) :
    Sim n φ m (Eval.lift (v.setItem i u)) s fun changed s' φ' m' =>
      ∃ w', changed.Matches φ' w' ∧ At c φ' s' m' (pc + 1) (w' :: t :: stack) := by
  have hr := hv.setItem hj hu
  cases hres : v.setItem i u with
  | ok changed =>
      rw [hres] at hr
      cases hres' : w.setItem j t with
      | error k =>
          rw [hres'] at hr
          exact hr.elim
      | ok w' =>
          rw [hres'] at hr
          refine Sim.of_step (Sim.pure ⟨w', hr, h.moved hi fun _ _ => ?_⟩)
          simp only [Machine.execute, hres']
  | error k =>
      rw [hres] at hr
      cases hres' : w.setItem j t with
      | ok w' =>
          rw [hres'] at hr
          exact hr.elim
      | error k' =>
          rw [hres'] at hr
          cases hr
          refine Sim.fail (h.faults hi fun captures slots => ⟨m.counted.resume c.callers
            { function := c.active.function, captures, pc := pc + 1, slots, stack }, ?_, rfl⟩)
          simp only [Machine.execute, hres']

/-! ### Branches -/

/-- **Conditions.** A conditional jump goes on behind it, or at its target. -/
theorem At.sim_jumpIfFalse {v w : Value} (h : At c φ s m pc (w :: stack)) {target : Nat}
    (hi : c.routine.code[pc]? = some (.jumpIfFalse target)) (hv : v.Matches φ w) :
    Sim n φ m (BigStep.truth v) s fun b s' φ' m' =>
      At c φ' s' m' (if b then pc + 1 else target) stack := by
  obtain ⟨a, rfl⟩ | ⟨as, bs, rfl, rfl, -⟩ | ⟨t, u, f, as, bs, rfl, rfl, -⟩ := hv.cases
  · cases w with
    | bool b =>
        refine Sim.of_step (Sim.pure ?_)
        cases b with
        | true => exact h.moved hi fun _ _ => rfl
        | false => exact h.moved hi fun _ _ => rfl
    | list _ => exact a.elim
    | function _ _ _ => exact a.elim
    | _ => exact Sim.fail (h.faults hi fun _ _ => ⟨_, rfl, rfl⟩)
  · exact Sim.fail (h.faults hi fun _ _ => ⟨_, rfl, rfl⟩)
  · exact Sim.fail (h.faults hi fun _ _ => ⟨_, rfl, rfl⟩)

/-- The jump of a logical operator drops its operand, or keeps it as the result if it decides. What
is no truth value is a fault on both sides. -/
theorem At.sim_skipJump {v w : Value} (h : At c φ s m pc (w :: stack)) {op : LogicalOp}
    {target : Nat} (hi : c.routine.code[pc]? = some (op.skipJump target))
    (hv : v.Matches φ w) :
    Sim n φ m (BigStep.truth v) s fun b s' φ' m' =>
      if BigStep.decides op b then v.Matches φ' w ∧ At c φ' s' m' target (w :: stack)
      else At c φ' s' m' (pc + 1) stack := by
  obtain ⟨a, rfl⟩ | ⟨as, bs, rfl, rfl, -⟩ | ⟨t, u, f, as, bs, rfl, rfl, -⟩ := hv.cases
  · cases w with
    | bool b =>
        refine Sim.of_step (Sim.pure ?_)
        cases op <;> cases b
        · exact ⟨hv, h.moved hi fun _ _ => rfl⟩
        · exact h.moved hi fun _ _ => rfl
        · exact h.moved hi fun _ _ => rfl
        · exact ⟨hv, h.moved hi fun _ _ => rfl⟩
    | list _ => exact a.elim
    | function _ _ _ => exact a.elim
    | _ => cases op <;> exact Sim.fail (h.faults hi fun _ _ => ⟨_, rfl, rfl⟩)
  · cases op <;> exact Sim.fail (h.faults hi fun _ _ => ⟨_, rfl, rfl⟩)
  · cases op <;> exact Sim.fail (h.faults hi fun _ _ => ⟨_, rfl, rfl⟩)

/-! ### Lists and function values -/

/-- Operands that were pushed one after the other are popped in this order. -/
theorem popMany?_reverse (ws stack : List Value) :
    Machine.popMany? ws.length (ws.reverse ++ stack) = some (ws, stack) := by
  unfold Machine.popMany?
  rw [if_neg (by simp)]
  simp

/-- Building a list takes its items from the stack and puts the list there. -/
theorem At.buildList {ws : List Value} (h : At c φ s m pc (ws.reverse ++ stack))
    (hi : c.routine.code[pc]? = some (.buildList ws.length)) :
    At c φ s m.step (pc + 1) (.list ws :: stack) := by
  refine h.moved hi fun captures slots => ?_
  simp only [Machine.execute, popMany?_reverse]

/-- The identities after a function value got the identities `t` and `u`. -/
def extend (φ : Identities) (t u : Nat) : Identities :=
  fun t' u' => φ t' u' ∨ (t' = t ∧ u' = u)

/-- The identities before a new function value are related as they were. -/
theorem le_extend (φ : Identities) (t u : Nat) : φ.Le (extend φ t u) :=
  fun _ _ h => .inl h

/-- New identities keep the relation one to one. -/
theorem oneToOne_extend {t u : Nat} (h : φ.OneToOne) (hbelow : ∀ a b, φ a b → a < t ∧ b < u) :
    (extend φ t u).OneToOne := by
  rintro a b a' b' (hab | ⟨rfl, rfl⟩) (hab' | ⟨rfl, rfl⟩)
  · exact h a b a' b' hab hab'
  · have := hbelow a b hab
    omega
  · have := hbelow a' b' hab'
    omega
  · simp

/-- **Function values.** Making a function value gives out an identity on both sides. The two
identities are new, so the correspondence with them added is still one to one. -/
theorem At.sim_closure {vs ws : List Value} (h : At c φ s m pc (ws.reverse ++ stack)) {f : Nat}
    {r : Routine} (hi : c.routine.code[pc]? = some (.closure f))
    (hr : c.image.routines[f]? = some r) (hl : ws.length = r.captures)
    (hvs : List.Forall₂ (Value.Matches φ) vs ws) :
    Sim n φ m (do return Value.function (← Eval.identity) f vs) s fun v s' φ' m' =>
      ∃ w, v.Matches φ' w ∧ At c φ' s' m' (pc + 1) (w :: stack) := by
  rintro q ⟨_, ⟨t, ht, rfl⟩, rfl⟩
  refine ⟨1, extend φ t m.nextTag, le_extend φ t _, .function m.nextTag f ws, ?_, ?_⟩
  · exact Value.function_matches_function.mpr ⟨.inr ⟨rfl, rfl⟩, rfl,
      Value.forall₂_mono (le_extend φ t _) hvs⟩
  · obtain ⟨captures, slots, hf, hc, hsize, hslots⟩ := h.frame
    have hstep := h.step_eq hi hf
    have hpop := popMany?_reverse ws stack
    have hr' : m.counted.image.routines[f]? = some r := h.running.image_eq ▸ hr
    rw [hl] at hpop
    simp only [Machine.execute, hr', hpop] at hstep
    rw [Machine.run, Machine.run, hstep]
    refine ⟨h.running.of_step hstep rfl rfl rfl rfl rfl rfl rfl, ⟨?_, ?_, ?_, h.linked.globals_size, ?_, h.linked.output⟩,
      h.routine, captures, slots, rfl, Value.forall₂_mono (le_extend φ t _) hc, hsize,
      fun i w hw => (hslots i w hw).mono (le_extend φ t _)⟩
    · exact oneToOne_extend h.linked.oneToOne fun a b hab =>
        ⟨Nat.lt_of_lt_of_le (h.linked.below a b hab).1 ht, (h.linked.below a b hab).2⟩
    · rintro a b (hab | ⟨rfl, rfl⟩)
      · have := h.linked.below a b hab
        change a < t + 1 ∧ b < m.nextTag + 1
        omega
      · change a < a + 1 ∧ m.nextTag < m.nextTag + 1
        omega
    · exact fun f i hfi => .inl (h.linked.constants f i hfi)
    · exact fun i w hw => (h.linked.globals i w hw).mono (le_extend φ t _)

/-! ### Calls -/

/-- For the machine a builtin with the wrong number of arguments is a fault, whichever builtin it
is. -/
theorem callBuiltin_of_arity {b : Builtin} {ws : List Value} (h : ws.length ≠ b.arity) :
    m.callBuiltin b ws = (m, .error (.arityMismatch b.arity ws.length)) := by
  unfold Machine.callBuiltin
  split <;> first | rfl | exact absurd rfl h

/-- For evaluation it is the same fault. -/
theorem builtin_of_arity {x : Activation} {b : Builtin} {vs : List Value}
    (h : vs.length ≠ b.arity) :
    BigStep.builtin x b vs = Eval.lift (.error (.arityMismatch b.arity vs.length)) := by
  unfold BigStep.builtin
  split <;> first | rfl | exact absurd rfl h

/-- The machine and evaluation read the same inputs. -/
theorem input_eq {x : Activation} (hin : m.inputs = x.inputs) (index : Int64) :
    m.input index = BigStep.input x index := by
  cases x
  cases hin
  rfl

/-- An index that matches reads the same input, or is the same fault. -/
theorem inputAt_matches {x : Activation} (hin : m.inputs = x.inputs) {v w : Value}
    (h : v.Matches φ w) : ResultsMatch φ (BigStep.inputAt x v) (m.inputAt w) := by
  obtain ⟨a, rfl⟩ | ⟨as, bs, rfl, rfl, -⟩ | ⟨t, u, f, as, bs, rfl, rfl, -⟩ := h.cases
  · cases w with
    | int i =>
        refine Value.resultsMatch_of_eq (input_eq hin i) ?_
        intro u hu
        change BigStep.input x i = .ok u at hu
        unfold BigStep.input at hu
        split at hu <;> cases hu
        exact Value.atom_str
    | list _ => exact a.elim
    | function _ _ _ => exact a.elim
    | _ => exact rfl
  · exact rfl
  · exact rfl

/-- Builtins other than `print` are operations on values, and so is `print` with a wrong number
of arguments. -/
theorem builtin_cases {x : Activation} (hin : m.inputs = x.inputs) (b : Builtin)
    {vs ws : List Value} (hvs : List.Forall₂ (Value.Matches φ) vs ws) :
    (∃ v w, b = .print ∧ vs = [v] ∧ ws = [w] ∧ v.Matches φ w) ∨
      ∃ res res', BigStep.builtin x b vs = Eval.lift res ∧ m.callBuiltin b ws = (m, res') ∧
        ResultsMatch φ res res' := by
  have hlen := hvs.length_eq
  by_cases harity : ws.length = b.arity
  swap
  · refine .inr ⟨_, _, builtin_of_arity (hlen ▸ harity), callBuiltin_of_arity harity, ?_⟩
    simp only [ResultsMatch, hlen]
  cases b with
  | print =>
      rcases hvs with _ | ⟨hv, _ | _⟩
      · cases harity
      · exact .inl ⟨_, _, rfl, rfl, rfl, hv⟩
      · cases harity
  | len =>
      rcases hvs with _ | ⟨hv, _ | _⟩
      · cases harity
      · next v w =>
          refine .inr ⟨_, _, rfl, rfl, Value.resultsMatch_of_eq (by rw [hv.length]) ?_⟩
          intro u hu
          cases hl : v.length with
          | error k => simp [hl, Except.map] at hu
          | ok k =>
              simp only [hl, Except.map, Except.ok.injEq] at hu
              subst hu
              exact Value.atom_int
      · cases harity
  | arg =>
      rcases hvs with _ | ⟨hv, _ | _⟩
      · cases harity
      · exact .inr ⟨_, _, rfl, rfl, inputAt_matches hin hv⟩
      · cases harity
  | argCount =>
      rcases hvs with _ | _
      · refine .inr ⟨.ok (.int (Int64.ofNat x.inputs.length)), _, rfl, rfl, ?_⟩
        simp only [ResultsMatch, hin, Value.int_matches]
      · cases harity
  | push =>
      rcases hvs with _ | ⟨hv, _ | ⟨hv', _ | _⟩⟩
      · cases harity
      · cases harity
      · exact .inr ⟨_, _, rfl, rfl, hv.push hv'⟩
      · cases harity

/-- **Printing.** A printed line goes to the output on both sides, and where the output is full,
both stop with the same fault. -/
theorem At.sim_print {v w : Value} {b : Value} (h : At c φ s m pc ([w].reverse ++ b :: stack))
    (hb : b = .builtin .print) (hi : c.routine.code[pc]? = some (.call 1)) (hv : v.Matches φ w) :
    Sim n φ m (BigStep.print v.display) s fun v' s' φ' m' =>
      ∃ w', v'.Matches φ' w' ∧ At c φ' s' m' (pc + 1) (w' :: stack) := by
  subst hb
  intro r hr
  obtain ⟨captures, slots, hf, hc, hsize, hslots⟩ := h.frame
  have hstep := h.step_eq hi hf
  have hw : m.counted.output.writeLine w.display = s.output.writeLine v.display := by
    rw [hv.display]
    exact congrArg (·.writeLine v.display) h.linked.output
  unfold BigStep.print at hr
  rcases hout : s.output.writeLine v.display with ⟨o, written⟩
  rw [hout] at hw
  simp only [hout] at hr
  have he : m.counted.execute c.callers
      { function := c.active.function, captures, pc := pc + 1, slots,
        stack := [w].reverse ++ Value.builtin .print :: stack } (.call 1) =
      { m.counted with output := o }.pushResult c.callers
        { function := c.active.function, captures, pc := pc + 1, slots, stack } stack
        (if written then .ok .unit else .error (.output "output limit")) := by
    simp only [Machine.execute, List.reverse_singleton, List.singleton_append]
    simp [Machine.popMany?, Machine.call, Machine.callBuiltin, hw]
  rw [he] at hstep
  cases written with
  | true =>
      simp only at hr
      subst hr
      refine ⟨1, φ, .refl φ, .unit, by simp, ?_⟩
      rw [Machine.run, Machine.run, hstep]
      exact ⟨h.running.of_step hstep rfl rfl rfl rfl rfl rfl rfl,
        ⟨h.linked.oneToOne, h.linked.below, h.linked.constants, h.linked.globals_size,
          h.linked.globals, rfl⟩,
        h.routine, captures, slots, rfl, hc, hsize, hslots⟩
  | false =>
      simp only at hr
      subst hr
      refine ⟨1, { fault := .output "output limit", function := c.active.function, pc }, ?_, rfl, ?_⟩
      · rw [Machine.run, Machine.run, hstep]
        rfl
      · rw [Machine.run, Machine.run, hstep]
        rfl

/-- A machine is about to return from a routine to these callers. -/
def Returns (image : Image) (inputs : List String) (maxDepth : Nat) (r : Routine)
    (callers : List Frame) (φ : Identities) (v : Value) (s : Store) (m : Machine) : Prop :=
  Running image inputs maxDepth m ∧ Linked image φ s m ∧
    ∃ (w : Value) (f : Frame) (stack : List Value), v.Matches φ w ∧ m.frames = f :: callers ∧
      image.routines[f.function]? = some r ∧ r.code[f.pc]? = some .ret ∧ f.stack = w :: stack

/-- A machine does what a way to call functions does, in frames of some depth. The fuel counts
the step that makes the call. -/
structure Handles (image : Image) (inputs : List String) (maxDepth fuel depth : Nat)
    (call : Nat → List Value → List Value → Eval Value) : Prop where
  enters : ∀ φ s m callers frame f r captures captures' args args',
    Running image inputs maxDepth m → Linked image φ s m → image.routines[f]? = some r →
    callers.length + 1 = depth → m.frames = frame :: callers →
    Frame.enter r f captures' args' = .ok frame →
    List.Forall₂ (Value.Matches φ) captures captures' →
    List.Forall₂ (Value.Matches φ) args args' →
    Sim (fuel - 1) φ m (call f captures args) s fun v s' φ' m' =>
      s'.slots = s.slots ∧ Returns image inputs maxDepth r callers φ' v s' m'
  refuses : ∀ f r captures args s q, image.routines[f]? = some r → args.length ≠ r.params →
    call f captures args s q →
      q = .fault (.arityMismatch r.params args.length) s.output ∨
        (fuel = 0 ∧ q = .timeout s.output)
  missing : ∀ f captures args s q, image.routines[f]? = none → call f captures args s q →
    q = .fault .danglingReference s.output ∨ (fuel = 0 ∧ q = .timeout s.output)

/-- An evaluation that can only fault, or has no fuel, is followed by a machine that faults. -/
theorem Sim.of_fault {α : Type} {M : Eval α} {k : Fault}
    {Q : α → Store → Identities → Machine → Prop} (ho : m.outcome = none)
    (hs : m.output = s.output)
    (h : ∀ q, M s q → q = .fault k s.output ∨ (n = 0 ∧ q = .timeout s.output))
    (hf : Faults m k s.output) : Sim n φ m M s Q := by
  intro q hq
  rcases h q hq with rfl | ⟨rfl, rfl⟩
  · exact hf
  · exact ⟨0, Nat.le_refl 0, ho, hs⟩

/-- **Returning.** The step of a `return` hands the result to the caller, whose frame is as it was
when it called. Only the result is new on its stack. -/
theorem Returns.step {φ' : Identities} {v : Value} {s' : Store} {m' : Machine} {r : Routine}
    {captures : List Value} {slots : Array Value}
    (hr : Returns c.image c.active.inputs c.active.maxDepth r
      ({ function := c.active.function, captures, pc, slots, stack } :: c.callers) φ' v s' m')
    (hroutine : c.image.routines[c.active.function]? = some c.routine)
    (hc : List.Forall₂ (Value.Matches φ) c.active.captures captures)
    (hsize : slots.size = c.routine.slots)
    (hslots : ∀ (i : Nat) (w : Value), slots[i]? = some w → (s.slots i).Matches φ w)
    (hle : φ.Le φ') (hs : s'.slots = s.slots) :
    ∃ w, v.Matches φ' w ∧ At c φ' s' m'.step pc (w :: stack) := by
  obtain ⟨hrun, hlink, w, f, rest, hv, hf, hr, hret, hstack⟩ := hr
  refine ⟨w, hv, ?_⟩
  have hb : m'.budget.consume? = some m'.budget := by
    rw [hrun.budget_eq]
    rfl
  have hfetch : m'.fetch? f = some .ret := by
    simp only [Machine.fetch?, hrun.image_eq, hr, Option.bind_some]
    exact hret
  have hstep := Machine.step_of_fetch hrun.outcome_eq hf hrun.cancelled_eq hb hfetch
  simp only [Machine.execute, hstack] at hstep
  rw [hstep]
  exact ⟨hrun.of_step hstep rfl rfl rfl rfl rfl rfl rfl,
    ⟨hlink.oneToOne, hlink.below, hlink.constants, hlink.globals_size, hlink.globals,
      hlink.output⟩,
    hroutine, captures, slots, rfl, Value.forall₂_mono hle hc, hsize,
    fun i u hu => by rw [hs]; exact (hslots i u hu).mono hle⟩

/-- **Calls.** The machine calls what the evaluation calls, and has the result on its stack.
Builtins are carried out at once; a function of the program gets a frame of its own, unless the
limit of the depth or the number of its arguments forbids it; what is no function is a fault on both
sides. -/
theorem At.sim_call {v w : Value} {vs ws : List Value}
    (h : At c φ s m pc (ws.reverse ++ w :: stack))
    (hi : c.routine.code[pc]? = some (.call ws.length)) (hv : v.Matches φ w)
    (hvs : List.Forall₂ (Value.Matches φ) vs ws)
    (hd : c.callers.length + 1 = c.active.depth)
    (hh : Handles c.image c.active.inputs c.active.maxDepth c.active.fuel (c.active.depth + 1)
      c.active.call) :
    Sim c.active.fuel φ m (BigStep.apply c.active v vs) s fun v' s' φ' m' =>
      ∃ w', v'.Matches φ' w' ∧ At c φ' s' m' (pc + 1) (w' :: stack) := by
  have hexec : ∀ captures slots, m.counted.execute c.callers
      { function := c.active.function, captures, pc := pc + 1, slots,
        stack := ws.reverse ++ w :: stack } (.call ws.length) =
      m.counted.call c.callers
        { function := c.active.function, captures, pc := pc + 1, slots, stack } w ws := by
    intro captures slots
    simp only [Machine.execute, popMany?_reverse]
  obtain ⟨a, rfl⟩ | ⟨as, bs, rfl, rfl, -⟩ | ⟨t, u, f, as, bs, rfl, rfl, -, hcap⟩ := hv.cases
  · cases w with
    | builtin b =>
        obtain ⟨v, w, rfl, rfl, rfl, hvw⟩ | ⟨res, res', hl, hr, hres⟩ :=
          builtin_cases (m := m.counted) (x := c.active)
            h.running.inputs_eq b hvs
        · exact h.sim_print rfl hi hvw
        · simp only [BigStep.apply, hl]
          refine h.sim_pushResult hi (fun captures slots => ?_) hres
          rw [hexec]
          simp only [Machine.call, hr]
          cases res' <;> rfl
    | list _ => exact a.elim
    | function _ _ _ => exact a.elim
    | _ => exact Sim.fail (h.faults hi fun _ _ => ⟨_, hexec _ _, rfl⟩)
  · exact Sim.fail (h.faults hi fun _ _ => ⟨_, hexec _ _, rfl⟩)
  · simp only [BigStep.apply]
    have hmax : m.counted.maxDepth = c.active.maxDepth := h.running.maxDepth_eq
    have himage : m.counted.image = c.image := h.running.image_eq
    by_cases hdeep : c.active.maxDepth ≤ c.active.depth
    · have hdeep' : m.counted.maxDepth ≤ c.callers.length + 1 := by omega
      rw [if_pos hdeep, ← hmax]
      exact Sim.fail (h.faults hi fun captures slots =>
        ⟨_, (hexec captures slots).trans (Machine.call_of_depth hdeep'), rfl⟩)
    have hdeep' : ¬ m.counted.maxDepth ≤ c.callers.length + 1 := by omega
    rw [if_neg hdeep]
    cases hroutine : c.image.routines[f]? with
    | none =>
        exact Sim.of_fault h.outcome h.linked.output
          (fun q hq => hh.missing f as vs s q hroutine hq)
          (h.faults hi fun captures slots => ⟨_, (hexec captures slots).trans
            (Machine.call_of_missing hdeep' (himage ▸ hroutine)), rfl⟩)
    | some r =>
        have hcall := fun captures slots => (hexec captures slots).trans
          (Machine.call_of_enter hdeep' (himage ▸ hroutine))
        by_cases harity : ws.length = r.params
        · obtain ⟨captures, slots, hf, hc, hsize, hslots⟩ := h.frame
          have hstep := h.step_eq hi hf
          rw [hcall, Frame.enter, if_pos harity] at hstep
          have hrun : Running c.image c.active.inputs c.active.maxDepth m.step := by
            rw [hstep]
            exact h.running.of_step hstep rfl rfl rfl rfl rfl rfl rfl
          have hlink : Linked c.image φ s m.step := by
            rw [hstep]
            exact ⟨h.linked.oneToOne, h.linked.below, h.linked.constants, h.linked.globals_size,
              h.linked.globals, h.linked.output⟩
          have hframes := congrArg Machine.frames hstep
          have hsim := hh.enters φ s m.step _ _ f r as bs vs ws hrun hlink hroutine
            (by rw [List.length_cons, hd]) hframes (by rw [Frame.enter, if_pos harity]) hcap hvs
          refine Sim.of_step_pred (hsim.then_run ?_)
          rintro v' s' φ' m' hle ⟨hs, hr⟩
          exact ⟨1, hr.step h.routine hc hsize hslots hle hs⟩
        · have hne : vs.length ≠ r.params := hvs.length_eq ▸ harity
          refine Sim.of_fault h.outcome h.linked.output
            (fun q hq => hh.refuses f r as vs s q hroutine hne hq)
            (h.faults hi fun captures slots => ⟨m.counted.resume c.callers
              { function := c.active.function, captures, pc := pc + 1, slots, stack }, ?_, rfl⟩)
          rw [hcall, Frame.enter, if_neg harity, hvs.length_eq]

end Instructions

end Simulation

end Parlance
