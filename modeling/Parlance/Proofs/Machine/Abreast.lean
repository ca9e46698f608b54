import Parlance.Proofs.BigStep.Simulation
import Parlance.Proofs.Code.Detours

/-!
# Machines side by side

Two machines run two images with the same functions. They are side by side if they hold the same
values, up to the identities of functions, and stand at places of their codes that belong together.
Which places these are is left open here: this module is about one instruction, which both machines
execute, and all that matters is that the places behind it belong together again.

## Main definitions

* `Machine.Beside`: two machines hold the same values.
* `Machine.Executed.Beside`: an instruction did the same to both.

## Main results

* `Machine.Beside.execute`: twin instructions do the same.
-/

namespace Parlance

/-- Which offsets of a function belong together in the codes of two images. -/
abbrev Places := Nat → Nat → Nat → Prop

/-- Two images have the same functions, whose starts belong together, and the same global slots. -/
structure Image.Abreast (P : Places) (image image' : Image) : Prop where
  globals : image'.globals = image.globals
  routine : ∀ (g : Nat) (r : Routine), image.routines[g]? = some r →
    ∃ r', image'.routines[g]? = some r' ∧ r'.params = r.params ∧ r'.slots = r.slots ∧
      r'.captures = r.captures ∧ P g 0 0
  missing : ∀ g : Nat, image.routines[g]? = none → image'.routines[g]? = none

/-- Two frames of a function hold the same values. -/
structure Frame.Matches (φ : Identities) (f f' : Frame) : Prop where
  function : f'.function = f.function
  captures : List.Forall₂ (Value.Matches φ) f.captures f'.captures
  slots : List.Forall₂ (Value.Matches φ) f.slots.toList f'.slots.toList
  stack : List.Forall₂ (Value.Matches φ) f.stack f'.stack

/-- Two frames of a function hold the same values, at places that belong together. -/
structure Frame.Beside (P : Places) (φ : Identities) (f f' : Frame) : Prop
    extends Frame.Matches φ f f' where
  place : P f.function f.pc f'.pc

namespace Frame

variable {P : Places} {φ ψ : Identities} {f f' : Frame}

/-- Frames that match do so with more identities. -/
theorem Matches.mono (h : f.Matches φ f') (hle : φ.Le ψ) : f.Matches ψ f' :=
  ⟨h.function, Value.forall₂_mono hle h.captures, Value.forall₂_mono hle h.slots,
    Value.forall₂_mono hle h.stack⟩

/-- Frames that match do so at any offsets. -/
theorem Matches.moved (h : f.Matches φ f') (pc pc' : Nat) :
    Matches φ { f with pc } { f' with pc := pc' } :=
  ⟨h.function, h.captures, h.slots, h.stack⟩

/-- Frames beside each other stay so with more identities. -/
theorem Beside.mono (h : f.Beside P φ f') (hle : φ.Le ψ) : f.Beside P ψ f' :=
  ⟨h.toMatches.mono hle, h.place⟩

/-- The same for all frames. -/
theorem beside_mono {fs fs' : List Frame} (hle : φ.Le ψ) (h : List.Forall₂ (Beside P φ) fs fs') :
    List.Forall₂ (Beside P ψ) fs fs' :=
  h.imp fun _ _ hf => hf.mono hle

end Frame

namespace Machine

/-- A machine without limits on its steps that has not ended. -/
structure Free (m : Machine) : Prop where
  budget : m.budget = ⟨none⟩
  cancelled : m.cancelled = false
  outcome : m.outcome = none

/-- **Side by side.** Outside of their frames, two machines that run without limits on their steps
hold the same values, and the second one has made at least as many steps. -/
structure Beside (image image' : Image) (φ : Identities) (m m' : Machine) : Prop where
  image_eq : m.image = image
  image_eq' : m'.image = image'
  constants : ∀ (k k' : Nat) (c : Const), image.consts[k]? = some c → image'.consts[k']? = some c →
    ∃ v v', m.consts[k]? = some v ∧ m'.consts[k']? = some v' ∧ v.Matches φ v'
  inputs : m'.inputs = m.inputs
  maxDepth : m'.maxDepth = m.maxDepth
  globals : List.Forall₂ (Value.Matches φ) m.globals.toList m'.globals.toList
  output : m'.output = m.output
  free : m.Free
  free' : m'.Free
  oneToOne : φ.OneToOne
  below : ∀ t u, φ t u → t < m.nextTag ∧ u < m'.nextTag
  steps : m.steps ≤ m'.steps

/-- **The same.** After an instruction, two machines go on side by side, or both have finished with
values that match, or the instruction failed with the same fault. -/
inductive Executed.Beside (image image' : Image) (P : Places) : Executed → Executed → Prop
  | goes {φ : Identities} {m m' : Machine} (h : m.Beside image image' φ m')
      (hf : List.Forall₂ (Frame.Beside P φ) m.frames m'.frames) :
      Executed.Beside image image' P (done m) (done m')
  | finishes {m m' : Machine} {v v' : Value} (hv : m.outcome = some (.ok v))
      (hv' : m'.outcome = some (.ok v')) (halike : v.Alike v') (ho : m'.output = m.output)
      (hs : m.steps ≤ m'.steps) : Executed.Beside image image' P (done m) (done m')
  | fails {m m' : Machine} {k : Fault} (ho : m'.output = m.output) (hs : m.steps ≤ m'.steps) :
      Executed.Beside image image' P (faulted k m) (faulted k m')

section Execute

variable {image image' : Image} {P : Places} {φ : Identities} {m m' : Machine}
  {callers callers' : List Frame} {f f' : Frame}

namespace Beside

/-- Both go on in their frames. -/
theorem resumes (h : m.Beside image image' φ m')
    (hcallers : List.Forall₂ (Frame.Beside P φ) callers callers') (hf : f.Beside P φ f') :
    Executed.Beside image image' P (done (m.resume callers f)) (done (m'.resume callers' f')) :=
  .goes ⟨h.image_eq, h.image_eq', h.constants, h.inputs, h.maxDepth, h.globals, h.output,
    ⟨h.free.budget, h.free.cancelled, h.free.outcome⟩,
    ⟨h.free'.budget, h.free'.cancelled, h.free'.outcome⟩, h.oneToOne, h.below, h.steps⟩
    (.cons hf hcallers)

/-- Both fail, wherever they are left. -/
theorem fails (h : m.Beside image image' φ m') {k : Fault} :
    Executed.Beside image image' P (faulted k (m.resume callers f))
      (faulted k (m'.resume callers' f')) :=
  .fails h.output h.steps

end Beside

/-- Operands that match are taken alike. -/
theorem popMany?_matches {stack stack' : List Value}
    (h : List.Forall₂ (Value.Matches φ) stack stack') (count : Nat) :
    (popMany? count stack = none ∧ popMany? count stack' = none) ∨
      ∃ items items' rest rest', popMany? count stack = some (items, rest) ∧
        popMany? count stack' = some (items', rest') ∧
        List.Forall₂ (Value.Matches φ) items items' ∧
        List.Forall₂ (Value.Matches φ) rest rest' := by
  unfold popMany?
  rw [← h.length_eq]
  split
  · exact .inl ⟨rfl, rfl⟩
  · exact .inr ⟨_, _, _, _, rfl, rfl, List.rel_reverse (List.forall₂_take _ h),
      List.forall₂_drop _ h⟩

/-- Conditions that match are the same. -/
theorem truth_matches {v v' : Value} (h : v.Matches φ v') : truth v' = truth v := by
  obtain ⟨-, rfl⟩ | ⟨as, bs, rfl, rfl, -⟩ | ⟨t, u, g, as, bs, rfl, rfl, -⟩ := h.cases <;> rfl

/-- The same input is read. -/
theorem inputAt_matches (h : m'.inputs = m.inputs) {v v' : Value} (hv : v.Matches φ v') :
    ResultsMatch φ (m.inputAt v) (m'.inputAt v') := by
  obtain ⟨hatom, rfl⟩ | ⟨as, bs, rfl, rfl, -⟩ | ⟨t, u, g, as, bs, rfl, rfl, -⟩ := hv.cases
  · cases v' with
    | int i =>
        simp only [inputAt, input, h]
        split
        · simp [ResultsMatch]
        · rfl
    | list items => exact hatom.elim
    | function tag index captures => exact hatom.elim
    | _ => rfl
  · rfl
  · rfl

namespace Beside

/-- **Results.** Two machines beside each other stay so after a result that matches, or fault alike.
-/
theorem pushResult (h : m.Beside image image' φ m')
    (hcallers : List.Forall₂ (Frame.Beside P φ) callers callers') (hf : f.Matches φ f')
    (hplace : P f.function f.pc f'.pc) {stack stack' : List Value}
    (hstack : List.Forall₂ (Value.Matches φ) stack stack') {result result' : Except Fault Value}
    (hr : ResultsMatch φ result result') :
    Executed.Beside image image' P (m.pushResult callers f stack result)
      (m'.pushResult callers' f' stack' result') := by
  cases result with
  | ok v =>
      cases result' with
      | error k => exact hr.elim
      | ok v' =>
          exact h.resumes hcallers ⟨⟨hf.function, hf.captures, hf.slots, .cons hr hstack⟩, hplace⟩
  | error k =>
      cases result' with
      | ok v' => exact hr.elim
      | error k' =>
          obtain rfl : k = k' := hr
          exact h.fails

/-! ### Calls -/

/-- A builtin prints the same and has results that match. Without the right number of arguments it
fails on both sides, and so every builtin is looked at with as many as it takes. -/
theorem callBuiltin (h : m.Beside image image' φ m') (b : Builtin) {args args' : List Value}
    (hargs : List.Forall₂ (Value.Matches φ) args args') :
    (m.callBuiltin b args).1.Beside image image' φ (m'.callBuiltin b args').1 ∧
      ResultsMatch φ (m.callBuiltin b args).2 (m'.callBuiltin b args').2 := by
  have hlength := hargs.length_eq
  by_cases harity : args.length = b.arity
  swap
  · rw [Simulation.callBuiltin_of_arity harity,
      Simulation.callBuiltin_of_arity (hlength ▸ harity), hlength]
    exact ⟨h, rfl⟩
  cases b with
  | print =>
      rcases hargs with _ | ⟨hv, _ | _⟩
      · cases harity
      · next v v' =>
          rcases hout : m.output.writeLine v.display with ⟨o, written⟩
          have hout' : m'.output.writeLine v'.display = (o, written) := by
            rw [hv.display, h.output, hout]
          simp only [Machine.callBuiltin, hout, hout']
          refine ⟨⟨h.image_eq, h.image_eq', h.constants, h.inputs, h.maxDepth, h.globals, rfl,
            ⟨h.free.budget, h.free.cancelled, h.free.outcome⟩,
            ⟨h.free'.budget, h.free'.cancelled, h.free'.outcome⟩, h.oneToOne, h.below, h.steps⟩, ?_⟩
          cases written <;> simp [ResultsMatch]
      · cases harity
  | len =>
      rcases hargs with _ | ⟨hv, _ | _⟩
      · cases harity
      · next v v' =>
          refine ⟨h, ?_⟩
          simp only [Machine.callBuiltin, hv.length]
          cases v.length <;> simp [Except.map, ResultsMatch]
      · cases harity
  | arg =>
      rcases hargs with _ | ⟨hv, _ | _⟩
      · cases harity
      · exact ⟨h, inputAt_matches h.inputs hv⟩
      · cases harity
  | argCount =>
      rcases hargs with _ | _
      · refine ⟨h, ?_⟩
        simp [Machine.callBuiltin, h.inputs, ResultsMatch]
      · cases harity
  | push =>
      rcases hargs with _ | ⟨hv, _ | ⟨hv', _ | _⟩⟩
      · cases harity
      · cases harity
      · exact ⟨h, hv.push hv'⟩
      · cases harity

/-- Calls of one function start alike, or both do not start. -/
theorem enter_beside {r r' : Routine} (hparams : r'.params = r.params)
    (hslots : r'.slots = r.slots) {g : Nat} (hplace : P g 0 0)
    {captures captures' args args' : List Value}
    (hcaptures : List.Forall₂ (Value.Matches φ) captures captures')
    (hargs : List.Forall₂ (Value.Matches φ) args args') :
    (∃ k, Frame.enter r g captures args = .error k ∧ Frame.enter r' g captures' args' = .error k) ∨
      ∃ f f', Frame.enter r g captures args = .ok f ∧ Frame.enter r' g captures' args' = .ok f' ∧
        f.Beside P φ f' := by
  unfold Frame.enter
  rw [hparams, hslots, ← hargs.length_eq]
  split
  · refine .inr ⟨_, _, rfl, rfl, ⟨rfl, hcaptures, ?_, .nil⟩, hplace⟩
    exact List.rel_append hargs (List.forall₂_same.mpr fun v hv => by
      rw [List.eq_of_mem_replicate hv]
      simp)
  · exact .inl ⟨_, rfl, rfl⟩

/-- **Calls.** Calling values that match does the same on both sides. The limit of the depth refuses
both calls or neither, as there are as many callers on both sides. -/
theorem call (h : m.Beside image image' φ m') (himage : image.Abreast P image')
    (hcallers : List.Forall₂ (Frame.Beside P φ) callers callers') (hf : f.Beside P φ f')
    {callee callee' : Value} (hcallee : callee.Matches φ callee') {args args' : List Value}
    (hargs : List.Forall₂ (Value.Matches φ) args args') :
    Executed.Beside image image' P (m.call callers f callee args)
      (m'.call callers' f' callee' args') := by
  obtain ⟨hatom, rfl⟩ | ⟨as, bs, rfl, rfl, -⟩ | ⟨t, u, g, as, bs, rfl, rfl, -, hcaptures⟩ :=
    hcallee.cases
  · cases callee' with
    | builtin b =>
        obtain ⟨hn, hr⟩ := h.callBuiltin b hargs
        exact hn.pushResult hcallers hf.toMatches hf.place hf.stack hr
    | list items => exact hatom.elim
    | function tag index captures => exact hatom.elim
    | _ => exact h.fails
  · exact h.fails
  · have hdepth' : m'.maxDepth ≤ callers'.length + 1 ↔ m.maxDepth ≤ callers.length + 1 := by
      rw [h.maxDepth, hcallers.length_eq]
    by_cases hdepth : m.maxDepth ≤ callers.length + 1
    · rw [call_of_depth hdepth, call_of_depth (hdepth'.mpr hdepth), h.maxDepth]
      exact h.fails
    · have hdepth' := mt hdepth'.mp hdepth
      cases hr : image.routines[g]? with
      | none =>
          rw [call_of_missing hdepth (h.image_eq ▸ hr),
            call_of_missing hdepth' (h.image_eq' ▸ himage.missing g hr)]
          exact h.fails
      | some r =>
          obtain ⟨r', hr', hparams, hslots, -, hplace⟩ := himage.routine g r hr
          rw [call_of_enter hdepth (h.image_eq ▸ hr), call_of_enter hdepth' (h.image_eq' ▸ hr')]
          obtain ⟨k, he, he'⟩ | ⟨frame, frame', he, he', hframe⟩ :=
            enter_beside hparams hslots hplace hcaptures hargs
          · rw [he, he']
            exact h.fails
          · rw [he, he']
            exact h.resumes (.cons hf hcallers) hframe

/-- Handing values that match to the callers. -/
theorem leave (h : m.Beside image image' φ m')
    (hcallers : List.Forall₂ (Frame.Beside P φ) callers callers') {v v' : Value}
    (hv : v.Matches φ v') :
    Executed.Beside image image' P (m.leave callers v) (m'.leave callers' v') := by
  rcases hcallers with _ | ⟨hf, hcallers⟩
  · exact .finishes rfl rfl hv.alike h.output h.steps
  · exact h.resumes hcallers ⟨⟨hf.function, hf.captures, hf.slots, .cons hv hf.stack⟩, hf.place⟩

/-! ### Instructions -/

/-- Making a function value gives out an identity on both sides. The two need not be the same, so
they are paired, and new function values are told apart from old ones on both sides. -/
theorem closure (h : m.Beside image image' φ m')
    (hcallers : List.Forall₂ (Frame.Beside P φ) callers callers') (hf : f.Matches φ f')
    (hplace : P f.function f.pc f'.pc) {g : Nat} {captures captures' stack stack' : List Value}
    (hcaptures : List.Forall₂ (Value.Matches φ) captures captures')
    (hstack : List.Forall₂ (Value.Matches φ) stack stack') :
    Executed.Beside image image' P
      (done { m.resume callers { f with stack := .function m.nextTag g captures :: stack } with
        nextTag := m.nextTag + 1 })
      (done
        { m'.resume callers' { f' with stack := .function m'.nextTag g captures' :: stack' } with
          nextTag := m'.nextTag + 1 }) := by
  have hle := Simulation.le_extend φ m.nextTag m'.nextTag
  have hv : (Value.function m.nextTag g captures).Matches (Simulation.extend φ m.nextTag m'.nextTag)
      (.function m'.nextTag g captures') :=
    Value.function_matches_function.mpr ⟨.inr ⟨rfl, rfl⟩, rfl, Value.forall₂_mono hle hcaptures⟩
  refine .goes (φ := Simulation.extend φ m.nextTag m'.nextTag)
    ⟨h.image_eq, h.image_eq', fun k k' c hk hk' => ?_, h.inputs, h.maxDepth,
      Value.forall₂_mono hle h.globals, h.output,
      ⟨h.free.budget, h.free.cancelled, h.free.outcome⟩,
      ⟨h.free'.budget, h.free'.cancelled, h.free'.outcome⟩, ?_, ?_, h.steps⟩
    (.cons ⟨⟨hf.function, Value.forall₂_mono hle hf.captures, Value.forall₂_mono hle hf.slots,
      .cons hv (Value.forall₂_mono hle hstack)⟩, hplace⟩ (Frame.beside_mono hle hcallers))
  · obtain ⟨v, v', hv, hv', hm⟩ := h.constants k k' c hk hk'
    exact ⟨v, v', hv, hv', hm.mono hle⟩
  · exact Simulation.oneToOne_extend h.oneToOne h.below
  · rintro t u (htu | ⟨rfl, rfl⟩)
    · have := h.below t u htu
      exact ⟨Nat.lt_succ_of_lt this.1, Nat.lt_succ_of_lt this.2⟩
    · exact ⟨Nat.lt_succ_self _, Nat.lt_succ_self _⟩

/-- Slots that match are there together. -/
theorem getElem?_matches {a a' : Array Value}
    (h : List.Forall₂ (Value.Matches φ) a.toList a'.toList) (i : Nat) :
    (a[i]? = none ∧ a'[i]? = none) ∨
      ∃ v v', a[i]? = some v ∧ a'[i]? = some v' ∧ v.Matches φ v' := by
  cases hi : a[i]? with
  | none =>
      have hsize : a'.size = a.size := by simpa using h.length_eq.symm
      refine .inl ⟨rfl, ?_⟩
      rw [Array.getElem?_eq_none_iff] at hi ⊢
      omega
  | some v =>
      obtain ⟨v', hv', hm⟩ := Value.forall₂_getElem? h (a := v) (by simpa using hi)
      exact .inr ⟨v, v', rfl, by simpa using hv', hm⟩

/-! ### Families of instructions

Twin instructions are taken together where they treat their operands alike, with these operands on
both stacks. If some are missing on one stack, they are missing on the other one, and both fail. -/

/-- Twins take the same number of operands. -/
theorem operands_of_twin {consts consts' : Array Const} {To : Nat → Nat → Prop} {i i' : Instr}
    (h : i.Twin consts consts' To i') : i'.operands = i.operands := by
  cases i with
  | loadConst _ =>
      obtain ⟨_, _, _, _, rfl⟩ := h
      rfl
  | jump _ | jumpIfFalse _ | jumpIfTrueOrPop _ | jumpIfFalseOrPop _ =>
      obtain ⟨_, _, rfl⟩ := h
      rfl
  | _ =>
      cases h
      rfl

/-- The topmost operands of both frames match, if there is one. -/
theorem operand_matches (hf : f.Matches φ f') (hlen : 1 ≤ f.stack.length) :
    ∃ v v' st st', f.stack = v :: st ∧ f'.stack = v' :: st' ∧ v.Matches φ v' ∧
      List.Forall₂ (Value.Matches φ) st st' := by
  have hstack := hf.stack
  obtain ⟨v, st, hs⟩ := List.exists_cons_of_length_pos hlen
  rw [hs] at hstack
  obtain ⟨v', st', hv, hst, hs'⟩ := List.forall₂_cons_left_iff.mp hstack
  exact ⟨v, v', st, st', hs, hs', hv, hst⟩

/-- The two topmost operands of both frames match, if there are two. -/
theorem two_operands_match (hf : f.Matches φ f') (hlen : 2 ≤ f.stack.length) :
    ∃ v v' w w' st st', f.stack = v :: w :: st ∧ f'.stack = v' :: w' :: st' ∧ v.Matches φ v' ∧
      w.Matches φ w' ∧ List.Forall₂ (Value.Matches φ) st st' := by
  obtain ⟨v, v', rest, rest', hs, hs', hv, hrest⟩ := operand_matches hf (Nat.le_of_succ_le hlen)
  rw [hs, List.length_cons] at hlen
  obtain ⟨w, st, rfl⟩ := List.exists_cons_of_length_pos (Nat.le_of_succ_le_succ hlen)
  obtain ⟨w', st', hw, hst, rfl⟩ := List.forall₂_cons_left_iff.mp hrest
  exact ⟨v, v', w, w', st, st', hs, hs', hv, hw, hst⟩

/-- Both go on at places that belong together, with other operands that match. -/
theorem goes (h : m.Beside image image' φ m')
    (hcallers : List.Forall₂ (Frame.Beside P φ) callers callers') (hf : f.Matches φ f')
    {next next' : Nat} (hplace : P f.function next next') {operands operands' : List Value}
    (ho : List.Forall₂ (Value.Matches φ) operands operands') :
    Executed.Beside image image' P
      (done (m.resume callers { f with pc := next, stack := operands }))
      (done (m'.resume callers' { f' with pc := next', stack := operands' })) :=
  h.resumes hcallers ⟨⟨hf.function, hf.captures, hf.slots, ho⟩, hplace⟩

section Families

variable (h : m.Beside image image' φ m')
  (hcallers : List.Forall₂ (Frame.Beside P φ) callers callers') (hf : f.Matches φ f')
  {i i' : Instr} (hi : i.Twin image.consts image'.consts (P f.function) i')
  (hplace : P f.function f.pc f'.pc)

include h hcallers hf

include hi hplace in
/-- **Loads.** Values that match are loaded, or both loads fail. Constants may have other numbers in
the other image; slots and captures keep theirs. -/
theorem execute_load (hload : i.isLoad = true) :
    Executed.Beside image image' P (m.execute callers f i) (m'.execute callers' f' i') := by
  cases i with
  | loadConst k =>
      obtain ⟨c, k', hk, hk', rfl⟩ := hi
      obtain ⟨v, v', hv, hv', hm⟩ := h.constants k k' c hk hk'
      simp only [Machine.execute, hv, hv']
      exact h.goes hcallers hf hplace (.cons hm hf.stack)
  | loadLocal slot =>
      cases hi
      obtain ⟨hv, hv'⟩ | ⟨v, v', hv, hv', hm⟩ := getElem?_matches hf.slots slot
      · simp only [Machine.execute, hv, hv']
        exact h.fails
      · simp only [Machine.execute, hv, hv']
        exact h.goes hcallers hf hplace (.cons hm hf.stack)
  | loadGlobal slot =>
      cases hi
      obtain ⟨hv, hv'⟩ | ⟨v, v', hv, hv', hm⟩ := getElem?_matches h.globals slot
      · simp only [Machine.execute, hv, hv']
        exact h.fails
      · simp only [Machine.execute, hv, hv']
        exact h.goes hcallers hf hplace (.cons hm hf.stack)
  | loadCapture index =>
      cases hi
      simp only [Machine.execute]
      cases hv : f.captures[index]? with
      | none =>
          rw [List.getElem?_eq_none_iff, hf.captures.length_eq, ← List.getElem?_eq_none_iff] at hv
          rw [hv]
          exact h.fails
      | some v =>
          obtain ⟨v', hv', hm⟩ := Value.forall₂_getElem? hf.captures hv
          rw [hv']
          exact h.goes hcallers hf hplace (.cons hm hf.stack)
  | _ => cases hload

include hi hplace in
/-- **Stores.** A slot gets values that match. -/
theorem execute_store (hstore : i.isStore = true) (hlen : i.operands ≤ f.stack.length) :
    Executed.Beside image image' P (m.execute callers f i) (m'.execute callers' f' i') := by
  cases i with
  | storeLocal slot =>
      cases hi
      obtain ⟨v, v', st, st', hs, hs', hv, hst⟩ := operand_matches hf hlen
      simp only [Machine.execute, hs, hs']
      refine h.resumes hcallers ⟨⟨hf.function, hf.captures, ?_, hst⟩, hplace⟩
      simpa using Value.forall₂_set hf.slots hv slot
  | storeGlobal slot =>
      cases hi
      obtain ⟨v, v', st, st', hs, hs', hv, hst⟩ := operand_matches hf hlen
      simp only [Machine.execute, hs, hs']
      refine .goes ⟨h.image_eq, h.image_eq', h.constants, h.inputs, h.maxDepth, ?_, h.output,
        ⟨h.free.budget, h.free.cancelled, h.free.outcome⟩,
        ⟨h.free'.budget, h.free'.cancelled, h.free'.outcome⟩, h.oneToOne, h.below, h.steps⟩
        (.cons ⟨⟨hf.function, hf.captures, hf.slots, hst⟩, hplace⟩ hcallers)
      simpa using Value.forall₂_set h.globals hv slot
  | _ => cases hstore

include hplace in
/-- **Function values.** Both take the captures of the function, which are as many. -/
theorem execute_closure (himage : image.Abreast P image') (g : Nat) :
    Executed.Beside image image' P (m.execute callers f (.closure g))
      (m'.execute callers' f' (.closure g)) := by
  simp only [Machine.execute, h.image_eq, h.image_eq']
  cases hr : image.routines[g]? with
  | none =>
      rw [himage.missing g hr]
      exact h.fails
  | some r =>
      obtain ⟨r', hr', -, -, hcount, -⟩ := himage.routine g r hr
      rw [hr']
      dsimp only
      rw [hcount]
      obtain ⟨hp, hp'⟩ | ⟨items, items', rest, rest', hp, hp', hitems, hrest⟩ :=
        popMany?_matches hf.stack r.captures
      · rw [hp, hp']
        exact h.fails
      · rw [hp, hp']
        exact h.closure hcallers hf hplace hitems hrest

include hplace in
/-- **Lists.** Lists of values that match match. -/
theorem execute_buildList (count : Nat) :
    Executed.Beside image image' P (m.execute callers f (.buildList count))
      (m'.execute callers' f' (.buildList count)) := by
  simp only [Machine.execute]
  obtain ⟨hp, hp'⟩ | ⟨items, items', rest, rest', hp, hp', hitems, hrest⟩ :=
    popMany?_matches hf.stack count
  · rw [hp, hp']
    exact h.fails
  · rw [hp, hp']
    exact h.goes hcallers hf hplace (.cons (Value.list_matches_list.mpr hitems) hrest)

include hplace in
/-- **Items.** Lists that match are changed alike, or the index is bad for both. -/
theorem execute_setItem (hlen : 3 ≤ f.stack.length) :
    Executed.Beside image image' P (m.execute callers f .setItem)
      (m'.execute callers' f' .setItem) := by
  obtain ⟨v, v', index, index', rest, rest', hs, hs', hv, hindex, hrest⟩ :=
    two_operands_match hf (Nat.le_of_succ_le hlen)
  rw [hs, List.length_cons, List.length_cons] at hlen
  obtain ⟨target, st, rfl⟩ :=
    List.exists_cons_of_length_pos (Nat.le_of_succ_le_succ (Nat.le_of_succ_le_succ hlen))
  obtain ⟨target', st', htarget, hstack, rfl⟩ := List.forall₂_cons_left_iff.mp hrest
  simp only [Machine.execute, hs, hs']
  have hr := htarget.setItem hindex hv
  generalize Value.setItem _ _ _ = result at hr ⊢
  generalize Value.setItem _ _ _ = result' at hr ⊢
  rcases result with k | changed <;> rcases result' with k' | changed'
  · obtain rfl : k = k' := hr
    exact h.fails
  · exact hr.elim
  · exact hr.elim
  · exact h.goes hcallers hf hplace (.cons hr (.cons hv hstack))

include hi hplace in
/-- **Operators.** Operations on values that match have results that match. What stays on the stack
matches already, so a result is all that is asked for. -/
theorem execute_operator (hop : i.isOperator = true) (hlen : i.operands ≤ f.stack.length) :
    Executed.Beside image image' P (m.execute callers f i) (m'.execute callers' f' i') := by
  -- The operands that stay match, so all that is left is the result.
  have hpush : ∀ {st st' : List Value} {result result' : Except Fault Value},
      List.Forall₂ (Value.Matches φ) st st' → ResultsMatch φ result result' →
      Executed.Beside image image' P (m.pushResult callers f st result)
        (m'.pushResult callers' f' st' result') :=
    fun hst hr => h.pushResult hcallers hf hplace hst hr
  cases i with
  | unary op =>
      cases hi
      obtain ⟨v, v', st, st', hs, hs', hv, hst⟩ := operand_matches hf hlen
      simp only [Machine.execute, hs, hs']
      exact hpush hst (hv.unary op)
  | cast target =>
      cases hi
      obtain ⟨v, v', st, st', hs, hs', hv, hst⟩ := operand_matches hf hlen
      simp only [Machine.execute, hs, hs']
      exact hpush hst (hv.cast target)
  | binary op =>
      cases hi
      obtain ⟨r, r', l, l', st, st', hs, hs', hr, hl, hst⟩ := two_operands_match hf hlen
      simp only [Machine.execute, hs, hs']
      exact hpush hst (hl.binary h.oneToOne hr op.toBinary)
  | getItem =>
      cases hi
      obtain ⟨index, index', target, target', st, st', hs, hs', hindex, htarget, hst⟩ :=
        two_operands_match hf hlen
      simp only [Machine.execute, hs, hs']
      exact hpush hst (htarget.getItem hindex)
  | _ => cases hop

omit hf in
/-- A condition sends both the same way, or both fail. -/
theorem branch {v v' : Value} (hv : v.Matches φ v') {yes no other yes' no' other' : Frame}
    (hyes : yes.Beside P φ yes') (hno : no.Beside P φ no') :
    Executed.Beside image image' P
      (match truth v with
        | .ok true => done (m.resume callers yes)
        | .ok false => done (m.resume callers no)
        | .error k => faulted k (m.resume callers other))
      (match truth v' with
        | .ok true => done (m'.resume callers' yes')
        | .ok false => done (m'.resume callers' no')
        | .error k => faulted k (m'.resume callers' other')) := by
  rw [truth_matches hv]
  rcases truth v with k | (_ | _)
  · exact h.fails
  · exact h.resumes hcallers hno
  · exact h.resumes hcallers hyes

include hi in
/-- **Jumps.** The targets of twin jumps belong together, and so do the places behind them. The same
condition is on top of both stacks, so both machines jump or neither does. -/
theorem execute_jump {target : Nat} (hjump : i.target? = some target)
    (hnext : i.isFinal = false → P f.function f.pc f'.pc)
    (hlen : i.operands ≤ f.stack.length) :
    Executed.Beside image image' P (m.execute callers f i) (m'.execute callers' f' i') := by
  -- The frames that stand at a place, with the operands that stay.
  have hstands : ∀ {next next' : Nat} {st st' : List Value}, P f.function next next' →
      List.Forall₂ (Value.Matches φ) st st' →
      Frame.Beside P φ { f with pc := next, stack := st } { f' with pc := next', stack := st' } :=
    fun hp hst => ⟨⟨hf.function, hf.captures, hf.slots, hst⟩, hp⟩
  cases i with
  | jump target =>
      obtain ⟨target', htarget, rfl⟩ := hi
      exact h.resumes hcallers (hstands htarget hf.stack)
  | jumpIfFalse target =>
      obtain ⟨target', htarget, rfl⟩ := hi
      obtain ⟨v, v', st, st', hs, hs', hv, hst⟩ := operand_matches hf hlen
      simp only [Machine.execute, hs, hs']
      exact h.branch hcallers hv (hstands (hnext rfl) hst) (hstands htarget hst)
  | jumpIfTrueOrPop target =>
      obtain ⟨target', htarget, rfl⟩ := hi
      obtain ⟨v, v', st, st', hs, hs', hv, hst⟩ := operand_matches hf hlen
      simp only [Machine.execute, hs, hs']
      exact h.branch hcallers hv (hstands htarget (.cons hv hst)) (hstands (hnext rfl) hst)
  | jumpIfFalseOrPop target =>
      obtain ⟨target', htarget, rfl⟩ := hi
      obtain ⟨v, v', st, st', hs, hs', hv, hst⟩ := operand_matches hf hlen
      simp only [Machine.execute, hs, hs']
      exact h.branch hcallers hv (hstands (hnext rfl) hst) (hstands htarget (.cons hv hst))
  | _ => cases hjump

include hplace in
/-- **Calls.** Both call values that match with arguments that match. -/
theorem execute_call (himage : image.Abreast P image') (count : Nat) :
    Executed.Beside image image' P (m.execute callers f (.call count))
      (m'.execute callers' f' (.call count)) := by
  simp only [Machine.execute]
  obtain ⟨hp, hp'⟩ | ⟨args, args', rest, rest', hp, hp', hargs, hrest⟩ :=
    popMany?_matches hf.stack count
  · rw [hp, hp']
    exact h.fails
  · rw [hp, hp']
    rcases hrest with _ | @⟨callee, callee', st, st', hcallee, hst⟩
    · exact h.fails
    · have hframe : Frame.Beside P φ { f with stack := st } { f' with stack := st' } :=
        ⟨⟨hf.function, hf.captures, hf.slots, hst⟩, hplace⟩
      exact h.call himage hcallers hframe hcallee hargs

end Families

/-- **One instruction.** Twin instructions do the same to machines that are side by side: both go
on, in frames that are again side by side, or both fail alike. -/
theorem execute (h : m.Beside image image' φ m') (himage : image.Abreast P image')
    (hcallers : List.Forall₂ (Frame.Beside P φ) callers callers') (hf : f.Matches φ f')
    {i i' : Instr} (hi : i.Twin image.consts image'.consts (P f.function) i')
    (hnext : i.isFinal = false → P f.function f.pc f'.pc) :
    Executed.Beside image image' P (m.execute callers f i) (m'.execute callers' f' i') := by
  rcases Nat.lt_or_ge f.stack.length i.operands with hshort | hlen
  · have hshort' : f'.stack.length < i'.operands := by
      rw [← hf.stack.length_eq, operands_of_twin hi]
      exact hshort
    rw [execute_of_short hshort, execute_of_short hshort']
    exact h.fails
  cases i with
  | pop =>
      cases hi
      obtain ⟨v, v', st, st', hs, hs', hv, hst⟩ := operand_matches hf hlen
      simp only [Machine.execute, hs, hs']
      exact h.goes hcallers hf (hnext rfl) hst
  | copy =>
      cases hi
      obtain ⟨v, v', st, st', hs, hs', hv, hst⟩ := operand_matches hf hlen
      simp only [Machine.execute, hs, hs']
      exact h.goes hcallers hf (hnext rfl) (.cons hv (.cons hv hst))
  | loadConst _ | loadLocal _ | loadGlobal _ | loadCapture _ =>
      exact h.execute_load hcallers hf hi (hnext rfl) rfl
  | storeLocal _ | storeGlobal _ => exact h.execute_store hcallers hf hi (hnext rfl) rfl hlen
  | closure g =>
      cases hi
      exact h.execute_closure hcallers hf (hnext rfl) himage g
  | buildList count =>
      cases hi
      exact h.execute_buildList hcallers hf (hnext rfl) count
  | setItem =>
      cases hi
      exact h.execute_setItem hcallers hf (hnext rfl) hlen
  | getItem | unary _ | binary _ | cast _ =>
      exact h.execute_operator hcallers hf hi (hnext rfl) rfl hlen
  | jump _ | jumpIfFalse _ | jumpIfTrueOrPop _ | jumpIfFalseOrPop _ =>
      exact h.execute_jump hcallers hf hi rfl hnext hlen
  | call count =>
      cases hi
      exact h.execute_call hcallers hf (hnext rfl) himage count
  | ret =>
      cases hi
      obtain ⟨v, v', st, st', hs, hs', hv, -⟩ := operand_matches hf hlen
      simp only [Machine.execute, hs, hs']
      exact h.leave hcallers hv

end Beside

end Execute

end Machine

end Parlance
