import Parlance.Proofs.Code.Flow

/-!
# Code with detours

Code generation can leave out two things: loads of values that are dropped, and copies of
assigned values that are dropped. Code in which they stand takes detours. This module is about
the two codes that are generated for one tree, the short one and the one with detours.

Every offset of the short code has an offset in the code with detours, where the same instruction
stands, or a store between a copy and a drop. A jump of the code with detours need not lead to this
offset: it may also lead to a load in front of it whose value is dropped. So a chart gives for each
offset of the short code the offset behind all detours, and an offset is as good as this one if
only detours are in between.

The two codes have pools of their own, so the same constant may stand at different places.

## Main definitions

* `Detours`: loads of values that are dropped lead from offset to offset.
* `Fragment.Twins`: two fragments do the same, the second one with detours.

## Main results

* `Fragment.twins_load`, `Fragment.twins_store`: what the short code leaves out.
* `Fragment.Twins.append`, `skipping`, `choice`, `forever` and `whileTrue`: twins whose parts are
  twins.
* `Fragment.Twins.guides`: the chart of a whole code.
-/

namespace Parlance

/-! ### Detours -/

namespace Instr

/-- Two instructions do the same: they load the same constant, each from its pool, they jump to
offsets that are related, or they are equal. -/
def Twin (consts consts' : Array Const) (To : Nat → Nat → Prop) : Instr → Instr → Prop
  | .loadConst k, i' => ∃ c k', consts[k]? = some c ∧ consts'[k']? = some c ∧ i' = .loadConst k'
  | .jump t, i' => ∃ t', To t t' ∧ i' = .jump t'
  | .jumpIfFalse t, i' => ∃ t', To t t' ∧ i' = .jumpIfFalse t'
  | .jumpIfTrueOrPop t, i' => ∃ t', To t t' ∧ i' = .jumpIfTrueOrPop t'
  | .jumpIfFalseOrPop t, i' => ∃ t', To t t' ∧ i' = .jumpIfFalseOrPop t'
  | i, i' => i' = i

/-- The instruction loads no constant and does not jump. -/
def isOwnTwin : Instr → Bool
  | .loadConst _ | .jump _ | .jumpIfFalse _ | .jumpIfTrueOrPop _ | .jumpIfFalseOrPop _ => false
  | _ => true

/-- An instruction that loads no constant and does not jump is its own twin. -/
theorem twin_self {consts consts' : Array Const} {To : Nat → Nat → Prop} {i : Instr}
    (h : i.isOwnTwin = true) : i.Twin consts consts' To i := by
  cases i <;> first | rfl | cases h

/-- A store is its own twin. -/
theorem isOwnTwin_of_isStore {i : Instr} (h : i.isStore = true) : i.isOwnTwin = true := by
  cases i <;> first | rfl | cases h

/-- Twins remain twins if more offsets are related. -/
theorem Twin.mono {consts consts' : Array Const} {To To' : Nat → Nat → Prop} {i i' : Instr}
    (h : i.Twin consts consts' To i') (hTo : ∀ t t', To t t' → To' t t') :
    i.Twin consts consts' To' i' := by
  cases i with
  | jump t | jumpIfFalse t | jumpIfTrueOrPop t | jumpIfFalseOrPop t =>
      obtain ⟨t', ht, rfl⟩ := h
      exact ⟨t', hTo t t' ht, rfl⟩
  | _ => exact h

/-- Only a return is the twin of a return. -/
theorem Twin.eq_ret {consts consts' : Array Const} {To : Nat → Nat → Prop} {i : Instr}
    (h : i.Twin consts consts' To .ret) : i = .ret := by
  cases i <;> simp_all [Twin]

end Instr

/-- **Detours.** Loads of values that are dropped at once lead from one offset to another. -/
inductive Detours (code : Array Instr) : Nat → Nat → Prop
  | refl (pc : Nat) : Detours code pc pc
  | load {pc q : Nat} {i : Instr} (hi : code[pc]? = some i) (hl : i.isLoad = true)
      (hp : code[pc + 1]? = some .pop) (h : Detours code (pc + 2) q) : Detours code pc q

/-- Only detours stand between an offset of a code and the one that a chart gives for an offset
of the short code. -/
def Chart.Meets (chart : Chart Nat) (code' : Array Instr) (pc pc' : Nat) : Prop :=
  ∃ q, chart pc = some q ∧ Detours code' pc' q

/-- A chart of a short code leads to a code that has the same instructions, and stores between a
copy and a drop. -/
def detourRules (consts consts' : Array Const) (code' : Array Instr) : Rules Nat where
  Covers q p := Detours code' p q
  covers_refl := .refl
  Leads chart pc p i :=
    (∃ i', code'[p]? = some i' ∧ i.Twin consts consts' (chart.Meets code') i' ∧
      (i.isFinal = false → chart.Meets code' (pc + 1) (p + 1))) ∨
    (i.isStore = true ∧ code'[p]? = some .copy ∧ code'[p + 1]? = some i ∧
      code'[p + 2]? = some .pop ∧ chart.Meets code' (pc + 1) (p + 3))

/-- Inside a loop, its ends have to be met. -/
def loopTwins (code' : Array Instr) (inLoop : Bool) (loop' : LoopEnds) : Jumps Nat :=
  fun chart loop => inLoop = true →
    chart.Meets code' loop.start loop'.start ∧ chart.Meets code' loop.exit loop'.exit

/-! ### Fragments -/

/-- **Twins.** Wherever the second fragment is placed, the first one leads through it. -/
structure Fragment.Twins (consts consts' : Array Const) (inLoop : Bool) (a a' : Fragment) :
    Prop where
  sized : a'.Sized
  flows : ∀ {code' : Array Instr} {offset : Nat} {loop' : LoopEnds},
    a'.Placed code' offset loop' →
      ∃ ps, a.Flows (detourRules consts consts' code') (loopTwins code' inLoop loop')
        (some offset) ps (some (offset + a'.size))
  empty : a'.size = 0 → a.size = 0
  /-- The short fragment returns where the one with detours does. -/
  returns : a'.returns = true → a.returns = true ∧ a.size ≠ 0

namespace Fragment

variable {consts consts' : Array Const} {inLoop : Bool} {a b test a' b' test' : Fragment}

/-- No code is the twin of no code. -/
theorem twins_empty : Twins consts consts' inLoop empty empty :=
  ⟨sized_empty, fun _ => ⟨[], flows_empty⟩, fun _ => rfl, fun h => by cases h⟩

/-- Twin instructions make twin fragments. -/
theorem twins_one {i i' : Instr} (h : ∀ To, i.Twin consts consts' To i') :
    Twins consts consts' inLoop (one i) (one i') := by
  refine ⟨sized_one, fun {code' offset loop'} hp =>
    ⟨[some offset], flows_one fun chart pc hq => ?_⟩, (fun h => by cases h), fun hr => ?_⟩
  · exact .inl ⟨i', placed_one.mp hp, h _, fun _ => hq⟩
  · have hret : i' = .ret := by simpa [one] using hr
    obtain rfl := (hret ▸ h fun _ _ => True).eq_ret
    exact ⟨rfl, Nat.one_ne_zero⟩

/-- An instruction that is its own twin is so as a fragment. -/
theorem twins_self {i : Instr} (h : i.isOwnTwin = true) :
    Twins consts consts' inLoop (one i) (one i) :=
  twins_one fun _ => Instr.twin_self h

/-- A load whose value is dropped is a detour. -/
theorem twins_load {i : Instr} (hi : i.isLoad = true) :
    Twins consts consts' inLoop empty (one i ++ one .pop) := by
  refine ⟨sized_one.append sized_one, fun {code' offset loop'} hp => ⟨[], ?_⟩,
    (fun h => by cases h), (fun hr => by cases hr)⟩
  obtain ⟨hload, hpop⟩ := sized_one.placed_append.mp hp
  exact flows_empty.strengthen fun chart pc ⟨q, hq, hd⟩ =>
    ⟨q, hq, .load (placed_one.mp hload) hi (placed_one.mp hpop) hd⟩

/-- A store of which nothing is left on the stack. -/
theorem twins_store {i : Instr} (hi : i.isStore = true) :
    Twins consts consts' inLoop (one i) (one .copy ++ (one i ++ one .pop)) := by
  refine ⟨sized_one.append (sized_one.append sized_one),
    fun {code' offset loop'} hp => ⟨[some offset], flows_one fun chart pc hq => ?_⟩,
    (fun h => by cases h), (fun hr => by cases hr)⟩
  obtain ⟨hcopy, hp⟩ := sized_one.placed_append.mp hp
  obtain ⟨hstore, hpop⟩ := sized_one.placed_append.mp hp
  exact .inr ⟨hi, placed_one.mp hcopy, placed_one.mp hstore, placed_one.mp hpop, hq⟩

/-- A jump to an end of the loop around it. -/
theorem twins_jump {target : LoopEnds → Nat} (hsize : a.size = 1) (hreturns : a.returns = false)
    (hplace : ∀ offset loop, a.place offset loop = [.jump (target loop)])
    (htarget : ∀ code' loop' chart loop, loopTwins code' true loop' chart loop →
      chart.Meets code' (target loop) (target loop')) : Twins consts consts' true a a := by
  have hsized : a.Sized := fun offset loop => by rw [hplace, hsize]; rfl
  refine ⟨hsized, fun {code' offset loop'} hp => ⟨[some offset], ?_⟩, fun h => h,
    fun hr => by rw [hreturns] at hr; cases hr⟩
  rw [Placed, hplace] at hp
  refine flows_single hsize hplace fun chart pc loop _ hj => ?_
  exact .inl ⟨_, (embeds_cons.mp hp).1, ⟨_, htarget _ _ _ _ hj, rfl⟩, fun hf => by cases hf⟩

/-- A jump to the start of the loop is its own twin. -/
theorem twins_continueLoop : Twins consts consts' true continueLoop continueLoop :=
  twins_jump rfl rfl (fun _ _ => rfl) fun _ _ _ _ hj => (hj rfl).1

/-- A jump to the exit of the loop is its own twin. -/
theorem twins_breakLoop : Twins consts consts' true breakLoop breakLoop :=
  twins_jump rfl rfl (fun _ _ => rfl) fun _ _ _ _ hj => (hj rfl).2

namespace Twins

/-- Code that does not jump to the ends of a loop may stand in one. -/
theorem anywhere (ha : Twins consts consts' false a a') : Twins consts consts' inLoop a a' :=
  ⟨ha.sized, fun hp => (ha.flows hp).imp fun _ hf => hf.mono fun _ _ _ => by simp [loopTwins],
    ha.empty, ha.returns⟩

/-- Twins in a row are twins. -/
theorem append (ha : Twins consts consts' inLoop a a') (hb : Twins consts consts' inLoop b b') :
    Twins consts consts' inLoop (a ++ b) (a' ++ b') := by
  refine ⟨ha.sized.append hb.sized, fun {code' offset loop'} hp => ?_, fun h => ?_, fun hr => ?_⟩
  · obtain ⟨hpa, hpb⟩ := ha.sized.placed_append.mp hp
    obtain ⟨ps, hfa⟩ := ha.flows hpa
    obtain ⟨qs, hfb⟩ := hb.flows hpb
    rw [Nat.add_assoc, ← size_append] at hfb
    exact ⟨ps ++ qs, hfa.append hfb⟩
  · rw [size_append, Nat.add_eq_zero_iff] at h ⊢
    exact ⟨ha.empty h.1, hb.empty h.2⟩
  · change (if b'.size = 0 then a'.returns else b'.returns) = true at hr
    change (if b.size = 0 then a.returns else b.returns) = true ∧ a.size + b.size ≠ 0
    split at hr
    · next hz =>
        obtain ⟨hra, hsize⟩ := ha.returns hr
        rw [if_pos (hb.empty hz)]
        exact ⟨hra, by omega⟩
    · obtain ⟨hrb, hsize⟩ := hb.returns hr
      rw [if_neg hsize]
      exact ⟨hrb, by omega⟩

/-- `a`, then a jump that may lead to the end, then `b`. -/
theorem skipping {jump : Nat → Instr} (ha : Twins consts consts' inLoop a a')
    (hb : Twins consts consts' inLoop b b')
    (hj : ∀ (To : Nat → Nat → Prop) (t t' : Nat), To t t' →
      (jump t).Twin consts consts' To (jump t')) :
    Twins consts consts' inLoop (skipping jump a b) (skipping jump a' b') := by
  refine ⟨ha.sized.skipping hb.sized jump, fun {code' offset loop'} hp => ?_,
    fun h => by simp [Fragment.skipping] at h, fun hr => by cases hr⟩
  obtain ⟨hpa, hcode, hpb⟩ := ha.sized.placed_skipping.mp hp
  obtain ⟨ps, hfa⟩ := ha.flows hpa
  obtain ⟨qs, hfb⟩ := hb.flows hpb
  rw [show offset + a'.size + 1 + b'.size = offset + (Fragment.skipping jump a' b').size by
    simp only [Fragment.skipping]; omega] at hcode hfb
  exact ⟨_, hfa.skipping hfb fun chart pc target hn ht =>
    .inl ⟨_, hcode, hj _ _ _ ht, fun _ => hn⟩⟩

/-- Choices between twins are twins. -/
theorem choice {yes no yes' no' : Fragment} (ht : Twins consts consts' inLoop test test')
    (hy : Twins consts consts' inLoop yes yes') (hn : Twins consts consts' inLoop no no') :
    Twins consts consts' inLoop (choice test yes no) (choice test' yes' no') := by
  refine ⟨ht.sized.choice hy.sized hn.sized, fun {code' offset loop'} hp => ?_,
    fun h => by simp [Fragment.choice] at h, fun hr => by cases hr⟩
  obtain ⟨hpt, htest, hpy, hjoin, hpn⟩ := (ht.sized.placed_choice hy.sized).mp hp
  obtain ⟨ts, hft⟩ := ht.flows hpt
  obtain ⟨ys, hfy⟩ := hy.flows hpy
  obtain ⟨ns, hfn⟩ := hn.flows hpn
  rw [show offset + test'.size + 1 + yes'.size + 1 + no'.size =
    offset + (Fragment.choice test' yes' no').size by
      simp only [Fragment.choice]; omega] at hjoin hfn
  refine ⟨_, hft.choice hfy hfn (fun chart pc target hn ht => ?_) fun chart pc target u hu ht => ?_⟩
  · exact .inl ⟨_, htest, ⟨_, ht, rfl⟩, fun _ => hn⟩
  · cases hu
    exact .inl ⟨_, hjoin, ⟨_, ht, rfl⟩, fun hf => by cases hf⟩

/-- Endless loops of twins are twins. -/
theorem forever (ha : Twins consts consts' true a a') :
    Twins consts consts' inLoop (forever a) (forever a') := by
  refine ⟨ha.sized.forever, fun {code' offset loop'} hp => ?_,
    fun h => by simp [Fragment.forever] at h, fun hr => by cases hr⟩
  obtain ⟨hpa, hback⟩ := ha.sized.placed_forever.mp hp
  obtain ⟨ps, hfa⟩ := ha.flows hpa
  exact ⟨_, hfa.forever (fun _ _ => Rules.accepts_of_eq)
    (fun chart pc target ht => .inl ⟨_, hback, ⟨_, ht, rfl⟩, fun hf => by cases hf⟩)
    fun chart loop hs he _ => ⟨hs, he⟩⟩

/-- Loops of twins are twins. -/
theorem whileTrue (ht : Twins consts consts' true test test')
    (ha : Twins consts consts' true a a') :
    Twins consts consts' inLoop (whileTrue test a) (whileTrue test' a') := by
  refine ⟨ht.sized.whileTrue ha.sized, fun {code' offset loop'} hp => ?_,
    fun h => by simp [Fragment.whileTrue] at h, fun hr => by cases hr⟩
  obtain ⟨hpt, htest, hpa, hback⟩ := (ht.sized.placed_whileTrue ha.sized).mp hp
  obtain ⟨ts, hft⟩ := ht.flows hpt
  obtain ⟨ps, hfa⟩ := ha.flows hpa
  exact ⟨_, hft.whileTrue hfa (fun _ _ => Rules.accepts_of_eq)
    (fun chart pc target hn ht => .inl ⟨_, htest, ⟨_, ht, rfl⟩, fun _ => hn⟩)
    (fun chart pc target ht => .inl ⟨_, hback, ⟨_, ht, rfl⟩, fun hf => by cases hf⟩)
    fun chart loop hs he _ => ⟨hs, he⟩⟩

end Twins

end Fragment

/-! ### Whole codes -/

/-- A chart of the whole short code leads through the code with detours. -/
structure Chart.Guides (consts consts' : Array Const) (code code' : Array Instr)
    (chart : Chart Nat) : Prop where
  entry : chart.Meets code' 0 0
  leads : ∀ (pc : Nat) (i : Instr) (p : Nat), code[pc]? = some i → chart pc = some p →
    (detourRules consts consts' code').Leads chart pc p i

/-- A twin that starts a code is a guide to it, whatever comes behind. -/
theorem Fragment.Twins.guides {consts consts' : Array Const} {a a' : Fragment}
    {code' : Array Instr} (h : a.Twins consts consts' false a') (hp : a'.Placed code' 0 ⟨0, 0⟩) :
    ∃ chart, Chart.Guides consts consts' a.code code' chart := by
  obtain ⟨ps, hf⟩ := h.flows hp
  obtain ⟨hl, hend⟩ := Chart.lists_append.mp (Chart.lists_ofList (ps ++ [some (0 + a'.size)]))
  rw [hf.length] at hend
  have hq : (detourRules consts consts' code').Reaches _ _ _ := Rules.reaches_of_eq hend.head
  refine ⟨_, hf.entry hl hq, fun pc i p hi hp => ?_⟩
  have hi' : (a.place 0 ⟨0, 0⟩)[pc]? = some i := by simpa [Fragment.code] using hi
  have := hf.leads hl hq (by simp [loopTwins]) pc i p hi' (by simpa only [Nat.zero_add] using hp)
  simpa only [Nat.zero_add] using this

end Parlance
