import Mathlib.Data.List.Nodup
import Parlance.Proofs.Code.Fragments

/-!
# Emitted code is placed fragments

Code generation emits markers. It takes back what it emitted last when it drops a value, and it
resolves labels when a routine is complete. Here it is compared, tree by tree, with the fragments
that are placed at offsets.

Two things carry the comparison. Emission only appends: what it takes back for a `pop` is always
the end of the expression whose value is dropped, never a label and never an instruction of another
part. And every part marks labels of its own, so any resolution that fits all markers of a routine
gives each part its code at the offset where the part stands.

## Main definitions

* `Fragment.Emitted`: some markers stand for a fragment.
* `Emits`: emission and the generation of fragments, side by side.

## Main results

* `Marker.resolves_lookup`: resolution fits all labels of a routine if none is marked twice.
* `emits_expr`, `emits_stmt`: the induction over trees.
* `assemble_eq`: the image that is emitted is the one that is made of fragments.
-/

namespace Parlance

/-! ### Markers -/

namespace Marker

/-- The number of instructions among some markers. -/
def instrCount : List Marker → Nat
  | [] => 0
  | .instr _ :: rest => instrCount rest + 1
  | .label _ :: rest => instrCount rest

/-- The labels that are marked. -/
def labels : List Marker → List Nat
  | [] => []
  | .instr _ :: rest => labels rest
  | .label l :: rest => l :: labels rest

variable {resolve : Nat → Nat} {offset : Nat} {code rest : List Marker} {i : Instr} {l : Nat}

/-- No markers hold no instruction. -/
@[simp] theorem instrCount_nil : instrCount [] = 0 := rfl

/-- An instruction counts for one, since it takes up one offset of the final code. -/
@[simp] theorem instrCount_instr : instrCount (.instr i :: rest) = instrCount rest + 1 := rfl

/-- A label counts for nothing: it disappears from the final code. -/
@[simp] theorem instrCount_label : instrCount (.label l :: rest) = instrCount rest := rfl

/-- No markers mark no label. -/
@[simp] theorem labels_nil : labels [] = [] := rfl

/-- An instruction marks no label, even if it jumps to one. -/
@[simp] theorem labels_instr : labels (.instr i :: rest) = labels rest := rfl

/-- A label marks itself, in front of those that come later. -/
@[simp] theorem labels_label : labels (.label l :: rest) = l :: labels rest := rfl

/-- No markers leave no code. -/
@[simp] theorem instrs_nil : instrs resolve [] = [] := rfl

/-- An instruction stays in the code, and its target, if it has one, is sent through the resolution.
-/
@[simp] theorem instrs_instr :
    instrs resolve (.instr i :: rest) = i.mapTarget resolve :: instrs resolve rest := rfl

/-- A label leaves nothing in the code. -/
@[simp] theorem instrs_label : instrs resolve (.label l :: rest) = instrs resolve rest := rfl

/-- Markers that follow each other take up as many offsets as both parts. -/
@[simp] theorem instrCount_append :
    instrCount (code ++ rest) = instrCount code + instrCount rest := by
  induction code with
  | nil => simp
  | cons marker code ih =>
      cases marker <;> simp [ih]
      omega

/-- The labels of markers that follow each other are those of the first part, then those of the
second. -/
@[simp] theorem labels_append : labels (code ++ rest) = labels code ++ labels rest := by
  induction code with
  | nil => rfl
  | cons marker code ih => cases marker <;> simp [ih]

/-- Resolution goes part by part: the code of two parts is the code of the first and then of the
second. -/
@[simp] theorem instrs_append :
    instrs resolve (code ++ rest) = instrs resolve code ++ instrs resolve rest := by
  induction code with
  | nil => rfl
  | cons marker code ih => cases marker <;> simp [ih]

/-- The second part of some markers is numbered from the offset where the instructions of the first
part end. -/
theorem labelOffsets_append :
    labelOffsets offset (code ++ rest) =
      labelOffsets offset code ++ labelOffsets (offset + instrCount code) rest := by
  induction code generalizing offset with
  | nil => rfl
  | cons marker code ih =>
      cases marker with
      | instr i => simp [labelOffsets, ih, Nat.add_assoc, Nat.add_comm 1]
      | label l => simp [labelOffsets, ih]

/-- The table of offsets has one entry for each label that is marked, in their order. -/
theorem labelOffsets_fst : (labelOffsets offset code).map Prod.fst = labels code := by
  induction code generalizing offset with
  | nil => rfl
  | cons marker code ih => cases marker <;> simp [labelOffsets, ih]

/-- A resolution fits some markers at an offset if it sends each label to the offset of the
instruction behind it. -/
def Resolves (resolve : Nat → Nat) (offset : Nat) (code : List Marker) : Prop :=
  ∀ l n, (l, n) ∈ labelOffsets offset code → resolve l = n

/-- Every resolution fits no markers, as there is no label to send anywhere. -/
@[simp] theorem resolves_nil : Resolves resolve offset [] :=
  fun _ _ h => nomatch h

/-- In front of an instruction a label would have another offset than behind it, so the rest is
looked at from the next offset on. -/
@[simp] theorem resolves_instr :
    Resolves resolve offset (.instr i :: rest) ↔ Resolves resolve (offset + 1) rest :=
  Iff.rfl

/-- A label is sent to the offset where it stands, which is the offset of the instruction behind it.
-/
@[simp] theorem resolves_label : Resolves resolve offset (.label l :: rest) ↔
    resolve l = offset ∧ Resolves resolve offset rest := by
  simp [Resolves, labelOffsets, or_imp, forall_and]

/-- A resolution fits two parts if it fits each of them where it stands. With this the parts of a
tree can be placed one by one. -/
@[simp] theorem resolves_append : Resolves resolve offset (code ++ rest) ↔
    Resolves resolve offset code ∧ Resolves resolve (offset + instrCount code) rest := by
  simp only [Resolves, labelOffsets_append, List.mem_append, or_imp, forall_and]

/-- A table whose keys are all different gives back each of its entries. Labels are marked once, so
the table of offsets is one of these. -/
theorem lookup_of_mem {offsets : List (Nat × Nat)} (hd : (offsets.map Prod.fst).Nodup) {n : Nat}
    (h : (l, n) ∈ offsets) : offsets.lookup l = some n := by
  induction offsets with
  | nil => cases h
  | cons p offsets ih =>
      obtain ⟨l', n'⟩ := p
      rw [List.map_cons, List.nodup_cons] at hd
      rw [List.lookup_cons]
      rcases List.mem_cons.mp h with he | hm
      · cases he
        simp
      · have hne : (l == l') = false :=
          beq_eq_false_iff_ne.mpr fun he => hd.1 (List.mem_map.mpr ⟨_, hm, he⟩)
        rw [hne]
        exact ih hd.2 hm

/-- **Resolution.** If no label is marked twice, each is resolved to the offset of the instruction
behind it. -/
theorem resolves_lookup (hd : (labels code).Nodup) :
    Resolves (fun l => ((labelOffsets 0 code).reverse.lookup l).getD l) 0 code := by
  intro l n h
  have hd' : ((labelOffsets 0 code).reverse.map Prod.fst).Nodup := by
    rw [List.map_reverse, List.nodup_reverse, labelOffsets_fst]
    exact hd
  dsimp only
  rw [lookup_of_mem hd' (List.mem_reverse.mpr h), Option.getD_some]

/-! #### Dropped values -/

/-- A `pop` behind these markers takes nothing back. -/
def Kept (code : List Marker) : Prop :=
  ∀ before, popped (code.reverse ++ before) = .instr .pop :: (code.reverse ++ before)

/-- A label is never taken back, and what is in front of it is not either. -/
theorem kept_label : Kept (code ++ [.label l]) := by
  intro before
  simp [popped]

/-- An instruction that neither loads nor stores is not taken back. -/
theorem kept_instr (hl : i.isLoad = false) (hs : i.isStore = false) :
    Kept (code ++ [.instr i]) := by
  intro before
  simp [popped, hl, hs]

/-- A store of what was not copied is not taken back. -/
theorem kept_store {j : Instr} (hl : i.isLoad = false) (hj : j ≠ .copy) :
    Kept (code ++ [.instr j, .instr i]) := by
  intro before
  simp [popped, hl, hj]

/-- A value that was loaded last is not loaded. -/
theorem popped_load (hl : i.isLoad = true) : popped (.instr i :: rest) = rest := by
  simp [popped, hl]

/-- A value that was copied to be stored is only stored. -/
theorem popped_store (hs : i.isStore = true) :
    popped (.instr i :: .instr .copy :: rest) = .instr i :: rest := by
  cases i <;> simp_all [popped, Instr.isStore, Instr.isLoad]

end Marker

namespace Instr

/-- An instruction that does not jump is the same under every resolution. -/
theorem mapTarget_of_target? {i : Instr} (h : i.target? = none) (f : Nat → Nat) :
    i.mapTarget f = i := by
  cases i <;> first | rfl | cases h

/-- The jump that cuts a logical operator short keeps its condition, and only its target is sent on.
-/
theorem mapTarget_skipJump (op : LogicalOp) (l : Nat) (f : Nat → Nat) :
    (op.skipJump l).mapTarget f = op.skipJump (f l) := by
  cases op <;> rfl

/-- No load is a jump, so loads go through resolution unchanged. -/
theorem target?_of_isLoad {i : Instr} (h : i.isLoad = true) : i.target? = none := by
  cases i <;> first | rfl | cases h

/-- No store is a jump, so stores go through resolution unchanged. -/
theorem target?_of_isStore {i : Instr} (h : i.isStore = true) : i.target? = none := by
  cases i <;> first | rfl | cases h

/-- A store is not a load. So a `pop` behind a store stays, and does not take it back. -/
theorem isLoad_of_isStore {i : Instr} (h : i.isStore = true) : i.isLoad = false := by
  cases i <;> first | rfl | cases h

end Instr

/-! ### Fragments -/

namespace Fragment

open Marker

/-- **Markers of a fragment.** Some markers stand for a fragment inside a loop with these labels, or
outside of all loops. Their own labels are those from `lo` on and below `hi`, each at most once.
Under every resolution that fits the markers at an offset, they are the code of the fragment placed
there. -/
structure Emitted (f : Fragment) (loop : Option LoopEnds) (lo hi : Nat) (code : List Marker) :
    Prop where
  size_eq : f.size = instrCount code
  nil : f.size = 0 → code = []
  returns_eq : f.returns = (code.getLast? == some (.instr .ret))
  fresh : ∀ l, (labels code).count l ≤ if lo ≤ l ∧ l < hi then 1 else 0
  place_eq : ∀ (resolve : Nat → Nat) (offset : Nat) (ends : LoopEnds),
    (∀ l, loop = some l → ends = ⟨resolve l.start, resolve l.exit⟩) →
    Resolves resolve offset code → instrs resolve code = f.place offset ends

variable {f g h : Fragment} {loop : Option LoopEnds} {lo mid hi : Nat}
  {code code' code'' : List Marker} {i : Instr}

namespace Emitted

/-- A fragment has the same markers in a wider range of labels. Parts of a tree are put together in
the range of the whole tree. -/
theorem mono {lo' hi' : Nat} (hf : f.Emitted loop lo hi code) (hlo : lo' ≤ lo) (hhi : hi ≤ hi') :
    f.Emitted loop lo' hi' code :=
  { hf with
    fresh := fun l => by
      have := hf.fresh l
      grind }

/-- What stands outside of all loops may stand inside one. -/
theorem inLoop (hf : f.Emitted none lo hi code) : f.Emitted loop lo hi code :=
  { hf with place_eq := fun resolve offset ends _ => hf.place_eq resolve offset ends nofun }

/-- No code stands for the empty fragment, and no label is used up. -/
theorem empty (loop : Option LoopEnds) (lo : Nat) : Fragment.empty.Emitted loop lo lo [] where
  size_eq := rfl
  nil _ := rfl
  returns_eq := rfl
  fresh _ := Nat.zero_le _
  place_eq _ _ _ _ _ := rfl

/-- An instruction that does not jump. -/
theorem one (loop : Option LoopEnds) (lo : Nat) (h : i.target? = none) :
    (Fragment.one i).Emitted loop lo lo [.instr i] where
  size_eq := rfl
  nil h := nomatch h
  returns_eq := by
    rw [Bool.eq_iff_iff]
    simp [Fragment.one]
  fresh _ := Nat.zero_le _
  place_eq resolve _ _ _ _ := by simp [Fragment.one, Instr.mapTarget_of_target? h]

/-- Inside a loop `continue` is a jump to the label at its start. The fragment leaves this target
open, and the placing fills it in. -/
theorem continueLoop (ends : LoopEnds) (lo : Nat) :
    Fragment.continueLoop.Emitted (some ends) lo lo [.instr (.jump ends.start)] where
  size_eq := rfl
  nil h := nomatch h
  returns_eq := rfl
  fresh _ := Nat.zero_le _
  place_eq _ _ _ he _ := by
    rw [he ends rfl]
    rfl

/-- Inside a loop `break` is a jump to the label behind it, which is marked once the whole loop is
emitted. -/
theorem breakLoop (ends : LoopEnds) (lo : Nat) :
    Fragment.breakLoop.Emitted (some ends) lo lo [.instr (.jump ends.exit)] where
  size_eq := rfl
  nil h := nomatch h
  returns_eq := rfl
  fresh _ := Nat.zero_le _
  place_eq _ _ _ he _ := by
    rw [he ends rfl]
    rfl

/-- The labels of a fragment's markers are all different. This is what makes the table of offsets a
function. -/
theorem nodup (hf : f.Emitted loop lo hi code) : (labels code).Nodup :=
  List.nodup_iff_count_le_one.mpr fun l => Nat.le_trans (hf.fresh l) (by split <;> omega)

/-- **One after another.** Markers that stand for two fragments, the second with labels behind those
of the first, stand together for the two fragments in a row. -/
theorem append (hf : f.Emitted loop lo mid code) (hg : g.Emitted loop mid hi code')
    (hlo : lo ≤ mid) (hhi : mid ≤ hi) : (f ++ g).Emitted loop lo hi (code ++ code') where
  size_eq := by
    change f.size + g.size = _
    rw [hf.size_eq, hg.size_eq, instrCount_append]
  nil h := by
    change f.size + g.size = 0 at h
    rw [hf.nil (by omega), hg.nil (by omega)]
    rfl
  returns_eq := by
    change (if g.size = 0 then f.returns else g.returns) = _
    split
    · next h => rw [hg.nil h, List.append_nil, hf.returns_eq]
    · next h =>
        have hne : code' ≠ [] := by
          rintro rfl
          exact h hg.size_eq
        rw [hg.returns_eq, List.getLast?_append_of_ne_nil _ hne]
  fresh l := by
    have := hf.fresh l
    have := hg.fresh l
    rw [labels_append, List.count_append]
    grind
  place_eq resolve offset ends he h := by
    rw [resolves_append, ← hf.size_eq] at h
    rw [instrs_append, hf.place_eq resolve offset ends he h.1, hg.place_eq resolve _ ends he h.2]
    rfl

/-- A jump to a label that is marked at the end. The label is the smallest of the fragment, and none
of its parts uses it. -/
theorem skipping {jump : Nat → Instr} (hf : f.Emitted loop (lo + 1) mid code)
    (hg : g.Emitted loop mid hi code') (hlo : lo < mid) (hhi : mid ≤ hi)
    (hjump : ∀ l resolve, (jump l).mapTarget resolve = jump (resolve l)) :
    (Fragment.skipping jump f g).Emitted loop lo hi
      (code ++ .instr (jump lo) :: (code' ++ [.label lo])) where
  size_eq := by
    simp [Fragment.skipping, hf.size_eq, hg.size_eq]
    omega
  nil h := by simp [Fragment.skipping] at h
  returns_eq := by simp [Fragment.skipping, List.getLast?_cons]
  fresh l := by
    have := hf.fresh l
    have := hg.fresh l
    simp only [labels_append, labels_instr, labels_label, labels_nil, List.count_append,
      List.count_cons, List.count_nil, beq_iff_eq]
    grind
  place_eq resolve offset ends he h := by
    simp only [resolves_append, resolves_instr, resolves_label, ← hf.size_eq, ← hg.size_eq] at h
    obtain ⟨hcode, hcode', hl, -⟩ := h
    simp only [instrs_append, instrs_instr, instrs_label, instrs_nil, hjump, List.append_nil,
      hf.place_eq resolve offset ends he hcode, hg.place_eq resolve _ ends he hcode', hl]
    rfl

/-- Two ways on from a condition. The label of the second way is taken before the condition, the one
behind both when the first way is complete. -/
theorem choice {test yes no : Fragment} {codeTest codeYes codeNo : List Marker} {mid' : Nat}
    (ht : test.Emitted none (lo + 1) mid codeTest) (hy : yes.Emitted loop mid mid' codeYes)
    (hn : no.Emitted loop (mid' + 1) hi codeNo) (hlo : lo < mid) (hmid : mid ≤ mid')
    (hhi : mid' < hi) :
    (Fragment.choice test yes no).Emitted loop lo hi
      (codeTest ++ .instr (.jumpIfFalse lo) ::
        (codeYes ++ .instr (.jump mid') :: .label lo :: (codeNo ++ [.label mid']))) where
  size_eq := by
    simp [Fragment.choice, ht.size_eq, hy.size_eq, hn.size_eq]
    omega
  nil h := by simp [Fragment.choice] at h
  returns_eq := by simp [Fragment.choice, List.getLast?_cons]
  fresh l := by
    have := ht.fresh l
    have := hy.fresh l
    have := hn.fresh l
    simp only [labels_append, labels_instr, labels_label, labels_nil, List.count_append,
      List.count_cons, List.count_nil, beq_iff_eq]
    grind
  place_eq resolve offset ends he h := by
    simp only [resolves_append, resolves_instr, resolves_label, ← ht.size_eq, ← hy.size_eq,
      ← hn.size_eq] at h
    obtain ⟨htest, hyes, hother, hno, hdone, -⟩ := h
    simp only [instrs_append, instrs_instr, instrs_label, instrs_nil, List.append_nil,
      ht.place_eq resolve offset ends nofun htest, hy.place_eq resolve _ ends he hyes,
      hn.place_eq resolve _ ends he hno, Instr.mapTarget, hother, hdone]
    simp [Fragment.choice]

/-- A loop without a condition. It has two labels, one at its start, where it jumps back to, and one
at its end, for the breaks in it. -/
theorem forever (hf : f.Emitted (some ⟨lo, lo + 1⟩) (lo + 2) hi code) (hlo : lo + 2 ≤ hi) :
    (Fragment.forever f).Emitted loop lo hi
      (.label lo :: (code ++ [.instr (.jump lo), .label (lo + 1)])) where
  size_eq := by simp [Fragment.forever, hf.size_eq]
  nil h := by simp [Fragment.forever] at h
  returns_eq := by simp [Fragment.forever, List.getLast?_cons]
  fresh l := by
    have := hf.fresh l
    simp only [labels_append, labels_instr, labels_label, labels_nil, List.count_append,
      List.count_cons, List.count_nil, beq_iff_eq]
    grind
  place_eq resolve offset ends he h := by
    simp only [resolves_append, resolves_instr, resolves_label, ← hf.size_eq] at h
    obtain ⟨hstart, hcode, hexit, -⟩ := h
    have hends : ∀ l, some (⟨lo, lo + 1⟩ : LoopEnds) = some l →
        ⟨offset, offset + f.size + 1⟩ = (⟨resolve l.start, resolve l.exit⟩ : LoopEnds) := by
      rintro l ⟨⟩
      rw [hstart, hexit]
    simp only [instrs_append, instrs_instr, instrs_label, instrs_nil,
      hf.place_eq resolve offset _ hends hcode, Instr.mapTarget, hstart]
    rfl

/-- A loop with a condition, which is tested at the start. A test that fails goes to the label at
the end, as a break does. -/
theorem whileTrue {test : Fragment} {codeTest : List Marker}
    (ht : test.Emitted none (lo + 2) mid codeTest)
    (hf : f.Emitted (some ⟨lo, lo + 1⟩) mid hi code) (hlo : lo + 2 ≤ mid) (hhi : mid ≤ hi) :
    (Fragment.whileTrue test f).Emitted loop lo hi
      (.label lo :: (codeTest ++ .instr (.jumpIfFalse (lo + 1)) ::
        (code ++ [.instr (.jump lo), .label (lo + 1)]))) where
  size_eq := by
    simp [Fragment.whileTrue, ht.size_eq, hf.size_eq]
    omega
  nil h := by simp [Fragment.whileTrue] at h
  returns_eq := by simp [Fragment.whileTrue, List.getLast?_cons]
  fresh l := by
    have := ht.fresh l
    have := hf.fresh l
    simp only [labels_append, labels_instr, labels_label, labels_nil, List.count_append,
      List.count_cons, List.count_nil, beq_iff_eq]
    grind
  place_eq resolve offset ends he h := by
    simp only [resolves_append, resolves_instr, resolves_label, ← ht.size_eq, ← hf.size_eq] at h
    obtain ⟨hstart, htest, hcode, hexit, -⟩ := h
    have hends : ∀ l, some (⟨lo, lo + 1⟩ : LoopEnds) = some l →
        ⟨offset, offset + test.size + 1 + f.size + 1⟩ =
          (⟨resolve l.start, resolve l.exit⟩ : LoopEnds) := by
      rintro l ⟨⟩
      rw [hstart, hexit]
    simp only [instrs_append, instrs_instr, instrs_label, instrs_nil,
      ht.place_eq resolve offset ⟨offset, offset + test.size + 1 + f.size + 1⟩ nofun htest,
      hf.place_eq resolve _ _ hends hcode, Instr.mapTarget, hstart, hexit]
    simp [Fragment.whileTrue]

/-- **Complete routines.** The code that the markers of a routine are resolved to is that of the
fragment. -/
theorem resolved_eq (hf : f.Emitted none lo hi code) : (resolved code).toArray = f.code := by
  rw [resolved, Fragment.code]
  exact congrArg List.toArray (hf.place_eq _ 0 _ nofun (resolves_lookup hf.nodup))

end Emitted

end Fragment

/-! ### Emission next to fragments -/

open Marker Fragment

section SideBySide

variable {σ τ ε α β : Type}

/-- An error of the first of two steps is the error of both. -/
theorem bind_run_error {m : StateT σ (Except ε) α} {f : α → StateT σ (Except ε) β} {s : σ} {e : ε}
    (h : m s = .error e) : (m >>= f) s = .error e := by
  simp only [bind, StateT.bind, Except.bind, h]

/-- If the first of two steps succeeds, both do what the second one does from there. -/
theorem bind_run_ok {m : StateT σ (Except ε) α} {f : α → StateT σ (Except ε) β} {s s' : σ} {a : α}
    (h : m s = .ok (a, s')) : (m >>= f) s = f a s' := by
  simp only [bind, StateT.bind, Except.bind, h]

end SideBySide

variable {α β : Type} {lo : Nat} {m m' : Emit Unit} {g : Generate α} {x : GenerateContext}

/-- **Side by side.** Where the generation of fragments fails, emission does too, for the same
reason. Else emission leaves the same pool of constants, and it appends markers to those before.
These markers and the number of labels behind them are related to what the other side gives. -/
def Emits (lo : Nat) (m : Emit Unit) (g : Generate α) (P : Nat → List Marker → α → Prop) : Prop :=
  ∀ s : Emission, s.labels = lo →
    (∃ e, g s.consts = .error e ∧ m s = .error e) ∨
      ∃ a consts code hi, g s.consts = .ok (a, consts) ∧
        m s = .ok ((), { consts, code := code.reverse ++ s.code, labels := hi }) ∧
        lo ≤ hi ∧ P hi code a

namespace Emits

variable {P : Nat → List Marker → α → Prop} {Q : Nat → List Marker → β → Prop} {i : Instr}
  {l : Nat} {a : α}

/-- Nothing is emitted for a result that is there already. -/
theorem pure (h : P lo [] a) : Emits lo (Pure.pure ()) (Pure.pure a) P := by
  rintro s rfl
  exact .inr ⟨a, s.consts, [], s.labels, rfl, rfl, Nat.le_refl _, h⟩

/-- Both report an unresolved name in the same way. -/
theorem unresolved (range : Range) :
    Emits lo (Emit.unresolved range) (Generate.unresolved range : Generate α) P :=
  fun _ _ => .inl ⟨_, rfl, rfl⟩

/-- What is emitted side by side may be described more loosely. Only the descriptions with labels in
order have to be compared. -/
theorem mono {P' : Nat → List Marker → α → Prop} (hm : Emits lo m g P)
    (h : ∀ hi code a, lo ≤ hi → P hi code a → P' hi code a) : Emits lo m g P' := by
  intro s hs
  refine (hm s hs).imp_right ?_
  rintro ⟨a, consts, code, hi, hg, hrun, hle, hP⟩
  exact ⟨a, consts, code, hi, hg, hrun, hle, h hi code a hle hP⟩

/-- One part after the other: the markers are appended. -/
theorem bind {k : α → Generate β} (hm : Emits lo m g P)
    (hk : ∀ mid code a, lo ≤ mid → P mid code a →
      Emits mid m' (k a) fun hi code' b => Q hi (code ++ code') b) :
    Emits lo (m >>= fun _ => m') (g >>= k) Q := by
  intro s hs
  rcases hm s hs with ⟨e, hg, hrun⟩ | ⟨a, consts, code, mid, hg, hrun, hle, hP⟩
  · exact .inl ⟨e, bind_run_error hg, bind_run_error hrun⟩
  · rw [bind_run_ok hg, bind_run_ok hrun]
    have hrest := hk mid code a hle hP { consts, code := code.reverse ++ s.code, labels := mid } rfl
    refine hrest.imp_right ?_
    rintro ⟨b, consts', code', hi, hk, hrun', hle', hQ⟩
    refine ⟨b, consts', code ++ code', hi, hk, ?_, Nat.le_trans hle hle', hQ⟩
    rw [hrun', List.reverse_append, List.append_assoc]

/-- The last part, whose result is put together with those before. -/
theorem map {k : α → β} (hm : Emits lo m g P)
    (h : ∀ hi code a, lo ≤ hi → P hi code a → Q hi code (k a)) :
    Emits lo m (g >>= fun a => Pure.pure (k a)) Q := by
  intro s hs
  rcases hm s hs with ⟨e, hg, hrun⟩ | ⟨a, consts, code, hi, hg, hrun, hle, hP⟩
  · exact .inl ⟨e, bind_run_error hg, hrun⟩
  · exact .inr ⟨k a, consts, code, hi, (bind_run_ok hg).trans rfl, hrun, hle, h hi code a hle hP⟩

/-- What is emitted without a counterpart among the fragments. -/
theorem step {γ : Type} {n : Emit γ} {k : γ → Emit Unit} {mid : Nat} (c : γ) (code : List Marker)
    (hn : ∀ s : Emission, s.labels = lo →
      n s = .ok (c, { s with code := code.reverse ++ s.code, labels := mid }))
    (hle : lo ≤ mid) (h : Emits mid (k c) g fun hi code' a => P hi (code ++ code') a) :
    Emits lo (n >>= k) g P := by
  intro s hs
  rw [bind_run_ok (hn s hs)]
  refine (h { s with code := code.reverse ++ s.code, labels := mid } rfl).imp_right ?_
  rintro ⟨a, consts, code', hi, hg, hrun, hle', hP⟩
  refine ⟨a, consts, code ++ code', hi, hg, ?_, Nat.le_trans hle hle', hP⟩
  rw [hrun, List.reverse_append, List.append_assoc]

/-- Only a `pop` takes anything back. -/
theorem push_run (x : GenerateContext) {marker : Marker} (h : marker ≠ .instr .pop) (s : Emission) :
    Emit.push x marker s = .ok ((), { s with code := marker :: s.code }) := by
  have hemit : marker.emit x.tidy s.code = marker :: s.code := by
    rw [Marker.emit, if_neg (by simp [h])]
  rw [← hemit]
  rfl

/-- An instruction other than `pop` is put behind the markers as it is. -/
theorem instr_run (x : GenerateContext) (hi : i ≠ .pop) (s : Emission) :
    Emit.instr x i s = .ok ((), { s with code := .instr i :: s.code }) :=
  push_run x (fun h => hi (Marker.instr.inj h)) s

/-- A label is put behind the markers as it is. -/
theorem mark_run (x : GenerateContext) (l : Nat) (s : Emission) :
    Emit.mark x l s = .ok ((), { s with code := .label l :: s.code }) :=
  push_run x (show Marker.label l ≠ .instr .pop from nofun) s

/-- A fresh label is the first one that is not used yet, and fragments know nothing about it. -/
theorem newLabel {k : Nat → Emit Unit} (h : Emits (lo + 1) (k lo) g P) :
    Emits lo (Emit.newLabel >>= k) g P :=
  step lo [] (fun _ hs => hs ▸ rfl) (Nat.le_succ lo) h

/-- An instruction in front of the rest stands in front of the markers of the rest. -/
theorem instr (hi : i ≠ .pop) (h : Emits lo m g fun hi code a => P hi (.instr i :: code) a) :
    Emits lo (Emit.instr x i >>= fun _ => m) g P :=
  step () [.instr i] (fun s hs => hs ▸ instr_run x hi s) (Nat.le_refl lo) h

/-- A label in front of the rest stands in front of the markers of the rest. -/
theorem mark (h : Emits lo m g fun hi code a => P hi (.label l :: code) a) :
    Emits lo (Emit.mark x l >>= fun _ => m) g P :=
  step () [.label l] (fun s hs => hs ▸ mark_run x l s) (Nat.le_refl lo) h

/-- An instruction at the end leaves itself as the only marker. -/
theorem lastInstr (hi : i ≠ .pop) (h : P lo [.instr i] a) :
    Emits lo (Emit.instr x i) (Pure.pure a) P := by
  rintro s rfl
  exact .inr ⟨a, s.consts, [.instr i], s.labels, rfl, instr_run x hi s, Nat.le_refl _, h⟩

/-- A label at the end leaves itself as the only marker. -/
theorem lastMark (h : P lo [.label l] a) : Emits lo (Emit.mark x l) (Pure.pure a) P := by
  rintro s rfl
  exact .inr ⟨a, s.consts, [.label l], s.labels, rfl, mark_run x l s, Nat.le_refl _, h⟩

/-- A value is dropped. What this takes back is up to the markers of the value alone. -/
theorem pop {k : α → β} (hm : Emits lo m g P)
    (h : ∀ hi code a, lo ≤ hi → P hi code a → ∃ code',
      (∀ before, Marker.emit x.tidy (.instr .pop) (code.reverse ++ before) =
        code'.reverse ++ before) ∧ Q hi code' (k a)) :
    Emits lo (m >>= fun _ => Emit.instr x .pop) (g >>= fun a => Pure.pure (k a)) Q := by
  intro s hs
  rcases hm s hs with ⟨e, hg, hrun⟩ | ⟨a, consts, code, hi, hg, hrun, hle, hP⟩
  · exact .inl ⟨e, bind_run_error hg, bind_run_error hrun⟩
  · obtain ⟨code', hcode, hQ⟩ := h hi code a hle hP
    refine .inr ⟨k a, consts, code', hi, ?_, ?_, hle, hQ⟩
    · rw [bind_run_ok hg]
      rfl
    · rw [bind_run_ok hrun, ← hcode]
      rfl

end Emits

/-! ### Loads and stores -/

section Loads

open Emits

/-- A single instruction that pushes a value that is there. -/
def LoadEmitted (lo hi : Nat) (code : List Marker) (f : Fragment) : Prop :=
  hi = lo ∧ ∃ i : Instr, i.isLoad = true ∧ code = [.instr i] ∧ f = .one i

/-- A single instruction that keeps a value in a slot. -/
def StoreEmitted (lo hi : Nat) (code : List Marker) (f : Fragment) : Prop :=
  hi = lo ∧ ∃ i : Instr, i.isStore = true ∧ code = [.instr i] ∧ f = .one i

variable {hi : Nat} {code : List Marker} {f : Fragment} {loop : Option LoopEnds}

/-- A single load stands for the fragment of the same load, inside a loop or not. -/
theorem LoadEmitted.emitted (h : LoadEmitted lo hi code f) : f.Emitted loop lo hi code := by
  obtain ⟨rfl, i, hi, rfl, rfl⟩ := h
  exact .one loop _ (Instr.target?_of_isLoad hi)

/-- A single store stands for the fragment of the same store, inside a loop or not. -/
theorem StoreEmitted.emitted (h : StoreEmitted lo hi code f) : f.Emitted loop lo hi code := by
  obtain ⟨rfl, i, hi, rfl, rfl⟩ := h
  exact .one loop _ (Instr.target?_of_isStore hi)

/-- A load is emitted as one instruction, and generated as a fragment of one instruction. -/
theorem emits_one {i : Instr} (h : i.isLoad = true) :
    Emits lo (Emit.instr x i) (Pure.pure (.one i)) (LoadEmitted lo) :=
  lastInstr (by rintro rfl; cases h) ⟨rfl, i, h, rfl, rfl⟩

/-- A constant is put at the end of the pool, unless the same one is there already. -/
theorem addConst_eq (c : Const) (s : Emission) :
    Emit.addConst c s = .ok (match s.consts.findIdx? (Const.same c) with
      | some index => (index, s)
      | none => (s.consts.size, { s with consts := s.consts.push c })) :=
  rfl

/-- Both sides look a constant up in the same pool. -/
theorem addConst_run (c : Const) (s : Emission) :
    ∃ index consts, Emit.addConst c s = .ok (index, { s with consts }) ∧
      Generate.loadConst c s.consts = .ok (.one (.loadConst index), consts) := by
  have hget : (get : Generate (Array Const)) s.consts = .ok (s.consts, s.consts) := rfl
  rw [addConst_eq, Generate.loadConst, bind_run_ok hget]
  cases s.consts.findIdx? (Const.same c) with
  | some index => exact ⟨index, s.consts, rfl, rfl⟩
  | none => exact ⟨s.consts.size, s.consts.push c, rfl, rfl⟩

/-- A constant is added to the pool by both, at the same index, and then loaded from it. -/
theorem emits_loadConst (c : Const) :
    Emits lo (Emit.loadConst x c) (Generate.loadConst c) (LoadEmitted lo) := by
  rintro s rfl
  obtain ⟨index, consts, hadd, hload⟩ := addConst_run c s
  refine .inr ⟨_, consts, [.instr (.loadConst index)], s.labels, hload, ?_, Nat.le_refl _,
    rfl, _, rfl, rfl, rfl⟩
  rw [Emit.loadConst, bind_run_ok hadd]
  exact instr_run x (show Instr.loadConst index ≠ .pop from nofun) { s with consts }

/-- A variable is loaded from its frame, from the globals or from the captured values, and both find
the same of these. -/
theorem emits_loadVariable (symbol slot owner : Nat) (range : Range) :
    Emits lo (Emit.loadVariable x symbol slot owner range)
      (Generate.loadVariable x symbol slot owner range) (LoadEmitted lo) := by
  unfold Emit.loadVariable Generate.loadVariable
  by_cases h : owner = x.function
  · rw [if_pos h, if_pos h]
    exact emits_one rfl
  · rw [if_neg h, if_neg h]
    cases (x.facts.captures x.function).idxOf? symbol with
    | some index => exact emits_one rfl
    | none => exact .unresolved range

/-- A name is loaded as a variable, as a function or as a builtin, and both go by what the name
resolves to. -/
theorem emits_load (n : Note) : Emits lo (Emit.load x n) (Generate.load x n) (LoadEmitted lo) := by
  unfold Emit.load Generate.load
  cases n.symbol with
  | none => exact .unresolved n.range
  | some symbol =>
      dsimp only
      cases (x.facts.symbol symbol).storage with
      | global slot => exact emits_one rfl
      | frame slot => exact emits_loadVariable symbol slot _ n.range
      | function f => exact emits_loadConst (.function f)
      | builtin b => exact emits_loadConst (.builtin b)

/-- A captured variable is loaded where the closure is made. Both report the same if it is not
there. -/
theorem emits_loadCaptured (range : Range) (symbol : Nat) :
    Emits lo (Emit.loadCaptured x range symbol) (Generate.loadCaptured x range symbol)
      (LoadEmitted lo) := by
  unfold Emit.loadCaptured Generate.loadCaptured
  cases (x.facts.symbol symbol).storage with
  | frame slot => exact emits_loadVariable symbol slot _ range
  | _ => exact .unresolved range

/-- All captured variables of a closure are loaded one after another, in the order of its captures.
-/
theorem emits_loadAllCaptured (range : Range) (symbols : List Nat) :
    Emits lo (Emit.loadAllCaptured x range symbols) (Generate.loadAllCaptured x range symbols)
      fun hi code f => f.Emitted none lo hi code := by
  induction symbols generalizing lo with
  | nil => exact .pure (.empty none lo)
  | cons symbol symbols ih =>
      rw [Emit.loadAllCaptured, Generate.loadAllCaptured]
      refine (emits_loadCaptured range symbol).bind fun mid code f hmid hf => ?_
      exact ih.map fun hi code' g hhi hg => hf.emitted.append hg hmid hhi

/-- A name is stored to where both find its variable, and what cannot be stored to is reported by
both. -/
theorem emits_store (n : Note) :
    Emits lo (Emit.store x n) (Generate.store x n) (StoreEmitted lo) := by
  unfold Emit.store Generate.store
  cases n.symbol with
  | none => exact .unresolved n.range
  | some symbol =>
      dsimp only
      cases (x.facts.symbol symbol).storage with
      | global slot => exact lastInstr nofun ⟨rfl, _, rfl, rfl, rfl⟩
      | frame slot =>
          dsimp only
          by_cases h : (x.facts.symbol symbol).function = x.function
          · rw [if_pos h, if_pos h]
            exact lastInstr nofun ⟨rfl, _, rfl, rfl, rfl⟩
          · rw [if_neg h, if_neg h]
            exact .unresolved n.range
      | _ => exact .unresolved n.range

end Loads

/-! ### Expressions -/

section Trees

open Emits

/-- **What is taken back.** If the value of an expression is dropped, a single load is taken back.
The markers of all other expressions are kept, those of assigned values apart. -/
def TakenBack (x : GenerateContext) (e : Expr) (code : List Marker) : Prop :=
  e.assigned? = none →
    if Generate.isLoad x e = true then ∃ i : Instr, i.isLoad = true ∧ code = [.instr i]
    else Kept code

variable {e : Expr} {hi : Nat} {code : List Marker} {f : Fragment} {loop : Option LoopEnds}

/-- The single load of an expression that `isLoad` accepts is taken back, markers and all. -/
theorem LoadEmitted.takenBack (h : LoadEmitted lo hi code f) (he : Generate.isLoad x e = true) :
    TakenBack x e code := by
  obtain ⟨-, i, hl, hcode, -⟩ := h
  intro
  rw [if_pos he]
  exact ⟨i, hl, hcode⟩

/-- Markers that no `pop` takes back belong to an expression that `isLoad` rejects. -/
theorem Marker.Kept.takenBack (h : Kept code) (he : Generate.isLoad x e = false) :
    TakenBack x e code := by
  intro
  rw [if_neg (by simp [he])]
  exact h

/-- A lambda loads what it captures and makes a closure of it. If it captures nothing it is one
load, which may be taken back, and else it ends with an instruction that may not. -/
theorem emits_lambda (n : Note) (s : Signature) (b : Block) :
    Emits lo (Emit.lambda x n) (Generate.lambda x n) fun hi code f =>
      f.Emitted none lo hi code ∧ TakenBack x (.lambda n s b) code := by
  unfold Emit.lambda Generate.lambda
  cases hn : n.function with
  | none => exact .unresolved n.range
  | some function =>
      dsimp only
      cases hc : x.facts.captures function with
      | nil =>
          refine (emits_loadConst _).mono fun hi code f _ hf => ⟨hf.emitted, hf.takenBack ?_⟩
          simp [Generate.isLoad, hn, hc]
      | cons symbol symbols =>
          refine (emits_loadAllCaptured n.range _).bind fun mid code f hmid hf =>
            lastInstr nofun ⟨hf.append (.one none mid rfl) hmid (Nat.le_refl mid), ?_⟩
          exact (kept_instr rfl rfl).takenBack (by simp [Generate.isLoad, hn, hc])

mutual

/-- **Expressions.** The markers of an expression stand for its fragment. With it goes what a `pop`
behind them would take back: a single load, and nothing of other expressions. -/
theorem emits_expr : ∀ (e : Expr) (lo : Nat),
    Emits lo (Emit.expr x e) (Generate.expr x e) fun hi code f =>
      f.Emitted none lo hi code ∧ TakenBack x e code
  | .lit _ v, lo => by
      rw [Emit.expr, Generate.expr]
      exact (emits_loadConst _).mono fun hi code f _ hf => ⟨hf.emitted, hf.takenBack rfl⟩
  | .ident n _, lo => by
      rw [Emit.expr, Generate.expr]
      exact (emits_load n).mono fun hi code f _ hf => ⟨hf.emitted, hf.takenBack rfl⟩
  | .unary _ op e, lo => by
      rw [Emit.expr, Generate.expr]
      exact (emits_expr e lo).bind fun mid code f hmid hf => lastInstr nofun
        ⟨hf.1.append (.one none mid rfl) hmid (Nat.le_refl mid), (kept_instr rfl rfl).takenBack rfl⟩
  | .binary _ op l r, lo => by
      rw [Emit.expr, Generate.expr]
      cases op.split with
      | inl op =>
          refine (emits_expr l lo).bind fun mid code f hmid hf =>
            (emits_expr r mid).bind fun hi code' g hhi hg => lastInstr nofun ?_
          rw [← List.append_assoc]
          exact ⟨(hf.1.append hg.1 hmid hhi).append (.one none hi rfl) (Nat.le_trans hmid hhi)
            (Nat.le_refl hi), (kept_instr rfl rfl).takenBack rfl⟩
      | inr op =>
          refine newLabel <| (emits_expr l (lo + 1)).bind fun mid code f hmid hf =>
            instr (by cases op <;> nofun) <| (emits_expr r mid).bind fun hi code' g hhi hg =>
              lastMark ⟨?_, ?_⟩
          · exact hf.1.skipping hg.1 hmid hhi fun l resolve => Instr.mapTarget_skipJump op l resolve
          · rw [← List.cons_append, ← List.append_assoc]
            exact kept_label.takenBack rfl
  | .assign n target value, lo => by
      cases target with
      | index _ base index =>
          rw [Emit.expr, Generate.expr]
          refine (emits_load base.note).bind fun m₁ code₁ f₁ h₁ hf₁ =>
            (emits_expr index m₁).bind fun m₂ code₂ f₂ h₂ hf₂ =>
            (emits_expr value m₂).bind fun m₃ code₃ f₃ h₃ hf₃ =>
            instr nofun <| (emits_store base.note).map fun hi code₄ f₄ h₄ hf₄ => ?_
          obtain ⟨rfl, i, hi, rfl, rfl⟩ := hf₄
          have hcode : code₁ ++ (code₂ ++ (code₃ ++ .instr .setItem :: [.instr i])) =
              code₁ ++ code₂ ++ code₃ ++ [.instr .setItem] ++ [.instr i] := by simp
          rw [hcode]
          refine ⟨((((hf₁.emitted.append hf₂.1 h₁ h₂).append hf₃.1 (by omega) h₃).append
            (.one none _ rfl) (by omega) (by omega)).append
            (.one none _ (Instr.target?_of_isStore hi)) (by omega) (by omega)), ?_⟩
          rw [List.append_assoc]
          have hset : Instr.setItem ≠ .copy := nofun
          exact (kept_store (Instr.isLoad_of_isStore hi) hset).takenBack rfl
      | _ =>
          rw [Emit.expr, Generate.expr]
          · refine (emits_expr value lo).bind fun mid code f hmid hf =>
              instr nofun <| (emits_store _).map fun hi code' g hhi hg => ⟨?_, fun h => nomatch h⟩
            obtain ⟨rfl, i, hi, rfl, rfl⟩ := hg
            rw [← List.singleton_append, ← List.append_assoc]
            exact (hf.1.append (.one none _ rfl) hmid hhi).append
              (.one none _ (Instr.target?_of_isStore hi)) hmid hhi
          all_goals
            intros
            contradiction
  | .call _ callee args, lo => by
      rw [Emit.expr, Generate.expr]
      refine (emits_expr callee lo).bind fun mid code f hmid hf =>
        (emits_exprs args mid).bind fun hi code' g hhi hg => lastInstr nofun ?_
      rw [← List.append_assoc]
      exact ⟨(hf.1.append hg hmid hhi).append (.one none hi rfl) (Nat.le_trans hmid hhi)
        (Nat.le_refl hi), (kept_instr rfl rfl).takenBack rfl⟩
  | .index _ target index, lo => by
      rw [Emit.expr, Generate.expr]
      refine (emits_expr target lo).bind fun mid code f hmid hf =>
        (emits_expr index mid).bind fun hi code' g hhi hg => lastInstr nofun ?_
      rw [← List.append_assoc]
      exact ⟨(hf.1.append hg.1 hmid hhi).append (.one none hi rfl) (Nat.le_trans hmid hhi)
        (Nat.le_refl hi), (kept_instr rfl rfl).takenBack rfl⟩
  | .list _ items, lo => by
      rw [Emit.expr, Generate.expr]
      exact (emits_exprs items lo).bind fun mid code f hmid hf => lastInstr nofun
        ⟨hf.append (.one none mid rfl) hmid (Nat.le_refl mid), (kept_instr rfl rfl).takenBack rfl⟩
  | .cast _ e target, lo => by
      rw [Emit.expr, Generate.expr]
      exact (emits_expr e lo).bind fun mid code f hmid hf => lastInstr nofun
        ⟨hf.1.append (.one none mid rfl) hmid (Nat.le_refl mid), (kept_instr rfl rfl).takenBack rfl⟩
  | .lambda n s b, lo => by
      rw [Emit.expr, Generate.expr]
      exact emits_lambda n s b

/-- **Lists of expressions.** They are emitted one after another, and so are their fragments. -/
theorem emits_exprs : ∀ (es : List Expr) (lo : Nat),
    Emits lo (Emit.exprs x es) (Generate.exprs x es) fun hi code f => f.Emitted none lo hi code
  | [], lo => by
      rw [Emit.exprs, Generate.exprs]
      exact .pure (.empty none lo)
  | e :: es, lo => by
      rw [Emit.exprs, Generate.exprs]
      exact (emits_expr e lo).bind fun mid code f hmid hf =>
        (emits_exprs es mid).map fun hi code' g hhi hg => hf.1.append hg hmid hhi

end

/-- **Dropped values.** Only the end of the expression itself is taken back: a load that is all of
it, or the copy and the store of an assignment. A label at the end keeps everything. -/
theorem emits_discard (e : Expr) (lo : Nat) :
    Emits lo (Emit.discard x e) (Generate.discard x e) fun hi code f =>
      f.Emitted none lo hi code := by
  unfold Emit.discard Generate.discard
  split
  · next target value h =>
      obtain ⟨n, rfl, hne⟩ := Expr.assigned?_eq_some h
      have hexpr : Emit.expr x (.assign n target value) = (do
          Emit.expr x value
          Emit.instr x .copy
          Emit.store x target.note) := by
        rw [Emit.expr]
        exact fun m base index he => hne m base index he
      -- the value, the copy and the store
      have hparts : Emits lo (Emit.expr x (.assign n target value))
          (do return (← Generate.expr x value, ← Generate.store x target.note))
          fun hi code p => ∃ front i, code = front ++ [.instr .copy, .instr i] ∧
            i.isStore = true ∧ p.2 = .one i ∧ p.1.Emitted none lo hi front := by
        rw [hexpr]
        refine (emits_expr value lo).bind fun mid code f hmid hf => instr nofun <|
          (emits_store _).map fun hi code' g hhi hg => ?_
        obtain ⟨rfl, i, hi, rfl, rfl⟩ := hg
        exact ⟨code, i, rfl, hi, rfl, hf.1⟩
      have hboth : (do
          let value ← Generate.expr x value
          let stored ← Generate.store x target.note
          return if x.tidy then value ++ stored else value ++ .one .copy ++ stored ++ .one .pop) =
          (do return (← Generate.expr x value, ← Generate.store x target.note)) >>=
            fun p => Pure.pure (if x.tidy then p.1 ++ p.2
              else p.1 ++ .one .copy ++ p.2 ++ .one .pop) := by
        simp only [bind_assoc, pure_bind]
      rw [hboth]
      refine hparts.pop ?_
      rintro hi _ ⟨f, _⟩ hle ⟨front, i, rfl, hi, rfl, hf⟩
      have hstore {k : Nat} : (one i).Emitted none k k [.instr i] :=
        .one none k (Instr.target?_of_isStore hi)
      cases ht : x.tidy with
      | true =>
          refine ⟨front ++ [.instr i], fun before => ?_, ?_⟩
          · simp [Marker.emit, popped_store hi]
          · rw [if_pos rfl]
            exact hf.append hstore hle (Nat.le_refl _)
      | false =>
          refine ⟨front ++ [.instr .copy] ++ [.instr i] ++ [.instr .pop], fun before => ?_, ?_⟩
          · simp [Marker.emit]
          · rw [if_neg (by simp)]
            exact (((hf.append (.one none _ rfl) hle (Nat.le_refl _)).append hstore hle
              (Nat.le_refl _)).append (.one none _ rfl) hle (Nat.le_refl _))
  · next h =>
      refine (emits_expr e lo).pop fun hi code f hle ⟨hf, hdrops⟩ => ?_
      have hpop : (f ++ .one .pop).Emitted none lo hi (code ++ [.instr .pop]) :=
        hf.append (.one none hi rfl) hle (Nat.le_refl hi)
      cases ht : x.tidy with
      | false =>
          refine ⟨code ++ [.instr .pop], fun before => by simp [Marker.emit], ?_⟩
          rw [if_neg (by simp)]
          exact hpop
      | true =>
          have hdrops := hdrops h
          split at hdrops
          · next hload =>
              obtain ⟨i, hi, rfl⟩ := hdrops
              refine ⟨[], fun before => ?_, ?_⟩
              · simp [Marker.emit, popped_load hi]
              · rw [if_pos (by simp [hload])]
                exact (Emitted.empty none lo).mono (Nat.le_refl lo) hle
          · next hload =>
              refine ⟨code ++ [.instr .pop], fun before => ?_, ?_⟩
              · simp [Marker.emit, hdrops before]
              · rw [if_neg (by simp [hload])]
                exact hpop

/-- The value of a body is emitted in front of its return, or the unit value where there is none. -/
theorem emits_result (value : Option Expr) (lo : Nat) :
    Emits lo (Emit.result x value) (Generate.result x value) fun hi code f =>
      f.Emitted none lo hi code := by
  cases value with
  | none => exact (emits_loadConst .unit).mono fun hi code f _ hf => hf.emitted
  | some e => exact (emits_expr e lo).mono fun hi code f _ hf => hf.1

/-! ### Statements -/

mutual

/-- **Statements.** The markers of a statement stand for its fragment, inside a loop whose ends have
labels. -/
theorem emits_stmt : ∀ (loop : Option LoopEnds) (s : Stmt) (lo : Nat),
    Emits lo (Emit.stmt x loop s) (Generate.stmt x loop.isSome s) fun hi code f =>
      f.Emitted loop lo hi code
  | loop, .block b, lo => by
      rw [Emit.stmt, Generate.stmt]
      exact emits_block loop b lo
  | loop, .letVar n _ _ init, lo => by
      rw [Emit.stmt, Generate.stmt]
      exact (emits_expr init lo).bind fun mid code f hmid hf =>
        (emits_store n).map fun hi code' g hhi hg => hf.1.inLoop.append hg.emitted hmid hhi
  | loop, .fnDecl _ _ _ _, lo => by
      rw [Emit.stmt, Generate.stmt]
      exact .pure (.empty loop lo)
  | loop, .ret _ value, lo => by
      rw [Emit.stmt, Generate.stmt]
      exact (emits_result value lo).bind fun mid code f hmid hf => lastInstr nofun
        (hf.inLoop.append (.one loop mid rfl) hmid (Nat.le_refl mid))
  | loop, .cond _ test yes none, lo => by
      rw [Emit.stmt, Generate.stmt]
      exact newLabel <| (emits_expr test (lo + 1)).bind fun mid code f hmid hf => instr nofun <|
        (emits_block loop yes mid).bind fun hi code' g hhi hg => lastMark
          (hf.1.inLoop.skipping hg hmid hhi fun l resolve => rfl)
  | loop, .cond _ test yes (some no), lo => by
      rw [Emit.stmt, Generate.stmt]
      exact newLabel <| (emits_expr test (lo + 1)).bind fun mid code f hmid hf => instr nofun <|
        (emits_block loop yes mid).bind fun mid' code' g hmid' hg => newLabel <| instr nofun <|
        mark <| (emits_stmt loop no (mid' + 1)).bind fun hi code'' h hhi hh => lastMark
          (hf.1.choice hg hh hmid hmid' hhi)
  | loop, .whileLoop _ test body, lo => by
      rw [Emit.stmt, Generate.stmt]
      exact newLabel <| newLabel <| mark <|
        (emits_expr test (lo + 2)).bind fun mid code f hmid hf => instr nofun <|
        (emits_block (some ⟨lo, lo + 1⟩) body mid).bind fun hi code' g hhi hg => instr nofun <|
        lastMark (hf.1.whileTrue hg hmid hhi)
  | loop, .loop _ body, lo => by
      rw [Emit.stmt, Generate.stmt]
      exact newLabel <| newLabel <| mark <|
        (emits_block (some ⟨lo, lo + 1⟩) body (lo + 2)).bind fun hi code g hhi hg => instr nofun <|
        lastMark (hg.forever hhi)
  | some ends, .breakLoop n, lo => by
      rw [Emit.stmt, Generate.stmt]
      exact lastInstr nofun (.breakLoop ends lo)
  | none, .breakLoop n, lo => by
      rw [Emit.stmt, Generate.stmt]
      exact .unresolved n.range
  | some ends, .continueLoop n, lo => by
      rw [Emit.stmt, Generate.stmt]
      exact lastInstr nofun (.continueLoop ends lo)
  | none, .continueLoop n, lo => by
      rw [Emit.stmt, Generate.stmt]
      exact .unresolved n.range
  | loop, .expr _ e, lo => by
      rw [Emit.stmt, Generate.stmt]
      exact (emits_discard e lo).mono fun hi code f _ hf => hf.inLoop

/-- **Statements.** In a body or in a loop they are emitted one after another, each with the labels
behind those of the one before. -/
theorem emits_stmts : ∀ (loop : Option LoopEnds) (ss : List Stmt) (lo : Nat),
    Emits lo (Emit.stmts x loop ss) (Generate.stmts x loop.isSome ss) fun hi code f =>
      f.Emitted loop lo hi code
  | loop, [], lo => by
      rw [Emit.stmts, Generate.stmts]
      exact .pure (.empty loop lo)
  | loop, s :: ss, lo => by
      rw [Emit.stmts, Generate.stmts]
      exact (emits_stmt loop s lo).bind fun mid code f hmid hf =>
        (emits_stmts loop ss mid).map fun hi code' g hhi hg => hf.append hg hmid hhi

/-- **Blocks.** A block is its statements, since a block with a value occurs only as a body. -/
theorem emits_block : ∀ (loop : Option LoopEnds) (b : Block) (lo : Nat),
    Emits lo (Emit.block x loop b) (Generate.block x loop.isSome b) fun hi code f =>
      f.Emitted loop lo hi code
  | loop, .mk _ ss none, lo => by
      rw [Emit.block, Generate.block]
      exact emits_stmts loop ss lo
  | loop, .mk _ ss (some e), lo => by
      rw [Emit.block, Generate.block]
      exact (emits_stmts loop ss lo).bind fun mid code f hmid hf =>
        (emits_discard e mid).map fun hi code' g hhi hg => hf.append hg.inLoop hmid hhi

end

/-! ### Routines -/

/-- The state can be looked at without a change to it. -/
theorem get_run (s : Emission) : (get : Emit Emission) s = .ok (s, s) := rfl

/-- The code of a body ends with a return if the last marker does, so both sides add one in the same
cases. They start without code, since each body has a list of its own. -/
theorem body_run {b : Block} {s : Emission} (hcode : s.code = []) :
    (∃ e, Generate.body x b s.consts = .error e ∧ Emit.body x b s = .error e) ∨
      ∃ f consts code hi, Generate.body x b s.consts = .ok (f, consts) ∧
        Emit.body x b s = .ok ((), { consts, code := code.reverse, labels := hi }) ∧
        s.labels ≤ hi ∧ f.Emitted none s.labels hi code := by
  have hwhole {m : Emit Unit} {g : Generate Fragment}
      (h : Emits s.labels m g fun hi code f => f.Emitted none s.labels hi code) :
      (∃ e, g s.consts = .error e ∧ m s = .error e) ∨ ∃ f consts code hi,
        g s.consts = .ok (f, consts) ∧
        m s = .ok ((), { consts, code := code.reverse, labels := hi }) ∧
        s.labels ≤ hi ∧ f.Emitted none s.labels hi code := by
    refine (h s rfl).imp_right ?_
    rintro ⟨f, consts, code, hi, hg, hrun, hf⟩
    rw [hcode, List.append_nil] at hrun
    exact ⟨f, consts, code, hi, hg, hrun, hf⟩
  obtain ⟨n, ss, result⟩ := b
  cases result with
  | some e =>
      rw [Emit.body, Generate.body]
      refine hwhole ((emits_stmts none ss _).bind fun mid code f hmid hf =>
        (emits_expr e mid).bind fun hi code' g hhi hg => lastInstr nofun ?_)
      rw [← List.append_assoc]
      exact (hf.append hg.1 hmid hhi).append (.one none hi rfl) (Nat.le_trans hmid hhi)
        (Nat.le_refl hi)
  | none =>
      rw [Emit.body, Generate.body]
      rcases hwhole (emits_stmts none ss _) with
        ⟨e, hg, hrun⟩ | ⟨f, consts, code, hi, hg, hrun, hle, hf⟩
      · exact .inl ⟨e, bind_run_error hg, bind_run_error hrun⟩
      rw [Option.isSome_none] at hg
      have hlast : (code.reverse.head? != some (Marker.instr .ret)) = !f.returns := by
        rw [hf.returns_eq, List.head?_reverse]
        rfl
      rw [bind_run_ok hg, bind_run_ok hrun, bind_run_ok (get_run _), hlast]
      cases f.returns with
      | true => exact .inr ⟨f, consts, code, hi, rfl, rfl, hle, hf⟩
      | false =>
          -- a result is added behind the statements
          have hunit : Emits hi (do Emit.loadConst x .unit; Emit.instr x .ret)
              (do return f ++ (← Generate.loadConst .unit) ++ .one .ret) fun hi' code' g =>
                g.Emitted none s.labels hi' (code ++ code') :=
            (emits_loadConst .unit).bind fun mid code' g hmid hg => lastInstr nofun <| by
              rw [← List.append_assoc]
              exact (hf.append hg.emitted hle hmid).append (.one none mid rfl)
                (Nat.le_trans hle hmid) (Nat.le_refl mid)
          refine (hunit { consts, code := code.reverse, labels := hi } rfl).imp_right ?_
          rintro ⟨g, consts', code', hi', hg', hrun', hle', hf'⟩
          refine ⟨g, consts', code ++ code', hi', hg', ?_, Nat.le_trans hle hle', hf'⟩
          rw [List.reverse_append]
          exact hrun'

/-- Emission and the generation of fragments have the same results, and leave the same pool. -/
def EmitsSame {α : Type} (m : Emit α) (g : Generate α) : Prop :=
  ∀ s : Emission,
    (∃ e, g s.consts = .error e ∧ m s = .error e) ∨
      ∃ a s', g s.consts = .ok (a, s'.consts) ∧ m s = .ok (a, s')

/-- **Routines.** Every routine gets the same code from emitted markers as from fragments: its
labels are different from each other, so resolution finds the offset of each one. -/
theorem emitsSame_routine (info : FunctionInfo) (bodies : List FunctionBody) :
    EmitsSame (Emit.routine x info bodies) (Generate.routine x info bodies) := by
  intro s
  unfold Emit.routine Generate.routine
  cases bodies.lookup x.function with
  | none => exact .inl ⟨_, rfl, rfl⟩
  | some b =>
      dsimp only
      have hreset : (modify fun s => { consts := s.consts } : Emit Unit) s =
          .ok ((), { consts := s.consts }) := rfl
      rw [bind_run_ok hreset]
      rcases body_run (x := x) (b := b) (s := { consts := s.consts }) rfl with
        ⟨e, hg, hrun⟩ | ⟨f, consts, code, hi, hg, hrun, -, hf⟩
      · exact .inl ⟨e, bind_run_error hg, bind_run_error hrun⟩
      · rw [bind_run_ok hg, bind_run_ok hrun]
        refine .inr ⟨_, { consts, code := code.reverse, labels := hi }, rfl, ?_⟩
        rw [bind_run_ok (get_run _), List.reverse_reverse, hf.resolved_eq]
        rfl

/-- All routines get the same code, one after another, with one pool of constants between them. -/
theorem emitsSame_routines (facts : Facts) (tidy : Bool) (bodies : List FunctionBody) :
    ∀ (function : Nat) (infos : List FunctionInfo),
      EmitsSame (Emit.routines facts tidy bodies function infos)
        (Generate.routines facts tidy bodies function infos)
  | _, [], s => .inr ⟨[], s, rfl, rfl⟩
  | function, info :: infos, s => by
      rw [Emit.routines, Generate.routines]
      rcases emitsSame_routine info bodies s with ⟨e, hg, hrun⟩ | ⟨r, s₁, hg, hrun⟩
      · exact .inl ⟨e, bind_run_error hg, bind_run_error hrun⟩
      rw [bind_run_ok hg, bind_run_ok hrun]
      rcases emitsSame_routines facts tidy bodies (function + 1) infos s₁ with
        ⟨e, hg, hrun⟩ | ⟨rs, s₂, hg, hrun⟩
      · exact .inl ⟨e, bind_run_error hg, bind_run_error hrun⟩
      rw [bind_run_ok hg, bind_run_ok hrun]
      exact .inr ⟨r :: rs, s₂, rfl, rfl⟩

end Trees

/-- **Images.** For every tree, and whether or not values that are dropped are shortened away, the
image that is emitted is the one that is made of fragments. If there is none, the reason is the
same. -/
theorem assemble_eq (tidy : Bool) (a : Analyzed) : assemble tidy a = Generate.image tidy a := by
  unfold assemble Generate.image
  rcases emitsSame_routines a.facts tidy a.bodies 0 a.facts.functions.toList { consts := #[] } with
    ⟨e, hg, hrun⟩ | ⟨rs, s, hg, hrun⟩
  · rw [StateT.run, StateT.run, hg, hrun]
    rfl
  · rw [StateT.run, StateT.run, hg, hrun]
    rfl

end Parlance
