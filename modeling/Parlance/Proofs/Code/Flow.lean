import Parlance.Proofs.Code.Pool

/-!
# Code flows from offset to offset

What is known before each instruction of a routine is written down in a chart: the height of
the operand stack, or the types of the operands and the variables that are stored. A chart is
right if every instruction leads only to offsets where no more is expected than what is known
on the way there.

This module is about charts of any kind of knowledge. The code of a fragment flows from what is
known before it to what is known behind it, and fragments that flow can be put together the way
code generation puts them together.

## Main results

* `Fragment.Flows`: the code of a fragment leads from offset to offset of a chart.
* `Fragment.Flows.append`, `skipping`, `choice`, `forever` and `whileTrue`: the parts of a
  fragment flow into each other.
-/

namespace Parlance

variable {K : Type}

/-! ### Charts -/

/-- What is known at the offsets of a code. There is nothing where control never comes. -/
abbrev Chart (K : Type) := Nat → Option K

/-- How code is judged. -/
structure Rules (K : Type) where
  /-- What is expected is part of what is known. -/
  Covers : K → K → Prop
  covers_refl : ∀ p, Covers p p
  /-- From an offset where something is known, an instruction leads to offsets that expect no
  more than what is known there. -/
  Leads : Chart K → Nat → K → Instr → Prop

namespace Rules

variable (R : Rules K)

/-- An offset may be reached with what is known. -/
def Accepts (chart : Chart K) (pc : Nat) (p : K) : Prop :=
  ∃ q, chart pc = some q ∧ R.Covers q p

/-- An offset may be reached, if control comes there at all. -/
def Reaches (chart : Chart K) (pc : Nat) : Option K → Prop
  | none => True
  | some p => R.Accepts chart pc p

variable {R} {chart : Chart K} {pc : Nat} {p : K}

/-- What a chart says of an offset is accepted there. -/
theorem accepts_of_eq (h : chart pc = some p) : R.Accepts chart pc p :=
  ⟨p, h, R.covers_refl p⟩

/-- The same for an offset where control may not come at all. -/
theorem reaches_of_eq {o : Option K} (h : chart pc = o) : R.Reaches chart pc o := by
  cases o with
  | none => trivial
  | some p => exact accepts_of_eq h

end Rules

/-- Knowledge is listed in a chart from an offset on. -/
def Chart.Lists (chart : Chart K) (offset : Nat) (ps : List (Option K)) : Prop :=
  ∀ (k : Nat) (o : Option K), ps[k]? = some o → chart (offset + k) = o

namespace Chart

variable {chart : Chart K} {offset : Nat} {ps qs : List (Option K)}

/-- The first of what is listed is known at the offset. -/
theorem Lists.head {o : Option K} (h : chart.Lists offset (o :: ps)) : chart offset = o :=
  h 0 o rfl

/-- A list is in a chart if its halves are, the second one behind the first. -/
theorem lists_append : chart.Lists offset (ps ++ qs) ↔
    chart.Lists offset ps ∧ chart.Lists (offset + ps.length) qs := by
  constructor
  · intro h
    refine ⟨fun k o hk => ?_, fun k o hk => ?_⟩
    · refine h k o ?_
      rw [List.getElem?_append_left (List.getElem?_eq_some_iff.mp hk).1]
      exact hk
    · rw [Nat.add_assoc]
      refine h _ o ?_
      rw [List.getElem?_append_right (Nat.le_add_right _ _), Nat.add_sub_cancel_left]
      exact hk
  · rintro ⟨hp, hq⟩ k o hk
    by_cases hlt : k < ps.length
    · rw [List.getElem?_append_left hlt] at hk
      exact hp k o hk
    · rw [List.getElem?_append_right (by omega)] at hk
      have := hq _ o hk
      rwa [Nat.add_assoc, Nat.add_sub_cancel' (by omega)] at this

/-- A list is in a chart if its first entry is at the offset and the rest behind it. -/
theorem lists_cons {o : Option K} :
    chart.Lists offset (o :: ps) ↔ chart offset = o ∧ chart.Lists (offset + 1) ps := by
  rw [← List.singleton_append, lists_append, List.length_singleton]
  refine and_congr_left fun _ => ⟨Lists.head, fun h k q hk => ?_⟩
  cases k with
  | zero =>
      cases hk
      exact h
  | succ k => cases hk

/-- The chart of a list. -/
def ofList (ps : List (Option K)) : Chart K :=
  fun pc => ps[pc]?.join

/-- Nothing is known behind the end of a list. -/
theorem ofList_append_replicate (ps : List (Option K)) (n : Nat) :
    ofList (ps ++ List.replicate n none) = ofList ps := by
  funext pc
  rw [ofList, ofList, List.getElem?_append]
  split
  · rfl
  · next h =>
      rw [List.getElem?_eq_none (Nat.le_of_not_lt h), List.getElem?_replicate]
      split <;> rfl

/-- The chart of a list has it from the start. -/
theorem lists_ofList (ps : List (Option K)) : (ofList ps).Lists 0 ps := by
  intro k o hk
  rw [ofList, Nat.zero_add, hk]
  rfl

/-- The chart of a list that starts at an offset. -/
def ofListAt (offset : Nat) (ps : List (Option K)) : Chart K :=
  fun pc => if offset ≤ pc then ofList ps (pc - offset) else none

/-- The chart of a list that starts at an offset has it from there. -/
theorem lists_ofListAt (offset : Nat) (ps : List (Option K)) :
    (ofListAt offset ps).Lists offset ps := by
  intro k o hk
  rw [ofListAt, if_pos (Nat.le_add_right _ _), Nat.add_sub_cancel_left, ofList, hk]
  rfl

/-- Nothing is known before the offset and behind the end of the list. -/
theorem of_ofListAt_eq_some {pc : Nat} {p : K} (h : ofListAt offset ps pc = some p) :
    offset ≤ pc ∧ pc < offset + ps.length := by
  rw [ofListAt] at h
  split at h
  · next hle =>
      refine ⟨hle, ?_⟩
      by_contra hgt
      rw [ofList, List.getElem?_eq_none (by omega)] at h
      cases h
  · cases h

end Chart

/-! ### Instructions -/

/-- Instructions that stand at an offset lead where the chart allows it. -/
def Rules.AllLead (R : Rules K) (chart : Chart K) (offset : Nat) (is : List Instr) : Prop :=
  ∀ (k : Nat) (i : Instr) (p : K), is[k]? = some i → chart (offset + k) = some p →
    R.Leads chart (offset + k) p i

namespace Rules

variable {R : Rules K} {chart : Chart K} {offset : Nat}

/-- No instructions lead nowhere. -/
@[simp] theorem allLead_nil : R.AllLead chart offset [] := by
  intro k i p hi
  cases hi

/-- Instructions lead where the chart allows it if the first one does and the others do. -/
theorem allLead_cons {i : Instr} {is : List Instr}
    (h : ∀ p, chart offset = some p → R.Leads chart offset p i)
    (hs : R.AllLead chart (offset + 1) is) : R.AllLead chart offset (i :: is) := by
  intro k j p hj hp
  cases k with
  | zero =>
      cases hj
      exact h p hp
  | succ k =>
      have := hs k j p (by simpa using hj)
      rw [Nat.add_assoc, Nat.add_comm 1 k] at this
      exact this hp

/-- Instructions in a row lead where the chart allows it if both halves do. -/
theorem allLead_append {is js : List Instr} (hi : R.AllLead chart offset is)
    (hj : R.AllLead chart (offset + is.length) js) : R.AllLead chart offset (is ++ js) := by
  induction is generalizing offset with
  | nil => simpa using hj
  | cons i is ih =>
      refine allLead_cons (fun p hp => hi 0 i p rfl hp) (ih (fun k j p hk hp => ?_) ?_)
      · rw [Nat.add_assoc, Nat.add_comm 1 k] at hp ⊢
        exact hi (k + 1) j p hk hp
      · rwa [List.length_cons, Nat.add_comm is.length, ← Nat.add_assoc] at hj

end Rules

/-! ### Fragments -/

/-- What has to be known about the ends of the loop around some code. -/
abbrev Jumps (K : Type) := Chart K → LoopEnds → Prop

/-- **Code flows.** The code of a fragment, at whose offsets `ps` is known, leads from what is
known before it, `p`, to what is known behind it, `q`. Control never comes to the end if there
is no `q`. -/
structure Fragment.Flows (R : Rules K) (J : Jumps K) (p : Option K) (a : Fragment)
    (ps : List (Option K)) (q : Option K) : Prop where
  length : ps.length = a.size
  sized : a.Sized
  entry : ∀ {chart : Chart K} {offset : Nat}, chart.Lists offset ps →
    R.Reaches chart (offset + a.size) q → R.Reaches chart offset p
  leads : ∀ {chart : Chart K} {offset : Nat} {loop : LoopEnds}, chart.Lists offset ps →
    R.Reaches chart (offset + a.size) q → J chart loop →
    R.AllLead chart offset (a.place offset loop)

namespace Fragment

variable {R : Rules K} {J J' : Jumps K} {p q r : Option K} {a b test : Fragment}
  {ps qs ts : List (Option K)}

/-- No code leads from what is known to the same. -/
theorem flows_empty : Flows R J p empty [] p :=
  ⟨rfl, sized_empty, fun _ h => h, fun _ _ _ => Rules.allLead_nil⟩

/-- A fragment of one instruction, which may depend on the loop around it. -/
theorem flows_single {s : K} {i : LoopEnds → Instr} (hsize : a.size = 1)
    (hplace : ∀ offset loop, a.place offset loop = [i loop])
    (h : ∀ (chart : Chart K) (pc : Nat) (loop : LoopEnds), R.Reaches chart (pc + 1) q →
      J chart loop → R.Leads chart pc s (i loop)) :
    Flows R J (some s) a [some s] q := by
  refine ⟨hsize.symm, fun offset loop => by rw [hplace, hsize]; rfl,
    fun hl _ => Rules.accepts_of_eq hl.head, fun hl hq hj => ?_⟩
  rw [hplace]
  refine Rules.allLead_cons (fun s' hs => ?_) Rules.allLead_nil
  cases hl.head.symm.trans hs
  exact h _ _ _ (hsize ▸ hq) hj

/-- One instruction flows if it leads to what is known behind it. -/
theorem flows_one {i : Instr} {s : K} (h : ∀ (chart : Chart K) (pc : Nat),
    R.Reaches chart (pc + 1) q → R.Leads chart pc s i) : Flows R J (some s) (one i) [some s] q :=
  flows_single rfl (fun _ _ => rfl) fun chart pc _ hq _ => h chart pc hq

namespace Flows

/-- Code flows as well where more is known of the loop around it. -/
theorem mono (h : Flows R J p a ps q) (hJ : ∀ chart loop, J' chart loop → J chart loop) :
    Flows R J' p a ps q :=
  ⟨h.length, h.sized, h.entry, fun hl hq hj => h.leads hl hq (hJ _ _ hj)⟩

/-- Code flows from other knowledge that is reached wherever its own is. -/
theorem weaken (h : Flows R J p a ps q)
    (hp : ∀ (chart : Chart K) (pc : Nat), R.Reaches chart pc p → R.Reaches chart pc r) :
    Flows R J r a ps q :=
  ⟨h.length, h.sized, fun hl hq => hp _ _ (h.entry hl hq), h.leads⟩

/-- Code flows to other knowledge that reaches its own. -/
theorem strengthen (h : Flows R J p a ps q)
    (hq : ∀ (chart : Chart K) (pc : Nat), R.Reaches chart pc r → R.Reaches chart pc q) :
    Flows R J p a ps r :=
  ⟨h.length, h.sized, fun hl hr => h.entry hl (hq _ _ hr), fun hl hr => h.leads hl (hq _ _ hr)⟩

/-- **Sequences.** Code in a row flows if what is known behind the first part is known before the
second. -/
theorem append (ha : Flows R J p a ps q) (hb : Flows R J q b qs r) :
    Flows R J p (a ++ b) (ps ++ qs) r := by
  have hmid : ∀ {chart : Chart K} {offset : Nat}, chart.Lists offset (ps ++ qs) →
      R.Reaches chart (offset + (a ++ b).size) r →
      chart.Lists offset ps ∧ chart.Lists (offset + a.size) qs ∧
        R.Reaches chart (offset + a.size + b.size) r := by
    intro chart offset hl hr
    obtain ⟨hps, hqs⟩ := Chart.lists_append.mp hl
    rw [ha.length] at hqs
    rw [size_append, ← Nat.add_assoc] at hr
    exact ⟨hps, hqs, hr⟩
  refine ⟨?_, ha.sized.append hb.sized, fun hl hr => ?_, fun hl hr hj => ?_⟩
  · rw [List.length_append, ha.length, hb.length, size_append]
  · obtain ⟨hps, hqs, hr⟩ := hmid hl hr
    exact ha.entry hps (hb.entry hqs hr)
  · obtain ⟨hps, hqs, hr⟩ := hmid hl hr
    rw [place_append]
    refine Rules.allLead_append (ha.leads hps (hb.entry hqs hr) hj) ?_
    rw [ha.sized]
    exact hb.leads hqs hr hj

/-- `a`, then a jump that may lead to the end, then `b`. What is known at the end has to hold on
both ways there, and `hj` is to see to the jump. -/
theorem skipping {jump : Nat → Instr} {s t : K} (ha : Flows R J p a ps (some s))
    (hb : Flows R J (some t) b qs q)
    (hj : ∀ (chart : Chart K) (pc target : Nat), R.Accepts chart (pc + 1) t →
      R.Reaches chart target q → R.Leads chart pc s (jump target)) :
    Flows R J p (skipping jump a b) (ps ++ some s :: qs) q := by
  have hmid : ∀ {chart : Chart K} {offset : Nat}, chart.Lists offset (ps ++ some s :: qs) →
      R.Reaches chart (offset + (Fragment.skipping jump a b).size) q →
      chart.Lists offset ps ∧ chart (offset + a.size) = some s ∧
        chart.Lists (offset + a.size + 1) qs ∧
        R.Reaches chart (offset + a.size + 1 + b.size) q := by
    intro chart offset hl hq
    rw [Chart.lists_append, Chart.lists_cons, ha.length] at hl
    obtain ⟨hps, hs, hqs⟩ := hl
    refine ⟨hps, hs, hqs, ?_⟩
    rwa [Fragment.skipping, ← Nat.add_assoc, ← Nat.add_assoc] at hq
  refine ⟨?_, ha.sized.skipping hb.sized jump, fun hl hq => ?_, fun hl hq hJ => ?_⟩
  · simp only [List.length_append, List.length_cons, ha.length, hb.length, Fragment.skipping]
    omega
  · obtain ⟨hps, hs, -, -⟩ := hmid hl hq
    exact ha.entry hps (Rules.accepts_of_eq hs)
  · obtain ⟨hps, hs, hqs, hq⟩ := hmid hl hq
    refine Rules.allLead_append (ha.leads hps (Rules.accepts_of_eq hs) hJ) ?_
    rw [ha.sized]
    refine Rules.allLead_cons (fun s' hs' => ?_) (hb.leads hqs hq hJ)
    cases hs.symm.trans hs'
    exact hj _ _ _ (hb.entry hqs hq) hq

/-- `test`, then `yes` or `no`. Control does not come to the jump behind `yes` if nothing is
known behind `yes`. -/
theorem choice {yes no : Fragment} {s t u : K} {ys ns : List (Option K)} {j : Option K}
    (ht : Flows R J p test ts (some s)) (hy : Flows R J (some t) yes ys j)
    (hn : Flows R J (some u) no ns q)
    (htest : ∀ (chart : Chart K) (pc target : Nat), R.Accepts chart (pc + 1) t →
      R.Accepts chart target u → R.Leads chart pc s (.jumpIfFalse target))
    (hjoin : ∀ (chart : Chart K) (pc target : Nat) (u : K), j = some u →
      R.Reaches chart target q → R.Leads chart pc u (.jump target)) :
    Flows R J p (choice test yes no) (ts ++ some s :: (ys ++ j :: ns)) q := by
  have hmid : ∀ {chart : Chart K} {offset : Nat},
      chart.Lists offset (ts ++ some s :: (ys ++ j :: ns)) →
      R.Reaches chart (offset + (Fragment.choice test yes no).size) q →
      chart.Lists offset ts ∧ chart (offset + test.size) = some s ∧
        chart.Lists (offset + test.size + 1) ys ∧
        chart (offset + test.size + 1 + yes.size) = j ∧
        chart.Lists (offset + test.size + 1 + yes.size + 1) ns ∧
        R.Reaches chart (offset + test.size + 1 + yes.size + 1 + no.size) q := by
    intro chart offset hl hq
    rw [Chart.lists_append, Chart.lists_cons, Chart.lists_append, Chart.lists_cons, ht.length,
      hy.length] at hl
    obtain ⟨hts, hs, hys, hj, hns⟩ := hl
    refine ⟨hts, hs, hys, hj, hns, ?_⟩
    rw [Fragment.choice] at hq
    simpa only [Nat.add_assoc] using hq
  refine ⟨?_, ht.sized.choice hy.sized hn.sized, fun hl hq => ?_, fun hl hq hJ => ?_⟩
  · simp only [List.length_append, List.length_cons, ht.length, hy.length, hn.length,
      Fragment.choice]
    omega
  · obtain ⟨hts, hs, -⟩ := hmid hl hq
    exact ht.entry hts (Rules.accepts_of_eq hs)
  · obtain ⟨hts, hs, hys, hj, hns, hq⟩ := hmid hl hq
    rw [Fragment.choice]
    dsimp only
    rw [List.append_assoc, List.cons_append]
    refine Rules.allLead_append (ht.leads hts (Rules.accepts_of_eq hs) hJ) ?_
    rw [ht.sized]
    refine Rules.allLead_cons (fun s' hs' => ?_)
      (Rules.allLead_append (hy.leads hys (Rules.reaches_of_eq hj) hJ) ?_)
    · cases hs.symm.trans hs'
      exact htest _ _ _ (hy.entry hys (Rules.reaches_of_eq hj)) (hn.entry hns hq)
    · rw [hy.sized]
      refine Rules.allLead_cons (fun s' hs' => ?_) (hn.leads hns hq hJ)
      exact hjoin _ _ _ s' (hj.symm.trans hs') hq

/-- `a` over and over, from the start `s` of the loop. At the jump back, `u` is known. -/
theorem forever {s u : K} (hb : Flows R J (some s) a ps q)
    (hq : ∀ (chart : Chart K) (pc : Nat), chart pc = some u → R.Reaches chart pc q)
    (hback : ∀ (chart : Chart K) (pc target : Nat), R.Accepts chart target s →
      R.Leads chart pc u (.jump target))
    (hJ : ∀ (chart : Chart K) (loop : LoopEnds), R.Accepts chart loop.start s →
      R.Reaches chart loop.exit r → J chart loop) :
    Flows R J' (some s) (forever a) (ps ++ [some u]) r := by
  have hmid : ∀ {chart : Chart K} {offset : Nat}, chart.Lists offset (ps ++ [some u]) →
      chart.Lists offset ps ∧ R.Reaches chart (offset + a.size) q ∧
        chart (offset + a.size) = some u := by
    intro chart offset hl
    rw [Chart.lists_append, hb.length] at hl
    exact ⟨hl.1, hq _ _ hl.2.head, hl.2.head⟩
  refine ⟨?_, hb.sized.forever, fun hl _ => ?_, fun hl hr _ => ?_⟩
  · rw [List.length_append, hb.length, Fragment.forever, List.length_singleton]
  · obtain ⟨hps, hend, -⟩ := hmid hl
    exact hb.entry hps hend
  · obtain ⟨hps, hend, hu⟩ := hmid hl
    refine Rules.allLead_append (hb.leads hps hend (hJ _ _ (hb.entry hps hend) ?_)) ?_
    · rwa [Fragment.forever, ← Nat.add_assoc] at hr
    · rw [hb.sized]
      refine Rules.allLead_cons (fun u' hu' => ?_) Rules.allLead_nil
      cases hu.symm.trans hu'
      exact hback _ _ _ (hb.entry hps hend)

/-- `a` as long as `test` holds, from the start `s` of the loop. The code of `a` starts where `v`
is known, and at the jump back `u` is known. -/
theorem whileTrue {s t u v : K} (ht : Flows R J (some s) test ts (some t))
    (hb : Flows R J (some v) a ps q)
    (hq : ∀ (chart : Chart K) (pc : Nat), chart pc = some u → R.Reaches chart pc q)
    (htest : ∀ (chart : Chart K) (pc target : Nat), R.Accepts chart (pc + 1) v →
      R.Reaches chart target r → R.Leads chart pc t (.jumpIfFalse target))
    (hback : ∀ (chart : Chart K) (pc target : Nat), R.Accepts chart target s →
      R.Leads chart pc u (.jump target))
    (hJ : ∀ (chart : Chart K) (loop : LoopEnds), R.Accepts chart loop.start s →
      R.Reaches chart loop.exit r → J chart loop) :
    Flows R J' (some s) (whileTrue test a) (ts ++ some t :: (ps ++ [some u])) r := by
  have hmid : ∀ {chart : Chart K} {offset : Nat},
      chart.Lists offset (ts ++ some t :: (ps ++ [some u])) →
      chart.Lists offset ts ∧ chart (offset + test.size) = some t ∧
        chart.Lists (offset + test.size + 1) ps ∧
        chart (offset + test.size + 1 + a.size) = some u := by
    intro chart offset hl
    rw [Chart.lists_append, Chart.lists_cons, Chart.lists_append, ht.length, hb.length] at hl
    obtain ⟨hts, hs, hps, hend⟩ := hl
    exact ⟨hts, hs, hps, hend.head⟩
  refine ⟨?_, ht.sized.whileTrue hb.sized, fun hl _ => ?_, fun hl hr _ => ?_⟩
  · simp only [List.length_append, List.length_cons, List.length_nil, ht.length, hb.length,
      Fragment.whileTrue]
    omega
  · obtain ⟨hts, hs, -⟩ := hmid hl
    exact ht.entry hts (Rules.accepts_of_eq hs)
  · obtain ⟨hts, hs, hps, hend⟩ := hmid hl
    have hstart := ht.entry hts (Rules.accepts_of_eq hs)
    rw [Fragment.whileTrue] at hr ⊢
    simp only [← Nat.add_assoc] at hr
    dsimp only
    have hjumps := hJ _ ⟨_, _⟩ hstart hr
    rw [List.append_assoc, List.cons_append]
    refine Rules.allLead_append (ht.leads hts (Rules.accepts_of_eq hs) hjumps) ?_
    rw [ht.sized]
    refine Rules.allLead_cons (fun s' hs' => ?_)
      (Rules.allLead_append (hb.leads hps (hq _ _ hend) hjumps) ?_)
    · cases hs.symm.trans hs'
      exact htest _ _ _ (hb.entry hps (hq _ _ hend)) hr
    · rw [hb.sized]
      refine Rules.allLead_cons (fun u' hu' => ?_) Rules.allLead_nil
      cases hend.symm.trans hu'
      exact hback _ _ _ hstart

end Flows

/-- Code that control does not come to has nothing to know. -/
theorem Sized.unreachable (h : a.Sized) :
    Flows R J none a (List.replicate a.size none) none := by
  refine ⟨by simp, h, fun _ _ => trivial, fun hl _ _ k i s hi hs => ?_⟩
  have hk : k < a.size := by
    rw [← h]
    exact (List.getElem?_eq_some_iff.mp hi).1
  rw [hl k none (by simp [hk])] at hs
  cases hs

end Fragment

end Parlance
