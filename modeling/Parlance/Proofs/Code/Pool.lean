import Mathlib.Tactic.Common
import Parlance.Proofs.Code.Emission

/-!
# What code generation produces

The generation of fragments is a monad over the pool of constants. This module says once what
every part of it does to the pool: the pool only grows, and it keeps no constant twice. Every fragment it
makes is as long as its size says, wherever it is placed.

Proofs about generated code do not follow the pool. They are about the finished pool, and
`Generate.Yields` says that a part of code generation gave a fragment on the way to it.

## Main results

* `Generate.Yields.bind`: what a sequence of steps yields, its parts yield.
* `Generate.yields_loadConst`: a loaded constant is in the finished pool.
* `Generate.produces_expr`, `Generate.produces_stmt`: fragments have the size they claim.
-/

namespace Parlance

/-! ### Fragments -/

/-- The fragment has as many instructions as it says, wherever it is placed. -/
def Fragment.Sized (f : Fragment) : Prop :=
  ∀ offset loop, (f.place offset loop).length = f.size

namespace Fragment

variable {a b test : Fragment}

/-- No code has no instructions, wherever it is placed. -/
@[simp] theorem sized_empty : empty.Sized := fun _ _ => rfl

/-- A single instruction has size one, whatever it is. -/
@[simp] theorem sized_one {i : Instr} : (one i).Sized := fun _ _ => rfl

/-- A jump to the start of a loop is one instruction. -/
@[simp] theorem sized_continueLoop : continueLoop.Sized := fun _ _ => rfl

/-- A jump behind a loop is one instruction. -/
@[simp] theorem sized_breakLoop : breakLoop.Sized := fun _ _ => rfl

/-- One fragment after the other is as long as both. -/
@[simp] theorem size_append : (a ++ b).size = a.size + b.size := rfl

/-- The second of two fragments stands right behind the first one, in the same loop. -/
theorem place_append {offset : Nat} {loop : LoopEnds} :
    (a ++ b).place offset loop = a.place offset loop ++ b.place (offset + a.size) loop := rfl

/-- It does not matter how fragments that follow each other are put together. Their sizes, their
ends and their code are the same. -/
theorem append_assoc (a b c : Fragment) : a ++ b ++ c = a ++ (b ++ c) := by
  change (⟨_, _, _⟩ : Fragment) = ⟨_, _, _⟩
  congr 1
  · exact Nat.add_assoc _ _ _
  · change (if c.size = 0 then (if b.size = 0 then a.returns else b.returns) else c.returns) =
      if b.size + c.size = 0 then a.returns else if c.size = 0 then b.returns else c.returns
    by_cases hb : b.size = 0 <;> by_cases hc : c.size = 0 <;> simp [hb, hc]
  · funext offset loop
    simp only [place_append, size_append, List.append_assoc, Nat.add_assoc]

/-- Two fragments of the size they claim have it when one follows the other. -/
theorem Sized.append (ha : a.Sized) (hb : b.Sized) : (a ++ b).Sized := by
  intro offset loop
  rw [place_append, List.length_append, ha, hb, size_append]

/-- A part that may be skipped has the size it claims if its two parts do: the jump between them is
one instruction. -/
theorem Sized.skipping (ha : a.Sized) (hb : b.Sized) (jump : Nat → Instr) :
    (Fragment.skipping jump a b).Sized := by
  intro offset loop
  simp only [Fragment.skipping, List.length_append, List.length_cons, ha offset, hb _ loop]
  omega

/-- A choice has the size it claims if its three parts do. There is one jump behind the test and one
behind the first branch. -/
theorem Sized.choice (ht : test.Sized) (ha : a.Sized) (hb : b.Sized) :
    (Fragment.choice test a b).Sized := by
  intro offset loop
  simp only [Fragment.choice, List.length_append, List.length_cons, ht offset, ha _ loop,
    hb _ loop]
  omega

/-- A loop has the size it claims if its body does: the jump back is one instruction. -/
theorem Sized.forever (ha : a.Sized) : (Fragment.forever a).Sized := by
  intro offset loop
  simp only [Fragment.forever, List.length_append, List.length_cons, List.length_nil, ha offset]

/-- A loop with a test has the size it claims if the test and the body do. One jump leaves it and
one repeats it. -/
theorem Sized.whileTrue (ht : test.Sized) (ha : a.Sized) :
    (Fragment.whileTrue test a).Sized := by
  intro offset loop
  simp only [Fragment.whileTrue, List.length_append, List.length_cons, List.length_nil,
    ht offset, ha _ _]
  omega

end Fragment

/-! ### Code at an offset -/

/-- A list of instructions stands at an offset of some code. -/
def Embeds (code : Array Instr) (offset : Nat) (is : List Instr) : Prop :=
  ∀ (k : Nat) (i : Instr), is[k]? = some i → code[offset + k]? = some i

/-- A fragment stands at an offset of some code, in a loop. -/
def Fragment.Placed (code : Array Instr) (offset : Nat) (loop : LoopEnds) (a : Fragment) : Prop :=
  Embeds code offset (a.place offset loop)

section Placed

variable {code : Array Instr} {offset : Nat} {loop : LoopEnds} {a b test : Fragment}

/-- The empty list stands everywhere. -/
@[simp] theorem embeds_nil : Embeds code offset [] := by
  intro k i h
  cases h

/-- A list stands at an offset if its first instruction does and the others stand behind it. -/
theorem embeds_cons {i : Instr} {is : List Instr} :
    Embeds code offset (i :: is) ↔ code[offset]? = some i ∧ Embeds code (offset + 1) is := by
  constructor
  · intro h
    refine ⟨h 0 i rfl, fun k j hj => ?_⟩
    rw [Nat.add_assoc, Nat.add_comm 1 k]
    exact h (k + 1) j hj
  · rintro ⟨h, hs⟩ k j hj
    cases k with
    | zero =>
        cases hj
        exact h
    | succ k =>
        rw [Nat.add_comm k 1, ← Nat.add_assoc]
        exact hs k j hj

/-- Two lists stand one after the other if the second one stands where the first one ends. -/
theorem embeds_append {is js : List Instr} :
    Embeds code offset (is ++ js) ↔
      Embeds code offset is ∧ Embeds code (offset + is.length) js := by
  induction is generalizing offset with
  | nil => simp
  | cons i is ih =>
      rw [List.cons_append, embeds_cons, embeds_cons, ih, List.length_cons, and_assoc,
        Nat.add_assoc, Nat.add_comm 1]

/-- A fragment stands at the start of its own code. -/
theorem Fragment.placed_code (a : Fragment) : a.Placed a.code 0 ⟨0, 0⟩ := by
  intro k i hk
  simpa [Fragment.code] using hk

/-- A fragment of one instruction stands where the instruction does. -/
@[simp] theorem Fragment.placed_one {i : Instr} :
    (Fragment.one i).Placed code offset loop ↔ code[offset]? = some i := by
  simp [Fragment.Placed, Fragment.one, embeds_cons]

/-- Two fragments stand one after the other if the second one stands where the first one ends by its
size. -/
theorem Fragment.Sized.placed_append (ha : a.Sized) :
    (a ++ b).Placed code offset loop ↔
      a.Placed code offset loop ∧ b.Placed code (offset + a.size) loop := by
  rw [Fragment.Placed, Fragment.place_append, embeds_append, ha]
  rfl

/-- Where code with a part that may be skipped stands, there stand the first part, the jump behind
the second part, and the second part. -/
theorem Fragment.Sized.placed_skipping (ha : a.Sized) {jump : Nat → Instr} :
    (Fragment.skipping jump a b).Placed code offset loop ↔
      a.Placed code offset loop ∧
        code[offset + a.size]? = some (jump (offset + a.size + 1 + b.size)) ∧
        b.Placed code (offset + a.size + 1) loop := by
  simp only [Fragment.Placed, Fragment.skipping, embeds_append, embeds_cons, ha offset loop]

/-- Where a choice stands, there stand the test, the jump to the second branch, the first branch,
the jump to the end, and the second branch. -/
theorem Fragment.Sized.placed_choice (ht : test.Sized) (ha : a.Sized) :
    (Fragment.choice test a b).Placed code offset loop ↔
      test.Placed code offset loop ∧
        code[offset + test.size]? = some (.jumpIfFalse (offset + test.size + 1 + a.size + 1)) ∧
        a.Placed code (offset + test.size + 1) loop ∧
        code[offset + test.size + 1 + a.size]? =
          some (.jump (offset + test.size + 1 + a.size + 1 + b.size)) ∧
        b.Placed code (offset + test.size + 1 + a.size + 1) loop := by
  simp only [Fragment.Placed, Fragment.choice, List.append_assoc, List.cons_append, embeds_append,
    embeds_cons, ht offset loop, ha _ loop]

/-- The ends of a loop whose code has a size. -/
def LoopEnds.around (offset size : Nat) : LoopEnds :=
  { start := offset, exit := offset + size }

/-- Where a loop stands, there stand its body, inside the loop, and the jump back to its start. -/
theorem Fragment.Sized.placed_forever (ha : a.Sized) :
    (Fragment.forever a).Placed code offset loop ↔
      a.Placed code offset (.around offset (Fragment.forever a).size) ∧
        code[offset + a.size]? = some (.jump offset) := by
  simp only [Fragment.Placed, Fragment.forever, embeds_append, embeds_cons, ha offset _,
    LoopEnds.around, Nat.add_assoc, embeds_nil, and_true]

/-- Where a loop with a test stands, there stand the test, the jump that leaves the loop, the body
and the jump back. Test and body stand inside the loop. -/
theorem Fragment.Sized.placed_whileTrue (ht : test.Sized) (ha : a.Sized) :
    (Fragment.whileTrue test a).Placed code offset loop ↔
      test.Placed code offset (.around offset (Fragment.whileTrue test a).size) ∧
        code[offset + test.size]? =
          some (.jumpIfFalse (offset + (Fragment.whileTrue test a).size)) ∧
        a.Placed code (offset + test.size + 1)
          (.around offset (Fragment.whileTrue test a).size) ∧
        code[offset + test.size + 1 + a.size]? = some (.jump offset) := by
  have he : offset + test.size + 1 + a.size + 1 = offset + (test.size + 1 + a.size + 1) := by
    omega
  simp only [Fragment.Placed, Fragment.whileTrue, List.append_assoc, List.cons_append,
    embeds_append, embeds_cons, ht offset _, ha _ _, LoopEnds.around, he, embeds_nil, and_true]

end Placed

/-! ### Pools -/

/-- A number constant is not one of several that are the same. -/
def Const.IsCanonical : Const → Prop
  | .float x => x.canonical = x
  | _ => True

/-- Canonical constants that count as the same in a pool are equal. -/
theorem Const.same_iff {c d : Const} (hc : c.IsCanonical) (hd : d.IsCanonical) :
    c.same d = true ↔ c = d := by
  unfold Const.same
  split
  · next x y =>
      simp only [Const.IsCanonical] at hc hd
      simp only [Binary64.same, beq_iff_eq, Const.float.injEq]
      rw [hc, hd]
  · exact beq_iff_eq

/-- The constant of a literal is canonical, since the reader never gives a number that is not. -/
@[simp] theorem Lit.isCanonical_toConst (v : Lit) : v.toConst.IsCanonical := by
  cases v <;> simp [Lit.toConst, Const.IsCanonical]

namespace Generate

/-- The constants of one pool stand at the same places of another. -/
def Extends (before after : Array Const) : Prop :=
  ∀ (i : Nat) (c : Const), before[i]? = some c → after[i]? = some c

/-- A pool that is left alone keeps its constants. -/
theorem Extends.refl (consts : Array Const) : Extends consts consts :=
  fun _ _ h => h

/-- Constants stay where they are when a pool grows twice. -/
theorem Extends.trans {a b c : Array Const} (hab : Extends a b) (hbc : Extends b c) :
    Extends a c :=
  fun i k h => hbc i k (hab i k h)

/-- A pool has no constant twice. -/
structure Distinct (consts : Array Const) : Prop where
  canonical : ∀ (i : Nat) (c : Const), consts[i]? = some c → c.IsCanonical
  unique : ∀ (i j : Nat) (c : Const), consts[i]? = some c → consts[j]? = some c → i = j

/-- A part of code generation only adds new constants to the pool, and what it gives has a
property. -/
def Produces {α : Type} (P : α → Prop) (m : Generate α) : Prop :=
  ∀ consts a after, Distinct consts → m consts = .ok (a, after) →
    Extends consts after ∧ Distinct after ∧ P a

/-- A part of code generation only adds new constants to the pool. -/
abbrev Grows {α : Type} (m : Generate α) : Prop :=
  Produces (fun _ => True) m

/-- A part of code generation gave `a` on the way to the pool `final`. -/
def Yields {α : Type} (final : Array Const) (m : Generate α) (a : α) : Prop :=
  ∃ consts after, Distinct consts ∧ m consts = .ok (a, after) ∧ Extends after final

/-- What a part of code generation gives on the way to the pool `final` has a property. -/
def Gives {α : Type} (final : Array Const) (P : α → Prop) (m : Generate α) : Prop :=
  Grows m ∧ ∀ a, Yields final m a → P a

section Rules

variable {α β : Type} {P : α → Prop} {Q : β → Prop} {final : Array Const}

/-- A sequence that succeeds has two parts that do, with a pool in between. -/
theorem bind_eq_ok {m : Generate α} {f : α → Generate β} {consts after : Array Const} {b : β}
    (h : (m >>= f) consts = .ok (b, after)) :
    ∃ a mid, m consts = .ok (a, mid) ∧ f a mid = .ok (b, after) := by
  simp only [bind, StateT.bind, Except.bind] at h
  split at h
  · simp at h
  · next r hr => exact ⟨r.1, r.2, hr, h⟩

/-- Two parts that succeed one after the other make a sequence that does. -/
theorem bind_of_ok {m : Generate α} {f : α → Generate β} {consts mid after : Array Const} {a : α}
    {b : β} (hm : m consts = .ok (a, mid)) (hf : f a mid = .ok (b, after)) :
    (m >>= f) consts = .ok (b, after) := by
  simp only [bind, StateT.bind, Except.bind, hm, hf]

/-- A result that is there leaves the pool alone. -/
theorem produces_pure {a : α} (h : P a) : Produces P (pure a : Generate α) := by
  intro consts b after hd he
  cases he
  exact ⟨.refl _, hd, h⟩

/-- Generation that fails produces nothing, so anything may be said of what it produces. -/
theorem produces_unresolved {range : Range} : Produces P (unresolved range : Generate α) := by
  intro consts a after hd he
  cases he

/-- A sequence of two parts. The second one may rely on what the first one produced. -/
theorem Produces.bind {m : Generate α} {f : α → Generate β} (hm : Produces P m)
    (hf : ∀ a, P a → Produces Q (f a)) : Produces Q (m >>= f) := by
  intro consts b after hd he
  obtain ⟨a, mid, ha, hb⟩ := bind_eq_ok he
  obtain ⟨hx, hd', hP⟩ := hm consts a mid hd ha
  obtain ⟨hx', hd'', hQ⟩ := hf a hP mid b after hd' hb
  exact ⟨hx.trans hx', hd'', hQ⟩

/-- Less may be said of what is produced. -/
theorem Produces.mono {P' : α → Prop} {m : Generate α} (hm : Produces P m)
    (h : ∀ a, P a → P' a) : Produces P' m := by
  intro consts a after hd he
  obtain ⟨hx, hd', hP⟩ := hm consts a after hd he
  exact ⟨hx, hd', h a hP⟩

/-- Whatever is produced, the pool only grows. -/
theorem Produces.grows {m : Generate α} (hm : Produces P m) : Grows m :=
  hm.mono fun _ _ => trivial

/-- A result that is there leaves the pool alone. -/
@[simp] theorem grows_pure {a : α} : Grows (pure a : Generate α) :=
  produces_pure trivial

/-- Generation that fails leaves no pool at all. -/
@[simp] theorem grows_unresolved {range : Range} : Grows (unresolved range : Generate α) :=
  produces_unresolved

/-- The pool only grows in a sequence whose parts only let it grow. -/
@[simp] theorem grows_bind {m : Generate α} {f : α → Generate β} (hm : Grows m)
    (hf : ∀ a, Grows (f a)) : Grows (m >>= f) :=
  Produces.bind hm fun a _ => hf a

/-- What becomes of a result does not matter to the pool. -/
@[simp] theorem grows_map {m : Generate α} {f : α → β} (hm : Grows m) : Grows (f <$> m) := by
  rw [← bind_pure_comp]
  exact grows_bind hm fun _ => grows_pure

/-- **Inversion.** What a sequence of two parts yields, its parts yield. -/
theorem Yields.bind {m : Generate α} {f : α → Generate β} {b : β}
    (h : Yields final (m >>= f) b) (hm : Produces P m) (hf : ∀ a, Grows (f a)) :
    ∃ a, P a ∧ Yields final m a ∧ Yields final (f a) b := by
  obtain ⟨consts, after, hd, he, hx⟩ := h
  obtain ⟨a, mid, ha, hb⟩ := bind_eq_ok he
  obtain ⟨-, hd', hP⟩ := hm consts a mid hd ha
  obtain ⟨hx', -, -⟩ := hf a mid b after hd' hb
  exact ⟨a, hP, ⟨consts, mid, hd, ha, hx'.trans hx⟩, ⟨mid, after, hd', hb, hx⟩⟩

/-- What is said of everything that is produced holds of what was yielded on the way to a pool. -/
theorem Yields.of_produces {m : Generate α} {a : α} (h : Yields final m a) (hm : Produces P m) :
    P a := by
  obtain ⟨consts, after, hd, he, -⟩ := h
  exact (hm consts a after hd he).2.2

/-- A result that is there is the one that was yielded. -/
theorem Yields.pure_eq {a b : α} (h : Yields final (pure a : Generate α) b) : b = a := by
  obtain ⟨consts, after, -, he, -⟩ := h
  cases he
  rfl

/-- Generation that fails yields nothing. -/
theorem not_yields_unresolved {range : Range} {a : α} :
    ¬ Yields final (unresolved range : Generate α) a := by
  rintro ⟨consts, after, -, he, -⟩
  cases he

/-- A result that is there has the properties it has. -/
theorem gives_pure {a : α} (h : P a) : Gives final P (pure a : Generate α) :=
  ⟨grows_pure, fun b hb => by rwa [hb.pure_eq]⟩

/-- Generation that fails gives nothing, so anything may be said of what it gives. -/
theorem gives_unresolved {range : Range} : Gives final P (unresolved range : Generate α) :=
  ⟨grows_unresolved, fun _ h => (not_yields_unresolved h).elim⟩

/-- What is produced into any pool is given on the way to the finished one. -/
theorem Produces.gives {m : Generate α} (hm : Produces P m) : Gives final P m :=
  ⟨hm.grows, fun _ ha => ha.of_produces hm⟩

/-- Less may be said of what is given. -/
theorem Gives.mono {P' : α → Prop} {m : Generate α} (hm : Gives final P m)
    (h : ∀ a, P a → P' a) : Gives final P' m :=
  ⟨hm.1, fun a ha => h a (hm.2 a ha)⟩

/-- What is known about the first part may be used about the second one. -/
theorem Gives.bind {m : Generate α} {f : α → Generate β} (hm : Gives final P m)
    (hf : ∀ a, Gives final (fun b => P a → Q b) (f a)) : Gives final Q (m >>= f) := by
  refine ⟨grows_bind hm.1 fun a => (hf a).1, fun b hb => ?_⟩
  obtain ⟨a, -, ha, hb⟩ := hb.bind hm.1 fun a => (hf a).1
  exact (hf a).2 b hb (hm.2 a ha)

end Rules

/-! ### Loads and stores -/

variable {final : Array Const} {x : GenerateContext}

/-- A new constant is added behind those that are there. -/
theorem extends_push {consts : Array Const} {c : Const} : Extends consts (consts.push c) := by
  intro i d h
  have hi := (Array.getElem?_eq_some_iff.mp h).1
  rw [Array.getElem?_push_lt hi]
  simpa [Array.getElem?_eq_getElem hi] using h

/-- A pool stays without doubles when a canonical constant is added that was not found in it.
Canonical floats are the same only if they are equal. -/
theorem distinct_push {consts : Array Const} {c : Const} (hd : Distinct consts)
    (hc : c.IsCanonical) (hn : consts.findIdx? (Const.same c) = none) :
    Distinct (consts.push c) := by
  have hnot : ∀ (i : Nat), consts[i]? ≠ some c := by
    intro i hi
    have := Array.findIdx?_eq_none_iff.mp hn c (Array.mem_of_getElem? hi)
    rw [(Const.same_iff hc hc).mpr rfl] at this
    cases this
  refine ⟨fun i d h => ?_, fun i j d hi hj => ?_⟩
  · rw [Array.getElem?_push] at h
    split at h
    · cases h
      exact hc
    · exact hd.canonical i d h
  · rw [Array.getElem?_push] at hi hj
    split at hi <;> split at hj
    · omega
    · cases hi
      exact absurd hj (hnot j)
    · cases hj
      exact absurd hi (hnot i)
    · exact hd.unique i j d hi hj

/-- A canonical constant that is found in a pool is itself there, not only one that is the same. -/
theorem findIdx?_same {consts : Array Const} {c : Const} {i : Nat} (hd : Distinct consts)
    (hc : c.IsCanonical) (h : consts.findIdx? (Const.same c) = some i) : consts[i]? = some c := by
  obtain ⟨hi, hs, -⟩ := Array.findIdx?_eq_some_iff_getElem.mp h
  have he := Array.getElem?_eq_getElem hi
  rw [he, (Const.same_iff hc (hd.canonical i _ he)).mp hs]

/-- **Constants.** Loading a constant gives its place in the pool. -/
theorem loadConst_eq_ok {consts after : Array Const} {c : Const} {a : Fragment}
    (hd : Distinct consts) (hc : c.IsCanonical) (h : loadConst c consts = .ok (a, after)) :
    Extends consts after ∧ Distinct after ∧
      ∃ i : Nat, a = .one (.loadConst i) ∧ after[i]? = some c := by
  unfold loadConst at h
  obtain ⟨found, mid, hget, h⟩ := bind_eq_ok h
  cases hget
  cases hn : consts.findIdx? (Const.same c) with
  | some i =>
      rw [hn] at h
      cases h
      exact ⟨.refl _, hd, i, rfl, findIdx?_same hd hc hn⟩
  | none =>
      rw [hn] at h
      obtain ⟨u, mid, hset, h⟩ := bind_eq_ok h
      cases hset
      cases h
      exact ⟨extends_push, distinct_push hd hc hn, consts.size, rfl, by simp⟩

/-- A constant can always be loaded. -/
theorem exists_loadConst (c : Const) (consts : Array Const) :
    ∃ a after, loadConst c consts = .ok (a, after) := by
  unfold loadConst
  cases hn : consts.findIdx? (Const.same c) with
  | some i =>
      refine ⟨.one (.loadConst i), consts, bind_of_ok (a := consts) rfl ?_⟩
      rw [hn]
      rfl
  | none =>
      refine ⟨.one (.loadConst consts.size), consts.push c, bind_of_ok (a := consts) rfl ?_⟩
      rw [hn]
      exact bind_of_ok (a := ()) rfl rfl

/-- Loading a constant is one instruction, and adds no double to the pool. -/
theorem produces_loadConst {c : Const} (hc : c.IsCanonical) :
    Produces Fragment.Sized (loadConst c) := by
  intro consts a after hd he
  obtain ⟨hx, hd', i, rfl, -⟩ := loadConst_eq_ok hd hc he
  exact ⟨hx, hd', by simp⟩

/-- A constant that was loaded is in the finished pool. -/
theorem yields_loadConst {c : Const} {a : Fragment} (hc : c.IsCanonical)
    (h : Yields final (loadConst c) a) :
    ∃ i : Nat, a = .one (.loadConst i) ∧ final[i]? = some c := by
  obtain ⟨consts, after, hd, he, hx⟩ := h
  obtain ⟨-, -, i, rfl, hi⟩ := loadConst_eq_ok hd hc he
  exact ⟨i, rfl, hx i c hi⟩

/-- Loading a variable is one instruction, whether it is the function's own or was captured. -/
theorem produces_loadVariable {symbol slot owner : Nat} {range : Range} :
    Produces Fragment.Sized (loadVariable x symbol slot owner range) := by
  unfold loadVariable
  split
  · exact produces_pure (by simp)
  · split
    · exact produces_pure (by simp)
    · exact produces_unresolved

/-- Loading what a name stands for is one instruction. -/
theorem produces_load {n : Note} : Produces Fragment.Sized (load x n) := by
  unfold load
  split
  · exact produces_unresolved
  · split
    · exact produces_pure (by simp)
    · exact produces_loadVariable
    · exact produces_loadConst trivial
    · exact produces_loadConst trivial

/-- Storing into a name is one instruction. -/
theorem produces_store {n : Note} : Produces Fragment.Sized (store x n) := by
  unfold store
  split
  · exact produces_unresolved
  · split
    · exact produces_pure (by simp)
    · split
      · exact produces_pure (by simp)
      · exact produces_unresolved
    · exact produces_unresolved

/-- Loading a variable for a capture is one instruction. -/
theorem produces_loadCaptured {range : Range} {symbol : Nat} :
    Produces Fragment.Sized (loadCaptured x range symbol) := by
  unfold loadCaptured
  split
  · exact produces_loadVariable
  · exact produces_unresolved

/-- The loads for the captures of a function have the size they claim. -/
theorem produces_loadAllCaptured {range : Range} (captures : List Nat) :
    Produces Fragment.Sized (loadAllCaptured x range captures) := by
  induction captures with
  | nil => exact produces_pure (by simp)
  | cons symbol rest ih =>
      exact produces_loadCaptured.bind fun a ha => ih.bind fun b hb =>
        produces_pure (ha.append hb)

/-- Making a function value has the size it claims, with captures or without. -/
theorem produces_lambda {n : Note} : Produces Fragment.Sized (lambda x n) := by
  unfold lambda
  split
  · exact produces_unresolved
  · split
    · exact produces_loadConst trivial
    · exact (produces_loadAllCaptured _).bind fun a ha => produces_pure (ha.append (by simp))

/-! ### Trees -/

mutual

/-- **Expressions.** The code of an expression has the size it claims, wherever it is placed. Jumps
are counted from there, so they are right in every place. -/
theorem produces_expr : ∀ e : Expr, Produces Fragment.Sized (expr x e)
  | .lit _ v => by rw [expr]; exact produces_loadConst v.isCanonical_toConst
  | .ident n _ => by rw [expr]; exact produces_load
  | .unary _ _ e => by
      rw [expr]
      exact (produces_expr e).bind fun a ha => produces_pure (ha.append (by simp))
  | .binary _ op l r => by
      rw [expr]
      refine (produces_expr l).bind fun a ha => (produces_expr r).bind fun b hb => ?_
      split
      · exact produces_pure ((ha.append hb).append (by simp))
      · exact produces_pure (ha.skipping hb _)
  | .assign _ target value => by
      cases target with
      | index _ base index =>
          rw [expr]
          exact produces_load.bind fun a ha => (produces_expr index).bind fun b hb =>
            (produces_expr value).bind fun c hc => produces_store.bind fun d hd =>
              produces_pure ((((ha.append hb).append hc).append (by simp)).append hd)
      | _ =>
          rw [expr]
          · exact (produces_expr value).bind fun a ha => produces_store.bind fun b hb =>
              produces_pure ((ha.append (by simp)).append hb)
          · intros
            contradiction
  | .call _ callee args => by
      rw [expr]
      exact (produces_expr callee).bind fun a ha => (produces_exprs args).bind fun b hb =>
        produces_pure ((ha.append hb).append (by simp))
  | .index _ target index => by
      rw [expr]
      exact (produces_expr target).bind fun a ha => (produces_expr index).bind fun b hb =>
        produces_pure ((ha.append hb).append (by simp))
  | .list _ items => by
      rw [expr]
      exact (produces_exprs items).bind fun a ha => produces_pure (ha.append (by simp))
  | .cast _ e _ => by
      rw [expr]
      exact (produces_expr e).bind fun a ha => produces_pure (ha.append (by simp))
  | .lambda n _ _ => by rw [expr]; exact produces_lambda

/-- The code of expressions that follow each other has the size it claims. -/
theorem produces_exprs : ∀ es : List Expr, Produces Fragment.Sized (exprs x es)
  | [] => by rw [exprs]; exact produces_pure (by simp)
  | e :: es => by
      rw [exprs]
      exact (produces_expr e).bind fun a ha => (produces_exprs es).bind fun b hb =>
        produces_pure (ha.append hb)

end

/-- So has the code of an expression whose value is not used, shortened or not. -/
theorem produces_discard (e : Expr) : Produces Fragment.Sized (discard x e) := by
  unfold discard
  split
  · refine (produces_expr _).bind fun a ha => produces_store.bind fun b hb => produces_pure ?_
    split
    · exact ha.append hb
    · exact ((ha.append (by simp)).append hb).append (by simp)
  · refine (produces_expr e).bind fun a ha => produces_pure ?_
    split
    · simp
    · exact ha.append (by simp)

/-- So has the code of an optional result: without one, unit is loaded. -/
theorem produces_result (value : Option Expr) : Produces Fragment.Sized (result x value) := by
  cases value with
  | none => exact produces_loadConst trivial
  | some e => exact produces_expr e

mutual

/-- **Statements.** The code of a statement has the size it claims, wherever it is placed and
whatever the ends of the loop around it are. -/
theorem produces_stmt : ∀ (inLoop : Bool) (s : Stmt), Produces Fragment.Sized (stmt x inLoop s)
  | inLoop, .block b => by rw [stmt]; exact produces_block inLoop b
  | _, .letVar n _ _ init => by
      rw [stmt]
      exact (produces_expr init).bind fun a ha => produces_store.bind fun b hb =>
        produces_pure (ha.append hb)
  | _, .fnDecl _ _ _ _ => by rw [stmt]; exact produces_pure (by simp)
  | _, .ret _ value => by
      rw [stmt]
      exact (produces_result value).bind fun a ha => produces_pure (ha.append (by simp))
  | inLoop, .cond _ test yes none => by
      rw [stmt]
      exact (produces_expr test).bind fun a ha => (produces_block inLoop yes).bind fun b hb =>
        produces_pure (ha.skipping hb _)
  | inLoop, .cond _ test yes (some no) => by
      rw [stmt]
      exact (produces_expr test).bind fun a ha => (produces_block inLoop yes).bind fun b hb =>
        (produces_stmt inLoop no).bind fun c hc => produces_pure (ha.choice hb hc)
  | _, .whileLoop _ test body => by
      rw [stmt]
      exact (produces_expr test).bind fun a ha => (produces_block true body).bind fun b hb =>
        produces_pure (ha.whileTrue hb)
  | _, .loop _ body => by
      rw [stmt]
      exact (produces_block true body).bind fun a ha => produces_pure ha.forever
  | inLoop, .breakLoop n => by
      rw [stmt]
      split
      · exact produces_pure (by simp)
      · exact produces_unresolved
  | inLoop, .continueLoop n => by
      rw [stmt]
      split
      · exact produces_pure (by simp)
      · exact produces_unresolved
  | _, .expr _ e => by rw [stmt]; exact produces_discard e

/-- The code of statements that follow each other has the size it claims. -/
theorem produces_stmts :
    ∀ (inLoop : Bool) (ss : List Stmt), Produces Fragment.Sized (stmts x inLoop ss)
  | _, [] => by rw [stmts]; exact produces_pure (by simp)
  | inLoop, s :: ss => by
      rw [stmts]
      exact (produces_stmt inLoop s).bind fun a ha => (produces_stmts inLoop ss).bind fun b hb =>
        produces_pure (ha.append hb)

/-- So has the code of a block whose result is not used. -/
theorem produces_block :
    ∀ (inLoop : Bool) (b : Block), Produces Fragment.Sized (block x inLoop b)
  | inLoop, .mk _ ss none => by rw [block]; exact produces_stmts inLoop ss
  | inLoop, .mk _ ss (some e) => by
      rw [block]
      exact (produces_stmts inLoop ss).bind fun a ha => (produces_discard e).bind fun b hb =>
        produces_pure (ha.append hb)

end

/-- **Functions.** The code of a function body has the size it claims, with the return at its end or
without one. -/
theorem produces_body (b : Block) : Produces Fragment.Sized (body x b) := by
  cases b with
  | mk _ ss tail =>
      cases tail with
      | some e =>
          rw [body]
          exact (produces_stmts false ss).bind fun a ha => (produces_expr e).bind fun b hb =>
            produces_pure ((ha.append hb).append (by simp))
      | none =>
          rw [body]
          refine (produces_stmts false ss).bind fun a ha => ?_
          split
          · exact produces_pure ha
          · exact (produces_loadConst (c := .unit) trivial).bind fun b hb =>
              produces_pure ((ha.append hb).append (by simp))

/-- Generating an expression lets the pool grow. -/
@[simp] theorem grows_expr {e : Expr} : Grows (expr x e) := (produces_expr e).grows

/-- Generating expressions lets the pool grow. -/
@[simp] theorem grows_exprs {es : List Expr} : Grows (exprs x es) := (produces_exprs es).grows

/-- Generating a store leaves the pool alone. -/
@[simp] theorem grows_store {n : Note} : Grows (store x n) := produces_store.grows

/-- Generating an expression whose value is not used lets the pool grow. -/
@[simp] theorem grows_discard {e : Expr} : Grows (discard x e) := (produces_discard e).grows

/-- Generating a statement lets the pool grow. -/
@[simp] theorem grows_stmt {inLoop : Bool} {s : Stmt} : Grows (stmt x inLoop s) :=
  (produces_stmt inLoop s).grows

/-- Generating statements lets the pool grow. -/
@[simp] theorem grows_stmts {inLoop : Bool} {ss : List Stmt} : Grows (stmts x inLoop ss) :=
  (produces_stmts inLoop ss).grows

/-- Generating a block lets the pool grow. -/
@[simp] theorem grows_block {inLoop : Bool} {b : Block} : Grows (block x inLoop b) :=
  (produces_block inLoop b).grows

/-! ### Routines -/

/-- The routine that is made of the code of a function. -/
def routineOf (info : FunctionInfo) (a : Fragment) : Routine :=
  { name := info.name, params := info.params.length, slots := info.slots,
    captures := info.captures.length, code := a.code }

variable {facts : Facts} {tidy : Bool} {bodies : List FunctionBody}

/-- The routine of a function with a body is made of the code of the body and of what the facts say
about the function. -/
theorem routine_eq {info : FunctionInfo} {b : Block} (hb : bodies.lookup x.function = some b) :
    routine x info bodies = do return routineOf info (← body x b) := by
  simp only [routine, hb]
  rfl

/-- Generating a routine lets the pool grow, and so does failing to. -/
theorem grows_routine {info : FunctionInfo} : Grows (routine x info bodies) := by
  cases hb : bodies.lookup x.function with
  | none =>
      simp only [routine, hb]
      exact grows_unresolved
  | some b =>
      rw [routine_eq hb]
      exact grows_bind (produces_body b).grows fun _ => grows_pure

/-- Generating the routines of all functions lets the pool grow. -/
theorem grows_routines (infos : List FunctionInfo) :
    ∀ function, Grows (routines facts tidy bodies function infos) := by
  induction infos with
  | nil => exact fun _ => grows_pure
  | cons info rest ih =>
      intro function
      exact grows_bind grows_routine fun _ => grows_bind (ih _) fun _ => grows_pure

/-- **Routines.** Each function has a body, and its routine the code of this body. The induction is
on the functions that are left, and the pool only grows from one to the next. -/
theorem yields_routines (infos : List FunctionInfo) :
    ∀ (function : Nat) (rs : List Routine),
      Yields final (routines facts tidy bodies function infos) rs →
      rs.length = infos.length ∧ ∀ (i : Nat) (info : FunctionInfo), infos[i]? = some info →
        ∃ b a, bodies.lookup (function + i) = some b ∧ a.Sized ∧
          Yields final (body { facts, function := function + i, tidy } b) a ∧
          rs[i]? = some (routineOf info a) := by
  induction infos with
  | nil =>
      intro function rs hy
      cases hy.pure_eq
      exact ⟨rfl, fun i info h => by cases h⟩
  | cons first rest ih =>
      intro function rs hy
      rw [routines] at hy
      obtain ⟨r, -, hr, hy⟩ := hy.bind grows_routine fun _ =>
        grows_bind (grows_routines rest _) fun _ => grows_pure
      obtain ⟨rs', -, hrs, hy⟩ := hy.bind (grows_routines rest _) fun _ => grows_pure
      cases hy.pure_eq
      obtain ⟨hlen, hrest⟩ := ih (function + 1) rs' hrs
      refine ⟨by rw [List.length_cons, List.length_cons, hlen], fun i info hi => ?_⟩
      cases i with
      | zero =>
          cases hi
          cases hb : bodies.lookup function with
          | none =>
              simp only [routine, hb] at hr
              exact absurd hr not_yields_unresolved
          | some b =>
              rw [routine_eq hb] at hr
              obtain ⟨a, ha, hb', hr⟩ := hr.bind (produces_body b) fun _ => grows_pure
              cases hr.pure_eq
              exact ⟨b, a, rfl, ha, hb', rfl⟩
      | succ i =>
          obtain ⟨b, a, hb, ha, hy, hri⟩ := hrest i info hi
          rw [Nat.add_assoc, Nat.add_comm 1 i] at hb hy
          exact ⟨b, a, hb, ha, hy, hri⟩

end Generate

/-! ### Images -/

/-- An image has the constants, slots and routines of an analyzed program. -/
structure Image.Assembled (a : Analyzed) (image : Image) : Prop where
  distinct : Generate.Distinct image.consts
  routine : ∀ (f : Nat) (info : FunctionInfo), a.facts.functions[f]? = some info →
    ∃ b frag, a.bodies.lookup f = some b ∧ frag.Sized ∧
      Generate.Yields image.consts
        (Generate.body { facts := a.facts, function := f, tidy := true } b) frag ∧
      image.routines[f]? = some (Generate.routineOf info frag)
  size_eq : image.routines.size = a.facts.functions.size
  globals_eq : image.globals = a.facts.globals

/-- An image is the one of an analyzed program. -/
structure Image.Generated (a : Analyzed) (image : Image) : Prop extends image.Assembled a where
  verified : image.verify = .ok ()

/-- Every routine is that of a function. -/
theorem Image.Assembled.info_of_routine {a : Analyzed} {image : Image} (hg : image.Assembled a)
    {f : Nat} {r : Routine} (hr : image.routines[f]? = some r) :
    ∃ info, a.facts.functions[f]? = some info := by
  have hlt := (Array.getElem?_eq_some_iff.mp hr).1
  rw [hg.size_eq] at hlt
  exact ⟨_, Array.getElem?_eq_getElem hlt⟩

/-- An image is assembled from the routines of all functions, the pool that they leave and the
number of global slots. The routines may be generated from fragments. -/
theorem assemble_eq_ok_iff {tidy : Bool} {a : Analyzed} {image : Image} :
    assemble tidy a = .ok image ↔ ∃ rs consts,
      Generate.routines a.facts tidy a.bodies 0 a.facts.functions.toList #[] = .ok (rs, consts) ∧
      image = ⟨consts, a.facts.globals, rs.toArray⟩ := by
  rw [assemble_eq]
  unfold Generate.image
  simp only [StateT.run, bind, Except.bind, pure, Except.pure]
  cases Generate.routines a.facts tidy a.bodies 0 a.facts.functions.toList #[] with
  | error e => simp
  | ok result =>
      obtain ⟨rs, consts⟩ := result
      constructor
      · rintro ⟨⟩
        exact ⟨rs, consts, rfl, rfl⟩
      · rintro ⟨rs', consts', ⟨⟩, rfl⟩
        rfl

/-- Generation starts with a pool without doubles. -/
theorem distinct_empty : Generate.Distinct #[] :=
  ⟨by simp, by simp⟩

/-- What code generation assembles is made of the parts of the program, shortened or not. -/
theorem Image.parts_of_assemble {tidy : Bool} {a : Analyzed} {image : Image}
    (h : assemble tidy a = .ok image) :
    Generate.Distinct image.consts ∧
      (∀ (f : Nat) (info : FunctionInfo), a.facts.functions[f]? = some info →
        ∃ b frag, a.bodies.lookup f = some b ∧ frag.Sized ∧
          Generate.Yields image.consts
            (Generate.body { facts := a.facts, function := f, tidy } b) frag ∧
          image.routines[f]? = some (Generate.routineOf info frag)) ∧
      image.routines.size = a.facts.functions.size ∧ image.globals = a.facts.globals := by
  obtain ⟨rs, consts, hr, rfl⟩ := assemble_eq_ok_iff.mp h
  obtain ⟨-, hd, -⟩ := Generate.grows_routines _ 0 #[] rs consts distinct_empty hr
  have hy : Generate.Yields consts (Generate.routines a.facts tidy a.bodies 0
      a.facts.functions.toList) rs := ⟨#[], consts, distinct_empty, hr, .refl _⟩
  obtain ⟨hlen, hrs⟩ := Generate.yields_routines _ 0 rs hy
  refine ⟨hd, fun f info hf => ?_, by simpa using hlen, rfl⟩
  obtain ⟨b, frag, hb, hs, hy, hri⟩ := hrs f info (by simpa using hf)
  rw [Nat.zero_add] at hb hy
  exact ⟨b, frag, hb, hs, hy, by simpa using hri⟩

/-- The image that is assembled for a program has the routines of its functions. -/
theorem Image.assembled_of_assemble {a : Analyzed} {image : Image}
    (h : assemble true a = .ok image) : image.Assembled a := by
  obtain ⟨hd, hroutine, hsize, hglobals⟩ := Image.parts_of_assemble h
  exact ⟨hd, hroutine, hsize, hglobals⟩

/-- Code generation succeeds if the image can be assembled and passes verification, and gives this
image. -/
theorem generate_eq_ok_iff {a : Analyzed} {image : Image} :
    generate a = .ok image ↔ assemble true a = .ok image ∧ image.verify = .ok () := by
  unfold generate
  cases assemble true a with
  | error e => simp [bind, Except.bind]
  | ok found =>
      simp only [bind, Except.bind, Except.ok.injEq]
      constructor
      · intro h
        cases hv : found.verify with
        | error e => simp [hv, throw, throwThe, MonadExceptOf.throw] at h
        | ok u =>
            rw [hv] at h
            cases h
            exact ⟨rfl, hv⟩
      · rintro ⟨rfl, hv⟩
        rw [hv]
        rfl

/-- **Images.** What code generation gives is an image of the program. -/
theorem Image.generated_of_generate {a : Analyzed} {image : Image}
    (h : generate a = .ok image) : image.Generated a := by
  obtain ⟨ha, hv⟩ := generate_eq_ok_iff.mp h
  exact ⟨Image.assembled_of_assemble ha, hv⟩

end Parlance
