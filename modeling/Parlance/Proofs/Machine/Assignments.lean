import Parlance.Proofs.Code.Sites
import Parlance.Proofs.Machine.Activations
import Parlance.Proofs.Machine.Soundness

/-!
# Assignments to items

An assignment `x[i] = e` first reads the list of `x`, then evaluates `i` and `e`, and at last
stores the list it has read with one item replaced. Whatever the evaluation of `i` or `e` itself
stores into `x`, directly or in a function that it calls, is overwritten.

## Main definitions

* `Image.AssignsAt`: the code of an assignment to an item, at an offset of a routine.
* `Machine.Overwrites`: what an assignment to an item does.

## Main results

* `Image.Assembled.exists_assignsAt`: every assignment to an item has its code.
* `CompileOptions.assignment_overwrites`: a run that comes through this code has replaced one item
  of the list that the variable held before.
* `CompileOptions.callsWriter_loses`: a program that loses an update in this way.
-/

namespace Parlance

open Generate

/-! ### Variables -/

/-- The value of a variable: that of its global slot, or of its slot in the running frame. -/
def Machine.held? (m : Machine) (facts : Facts) (y : Nat) : Option Value :=
  match (facts.symbol y).storage with
  | .global k => m.globals[k]?
  | .frame k => m.frames.head?.bind fun f => f.slots[k]?
  | _ => none

/-- A global holds what its slot does. -/
theorem Machine.held?_global {m : Machine} {facts : Facts} {y k : Nat}
    (h : (facts.symbol y).storage = .global k) : m.held? facts y = m.globals[k]? := by
  simp only [held?, h]

/-- A variable of the running frame holds what its slot does. -/
theorem Machine.held?_frame {m : Machine} {facts : Facts} {y k : Nat}
    (h : (facts.symbol y).storage = .frame k) {f : Frame} {callers : List Frame}
    (hfs : m.frames = f :: callers) : m.held? facts y = f.slots[k]? := by
  simp only [held?, h, hfs, List.head?_cons, Option.bind_some]

/-- The operands of the running frame. -/
def Machine.operands (m : Machine) : List Value :=
  (m.frames.head?.map Frame.stack).getD []

/-- The instructions with which a function loads a variable and stores it. -/
inductive Facts.Accesses (facts : Facts) (function y : Nat) : Instr → Instr → Prop
  | global {k : Nat} (h : (facts.symbol y).storage = .global k) :
      facts.Accesses function y (.loadGlobal k) (.storeGlobal k)
  | frame {k : Nat} (h : (facts.symbol y).storage = .frame k)
      (howner : (facts.symbol y).function = function) :
      facts.Accesses function y (.loadLocal k) (.storeLocal k)

/-- A variable that is loaded and stored is global, or belongs to the function. -/
theorem Generate.Yields.accesses {final : Array Const} {x : GenerateContext} {n : Note}
    {a b : Fragment} (ha : Yields final (load x n) a) (hb : Yields final (store x n) b) :
    ∃ y l s, n.symbol = some y ∧ x.facts.Accesses x.function y l s ∧ a = .one l ∧ b = .one s := by
  unfold load at ha
  unfold store at hb
  cases hn : n.symbol with
  | none =>
      simp only [hn] at hb
      exact absurd hb not_yields_unresolved
  | some y =>
      simp only [hn] at ha hb
      cases hs : (x.facts.symbol y).storage with
      | global k =>
          simp only [hs] at ha hb
          exact ⟨y, _, _, rfl, .global hs, ha.pure_eq, hb.pure_eq⟩
      | frame k =>
          simp only [hs] at ha hb
          by_cases howner : (x.facts.symbol y).function = x.function
          · rw [loadVariable, if_pos howner] at ha
            rw [if_pos howner] at hb
            exact ⟨y, _, _, rfl, .frame hs howner, ha.pure_eq, hb.pure_eq⟩
          · rw [if_neg howner] at hb
            exact absurd hb not_yields_unresolved
      | function f | builtin b =>
          simp only [hs] at hb
          exact absurd hb not_yields_unresolved

/-! ### Sites -/

/-- The code of `base[index] = value` stands at an offset of a routine: a load of the variable, the
code of the index and of the value, and the instructions that replace the item and store the
list. -/
structure Image.AssignsAt (image : Image) (x : GenerateContext) (base index value : Expr)
    (y pc : Nat) (i e : Fragment) : Prop where
  symbol : base.note.symbol = some y
  index : Generate.Yields image.consts (Generate.expr x index) i
  value : Generate.Yields image.consts (Generate.expr x value) e
  code : ∃ r l s loop, image.routines[x.function]? = some r ∧
    x.facts.Accesses x.function y l s ∧ r.code[pc]? = some l ∧
    i.Placed r.code (pc + 1) loop ∧ e.Placed r.code (pc + 1 + i.size) loop ∧
    r.code[pc + 1 + i.size + e.size]? = some .setItem ∧
    r.code[pc + 1 + i.size + e.size + 1]? = some s

/-- **Sites.** Every assignment to an item in the body of a function has its code in the
routine of the function. -/
theorem Image.Assembled.exists_assignsAt {a : Analyzed} {image : Image} (h : image.Assembled a)
    {f : Nat} {b : Block} (hb : a.bodies.lookup f = some b) (hfits : a.facts.Fits f b)
    {n n' : Note} {base index value : Expr}
    (he : .assign n (.index n' base index) value ∈ b.expressions) :
    ∃ y pc i e, image.AssignsAt ⟨a.facts, f, true⟩ base index value y pc i e := by
  obtain ⟨r, code, pc, loop, hr, hcode, hp⟩ := h.exists_site hb hfits he (.intro _ _ _ _ _)
  rw [Generate.expr] at hcode
  -- The parts of the code, one after the other.
  obtain ⟨load, hload, hyl, hcode⟩ := hcode.bind produces_load fun _ =>
    grows_bind grows_expr fun _ => grows_bind grows_expr fun _ =>
      grows_bind grows_store fun _ => grows_pure
  obtain ⟨i, hi, hyi, hcode⟩ := hcode.bind (produces_expr index) fun _ =>
    grows_bind grows_expr fun _ => grows_bind grows_store fun _ => grows_pure
  obtain ⟨e, he, hye, hcode⟩ := hcode.bind (produces_expr value) fun _ =>
    grows_bind grows_store fun _ => grows_pure
  obtain ⟨store, -, hys, hcode⟩ := hcode.bind produces_store fun _ => grows_pure
  obtain ⟨y, l, s, hy, hacc, rfl, rfl⟩ := hyl.accesses hys
  cases hcode.pure_eq
  have hfront := (hload.append hi).append he
  rw [(hfront.append (Fragment.sized_one)).placed_append, hfront.placed_append,
    (hload.append hi).placed_append, hload.placed_append] at hp
  obtain ⟨⟨⟨⟨hl, hpi⟩, hpe⟩, hset⟩, hs⟩ := hp
  simp only [Fragment.placed_one, Fragment.size_append] at hl hpe hset hs
  refine ⟨y, pc, i, e, hy, hyi, hye, r, l, s, loop, hr, hacc, hl, hpi, ?_, ?_, ?_⟩
  · rwa [Nat.add_assoc]
  · rwa [Nat.add_assoc, Nat.add_assoc, ← Nat.add_assoc 1]
  · rw [Nat.add_assoc pc, Nat.add_assoc pc, Nat.add_assoc pc]
    exact hs

/-! ### Steps -/

/-- An item is set only in a list, at an index that is there. -/
theorem Value.setItem_eq_ok {target index v changed : Value}
    (h : target.setItem index v = .ok changed) :
    ∃ items j, target = .list items ∧ index = .int j ∧ 0 ≤ j.toInt ∧ j.toInt < items.length ∧
      changed = .list (items.set j.toInt.toNat v) := by
  cases target with
  | list items =>
      cases index with
      | int j =>
          by_cases hj : 0 ≤ j.toInt ∧ j.toInt < items.length
          · rw [setItem, checkedIndex, if_pos hj] at h
            cases h
            exact ⟨items, j, rfl, rfl, hj.1, hj.2, rfl⟩
          · rw [setItem, checkedIndex, if_neg hj] at h
            cases h
      | _ => cases h
  | _ => cases h

namespace Machine

variable {facts : Facts} {m : Machine} {f : Frame} {callers : List Frame} {function y : Nat}
  {l s : Instr}

/-- A load pushes the value of the variable. -/
theorem step_load (hacc : facts.Accesses function y l s) (ho : m.outcome = none)
    (hfs : m.frames = f :: callers) (hi : m.fetch? f = some l) (hgo : m.step.outcome = none) :
    ∃ v, m.held? facts y = some v ∧
      m.step.frames = { f with pc := f.pc + 1, stack := v :: f.stack } :: callers := by
  obtain ⟨budget, i, hi', hexec⟩ := execute_of_step ho hfs hgo
  cases hi.symm.trans hi'
  generalize m.step = m' at hexec
  cases hacc with
  | @global k h =>
      cases hv : m.globals[k]? with
      | none =>
          simp only [execute, hv] at hexec
          cases hexec
      | some v =>
          simp only [execute, hv] at hexec
          cases hexec
          exact ⟨v, by rw [held?_global h, hv], rfl⟩
  | @frame k h _ =>
      cases hv : f.slots[k]? with
      | none =>
          simp only [execute, hv] at hexec
          cases hexec
      | some v =>
          simp only [execute, hv] at hexec
          cases hexec
          exact ⟨v, by rw [held?_frame h hfs, hv], rfl⟩

/-- A store gives the variable a value. -/
theorem step_store (hacc : facts.Accesses function y l s) (hsafe : m.Safe) (ho : m.outcome = none)
    (hfs : m.frames = f :: callers) (hi : m.fetch? f = some s) {v : Value} {stack : List Value}
    (hstack : f.stack = v :: stack) (hgo : m.step.outcome = none) :
    m.step.held? facts y = some v ∧ ∃ slots,
      m.step.frames = { f with pc := f.pc + 1, slots, stack } :: callers := by
  obtain ⟨budget, i, hi', hexec⟩ := execute_of_step ho hfs hgo
  cases hi.symm.trans hi'
  obtain ⟨f', callers', r, i, hfs', hr, hi', hin⟩ := hsafe.next ho
  cases hfs.symm.trans hfs'
  rw [fetch?, hr] at hi
  cases hi'.symm.trans hi
  generalize m.step = m' at hexec
  cases hacc with
  | @global k h =>
      have hk : k < m.globals.size := hin
      simp only [execute, hstack] at hexec
      cases hexec
      exact ⟨by rw [held?_global h, Array.getElem?_setIfInBounds_self_of_lt hk], _, rfl⟩
  | @frame k h _ =>
      have hk : k < f.slots.size := hin
      simp only [execute, hstack] at hexec
      cases hexec
      exact ⟨by rw [held?_frame h rfl, Array.getElem?_setIfInBounds_self_of_lt hk], _, rfl⟩

/-- The replacement of an item. -/
theorem step_setItem (ho : m.outcome = none) (hfs : m.frames = f :: callers)
    (hi : m.fetch? f = some .setItem) {u v w : Value} {stack : List Value}
    (hstack : f.stack = v :: w :: u :: stack) (hgo : m.step.outcome = none) :
    ∃ items j, u = .list items ∧ w = .int j ∧ 0 ≤ j.toInt ∧ j.toInt < items.length ∧
      m.step.frames = { f with
        pc := f.pc + 1, stack := .list (items.set j.toInt.toNat v) :: v :: stack } :: callers := by
  obtain ⟨budget, i, hi', hexec⟩ := execute_of_step ho hfs hgo
  cases hi.symm.trans hi'
  generalize m.step = m' at hexec
  cases hset : u.setItem w v with
  | error fault =>
      simp only [execute, hstack, hset] at hexec
      cases hexec
  | ok changed =>
      simp only [execute, hstack, hset] at hexec
      cases hexec
      obtain ⟨items, j, rfl, rfl, hlow, hhigh, rfl⟩ := Value.setItem_eq_ok hset
      exact ⟨items, j, rfl, rfl, hlow, hhigh, rfl⟩

/-! ### Runs -/

/-- A run from the activation `f` comes to the end of the code of `base[index] = value`: after `t`
steps it has evaluated the value, and two steps later the assignment is done. Then the variable
`y` has the list it had at the start, with one item replaced. -/
structure Overwrites (m : Machine) (facts : Facts) (y : Nat) (f : Frame) (callers : List Frame)
    (afterIndex afterValue t : Nat) (items : List Value) (j : Int64) (v : Value) : Prop where
  before : m.held? facts y = some (.list items)
  /-- The index is evaluated once the list was read, -/
  index : ∃ s ≤ t, m.Arrives callers afterIndex s ∧
    (m.run s).operands = .int j :: .list items :: f.stack
  /-- and the value after it. -/
  value : m.Arrives callers afterValue t ∧
    (m.run t).operands = v :: .int j :: .list items :: f.stack
  inRange : 0 ≤ j.toInt ∧ j.toInt < items.length
  after : (m.run (t + 2)).held? facts y = some (.list (items.set j.toInt.toNat v))
  /-- The value of an assignment is the one assigned. -/
  result : (m.run (t + 2)).operands = v :: f.stack

/-- The items of a variable that holds a list of two numbers. -/
def pair? (m : Machine) (facts : Facts) (y : Nat) : Option (Int64 × Int64) :=
  match m.held? facts y with
  | some (.list [.int v, .int w]) => some (v, w)
  | _ => none

/-- A pair is a list of two integers. -/
theorem held?_of_pair? {v w : Int64} (h : m.pair? facts y = some (v, w)) :
    m.held? facts y = some (.list [.int v, .int w]) := by
  unfold pair? at h
  split at h <;> cases h
  assumption

/-- The operands are those of the running frame. -/
theorem operands_eq (hfs : m.frames = f :: callers) : m.operands = f.stack := by
  rw [operands, hfs]
  rfl

end Machine

section Runs

variable {image : Image} {o : RunOptions} {start m : Machine} {x : GenerateContext}
  {base index value : Expr} {y pc k : Nat} {i e : Fragment} {f : Frame} {callers : List Frame}

/-- The last two instructions of an assignment: the item is replaced, and the list stored. Both
succeed, as the run arrives behind them, so the index is one of the list. -/
theorem Machine.Arrives.replaced (hs : Machine.start image o = .ok start)
    (hreach : Machine.Reachable start m) (hfs : m.frames = f :: callers) {r : Routine}
    (hr : image.routines[f.function]? = some r) (hset : r.code[f.pc]? = some .setItem)
    {l s : Instr} (hacc : x.facts.Accesses f.function y l s) (hstore : r.code[f.pc + 1]? = some s)
    {u v w : Value} {stack : List Value} (hstack : f.stack = v :: w :: u :: stack)
    (h : m.Arrives callers (f.pc + 2) k) :
    k = 2 ∧ ∃ items j, u = .list items ∧ w = .int j ∧ 0 ≤ j.toInt ∧ j.toInt < items.length ∧
      (m.run 2).held? x.facts y = some (.list (items.set j.toInt.toNat v)) ∧
      (m.run 2).operands = v :: stack := by
  have hfetch : ∀ {n : Machine} {g : Frame} {i : Instr}, Machine.Reachable start n →
      g.function = f.function → r.code[g.pc]? = some i → n.fetch? g = some i := by
    intro n g i hn hg hi
    rw [Machine.fetch?, (hn.sound hs).pools.image_eq, hg, hr, Option.bind_some, hi]
  have ho : m.outcome = none := Machine.outcome_of_le (Nat.zero_le k) h.running
  obtain ⟨k, rfl, hgo, h⟩ := h.step hfs (by omega)
  obtain ⟨items, j, rfl, rfl, hlow, hhigh, hfs₁⟩ :=
    Machine.step_setItem ho hfs (hfetch hreach rfl hset) hstack hgo
  have hreach₁ : Machine.Reachable start m.step := .step hreach
  obtain ⟨k, rfl, hgo₂, h⟩ := h.step hfs₁ (by simp)
  obtain ⟨hafter, slots, hfs₂⟩ := Machine.step_store hacc ((hreach₁.sound hs).safe (start_eq_ok hs).1)
    hgo hfs₁ (hfetch hreach₁ rfl hstore) rfl hgo₂
  -- The run has arrived.
  obtain rfl : k = 0 := by
    by_contra hk
    exact h.first 0 (Nat.pos_of_ne_zero hk) ⟨_, hfs₂, rfl⟩
  exact ⟨rfl, items, j, rfl, rfl, hlow, hhigh, hafter, Machine.operands_eq hfs₂⟩

/-- **Assignments.** What a run does in the code of an assignment to an item: it loads the list,
computes the index, computes the value, and only then replaces the item in the list that it had
loaded. -/
theorem Image.AssignsAt.overwrites (hsite : image.AssignsAt x base index value y pc i e)
    (hcaptures : x.facts.captureCount = image.captureCount)
    (hs : Machine.start image o = .ok start) (hreach : Machine.Reachable start m)
    (hfs : m.frames = f :: callers) (hf : f.function = x.function) (hpc : f.pc = pc)
    (h : m.Arrives callers (pc + 1 + i.size + e.size + 2) k) :
    ∃ t items j v, k = t + 2 ∧ m.Overwrites x.facts y f callers (pc + 1 + i.size)
      (pc + 1 + i.size + e.size) t items j v := by
  subst hpc
  obtain ⟨r, l, s, loop, hr, hacc, hl, hpi, hpe, hset, hstore⟩ := hsite.code
  rw [← hf] at hr hacc
  have hpushi := hcaptures ▸ hsite.index.of_produces (pushes_expr index)
  have hpushe := hcaptures ▸ hsite.value.of_produces (pushes_expr value)
  -- The load of the variable.
  have hfetch : m.fetch? f = some l := by
    rw [Machine.fetch?, (hreach.sound hs).pools.image_eq, hr, Option.bind_some, hl]
  have ho : m.outcome = none := Machine.outcome_of_le (Nat.zero_le k) h.running
  have hnot : ∀ {pc}, f.pc < pc → ¬ m.StandsAt callers pc := by
    rintro pc hlt ⟨g, hg, rfl⟩
    cases hfs.symm.trans hg
    exact Nat.lt_irrefl _ hlt
  obtain ⟨k, rfl, hgo, h⟩ := h.step hfs (by omega)
  obtain ⟨u, hu, hfs₁⟩ := Machine.step_load hacc ho hfs hfetch hgo
  have hreach₁ : Machine.Reachable start m.step := .step hreach
  -- The index and the value.
  obtain ⟨s, t, k, slots, slots', w, v, rfl, hst, hindex, hfsi, hvalue, hfse, h⟩ :=
    h.pushed hs hreach₁ hfs₁ hr hpushi hpushe (hsite.index.of_produces (produces_expr index)) hpi
      hpe (by simp)
  -- The replacement of the item.
  obtain ⟨rfl, items, j, rfl, rfl, hlow, hhigh, hafter, hresult⟩ :=
    h.replaced hs (hreach₁.run t) hfse hr hset hacc hstore rfl
  have hlast : m.run (t + 1 + 2) = (m.step.run t).run 2 := by
    rw [Nat.add_right_comm, Machine.run, Machine.run_add]
  refine ⟨t + 1, items, j, v, rfl, hu, ⟨s + 1, Nat.succ_le_succ hst, hindex.of_step (hnot ?_),
    Machine.operands_eq hfsi⟩, ⟨hvalue.of_step (hnot ?_), Machine.operands_eq hfse⟩,
    ⟨hlow, hhigh⟩, ?_, ?_⟩
  · omega
  · omega
  · rw [hlast]
    exact hafter
  · rw [hlast]
    exact hresult

end Runs

/-! ### Texts -/

namespace CompileOptions

variable {o : CompileOptions} {text : List Char} {a : Analyzed}

/-- The machine of a text that is not optimized runs the code of the analyzed tree. -/
theorem assembled_of_prepare {r : RunOptions} {start : Machine} (ho : o.optimize = false)
    (ha : o.analyze text = .ok a) (hm : o.prepare r text = .ok start) :
    start.image.Assembled a ∧ Machine.start start.image r = .ok start := by
  obtain ⟨image, hg, hs⟩ := prepare_of_analyze ho ha hm
  obtain rfl : start.image = image :=
    ((.start : Machine.Reachable start start).sound hs).pools.image_eq
  exact ⟨(Image.generated_of_generate hg).toAssembled, hs⟩

/-- **Assignments to items.** Take a text that analysis accepts and that is compiled without
optimizing. Every assignment `base[index] = value` in the body of a function has its code in the
routine of the function. Take any run of the text that comes to the start of this code and then to
its end. The variable held a list at the start; the index was evaluated, and the value after it;
and at the end the variable holds the list from the start, with the item at the index replaced by
the value. -/
theorem assignment_overwrites {r : RunOptions} {start : Machine} (ho : o.optimize = false)
    (ha : o.analyze text = .ok a) (hm : o.prepare r text = .ok start) {f : Nat} {body : Block}
    (hb : a.bodies.lookup f = some body) {n n' : Note} {base index value : Expr}
    (he : .assign n (.index n' base index) value ∈ body.expressions) :
    (∃ y pc i e, start.image.AssignsAt ⟨a.facts, f, true⟩ base index value y pc i e) ∧
      ∀ y pc i e, start.image.AssignsAt ⟨a.facts, f, true⟩ base index value y pc i e →
        ∀ m frame callers k, Machine.Reachable start m → m.frames = frame :: callers →
          frame.function = f → frame.pc = pc →
          m.Arrives callers (pc + 1 + i.size + e.size + 2) k →
            ∃ t items j v, k = t + 2 ∧ m.Overwrites a.facts y frame callers (pc + 1 + i.size)
              (pc + 1 + i.size + e.size) t items j v := by
  obtain ⟨hassembled, hs⟩ := assembled_of_prepare ho ha hm
  have hfits := ((analyze_accepted ha).1.accepts_of_lookup hb).fits
  refine ⟨hassembled.exists_assignsAt hb hfits he, ?_⟩
  intro y pc i e hsite m frame callers k hreach hfs hf hpc h
  exact hsite.overwrites hassembled.captureCount_eq hs hreach hfs hf hpc h

/-- The value that is assigned to the first item is that of a function that assigns the second
one. -/
def callsWriter : List Char :=
  ("let x = [1, 2]; fn f() -> int \x7b x[1] = 9; return 5; \x7d x[0] = f(); print(x)").toList

/-- The code of the program itself. -/
def callsWriterCode : List Instr :=
  [.loadConst 0, .loadConst 1, .buildList 2, .storeGlobal 0, .loadGlobal 0, .loadConst 2,
    .loadConst 3, .call 0, .setItem, .storeGlobal 0, .pop, .loadConst 4, .loadGlobal 0, .call 1, .ret]

set_option synthInstance.maxSize 1000 in
/-- What the run of `callsWriter` does: the offsets of its calls and stores, and the list before and
after the assignment. -/
theorem record_callsWriter :
    ((analyze { optimize := false } callsWriter).toOption.bind fun a =>
      (prepare { optimize := false } {} callsWriter).toOption.map fun start =>
        ((start.image.routines[0]?.map fun r => r.code.toList,
          (start.run 4).frames.map fun f => (f.function, f.pc)),
          (decide ((start.run 4).Arrives [] 8 12), decide ((start.run 4).Arrives [] 10 14)),
          a.program.root.roots[1]?.bind fun e => match e, (start.run 16).operands with
            | .assign _ (.index _ base _) _, .int v :: .int j :: _ =>
              base.note.symbol.map fun y =>
                (v, j, (start.run 16).pair? a.facts y, (start.run 18).pair? a.facts y)
            | _, _ => none)) =
      some ((some callsWriterCode, [(0, 4)]), (true, true), some (5, 0, some (1, 9), some (5, 2))) := by
  rw [Grammar.standard_eq]
  decide +kernel

/-- There is one assignment to an item in this code. -/
theorem callsWriter_site {image : Image} {x : GenerateContext} {base index value : Expr}
    {y pc : Nat} {i e : Fragment} {r : Routine} (hr : image.routines[x.function]? = some r)
    (hcode : r.code.toList = callsWriterCode) (h : image.AssignsAt x base index value y pc i e) :
    pc = 4 ∧ pc + 1 + i.size + e.size = 8 := by
  obtain ⟨r', l, s, loop, hr', hacc, hl, -, -, hset, -⟩ := h.code
  obtain rfl : r = r' := Option.some.inj (hr.symm.trans hr')
  rw [← Array.getElem?_toList, hcode] at hl hset
  have honly : ∀ n < 15, callsWriterCode[n]? = some .setItem → n = 8 := by decide
  have hend := honly _ (List.getElem?_eq_some_iff.mp hset).1 hset
  have hlt : pc < 8 := by omega
  refine ⟨?_, hend⟩
  cases hacc <;> interval_cases pc <;> simp [callsWriterCode] at hl ⊢

/-- The run of the program comes to the assignment, and through it. The call on its right side
writes the variable meanwhile, and the assignment puts the list that it had loaded in its place. -/
theorem callsWriter_arrives :
    ∃ a start n n' base index value y pc i e f, analyze { optimize := false } callsWriter = .ok a ∧
      prepare { optimize := false } {} callsWriter = .ok start ∧
      a.bodies.lookup 0 = some a.program.root ∧
      .assign n (.index n' base index) value ∈ a.program.root.expressions ∧
      start.image.AssignsAt ⟨a.facts, 0, true⟩ base index value y pc i e ∧
      (start.run 4).frames = [f] ∧ f.function = 0 ∧ f.pc = pc ∧
      (start.run 4).Arrives [] (pc + 1 + i.size + e.size) 12 ∧
      (start.run 4).Arrives [] (pc + 1 + i.size + e.size + 2) 14 ∧
      (∃ rest, (start.run 16).operands = .int 5 :: .int 0 :: rest) ∧
      (start.run 16).held? a.facts y = some (.list [.int 1, .int 9]) ∧
      (start.run 18).held? a.facts y = some (.list [.int 5, .int 2]) := by
  obtain ⟨a, start, ha, hm, h⟩ := exists_of_toOption_eq_some record_callsWriter
  simp only [Prod.mk.injEq, Option.map_eq_some_iff, decide_eq_true_eq] at h
  obtain ⟨⟨⟨r, hr, hcode⟩, hframes⟩, ⟨hvalue, hend⟩, h⟩ := h
  obtain ⟨e, he, h⟩ := Option.bind_eq_some_iff.mp h
  split at h
  · next n n' base index value v j rest hops =>
      obtain ⟨y, hy, h⟩ := Option.map_eq_some_iff.mp h
      simp only [Prod.mk.injEq] at h
      obtain ⟨rfl, rfl, hbefore, hafter⟩ := h
      have hassembled := (assembled_of_prepare rfl ha hm).1
      have hlookup : a.bodies.lookup 0 = some a.program.root := rfl
      have hexpr : .assign n (.index n' base index) value ∈ a.program.root.expressions :=
        List.mem_flatMap.mpr ⟨_, List.mem_of_getElem? he, Expr.mem_parts_self _⟩
      have hfits := ((analyze_accepted ha).1.accepts_of_lookup hlookup).fits
      obtain ⟨y', pc, i, e, hsite⟩ := hassembled.exists_assignsAt hlookup hfits hexpr
      obtain rfl : y = y' := Option.some.inj (hy.symm.trans hsite.symbol)
      obtain ⟨rfl, hpc⟩ := callsWriter_site hr hcode hsite
      obtain ⟨f, hfs, hf⟩ := List.map_eq_singleton_iff.mp hframes
      rw [← hpc] at hvalue
      refine ⟨a, start, n, n', base, index, value, y, 4, i, e, f, ha, hm, hlookup, hexpr, hsite, hfs,
        congrArg Prod.fst hf, congrArg Prod.snd hf, hvalue, ?_, ⟨rest, hops⟩,
        Machine.held?_of_pair? hbefore, Machine.held?_of_pair? hafter⟩
      rw [hpc]
      exact hend
  · cases h

/-- The assignment of `callsWriter` replaces the first item of the list that it has read. -/
theorem callsWriter_overwrites :
    ∃ a start m y f p q items j v, analyze { optimize := false } callsWriter = .ok a ∧
      prepare { optimize := false } {} callsWriter = .ok start ∧ Machine.Reachable start m ∧
      m.Overwrites a.facts y f [] p q 12 items j v := by
  obtain ⟨a, start, n, n', base, index, value, y, pc, i, e, f, ha, hm, hlookup, hexpr, hsite, hfs, hf,
    hpc, -, hend, -⟩ := callsWriter_arrives
  have hreach : Machine.Reachable start (start.run 4) := Machine.reachable_run 4
  obtain ⟨t, items, j, v, ht, h⟩ := (assignment_overwrites rfl ha hm hlookup hexpr).2 y pc i e hsite
    (start.run 4) f [] 14 hreach hfs hf hpc hend
  obtain rfl : t = 12 := by omega
  exact ⟨a, start, _, y, f, _, _, items, j, v, ha, hm, hreach, h⟩

/-- An assignment loses an update. Once the index and the value are evaluated, the variable holds
the list that the function has changed; at the end it does not hold this list with one item
replaced. -/
theorem callsWriter_loses :
    ∃ a start n n' base index value y pc i e f, analyze { optimize := false } callsWriter = .ok a ∧
      prepare { optimize := false } {} callsWriter = .ok start ∧
      a.bodies.lookup 0 = some a.program.root ∧
      .assign n (.index n' base index) value ∈ a.program.root.expressions ∧
      start.image.AssignsAt ⟨a.facts, 0, true⟩ base index value y pc i e ∧
      (start.run 4).frames = [f] ∧ f.function = 0 ∧ f.pc = pc ∧
      (start.run 4).Arrives [] (pc + 1 + i.size + e.size) 12 ∧
      (start.run 4).Arrives [] (pc + 1 + i.size + e.size + 2) 14 ∧
      ∃ items v j rest, (start.run 16).held? a.facts y = some (.list items) ∧
        (start.run 16).operands = v :: .int j :: rest ∧
        (start.run 18).held? a.facts y ≠ some (.list (items.set j.toInt.toNat v)) := by
  obtain ⟨a, start, n, n', base, index, value, y, pc, i, e, f, ha, hm, hlookup, hexpr, hsite, hfs, hf,
    hpc, hvalue, hend, ⟨rest, hops⟩, hbefore, hafter⟩ := callsWriter_arrives
  refine ⟨a, start, n, n', base, index, value, y, pc, i, e, f, ha, hm, hlookup, hexpr, hsite, hfs, hf,
    hpc, hvalue, hend, _, _, _, rest, hbefore, hops, ?_⟩
  rw [hafter]
  intro h
  simp at h

end CompileOptions

end Parlance
