import Parlance.Proofs.Analysis.Scoping
import Parlance.Proofs.Code.Heights
import Parlance.Proofs.Code.Verify

/-!
# Generated code refers to what is there

The instructions of a scoped program refer only to constants, slots, captures and functions that
are there (`Fragment.Known`). Offsets are left out: that jumps stay in the routine and that control
does not run off its end is part of the stack discipline.

Nothing is said about types. So this holds as well of what the optimizer makes of a program, and of
code that is generated without leaving loads and copies out.

## Main results

* `Generate.admits_expr`, `Generate.admits_stmt`: the induction over trees.
* `Image.verifies_of_assemble`: an image of a scoped program passes verification.
-/

namespace Parlance

/-! ### Known instructions -/

/-- The operand of an instruction of a function is there, unless it is an offset. The pool has
`consts` constants. -/
def Instr.Known (facts : Facts) (function consts : Nat) : Instr → Prop
  | .loadConst i => i < consts
  | .loadLocal i | .storeLocal i => i < (facts.info function).slots
  | .loadGlobal i | .storeGlobal i => i < facts.globals
  | .loadCapture i => i < (facts.captures function).length
  | .closure f => f < facts.functions.size
  | _ => True

/-- A function of the pool is there and captures nothing. -/
def Const.Known (facts : Facts) : Const → Prop
  | .function f => f < facts.functions.size ∧ facts.captures f = []
  | _ => True

/-- The operands of the instructions of a fragment are there. -/
def Fragment.Known (facts : Facts) (function consts : Nat) (a : Fragment) : Prop :=
  ∀ offset loop, ∀ i ∈ a.place offset loop, i.Known facts function consts

/-- The operands of the instructions of a routine are there. -/
def Routine.Known (facts : Facts) (function consts : Nat) (r : Routine) : Prop :=
  ∀ (pc : Nat) (i : Instr), r.code[pc]? = some i → i.Known facts function consts

namespace Fragment

variable {facts : Facts} {function consts : Nat} {a b test : Fragment}

/-- No code has no operands. -/
theorem known_empty : empty.Known facts function consts := by
  intro offset loop i hi
  cases hi

/-- A single instruction with a known operand is known. -/
theorem known_one {i : Instr} (h : i.Known facts function consts) :
    (one i).Known facts function consts := by
  intro offset loop j hj
  rwa [List.mem_singleton.mp hj]

/-- A `break` has an offset as its operand, which counts elsewhere. -/
theorem known_breakLoop : breakLoop.Known facts function consts := by
  intro offset loop j hj
  rw [List.mem_singleton.mp hj]
  trivial

/-- A `continue` has an offset as its operand, which counts elsewhere. -/
theorem known_continueLoop : continueLoop.Known facts function consts := by
  intro offset loop j hj
  rw [List.mem_singleton.mp hj]
  trivial

namespace Known

/-- Known code behind known code is known. -/
theorem append (ha : a.Known facts function consts) (hb : b.Known facts function consts) :
    (a ++ b).Known facts function consts := by
  intro offset loop i hi
  rcases List.mem_append.mp hi with hi | hi
  · exact ha _ _ i hi
  · exact hb _ _ i hi

/-- Known code with a jump over its second part is known. -/
theorem skipping {jump : Nat → Instr} (hj : ∀ t, (jump t).Known facts function consts)
    (ha : a.Known facts function consts) (hb : b.Known facts function consts) :
    (Fragment.skipping jump a b).Known facts function consts := by
  intro offset loop i hi
  simp only [Fragment.skipping, List.mem_append, List.mem_cons] at hi
  rcases hi with hi | rfl | hi
  · exact ha _ _ i hi
  · exact hj _
  · exact hb _ _ i hi

/-- A conditional with two branches is known if all its parts are. -/
theorem choice (ht : test.Known facts function consts) (ha : a.Known facts function consts)
    (hb : b.Known facts function consts) :
    (Fragment.choice test a b).Known facts function consts := by
  intro offset loop i hi
  simp only [Fragment.choice, List.append_assoc, List.cons_append, List.mem_append,
    List.mem_cons] at hi
  rcases hi with hi | rfl | hi | rfl | hi
  · exact ht _ _ i hi
  · trivial
  · exact ha _ _ i hi
  · trivial
  · exact hb _ _ i hi

/-- A loop without a test is known if its body is. -/
theorem forever (ha : a.Known facts function consts) :
    (Fragment.forever a).Known facts function consts := by
  intro offset loop i hi
  simp only [Fragment.forever, List.mem_append, List.mem_singleton] at hi
  rcases hi with hi | rfl
  · exact ha _ _ i hi
  · trivial

/-- A loop with a test is known if the test and the body are. -/
theorem whileTrue (ht : test.Known facts function consts) (ha : a.Known facts function consts) :
    (Fragment.whileTrue test a).Known facts function consts := by
  intro offset loop i hi
  simp only [Fragment.whileTrue, List.append_assoc, List.cons_append, List.mem_append,
    List.mem_cons, List.mem_nil_iff, or_false] at hi
  rcases hi with hi | rfl | hi | rfl
  · exact ht _ _ i hi
  · trivial
  · exact ha _ _ i hi
  · trivial

end Known

end Fragment

/-! ### Places -/

namespace Facts

/-- The slot of a symbol is there, in the frames of a function or among the globals. -/
structure Lodges (facts : Facts) (function symbol : Nat) : Prop where
  global_lt : ∀ k, (facts.symbol symbol).storage = .global k → k < facts.globals
  slot_lt : ∀ k, (facts.symbol symbol).storage = .frame k → k < (facts.info function).slots

/-- The frames of a function have room for the variables that are declared. -/
def Roomy (facts : Facts) (function : Nat) (live : List Nat) : Prop :=
  ∀ y ∈ live, ∀ k, (facts.symbol y).storage = .frame k → k < (facts.info function).slots

/-- What symbols stand for is there: global slots, and functions without captures. -/
structure Stocked (facts : Facts) : Prop where
  global_lt : ∀ y < facts.symbols.size, ∀ k, (facts.symbol y).storage = .global k →
    k < facts.globals
  function : ∀ y < facts.symbols.size, ∀ f, (facts.symbol y).storage = .function f →
    f < facts.functions.size ∧ facts.captures f = []

/-- What analysis keeps of its facts includes what code generation looks up. -/
theorem Coherent.stocked {facts : Facts} (h : facts.Coherent) : facts.Stocked :=
  ⟨h.global_lt, fun y hy f hs => ⟨(h.function y hy f hs).1, h.named y hy f hs⟩⟩

variable {facts : Facts} {function y : Nat} {live : List Nat}

/-- A variable that may be written has a slot in the running frame or among the globals. -/
theorem Writable.lodges (h : facts.Writable function live y) (hc : facts.Stocked)
    (hroom : facts.Roomy function live) : facts.Lodges function y := by
  obtain ⟨hy, h⟩ := h
  refine ⟨hc.global_lt y hy, fun k hk => ?_⟩
  rw [hk] at h
  exact hroom y h.2 k hk

/-- A variable that may be declared has its slot. -/
theorem Declarable.lodges (h : facts.Declarable function live y) (hc : facts.Stocked) :
    facts.Lodges function y :=
  ⟨hc.global_lt y h.lt, h.slot_lt⟩

/-- There is room for what a statement declares. -/
theorem Roomy.declared (hroom : facts.Roomy function live) {s : Stmt}
    (h : s.Scoped facts function live) : facts.Roomy function (s.declared ++ live) := by
  intro y hy k hk
  rcases List.mem_append.mp hy with hy | hy
  · cases s with
    | letVar n name annotated init => exact (h.2 y (Option.mem_toList.mp hy)).slot_lt k hk
    | _ => cases hy
  · exact hroom y hy k hk

/-- There is room for what statements declare, one after another. -/
theorem Roomy.liveAfter : ∀ {ss : List Stmt} {live : List Nat}, facts.Roomy function live →
    Stmt.AllScoped facts function live ss → facts.Roomy function (Stmt.liveAfter live ss)
  | [], _, hroom, _ => hroom
  | _ :: _, _, hroom, h => (hroom.declared h.1).liveAfter h.2

end Facts

namespace Generate

/-! ### Admission -/

/-- A part of code generation adds only known constants to the pool, and what it gives has a
property, for every pool that is at least as large. -/
def Admits {α : Type} (facts : Facts) (m : Generate α) (P : Nat → α → Prop) : Prop :=
  ∀ consts a after, (∀ c ∈ consts, c.Known facts) → m consts = .ok (a, after) →
    consts.size ≤ after.size ∧ (∀ c ∈ after, c.Known facts) ∧ ∀ n, after.size ≤ n → P n a

section Rules

variable {α β : Type} {facts : Facts} {P : Nat → α → Prop} {Q : Nat → β → Prop}

/-- A result that is there already adds no constant. -/
theorem admits_pure {a : α} (h : ∀ n, P n a) : Admits facts (pure a : Generate α) P := by
  intro consts a after hc he
  cases he
  exact ⟨Nat.le_refl _, hc, fun n _ => h n⟩

/-- An unresolved name stops the generation, so nothing is added. -/
theorem admits_unresolved {range : Range} : Admits facts (unresolved range : Generate α) P := by
  intro consts a after _ he
  cases he

/-- Two parts of code generation add known constants together. The pool of the second one is larger,
which is why the property is asked for all larger pools. -/
theorem Admits.bind {m : Generate α} {f : α → Generate β} (hm : Admits facts m P)
    (hf : ∀ a, Admits facts (f a) fun n b => P n a → Q n b) : Admits facts (m >>= f) Q := by
  intro consts b after hc he
  obtain ⟨a, mid, ha, hb⟩ := bind_eq_ok he
  obtain ⟨hle, hmid, hP⟩ := hm consts a mid hc ha
  obtain ⟨hle', hafter, hQ⟩ := hf a mid b after hmid hb
  exact ⟨Nat.le_trans hle hle', hafter, fun n hn => hQ n hn (hP n (Nat.le_trans hle' hn))⟩

end Rules

variable {x : GenerateContext} {live : List Nat}

/-- A known constant is loaded from the index where it is put in the pool. -/
theorem admits_loadConst {c : Const} (hc : c.Known x.facts) :
    Admits x.facts (loadConst c) (Fragment.Known x.facts x.function) := by
  intro consts a after hconsts he
  unfold loadConst at he
  obtain ⟨found, mid, hget, he⟩ := bind_eq_ok he
  cases hget
  cases hn : consts.findIdx? (Const.same c) with
  | some i =>
      rw [hn] at he
      cases he
      obtain ⟨hi, -⟩ := Array.findIdx?_eq_some_iff_getElem.mp hn
      exact ⟨Nat.le_refl _, hconsts,
        fun n hle => Fragment.known_one (Nat.lt_of_lt_of_le hi hle)⟩
  | none =>
      rw [hn] at he
      obtain ⟨u, mid, hset, he⟩ := bind_eq_ok he
      cases hset
      cases he
      refine ⟨by simp, fun d hd => ?_, fun n hle => ?_⟩
      · rcases Array.mem_push.mp hd with hd | rfl
        · exact hconsts d hd
        · exact hc
      · rw [Array.size_push] at hle
        exact Fragment.known_one hle

/-- A single known instruction adds no constant. -/
theorem admits_one {i : Instr} (h : ∀ n, i.Known x.facts x.function n) :
    Admits x.facts (pure (.one i)) (Fragment.Known x.facts x.function) :=
  admits_pure fun n => Fragment.known_one (h n)

/-- A variable that the function has is loaded from a slot in its frame or from its captures, and
both are there. -/
theorem admits_loadVariable {y slot : Nat} {range : Range}
    (hs : (x.facts.symbol y).storage = .frame slot) (hroom : x.facts.Roomy x.function live)
    (h : x.facts.Has x.function live y) :
    Admits x.facts (loadVariable x y slot (x.facts.symbol y).function range)
      (Fragment.Known x.facts x.function) := by
  unfold Facts.Has at h
  unfold loadVariable
  split at h
  · next ho =>
      rw [if_pos ho]
      exact admits_one fun n => hroom y h slot hs
  · next ho =>
      rw [if_neg ho]
      split
      · next i hi => exact admits_one fun n => (List.idxOf?_eq_some_iff.mp hi).1
      · exact admits_unresolved

/-- A name that may be read is loaded by a known instruction, whatever it stands for. -/
theorem admits_load {n : Note} (hc : x.facts.Stocked) (hroom : x.facts.Roomy x.function live)
    (h : ∀ y, n.symbol = some y → x.facts.Readable x.function live y) :
    Admits x.facts (load x n) (Fragment.Known x.facts x.function) := by
  unfold load
  cases hn : n.symbol with
  | none => exact admits_unresolved
  | some y =>
      obtain ⟨hy, h⟩ := h y hn
      dsimp only
      cases hs : (x.facts.symbol y).storage with
      | global k => exact admits_one fun n => hc.global_lt y hy k hs
      | frame k =>
          rw [hs] at h
          exact admits_loadVariable hs hroom h
      | function f => exact admits_loadConst (hc.function y hy f hs)
      | builtin b => exact admits_loadConst trivial

/-- A name whose variable has a slot is stored by a known instruction. -/
theorem admits_store {n : Note} (h : ∀ y, n.symbol = some y → x.facts.Lodges x.function y) :
    Admits x.facts (store x n) (Fragment.Known x.facts x.function) := by
  unfold store
  cases hn : n.symbol with
  | none => exact admits_unresolved
  | some y =>
      dsimp only
      cases hs : (x.facts.symbol y).storage with
      | global k => exact admits_one fun _ => (h y hn).global_lt k hs
      | frame k =>
          dsimp only
          split
          · exact admits_one fun _ => (h y hn).slot_lt k hs
          · exact admits_unresolved
      | _ => exact admits_unresolved

/-- The captured variables are loaded by known instructions if the function has them. -/
theorem admits_loadAllCaptured (range : Range) (hroom : x.facts.Roomy x.function live) :
    ∀ captures : List Nat, (∀ y ∈ captures, x.facts.Has x.function live y) →
      Admits x.facts (loadAllCaptured x range captures) (Fragment.Known x.facts x.function)
  | [], _ => admits_pure fun _ => Fragment.known_empty
  | y :: ys, h => by
      have hy : Admits x.facts (loadCaptured x range y) (Fragment.Known x.facts x.function) := by
        unfold loadCaptured
        split
        · next k hk => exact admits_loadVariable hk hroom (h y List.mem_cons_self)
        · exact admits_unresolved
      have hys := admits_loadAllCaptured range hroom ys fun z hz => h z (List.mem_cons_of_mem _ hz)
      exact hy.bind fun a => hys.bind fun b => admits_pure fun n hb ha => ha.append hb

/-- A lambda that the function makes refers to a routine that is there. -/
theorem admits_lambda {n : Note} (hroom : x.facts.Roomy x.function live)
    (h : ∀ f, n.function = some f → x.facts.Makes x.function live f) :
    Admits x.facts (lambda x n) (Fragment.Known x.facts x.function) := by
  unfold lambda
  cases hn : n.function with
  | none => exact admits_unresolved
  | some f =>
      have hmakes := h f hn
      dsimp only
      split
      · next hnil => exact admits_loadConst ⟨hmakes.lt, hnil⟩
      · exact (admits_loadAllCaptured n.range hroom _ hmakes.has).bind fun a =>
          admits_pure fun n ha => ha.append (Fragment.known_one hmakes.lt)

/-! ### Trees -/

mutual

/-- **Expressions.** What the code of an expression in scope names exists: its slots, captured
values, globals, constants and functions. -/
theorem admits_expr (hc : x.facts.Stocked) (hroom : x.facts.Roomy x.function live) : ∀ e : Expr,
    e.Scoped x.facts x.function live →
    Admits x.facts (expr x e) (Fragment.Known x.facts x.function)
  | .lit _ v, _ => by
      rw [expr]
      refine admits_loadConst ?_
      cases v <;> trivial
  | .ident n _, hs => by
      rw [expr]
      exact admits_load hc hroom hs
  | .unary _ _ e, hs => by
      rw [expr]
      exact (admits_expr hc hroom e hs).bind fun a =>
        admits_pure fun n ha => ha.append (Fragment.known_one trivial)
  | .binary _ op l r, hs => by
      rw [expr]
      refine (admits_expr hc hroom l hs.1).bind fun a =>
        (admits_expr hc hroom r hs.2).bind fun b => ?_
      split
      · exact admits_pure fun n hb ha => (ha.append hb).append (Fragment.known_one trivial)
      · next logical _ =>
          refine admits_pure fun n hb ha => .skipping (fun t => ?_) ha hb
          cases logical <;> trivial
  | .assign _ (.ident n _) value, hs => by
      rw [expr]
      · exact (admits_expr hc hroom value hs.1).bind fun a =>
          (admits_store fun y hy => (hs.2 y hy).lodges hc hroom).bind fun b =>
            admits_pure fun n hb ha =>
              (ha.append (Fragment.known_one (i := .copy) trivial)).append hb
      · simp
  | .assign _ (.index _ (.ident n _) i) value, hs => by
      rw [expr]
      exact (admits_load hc hroom fun y hy => (hs.2.2 y hy).readable).bind fun a =>
        (admits_expr hc hroom i hs.1).bind fun b =>
          (admits_expr hc hroom value hs.2.1).bind fun c =>
            (admits_store fun y hy => (hs.2.2 y hy).lodges hc hroom).bind fun d =>
              admits_pure fun n hd hv hb ha => (((ha.append hb).append hv).append
                (Fragment.known_one (i := .setItem) trivial)).append hd
  | .call _ callee args, hs => by
      rw [expr]
      exact (admits_expr hc hroom callee hs.1).bind fun a =>
        (admits_exprs hc hroom args hs.2).bind fun b => admits_pure fun n hb ha =>
          (ha.append hb).append (Fragment.known_one trivial)
  | .index _ target i, hs => by
      rw [expr]
      exact (admits_expr hc hroom target hs.1).bind fun a =>
        (admits_expr hc hroom i hs.2).bind fun b => admits_pure fun n hb ha =>
          (ha.append hb).append (Fragment.known_one trivial)
  | .list _ items, hs => by
      rw [expr]
      exact (admits_exprs hc hroom items hs).bind fun a =>
        admits_pure fun n ha => ha.append (Fragment.known_one trivial)
  | .cast _ e _, hs => by
      rw [expr]
      exact (admits_expr hc hroom e hs).bind fun a =>
        admits_pure fun n ha => ha.append (Fragment.known_one trivial)
  | .lambda n _ _, hs => by
      rw [expr]
      exact admits_lambda hroom hs

/-- The code of expressions in scope is known. -/
theorem admits_exprs (hc : x.facts.Stocked) (hroom : x.facts.Roomy x.function live) :
    ∀ es : List Expr, Expr.AllScoped x.facts x.function live es →
      Admits x.facts (exprs x es) (Fragment.Known x.facts x.function)
  | [], _ => by
      rw [exprs]
      exact admits_pure fun _ => Fragment.known_empty
  | e :: es, hs => by
      rw [exprs]
      exact (admits_expr hc hroom e hs.1).bind fun a =>
        (admits_exprs hc hroom es hs.2).bind fun b => admits_pure fun n hb ha => ha.append hb

end

/-- The code of an expression whose value is dropped is known. -/
theorem admits_discard (hc : x.facts.Stocked) (hroom : x.facts.Roomy x.function live) (e : Expr)
    (hs : e.Scoped x.facts x.function live) :
    Admits x.facts (discard x e) (Fragment.Known x.facts x.function) := by
  unfold discard
  split
  · next target value hassigned =>
      obtain ⟨n, rfl, hne⟩ := Expr.assigned?_eq_some hassigned
      obtain ⟨n', name, rfl⟩ := hs.eq_ident hne
      refine (admits_expr hc hroom _ hs.1).bind fun a =>
        (admits_store fun y hy => (hs.2 y hy).lodges hc hroom).bind fun b =>
          admits_pure fun n hb ha => ?_
      split
      · exact ha.append hb
      · exact ((ha.append (Fragment.known_one (i := .copy) trivial)).append hb).append
          (Fragment.known_one trivial)
  · refine (admits_expr hc hroom e hs).bind fun a => admits_pure fun n ha => ?_
    split
    · exact Fragment.known_empty
    · exact ha.append (Fragment.known_one trivial)

mutual

/-- **Statements.** What the code of a statement in scope names exists. The slots of the variables
it declares are below the number of slots of its function. -/
theorem admits_stmt (hc : x.facts.Stocked) {live : List Nat}
    (hroom : x.facts.Roomy x.function live) : ∀ (inLoop : Bool) (s : Stmt),
    s.Scoped x.facts x.function live →
    Admits x.facts (stmt x inLoop s) (Fragment.Known x.facts x.function)
  | inLoop, .block b, hs => by
      rw [stmt]
      exact admits_block hc hroom inLoop b hs
  | _, .letVar n _ _ init, hs => by
      rw [stmt]
      exact (admits_expr hc hroom init hs.1).bind fun a =>
        (admits_store fun y hy => (hs.2 y hy).lodges hc).bind fun b =>
          admits_pure fun n hb ha => ha.append hb
  | _, .fnDecl _ _ _ _, _ => by
      rw [stmt]
      exact admits_pure fun _ => Fragment.known_empty
  | _, .ret _ none, _ => by
      rw [stmt, result]
      exact (admits_loadConst (c := .unit) trivial).bind fun a =>
        admits_pure fun n ha => ha.append (Fragment.known_one trivial)
  | _, .ret _ (some e), hs => by
      rw [stmt, result]
      exact (admits_expr hc hroom e hs).bind fun a =>
        admits_pure fun n ha => ha.append (Fragment.known_one trivial)
  | inLoop, .cond _ test yes none, hs => by
      rw [stmt]
      exact (admits_expr hc hroom test hs.1).bind fun a =>
        (admits_block hc hroom inLoop yes hs.2).bind fun b =>
          admits_pure fun n hb ha => .skipping (fun _ => trivial) ha hb
  | inLoop, .cond _ test yes (some no), hs => by
      rw [stmt]
      exact (admits_expr hc hroom test hs.1).bind fun a =>
        (admits_block hc hroom inLoop yes hs.2.1).bind fun b =>
          (admits_stmt hc hroom inLoop no hs.2.2).bind fun c =>
            admits_pure fun n hc hb ha => .choice ha hb hc
  | _, .whileLoop _ test body, hs => by
      rw [stmt]
      exact (admits_expr hc hroom test hs.1).bind fun a =>
        (admits_block hc hroom true body hs.2).bind fun b =>
          admits_pure fun n hb ha => .whileTrue ha hb
  | _, .loop _ body, hs => by
      rw [stmt]
      exact (admits_block hc hroom true body hs).bind fun a => admits_pure fun n ha => .forever ha
  | inLoop, .breakLoop _, _ => by
      rw [stmt]
      split
      · exact admits_pure fun _ => Fragment.known_breakLoop
      · exact admits_unresolved
  | inLoop, .continueLoop _, _ => by
      rw [stmt]
      split
      · exact admits_pure fun _ => Fragment.known_continueLoop
      · exact admits_unresolved
  | _, .expr _ e, hs => by
      rw [stmt]
      exact admits_discard hc hroom e hs

/-- **Statements.** The code of statements in scope is known. Each of them may rely on what those
before it declare. -/
theorem admits_stmts (hc : x.facts.Stocked) {live : List Nat}
    (hroom : x.facts.Roomy x.function live) : ∀ (inLoop : Bool) (ss : List Stmt),
    Stmt.AllScoped x.facts x.function live ss →
    Admits x.facts (stmts x inLoop ss) (Fragment.Known x.facts x.function)
  | _, [], _ => by
      rw [stmts]
      exact admits_pure fun _ => Fragment.known_empty
  | inLoop, s :: ss, hs => by
      rw [stmts]
      exact (admits_stmt hc hroom inLoop s hs.1).bind fun a =>
        (admits_stmts hc (hroom.declared hs.1) inLoop ss hs.2).bind fun b =>
          admits_pure fun n hb ha => ha.append hb

/-- The code of a block in scope is known. -/
theorem admits_block (hc : x.facts.Stocked) {live : List Nat}
    (hroom : x.facts.Roomy x.function live) : ∀ (inLoop : Bool) (b : Block),
    b.Scoped x.facts x.function live →
    Admits x.facts (block x inLoop b) (Fragment.Known x.facts x.function)
  | inLoop, .mk _ ss none, hs => by
      rw [block]
      exact admits_stmts hc hroom inLoop ss hs
  | inLoop, .mk _ ss (some e), hs => by
      rw [block]
      exact (admits_stmts hc hroom inLoop ss hs.1).bind fun a =>
        (admits_discard hc (hroom.liveAfter hs.1) e hs.2).bind fun b =>
          admits_pure fun n hb ha => ha.append hb

end

/-- **Functions.** -/
theorem admits_body (hc : x.facts.Stocked) {b : Block} (h : x.facts.Fits x.function b) :
    Admits x.facts (body x b) (Fragment.Known x.facts x.function) := by
  have hroom : x.facts.Roomy x.function (x.facts.info x.function).params := h.live.slot_lt
  have hs := h.inScope
  obtain ⟨n, ss, tail⟩ := b
  cases tail with
  | some e =>
      rw [body]
      exact (admits_stmts hc hroom false ss hs.1).bind fun a =>
        (admits_expr hc (hroom.liveAfter hs.1) e hs.2).bind fun b =>
          admits_pure fun n hb ha => (ha.append hb).append (Fragment.known_one trivial)
  | none =>
      rw [body]
      refine (admits_stmts hc hroom false ss hs).bind fun a => ?_
      split
      · exact admits_pure fun n ha => ha
      · exact (admits_loadConst (c := .unit) trivial).bind fun b =>
          admits_pure fun n hb ha => (ha.append hb).append (Fragment.known_one trivial)

/-! ### Routines -/

variable {facts : Facts} {tidy : Bool} {bodies : List FunctionBody}

/-- The routines of a program are known if every body fits its function. They are generated in the
order of their functions, into one pool. -/
theorem admits_routines (hc : facts.Stocked)
    (hfits : ∀ f b, bodies.lookup f = some b → facts.Fits f b) (infos : List FunctionInfo) :
    ∀ function, Admits facts (routines facts tidy bodies function infos) fun n rs =>
      ∀ (i : Nat) (r : Routine), rs[i]? = some r → r.Known facts (function + i) n := by
  induction infos with
  | nil => exact fun function => admits_pure fun n i r hr => by cases hr
  | cons info infos ih =>
      intro function
      rw [routines]
      have hroutine : Admits facts (routine { facts, function, tidy } info bodies)
          fun n r => r.Known facts function n := by
        cases hb : bodies.lookup function with
        | none =>
            simp only [routine, hb]
            exact admits_unresolved
        | some b =>
            rw [routine_eq hb]
            exact (admits_body (x := { facts, function, tidy }) hc (hfits function b hb)).bind
              fun a => admits_pure fun n ha pc i hi =>
                ha 0 ⟨0, 0⟩ i (List.mem_toArray.mp (Array.mem_of_getElem? hi))
      refine hroutine.bind fun r => (ih (function + 1)).bind fun rs =>
        admits_pure fun n hrs hr i r' hi => ?_
      cases i with
      | zero =>
          cases hi
          exact hr
      | succ i =>
          have := hrs i r' hi
          rwa [Nat.add_assoc, Nat.add_comm 1] at this

end Generate

/-! ### Verification -/

/-- A disciplined routine whose operands are there passes. The verifier looks at the references and
the jumps, and the discipline gives the heights. -/
theorem Routine.Known.verified {facts : Facts} {image : Image} {function : Nat} {r : Routine}
    {captures height : Nat → Nat} (h : r.Known facts function image.consts.size)
    (hd : r.Disciplined captures height) (hsize : image.routines.size = facts.functions.size)
    (hglobals : image.globals = facts.globals) (hparams : r.params ≤ r.slots)
    (hslots : r.slots = (facts.info function).slots)
    (hcaptures : r.captures = (facts.captures function).length) : r.Verified image := by
  refine ⟨hparams, ?_, fun pc i hpc => ?_⟩
  · -- Control does not run off the end, so the last instruction does not go on.
    have hlast := hd.nonempty
    have hback : r.code[r.code.size - 1]? = some r.code[r.code.size - 1] :=
      Array.getElem?_eq_getElem (by omega)
    refine ⟨r.code[r.code.size - 1], by rw [Array.back?_eq_getElem?, hback], ?_⟩
    by_contra hf
    have := (hd.next _ _ hback (by simpa using hf)).1
    omega
  · have hk := h pc i hpc
    have ht := hd.target pc i
    unfold Instr.Refers
    cases i with
    | jump t | jumpIfFalse t | jumpIfTrueOrPop t | jumpIfFalseOrPop t => exact (ht t hpc rfl).1
    | loadLocal k | storeLocal k => rw [hslots]; exact hk
    | loadGlobal k | storeGlobal k => rw [hglobals]; exact hk
    | loadCapture k => rw [hcaptures]; exact hk
    | closure k => rw [hsize]; exact hk
    | loadConst k => exact hk
    | _ => trivial

/-- **Verification.** What is assembled of a scoped program passes, shortened or not. Each routine
names only what exists, and has the heights that the verifier looks for. -/
theorem Image.verifies_of_assemble {tidy : Bool} {a : Analyzed} {image : Image}
    (h : assemble tidy a = .ok image) (hc : a.facts.Stocked)
    (hfits : ∀ f b, a.bodies.lookup f = some b → a.facts.Fits f b)
    (hparams : (a.facts.info 0).params = []) (hcaptures : a.facts.captures 0 = []) :
    image.verify = .ok () := by
  obtain ⟨-, hroutine, hsize, hglobals⟩ := Image.parts_of_assemble h
  obtain ⟨rs, consts, hrs, rfl⟩ := assemble_eq_ok_iff.mp h
  obtain ⟨-, hconsts, hknown⟩ := Generate.admits_routines hc hfits a.facts.functions.toList 0 #[]
    rs consts (by simp) hrs
  have hinfo : ∀ f < a.facts.functions.size, a.facts.functions[f]? = some (a.facts.info f) := by
    intro f hf
    simp [Facts.info, Array.getElem?_eq_getElem hf]
  refine Image.verify_eq_ok_iff.mpr ⟨?_, fun i c hc => ?_, fun f r hr => ?_⟩
  · have hmain := (hfits 0 a.program.root (List.lookup_cons_self)).lt
    obtain ⟨b, frag, -, -, -, hr⟩ := hroutine 0 _ (hinfo 0 hmain)
    exact ⟨_, hr, by rw [Generate.routineOf, hparams]; rfl, by
      rw [Generate.routineOf]
      exact congrArg List.length hcaptures⟩
  · have hc := hconsts c (Array.mem_of_getElem? hc)
    cases c with
    | function f =>
        obtain ⟨b, frag, -, -, -, hr⟩ := hroutine f _ (hinfo f hc.1)
        exact ⟨_, hr, congrArg List.length hc.2⟩
    | _ => trivial
  · have hf : f < a.facts.functions.size := by
      rw [← hsize]
      exact (Array.getElem?_eq_some_iff.mp hr).1
    obtain ⟨b, frag, hb, -, hy, hr'⟩ := hroutine f _ (hinfo f hf)
    have hk := hknown consts.size (Nat.le_refl _) f r (by simpa using hr)
    rw [Nat.zero_add] at hk
    cases hr.symm.trans hr'
    obtain ⟨height, hd⟩ := (hy.of_produces (Generate.levels_body b)).disciplined
      (r := Generate.routineOf (a.facts.info f) frag) rfl
    exact hk.verified hd hsize hglobals (hfits f b hb).params_le rfl rfl

end Parlance
