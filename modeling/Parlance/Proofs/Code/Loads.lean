import Mathlib.Data.List.Forall2
import Parlance.Proofs.Code.Typing

/-!
# What the code of identifiers loads

Each load in a routine is made for an identifier, or for a variable that a lambda captures. The
symbols that they resolve to are listed here along the tree, one entry for each instruction, in
the order of the code. So the list names, for an offset of a routine, the symbol that is loaded
there, without a look at the slots that are in use.

A load from the frame is for a variable that is in scope where the load stands.

## Main definitions

* `Expr.loads`, `Stmt.loads`, `Block.bodyLoads`: what the instructions of a tree load.
* `Instr.LoadsFor`: an instruction loads the place of a symbol.
* `Analyzed.loadedAt`: the symbol that is loaded at an offset.

## Main results

* `Generate.loads_body`: the code of a function loads what is listed.
* `Image.Assembled.loads`: so do the routines of an image.
* `Analyzed.Accepted.sees`: what is loaded from a frame is in scope.
-/

namespace Parlance

/-! ### What trees load -/

section Trees

variable (facts : Facts)

mutual

/-- The symbols that the instructions of an expression load: what its identifiers resolve to, and
what the functions that it makes capture. -/
def Expr.loads : Expr → List (Option Nat)
  | .lit _ _ => [none]
  | .ident n _ => [n.symbol]
  | .unary _ _ e | .cast _ e _ => e.loads ++ [none]
  | .binary _ op l r =>
    match op.split with
    | .inl _ => l.loads ++ r.loads ++ [none]
    | .inr _ => l.loads ++ none :: r.loads
  | .assign _ (.index _ base i) v =>
    [base.note.symbol] ++ i.loads ++ v.loads ++ [none] ++ [none]
  | .assign _ _ v => v.loads ++ [none] ++ [none]
  | .call _ f args => f.loads ++ Expr.loadsOf args ++ [none]
  | .index _ t i => t.loads ++ i.loads ++ [none]
  | .list _ items => Expr.loadsOf items ++ [none]
  | .lambda n _ _ => ((n.function.map facts.captures).getD []).map some ++ [none]

/-- The symbols that expressions load, one after the other. -/
def Expr.loadsOf : List Expr → List (Option Nat)
  | [] => []
  | e :: es => e.loads ++ Expr.loadsOf es

end

/-- The symbols that an expression loads if its value is not used. -/
def Expr.discardLoads (e : Expr) : List (Option Nat) :=
  match e.assigned? with
  | some (_, v) => v.loads facts ++ [none]
  | none =>
    if Generate.isLoad { facts, function := 0, tidy := true } e then [] else e.loads facts ++ [none]

mutual

/-- The symbols that the instructions of a statement load. -/
def Stmt.loads : Stmt → List (Option Nat)
  | .block b => b.loads
  | .letVar _ _ _ e | .ret _ (some e) => e.loads facts ++ [none]
  | .fnDecl _ _ _ _ => []
  | .ret _ none => [none] ++ [none]
  | .cond _ test yes none => test.loads facts ++ none :: yes.loads
  | .cond _ test yes (some no) => test.loads facts ++ none :: (yes.loads ++ none :: no.loads)
  | .whileLoop _ test b => test.loads facts ++ none :: (b.loads ++ [none])
  | .loop _ b => b.loads ++ [none]
  | .breakLoop _ | .continueLoop _ => [none]
  | .expr _ e => e.discardLoads facts

/-- The symbols that statements load, one after the other. -/
def Stmt.loadsOf : List Stmt → List (Option Nat)
  | [] => []
  | s :: ss => s.loads ++ Stmt.loadsOf ss

/-- The symbols that a block loads whose result is not used. -/
def Block.loads : Block → List (Option Nat)
  | .mk _ ss none => Stmt.loadsOf ss
  | .mk _ ss (some e) => Stmt.loadsOf ss ++ e.discardLoads facts

end

/-- The symbols that the instructions of a function body load. There may be no code for the end of
a body that has returned. -/
def Block.bodyLoads : Block → List (Option Nat)
  | .mk _ ss none => Stmt.loadsOf facts ss ++ [none] ++ [none]
  | .mk _ ss (some e) => Stmt.loadsOf facts ss ++ e.loads facts ++ [none]

end Trees

/-- The symbol that the instruction at an offset of a function loads. -/
def Analyzed.loadedAt (a : Analyzed) (function pc : Nat) : Option Nat :=
  (((a.bodies.lookup function).map (·.bodyLoads a.facts)).getD [])[pc]?.join

/-! ### What code loads -/

/-- What an instruction of a function loads from a variable is the place of the symbol. -/
def Instr.LoadsFor (facts : Facts) (function : Nat) (symbol : Option Nat) : Instr → Prop
  | .loadLocal k => ∃ y, symbol = some y ∧ (facts.symbol y).function = function ∧
      (facts.symbol y).storage = .frame k
  | .loadGlobal k => ∃ y, symbol = some y ∧ (facts.symbol y).storage = .global k
  | .loadCapture i => ∃ y, symbol = some y ∧ (facts.captures function)[i]? = some y
  | _ => True

/-- The instructions of a fragment load what is listed, one after the other. -/
def Fragment.Loads (x : GenerateContext) (symbols : List (Option Nat)) (a : Fragment) : Prop :=
  ∀ offset loop, List.Forall₂ (Instr.LoadsFor x.facts x.function) symbols (a.place offset loop)

namespace Fragment

variable {x : GenerateContext} {ys zs ws : List (Option Nat)} {a b test : Fragment}

/-- No code loads nothing. -/
theorem loads_empty : empty.Loads x [] :=
  fun _ _ => .nil

/-- A single instruction loads what is listed for it. -/
theorem loads_one {i : Instr} {y : Option Nat} (h : i.LoadsFor x.facts x.function y) :
    (one i).Loads x [y] :=
  fun _ _ => .cons h .nil

/-- A `break` is one instruction, which loads nothing. -/
theorem loads_breakLoop : breakLoop.Loads x [none] :=
  fun _ _ => .cons trivial .nil

/-- A `continue` is one instruction, which loads nothing. -/
theorem loads_continueLoop : continueLoop.Loads x [none] :=
  fun _ _ => .cons trivial .nil

namespace Loads

/-- Code in a row loads what both parts load. -/
theorem append (ha : a.Loads x ys) (hb : b.Loads x zs) : (a ++ b).Loads x (ys ++ zs) := by
  intro offset loop
  rw [place_append]
  exact List.rel_append (ha offset loop) (hb _ loop)

/-- Code and an instruction that loads no variable. -/
theorem before (ha : a.Loads x ys) {i : Instr}
    (hi : i.LoadsFor x.facts x.function none := by trivial) :
    (a ++ one i).Loads x (ys ++ [none]) :=
  ha.append (loads_one hi)

/-- A jump between two parts loads nothing, and takes one place in the list. -/
theorem skipping (ha : a.Loads x ys) (hb : b.Loads x zs) {jump : Nat → Instr}
    (hj : ∀ target, (jump target).LoadsFor x.facts x.function none) :
    (Fragment.skipping jump a b).Loads x (ys ++ none :: zs) :=
  fun offset loop => List.rel_append (ha offset loop) (.cons (hj _) (hb _ loop))

/-- A conditional with two branches has two jumps, each with a place in the list. -/
theorem choice (ht : test.Loads x ys) (ha : a.Loads x zs) (hb : b.Loads x ws) :
    (Fragment.choice test a b).Loads x (ys ++ none :: (zs ++ none :: ws)) := by
  intro offset loop
  rw [← List.cons_append, ← List.append_assoc]
  exact List.rel_append (List.rel_append (ht offset loop) (.cons (by trivial) (ha _ loop)))
    (.cons trivial (hb _ loop))

/-- A loop without a test ends with a jump. -/
theorem forever (ha : a.Loads x ys) : (Fragment.forever a).Loads x (ys ++ [none]) :=
  fun offset _ => List.rel_append (ha offset _) (.cons trivial .nil)

/-- A loop with a test has a jump behind the test and one at its end. -/
theorem whileTrue (ht : test.Loads x ys) (ha : a.Loads x zs) :
    (Fragment.whileTrue test a).Loads x (ys ++ none :: (zs ++ [none])) := by
  intro offset loop
  rw [← List.cons_append, ← List.append_assoc]
  exact List.rel_append (List.rel_append (ht offset _) (.cons (by trivial) (ha _ _)))
    (.cons trivial .nil)

end Loads

end Fragment

namespace Generate

open Fragment

variable {x : GenerateContext}

/-! ### Places -/

/-- Code that loads a constant loads no variable, so any symbol may be listed for it. -/
theorem loads_loadConst (c : Const) (hc : c.IsCanonical) {y : Option Nat} :
    Produces (Loads x [y]) (loadConst c) := by
  intro consts a after hd he
  obtain ⟨hx, hd', i, rfl, -⟩ := loadConst_eq_ok hd hc he
  exact ⟨hx, hd', loads_one trivial⟩

/-- A variable is loaded from its own slot or from its own place among the captures. -/
theorem loads_loadVariable {y slot : Nat} {range : Range}
    (hs : (x.facts.symbol y).storage = .frame slot) :
    Produces (Loads x [some y]) (loadVariable x y slot (x.facts.symbol y).function range) := by
  unfold loadVariable
  split
  · next ho => exact produces_pure (loads_one ⟨y, rfl, ho, hs⟩)
  · split
    · next i hi =>
        obtain ⟨hlt, he, -⟩ := List.idxOf?_eq_some_iff.mp hi
        exact produces_pure (loads_one ⟨y, rfl, by rw [List.getElem?_eq_getElem hlt, he]⟩)
    · exact produces_unresolved

/-- A name loads the symbol that it resolves to. -/
theorem loads_load {n : Note} : Produces (Loads x [n.symbol]) (load x n) := by
  unfold load
  split
  · exact produces_unresolved
  · next y hy =>
      rw [hy]
      split
      · next k hs => exact produces_pure (loads_one ⟨y, rfl, hs⟩)
      · next k hs => exact loads_loadVariable hs
      · exact loads_loadConst (.function _) trivial
      · exact loads_loadConst (.builtin _) trivial

/-- A store loads nothing. -/
theorem loads_store {n : Note} : Produces (Loads x [none]) (store x n) := by
  unfold store
  split
  · exact produces_unresolved
  · split
    · exact produces_pure (loads_one trivial)
    · split
      · exact produces_pure (loads_one trivial)
      · exact produces_unresolved
    · exact produces_unresolved

/-- The variables that a lambda captures are loaded one after the other. -/
theorem loads_loadAllCaptured {range : Range} (captures : List Nat) :
    Produces (Loads x (captures.map some)) (loadAllCaptured x range captures) := by
  induction captures with
  | nil => exact produces_pure loads_empty
  | cons y ys ih =>
      have hy : Produces (Loads x [some y]) (loadCaptured x range y) := by
        unfold loadCaptured
        split
        · next k hs => exact loads_loadVariable hs
        · exact produces_unresolved
      exact hy.bind fun a ha => ih.bind fun b hb => produces_pure (ha.append hb)

/-- A lambda loads what its function captures, and then makes the closure. -/
theorem loads_lambda {n : Note} :
    Produces (Loads x (((n.function.map x.facts.captures).getD []).map some ++ [none]))
      (lambda x n) := by
  unfold lambda
  split
  · exact produces_unresolved
  · next f hf =>
      rw [hf, Option.map_some, Option.getD_some]
      split
      · next he =>
          rw [he]
          exact loads_loadConst (.function f) trivial
      · exact (loads_loadAllCaptured _).bind fun a ha => produces_pure ha.before

/-! ### Trees -/

mutual

/-- **Expressions.** The code of an expression loads what is listed for it: at each of its places
the list has the symbol that is loaded there, or none. -/
theorem loads_expr : ∀ e : Expr, Produces (Loads x (e.loads x.facts)) (expr x e)
  | .lit _ v => by rw [expr, Expr.loads]; exact loads_loadConst _ v.isCanonical_toConst
  | .ident n _ => by rw [expr, Expr.loads]; exact loads_load
  | .unary _ _ e => by
      rw [expr, Expr.loads]
      exact (loads_expr e).bind fun a ha => produces_pure ha.before
  | .binary _ op l r => by
      rw [expr, Expr.loads]
      refine (loads_expr l).bind fun a ha => (loads_expr r).bind fun b hb => ?_
      cases op.split with
      | inl strict => exact produces_pure ((ha.append hb).before)
      | inr logical => exact produces_pure (ha.skipping hb fun _ => by cases logical <;> trivial)
  | .assign _ target value => by
      cases target with
      | index _ base index =>
          rw [expr, Expr.loads]
          exact loads_load.bind fun a ha => (loads_expr index).bind fun b hb =>
            (loads_expr value).bind fun c hc => loads_store.bind fun d hd =>
              produces_pure ((((ha.append hb).append hc).before).append hd)
      | _ =>
          rw [expr, Expr.loads]
          · exact (loads_expr value).bind fun a ha => loads_store.bind fun b hb =>
              produces_pure (ha.before.append hb)
          all_goals intros; contradiction
  | .call _ callee args => by
      rw [expr, Expr.loads]
      exact (loads_expr callee).bind fun a ha => (loads_exprs args).bind fun b hb =>
        produces_pure ((ha.append hb).before)
  | .index _ target index => by
      rw [expr, Expr.loads]
      exact (loads_expr target).bind fun a ha => (loads_expr index).bind fun b hb =>
        produces_pure ((ha.append hb).before)
  | .list _ items => by
      rw [expr, Expr.loads]
      exact (loads_exprs items).bind fun a ha => produces_pure ha.before
  | .cast _ e _ => by
      rw [expr, Expr.loads]
      exact (loads_expr e).bind fun a ha => produces_pure ha.before
  | .lambda n _ _ => by rw [expr, Expr.loads]; exact loads_lambda

/-- Expressions load what each of them loads. -/
theorem loads_exprs :
    ∀ es : List Expr, Produces (Loads x (Expr.loadsOf x.facts es)) (exprs x es)
  | [] => by rw [exprs, Expr.loadsOf]; exact produces_pure loads_empty
  | e :: es => by
      rw [exprs, Expr.loadsOf]
      exact (loads_expr e).bind fun a ha => (loads_exprs es).bind fun b hb =>
        produces_pure (ha.append hb)

end

/-- An expression whose value is not used. -/
theorem loads_discard (htidy : x.tidy = true) (e : Expr) :
    Produces (Loads x (e.discardLoads x.facts)) (discard x e) := by
  unfold discard Expr.discardLoads
  rw [isLoad_eq, htidy]
  cases e.assigned? with
  | some assigned =>
      exact (loads_expr assigned.2).bind fun a ha => loads_store.bind fun b hb =>
        produces_pure (ha.append hb)
  | none =>
      refine (loads_expr e).bind fun a ha => produces_pure ?_
      rw [Bool.true_and]
      cases isLoad x e with
      | true => exact loads_empty
      | false => exact ha.before

mutual

/-- **Statements.** The code of a statement loads what is listed for it. Values that are not used
are left out, of the code and of the list. -/
theorem loads_stmt (htidy : x.tidy = true) : ∀ (inLoop : Bool) (s : Stmt),
    Produces (Loads x (s.loads x.facts)) (stmt x inLoop s)
  | inLoop, .block b => by rw [stmt, Stmt.loads]; exact loads_block htidy inLoop b
  | _, .letVar _ _ _ init => by
      rw [stmt, Stmt.loads]
      exact (loads_expr init).bind fun a ha => loads_store.bind fun b hb =>
        produces_pure (ha.append hb)
  | _, .fnDecl _ _ _ _ => by rw [stmt, Stmt.loads]; exact produces_pure loads_empty
  | _, .ret _ value => by
      rw [stmt]
      cases value with
      | none =>
          rw [Stmt.loads]
          exact (loads_loadConst .unit trivial).bind fun a ha => produces_pure ha.before
      | some e =>
          rw [Stmt.loads]
          exact (loads_expr e).bind fun a ha => produces_pure ha.before
  | inLoop, .cond _ test yes none => by
      rw [stmt, Stmt.loads]
      exact (loads_expr test).bind fun a ha => (loads_block htidy inLoop yes).bind fun b hb =>
        produces_pure (ha.skipping hb fun _ => trivial)
  | inLoop, .cond _ test yes (some no) => by
      rw [stmt, Stmt.loads]
      exact (loads_expr test).bind fun a ha => (loads_block htidy inLoop yes).bind fun b hb =>
        (loads_stmt htidy inLoop no).bind fun c hc => produces_pure (ha.choice hb hc)
  | _, .whileLoop _ test body => by
      rw [stmt, Stmt.loads]
      exact (loads_expr test).bind fun a ha => (loads_block htidy true body).bind fun b hb =>
        produces_pure (ha.whileTrue hb)
  | _, .loop _ body => by
      rw [stmt, Stmt.loads]
      exact (loads_block htidy true body).bind fun a ha => produces_pure ha.forever
  | _, .breakLoop _ => by
      rw [stmt, Stmt.loads]
      split
      · exact produces_pure loads_breakLoop
      · exact produces_unresolved
  | _, .continueLoop _ => by
      rw [stmt, Stmt.loads]
      split
      · exact produces_pure loads_continueLoop
      · exact produces_unresolved
  | _, .expr _ e => by rw [stmt, Stmt.loads]; exact loads_discard htidy e

/-- **Statements.** Their code loads what is listed for them, one after another. -/
theorem loads_stmts (htidy : x.tidy = true) : ∀ (inLoop : Bool) (ss : List Stmt),
    Produces (Loads x (Stmt.loadsOf x.facts ss)) (stmts x inLoop ss)
  | _, [] => by rw [stmts, Stmt.loadsOf]; exact produces_pure loads_empty
  | inLoop, s :: ss => by
      rw [stmts, Stmt.loadsOf]
      exact (loads_stmt htidy inLoop s).bind fun a ha => (loads_stmts htidy inLoop ss).bind
        fun b hb => produces_pure (ha.append hb)

/-- The code of a block loads what is listed for it. -/
theorem loads_block (htidy : x.tidy = true) : ∀ (inLoop : Bool) (b : Block),
    Produces (Loads x (b.loads x.facts)) (block x inLoop b)
  | inLoop, .mk _ ss none => by rw [block, Block.loads]; exact loads_stmts htidy inLoop ss
  | inLoop, .mk _ ss (some e) => by
      rw [block, Block.loads]
      exact (loads_stmts htidy inLoop ss).bind fun a ha => (loads_discard htidy e).bind
        fun b hb => produces_pure (ha.append hb)

end

/-- **Functions.** The code of a function body loads what is listed for it, up to where it ends. -/
theorem loads_body (htidy : x.tidy = true) (b : Block) :
    Produces (fun a => ∃ ys zs, b.bodyLoads x.facts = ys ++ zs ∧ a.Loads x ys) (body x b) := by
  obtain ⟨n, ss, tail⟩ := b
  cases tail with
  | some e =>
      rw [body, Block.bodyLoads]
      exact (loads_stmts htidy false ss).bind fun a ha => (loads_expr e).bind fun b hb =>
        produces_pure ⟨_, [], (List.append_nil _).symm, (ha.append hb).before⟩
  | none =>
      rw [body, Block.bodyLoads]
      refine (loads_stmts htidy false ss).bind fun a ha => ?_
      split
      · exact produces_pure ⟨_, _, List.append_assoc _ _ _, ha⟩
      · exact (loads_loadConst .unit trivial).bind fun b hb =>
          produces_pure ⟨_, [], (List.append_nil _).symm, (ha.append hb).before⟩

end Generate

/-- **Routines.** An instruction of a routine loads the place of the symbol that is listed for its
offset. -/
theorem Image.Assembled.loads {a : Analyzed} {image : Image} (h : image.Assembled a) {f : Nat}
    {r : Routine} (hr : image.routines[f]? = some r) {pc : Nat} {i : Instr}
    (hi : r.code[pc]? = some i) : i.LoadsFor a.facts f (a.loadedAt f pc) := by
  obtain ⟨info, hinfo⟩ := h.info_of_routine hr
  obtain ⟨b, frag, hb, -, hy, hr'⟩ := h.routine f info hinfo
  cases hr.symm.trans hr'
  obtain ⟨ys, zs, he, hloads⟩ := hy.of_produces (Generate.loads_body rfl b)
  have hi : (frag.place 0 ⟨0, 0⟩)[pc]? = some i := by
    simpa [Generate.routineOf, Fragment.code] using hi
  obtain ⟨hlt, rfl⟩ := List.getElem?_eq_some_iff.mp hi
  have hall := hloads 0 ⟨0, 0⟩
  have hlt' : pc < ys.length := hall.length_eq ▸ hlt
  have hlisted : a.loadedAt f pc = ys[pc] := by
    rw [Analyzed.loadedAt, hb, Option.map_some, Option.getD_some, he,
      List.getElem?_append_left hlt', List.getElem?_eq_getElem hlt', Option.join_some]
  rw [hlisted]
  exact hall.get hlt' hlt

/-! ### What is loaded is in scope -/

/-- A symbol that is loaded at a point is known, and if it has a slot in a frame, then the function
has it there. -/
def Facts.Sees (facts : Facts) (function : Nat) (p : Option Point) (symbol : Option Nat) : Prop :=
  ∀ q, p = some q → ∀ y, symbol = some y → y < facts.symbols.size ∧
    ∀ k, (facts.symbol y).storage = .frame k → facts.Has function q.live y

namespace Facts

variable {facts : Facts} {function : Nat} {live : List Nat}

/-- Nothing is asked for where nothing is loaded. -/
theorem sees_none (p : Option Point) : facts.Sees function p none :=
  fun _ _ _ hy => by cases hy

/-- The operands of an expression are listed for the same instructions as what they load. -/
abbrev SeesAll (facts : Facts) (function : Nat) (live : List Nat) (operands : List (List Ty))
    (symbols : List (Option Nat)) : Prop :=
  List.Forall₂ (facts.Sees function) (Point.listAt live operands) symbols

/-- A symbol that may be read is known, and has its slot in the function that declares it. -/
theorem Readable.sees {y : Nat} (h : facts.Readable function live y) (stack : List Ty) :
    facts.Sees function (some ⟨live, stack⟩) (some y) := by
  rintro q hq z hz
  cases hq
  cases hz
  refine ⟨h.1, fun k hk => ?_⟩
  have := h.2
  rwa [hk] at this

/-- What is listed for code in a row is listed for both parts. -/
theorem SeesAll.append {xs ys : List (List Ty)} {ms ns : List (Option Nat)}
    (h : facts.SeesAll function live xs ms) (h' : facts.SeesAll function live ys ns) :
    facts.SeesAll function live (xs ++ ys) (ms ++ ns) := by
  rw [SeesAll, Point.listAt_append]
  exact List.rel_append h h'

/-- An instruction that loads no variable may follow. -/
theorem SeesAll.before {xs : List (List Ty)} {ms : List (Option Nat)}
    (h : facts.SeesAll function live xs ms) (stack : List Ty) :
    facts.SeesAll function live (xs ++ [stack]) (ms ++ [none]) :=
  h.append (.cons (sees_none _) .nil)

/-- The variables that a function captures are there where it is made. -/
theorem seesAll_captured {ys : List Nat}
    (h : ∀ y ∈ ys, y < facts.symbols.size ∧ facts.Has function live y) (stack : List Ty) :
    facts.SeesAll function live (facts.captureOperands stack ys) (ys.map some ++ [none]) := by
  induction ys generalizing stack with
  | nil => exact .cons (sees_none _) .nil
  | cons y ys ih =>
      refine .cons (fun q hq z hz => ?_) (ih (fun z hz => h z (List.mem_cons_of_mem _ hz)) _)
      cases hq
      cases hz
      exact ⟨(h y List.mem_cons_self).1, fun _ _ => (h y List.mem_cons_self).2⟩

mutual

/-- **Expressions.** What the code of an expression loads from frames is in scope where it is
loaded, and it is a variable of the function or one that it captures. -/
theorem seesAll_expr (hc : facts.Coherent) : ∀ (e : Expr) (stack : List Ty),
    e.Scoped facts function live →
      facts.SeesAll function live (e.operands facts stack) (e.loads facts)
  | .lit _ _, _, _ => by
      rw [Expr.operands, Expr.loads]
      exact .cons (sees_none _) .nil
  | .ident n _, stack, h => by
      rw [Expr.operands, Expr.loads]
      refine .cons ?_ .nil
      cases hy : n.symbol with
      | none => exact sees_none _
      | some y => exact (h y hy).sees stack
  | .unary _ _ e, stack, h | .cast _ e _, stack, h => by
      rw [Expr.operands, Expr.loads]
      exact (seesAll_expr hc e stack h).before _
  | .binary _ op l r, stack, h => by
      rw [Expr.operands, Expr.loads]
      cases op.split with
      | inl strict => exact ((seesAll_expr hc l _ h.1).append (seesAll_expr hc r _ h.2)).before _
      | inr logical =>
          exact (seesAll_expr hc l _ h.1).append (.cons (sees_none _) (seesAll_expr hc r _ h.2))
  | .assign _ target v, stack, h => by
      cases target with
      | ident n name =>
          rw [Expr.operands, Expr.loads]
          · exact ((seesAll_expr hc v _ h.1).before _).before _
          all_goals intros; contradiction
      | index m base i =>
          cases base with
          | ident n name =>
              obtain ⟨hi, hv, hw⟩ := h
              rw [Expr.operands, Expr.loads]
              have hbase : facts.SeesAll function live [stack] [n.symbol] := by
                refine .cons ?_ .nil
                cases hy : n.symbol with
                | none => exact sees_none _
                | some y => exact (hw y hy).readable.sees stack
              have hitem : facts.SeesAll function live _ _ :=
                hbase.append (seesAll_expr hc i (.list v.ty :: stack) hi)
              exact ((hitem.append (seesAll_expr hc v _ hv)).before _).before _
          | _ => exact h.elim
      | _ => exact h.elim
  | .call _ f args, stack, h => by
      rw [Expr.operands, Expr.loads]
      exact ((seesAll_expr hc f _ h.1).append (seesAll_exprs hc args _ h.2)).before _
  | .index _ t i, stack, h => by
      rw [Expr.operands, Expr.loads]
      exact ((seesAll_expr hc t _ h.1).append (seesAll_expr hc i _ h.2)).before _
  | .list _ items, stack, h => by
      rw [Expr.operands, Expr.loads]
      exact (seesAll_exprs hc items _ h).before _
  | .lambda n _ _, stack, h => by
      rw [Expr.operands, Expr.loads]
      refine seesAll_captured (fun y hy => ?_) stack
      cases hf : n.function with
      | none => simp [hf] at hy
      | some f =>
          have hy : y ∈ facts.captures f := by simpa [hf] using hy
          exact ⟨(hc.captured f y hy).1, (h f hf).has y hy⟩

/-- Everything that expressions in scope load is known where it is loaded. -/
theorem seesAll_exprs (hc : facts.Coherent) : ∀ (es : List Expr) (stack : List Ty),
    Expr.AllScoped facts function live es →
      facts.SeesAll function live (Expr.operandsOf facts stack es) (Expr.loadsOf facts es)
  | [], _, _ => by
      rw [Expr.operandsOf, Expr.loadsOf]
      exact .nil
  | e :: es, stack, h => by
      rw [Expr.operandsOf, Expr.loadsOf]
      exact (seesAll_expr hc e stack h.1).append (seesAll_exprs hc es _ h.2)

end

/-- An expression whose value is not used. -/
theorem sees_discard (hc : facts.Coherent) {e : Expr} (h : e.Scoped facts function live) :
    List.Forall₂ (facts.Sees function) (e.discardPoints facts live) (e.discardLoads facts) := by
  unfold Expr.discardLoads
  split
  · next target v hassigned =>
      obtain ⟨m, rfl, hne⟩ := Expr.assigned?_eq_some hassigned
      obtain ⟨n, name, rfl⟩ := h.eq_ident hne
      rw [Expr.discardPoints]
      exact (seesAll_expr hc v [] h.1).before _
  · next hnone =>
      rw [Expr.discardPoints]
      · split
        · exact .nil
        · exact (seesAll_expr hc e [] h).before _
      · rintro m n name v rfl
        cases hnone

mutual

/-- **Statements.** What the code of a statement loads from frames is in scope. The variables that
are live at each place are those of the points of the statement. -/
theorem sees_stmt (hc : facts.Coherent) {returns : Ty} : ∀ (live : List Nat) (s : Stmt),
    s.Scoped facts function live → s.Typed facts returns →
      List.Forall₂ (facts.Sees function) (s.points facts live) (s.loads facts)
  | live, .block b, h, ht => by
      rw [Stmt.points, Stmt.loads]
      exact sees_block hc live b h ht
  | live, .letVar _ _ _ e, h, ht => by
      rw [Stmt.points, Stmt.loads]
      exact (seesAll_expr hc e [] h.1).before _
  | live, .fnDecl _ _ _ _, _, _ => by
      rw [Stmt.points, Stmt.loads]
      exact .nil
  | live, .ret _ none, _, _ => by
      rw [Stmt.points, Stmt.loads]
      exact .cons (sees_none _) (.cons (sees_none _) .nil)
  | live, .ret _ (some e), h, _ => by
      rw [Stmt.points, Stmt.loads]
      exact (seesAll_expr hc e [] h).before _
  | live, .cond _ test yes none, h, ht => by
      rw [Stmt.points, Stmt.loads]
      exact List.rel_append (seesAll_expr hc test [] h.1)
        (.cons (sees_none _) (sees_block hc live yes h.2 ht.2.2))
  | live, .cond _ test yes (some no), h, ht => by
      rw [Stmt.points, Stmt.loads]
      exact List.rel_append (seesAll_expr hc test [] h.1) (.cons (sees_none _)
        (List.rel_append (sees_block hc live yes h.2.1 ht.2.2.1)
          (.cons (sees_none _) (sees_stmt hc live no h.2.2 ht.2.2.2))))
  | live, .whileLoop _ test b, h, ht => by
      rw [Stmt.points, Stmt.loads]
      exact List.rel_append (seesAll_expr hc test [] h.1) (.cons (sees_none _)
        (List.rel_append (sees_block hc live b h.2 ht.2.2) (.cons (sees_none _) .nil)))
  | live, .loop _ b, h, ht => by
      rw [Stmt.points, Stmt.loads]
      exact List.rel_append (sees_block hc live b h ht) (.cons (sees_none _) .nil)
  | live, .breakLoop _, _, _ | live, .continueLoop _, _, _ => by
      rw [Stmt.points, Stmt.loads]
      exact .cons (sees_none _) .nil
  | live, .expr _ e, h, _ => by
      rw [Stmt.points, Stmt.loads]
      exact sees_discard hc h

/-- **Statements.** Everything that they load is known where it is loaded. -/
theorem sees_stmts (hc : facts.Coherent) {returns : Ty} : ∀ (live : List Nat) (ss : List Stmt),
    Stmt.AllScoped facts function live ss → Stmt.AllTyped facts returns ss →
      List.Forall₂ (facts.Sees function) (Stmt.pointsOf facts live ss) (Stmt.loadsOf facts ss)
  | _, [], _, _ => by
      rw [Stmt.pointsOf, Stmt.loadsOf]
      exact .nil
  | live, s :: ss, h, ht => by
      rw [Stmt.pointsOf, Stmt.loadsOf]
      have hrest := sees_stmts hc (s.declared ++ live) ss h.2 ht.2
      refine List.rel_append (sees_stmt hc live s h.1 ht.1) ?_
      split
      -- Nothing is known behind a statement that terminates, so nothing is asked for.
      · exact List.forall₂_map_left_iff.mpr (hrest.imp fun _ _ _ _ hq => by cases hq)
      · exact hrest

/-- Everything that a block loads is known where it is loaded. -/
theorem sees_block (hc : facts.Coherent) {returns : Ty} : ∀ (live : List Nat) (b : Block),
    b.Scoped facts function live → b.Typed facts returns →
      List.Forall₂ (facts.Sees function) (b.points facts live) (b.loads facts)
  | live, .mk _ ss none, h, ht => by
      rw [Block.points, Block.loads]
      exact sees_stmts hc live ss h ht
  | _, .mk _ _ (some _), _, ht => ht.elim

end

end Facts

/-- **Functions.** What an accepted function loads from frames is in scope. The loads are listed in
the order of the points of the code, one for each load. -/
theorem Facts.Accepts.sees {facts : Facts} {function : Nat} {b : Block} (hc : facts.Coherent)
    (h : facts.Accepts function b) :
    ∃ ys zs, b.bodyLoads facts = ys ++ zs ∧
      List.Forall₂ (facts.Sees function) (b.bodyPoints facts (facts.info function).params) ys := by
  obtain ⟨n, ss, tail⟩ := b
  have hin := h.inScope
  have ht := h.typed
  cases tail with
  | none =>
      have hss := Facts.sees_stmts hc _ ss hin ht.1
      rw [Block.bodyPoints, Block.bodyLoads]
      split
      · exact ⟨_, _, List.append_assoc _ _ _, by rwa [List.append_nil]⟩
      · refine ⟨_, [], (List.append_nil _).symm, ?_⟩
        rw [List.append_assoc]
        exact List.rel_append hss (.cons (Facts.sees_none _) (.cons (Facts.sees_none _) .nil))
  | some e =>
      have hss := Facts.sees_stmts hc _ ss hin.1 ht.1
      rw [Block.bodyPoints, Block.bodyLoads]
      split
      · exact ⟨_, _, List.append_assoc _ _ _, by rwa [List.append_nil]⟩
      · refine ⟨_, [], (List.append_nil _).symm, ?_⟩
        rw [List.append_assoc]
        exact List.rel_append hss ((Facts.seesAll_expr hc e [] hin.2).before _)

/-- **Offsets.** A symbol that is loaded at an offset is known, and if it has a slot in a frame,
then the function has it there. -/
theorem Analyzed.Accepted.sees {a : Analyzed} (hacc : a.Accepted) {function pc : Nat} {p : Point}
    (hp : a.chart function pc = some p) :
    a.facts.Sees function (some p) (a.loadedAt function pc) := by
  unfold Analyzed.chart Chart.ofList at hp
  unfold Analyzed.loadedAt
  cases hb : a.bodies.lookup function with
  | none => simp [hb] at hp
  | some b =>
      rw [hb] at hp
      rw [Option.map_some, Option.getD_some] at hp ⊢
      obtain ⟨ys, zs, he, hsees⟩ := (hacc.accepts_of_lookup hb).sees hacc.coherent
      obtain ⟨hlt, hpoint⟩ := List.getElem?_eq_some_iff.mp (Option.join_eq_some_iff.mp hp)
      have hlt' : pc < ys.length := hsees.length_eq ▸ hlt
      have := hsees.get hlt hlt'
      rw [List.get_eq_getElem, List.get_eq_getElem, hpoint] at this
      rwa [he, List.getElem?_append_left hlt', List.getElem?_eq_getElem hlt', Option.join_some]

end Parlance
