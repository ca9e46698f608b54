import Parlance.Proofs.Analysis.Scoping
import Parlance.Proofs.Code.Pool
import Parlance.Proofs.Optimizer.Consistency

/-!
# Where the code of expressions stands

The code of an expression is part of the code around it. Code generation leaves out only what
is not evaluated: the target of an assignment, and a value that is loaded only to be dropped.
Assignments to items are never left out, so each of them has its code somewhere in the routine
of its function.

## Main results

* `Generate.holds_expr`, `Generate.holds_stmt`: the code of expressions and statements has the
  code of the assignments to items in them.
* `Image.Assembled.exists_site`: every assignment to an item has its place in a routine.
-/

namespace Parlance

/-- An assignment to an item of a list: `base[index] = value`. -/
inductive Expr.AssignsItem : Expr → Prop
  | intro (n n' : Note) (base index value : Expr) :
      AssignsItem (.assign n (.index n' base index) value)

/-- Wherever `a` is placed, `b` is placed inside it. -/
def Fragment.Surrounds (a b : Fragment) : Prop :=
  ∀ code offset loop, a.Placed code offset loop →
    ∃ offset' loop', b.Placed code offset' loop'

/-- The code `a` has the code of the assignments to items among some expressions. -/
structure Generate.Holds (final : Array Const) (x : GenerateContext) (es : List Expr)
    (a : Fragment) : Prop where
  sized : a.Sized
  surrounds : ∀ e ∈ es, e.AssignsItem →
    ∃ b, Yields final (expr x e) b ∧ a.Surrounds b

namespace Generate

variable {final : Array Const} {x : GenerateContext} {es fs gs : List Expr}
  {a b c test : Fragment}

namespace Holds

/-- Code with nothing to be found in it. -/
theorem nothing (h : a.Sized) : Holds final x [] a :=
  ⟨h, nofun⟩

/-- Other expressions do not matter. -/
theorem skip {e : Expr} (he : ¬ e.AssignsItem) (h : Holds final x es a) :
    Holds final x (e :: es) a := by
  refine ⟨h.sized, fun d hd hi => ?_⟩
  rcases List.mem_cons.mp hd with rfl | hd
  · exact absurd hi he
  · exact h.surrounds d hd hi

/-- The code of an assignment is inside itself. -/
theorem self {e : Expr} (ha : Yields final (expr x e) a) (h : Holds final x es a) :
    Holds final x (e :: es) a := by
  refine ⟨h.sized, fun d hd hi => ?_⟩
  rcases List.mem_cons.mp hd with rfl | hd
  · exact ⟨a, ha, fun _ offset loop hp => ⟨offset, loop, hp⟩⟩
  · exact h.surrounds d hd hi

/-- What some code has, the code around it has. -/
theorem outward (ha : Holds final x es a) (hc : c.Sized) (hca : c.Surrounds a) :
    Holds final x es c := by
  refine ⟨hc, fun e he hi => ?_⟩
  obtain ⟨d, hd, hs⟩ := ha.surrounds e he hi
  refine ⟨d, hd, fun code offset loop hp => ?_⟩
  obtain ⟨offset', loop', hp'⟩ := hca code offset loop hp
  exact hs code offset' loop' hp'

/-- Code that has those of two lists of expressions has those of both. -/
theorem both (ha : Holds final x es a) (hb : Holds final x fs a) :
    Holds final x (es ++ fs) a := by
  refine ⟨ha.sized, fun e he => ?_⟩
  rcases List.mem_append.mp he with he | he
  · exact ha.surrounds e he
  · exact hb.surrounds e he

/-- Code in a row has the assignments of both its parts. -/
theorem append (ha : Holds final x es a) (hb : Holds final x fs b) :
    Holds final x (es ++ fs) (a ++ b) := by
  have hc := ha.sized.append hb.sized
  refine (ha.outward hc fun _ _ _ hp => ?_).both (hb.outward hc fun _ _ _ hp => ?_)
  · exact ⟨_, _, (ha.sized.placed_append.mp hp).1⟩
  · exact ⟨_, _, (ha.sized.placed_append.mp hp).2⟩

/-- Code with some more behind it. -/
theorem before (ha : Holds final x es a) (hb : b.Sized) : Holds final x es (a ++ b) := by
  simpa using ha.append (nothing hb)

/-- Code behind a test has the assignments of the test and of the code. -/
theorem skipping (ha : Holds final x es a) (hb : Holds final x fs b) (jump : Nat → Instr) :
    Holds final x (es ++ fs) (.skipping jump a b) := by
  have hc := ha.sized.skipping hb.sized jump
  refine (ha.outward hc fun _ _ _ hp => ?_).both (hb.outward hc fun _ _ _ hp => ?_)
  · exact ⟨_, _, (ha.sized.placed_skipping.mp hp).1⟩
  · exact ⟨_, _, (ha.sized.placed_skipping.mp hp).2.2⟩

/-- A choice has the assignments of its test and of both branches. -/
theorem choice (ht : Holds final x es test) (ha : Holds final x fs a)
    (hb : Holds final x gs b) : Holds final x (es ++ (fs ++ gs)) (.choice test a b) := by
  have hc := ht.sized.choice ha.sized hb.sized
  refine (ht.outward hc fun _ _ _ hp => ?_).both
    ((ha.outward hc fun _ _ _ hp => ?_).both (hb.outward hc fun _ _ _ hp => ?_))
  · exact ⟨_, _, ((ht.sized.placed_choice ha.sized).mp hp).1⟩
  · exact ⟨_, _, ((ht.sized.placed_choice ha.sized).mp hp).2.2.1⟩
  · exact ⟨_, _, ((ht.sized.placed_choice ha.sized).mp hp).2.2.2.2⟩

/-- An endless loop has the assignments of its body. -/
theorem forever (ha : Holds final x es a) : Holds final x es (.forever a) :=
  ha.outward ha.sized.forever fun _ _ _ hp => ⟨_, _, (ha.sized.placed_forever.mp hp).1⟩

/-- A loop with a test has the assignments of its test and of its body. -/
theorem whileTrue (ht : Holds final x es test) (ha : Holds final x fs a) :
    Holds final x (es ++ fs) (.whileTrue test a) := by
  have hc := ht.sized.whileTrue ha.sized
  refine (ht.outward hc fun _ _ _ hp => ?_).both (ha.outward hc fun _ _ _ hp => ?_)
  · exact ⟨_, _, ((ht.sized.placed_whileTrue ha.sized).mp hp).1⟩
  · exact ⟨_, _, ((ht.sized.placed_whileTrue ha.sized).mp hp).2.2.1⟩

end Holds

/-- Any code has the assignments among no expressions. -/
theorem holds_nothing {m : Generate Fragment} (h : Produces Fragment.Sized m) :
    Gives final (Holds final x []) m :=
  h.gives.mono fun _ => Holds.nothing

/-- Code of an expression has the expression too, if it is an assignment. -/
theorem gives_self {e : Expr} (h : Gives final (Holds final x es) (expr x e)) :
    Gives final (Holds final x (e :: es)) (expr x e) :=
  ⟨h.1, fun a ha => (h.2 a ha).self ha⟩

variable {live : List Nat}

mutual

/-- **Expressions.** The code of an expression has that of the assignments to items in it, one
behind the other, each as a fragment that is placed as a whole. -/
theorem holds_expr : ∀ e : Expr, e.Scoped x.facts x.function live →
    Gives final (Holds final x e.parts) (expr x e)
  | .lit _ v, _ => by
      rw [expr]
      exact (holds_nothing (produces_loadConst v.isCanonical_toConst)).mono fun _ => .skip nofun
  | .ident _ _, _ => by
      rw [expr]
      exact (holds_nothing produces_load).mono fun _ => .skip nofun
  | .lambda _ _ _, _ => by
      rw [expr]
      exact (holds_nothing produces_lambda).mono fun _ => .skip nofun
  | .unary _ _ e, h => by
      rw [expr]
      exact (holds_expr e h).bind fun a => gives_pure fun ha => .skip nofun (ha.before (by simp))
  | .cast _ e _, h => by
      rw [expr]
      exact (holds_expr e h).bind fun a => gives_pure fun ha => .skip nofun (ha.before (by simp))
  | .binary _ op l r, h => by
      rw [expr]
      refine (holds_expr l h.1).bind fun a => (holds_expr r h.2).bind fun b => ?_
      split
      · exact gives_pure fun hb ha => .skip nofun ((ha.append hb).before (by simp))
      · exact gives_pure fun hb ha => .skip nofun (ha.skipping hb _)
  | .assign _ (.ident _ _) value, h => by
      rw [expr]
      · exact (holds_expr value h.1).bind fun a => produces_store.gives.bind fun b =>
          gives_pure fun hb ha => .skip nofun (.skip nofun ((ha.before (by simp)).before hb))
      · intros
        contradiction
  | .assign _ (.index _ (.ident t name) index) value, h => by
      refine gives_self ?_
      rw [expr]
      refine produces_load.gives.bind fun a => (holds_expr index h.1).bind fun b =>
        (holds_expr value h.2.1).bind fun c => produces_store.gives.bind fun d =>
          gives_pure fun hd hc hb ha => ?_
      have hparts : Holds final x (index.parts ++ value.parts)
          (a ++ b ++ c ++ .one .setItem ++ d) :=
        ((((Holds.nothing ha).append hb).append hc).before (by simp)).before hd
      exact .skip nofun (.skip nofun hparts)
  | .call _ callee args, h => by
      rw [expr]
      exact (holds_expr callee h.1).bind fun a => (holds_exprs args h.2).bind fun b =>
        gives_pure fun hb ha => .skip nofun ((ha.append hb).before (by simp))
  | .index _ target index, h => by
      rw [expr]
      exact (holds_expr target h.1).bind fun a => (holds_expr index h.2).bind fun b =>
        gives_pure fun hb ha => .skip nofun ((ha.append hb).before (by simp))
  | .list _ items, h => by
      rw [expr]
      exact (holds_exprs items h).bind fun a =>
        gives_pure fun ha => .skip nofun (ha.before (by simp))

/-- The code of expressions has the assignments among all their parts. -/
theorem holds_exprs : ∀ es : List Expr, Expr.AllScoped x.facts x.function live es →
    Gives final (Holds final x (Expr.partsOf es)) (exprs x es)
  | [], _ => by
      rw [exprs]
      exact gives_pure (.nothing (by simp))
  | e :: es, h => by
      rw [exprs]
      exact (holds_expr e h.1).bind fun a => (holds_exprs es h.2).bind fun b =>
        gives_pure fun hb ha => ha.append hb

end

/-- The same for an expression whose value is not used. If its code is left out, it was a single
load, so no assignment to an item is lost with it. -/
theorem holds_discard (e : Expr) (h : e.Scoped x.facts x.function live) :
    Gives final (Holds final x e.parts) (discard x e) := by
  unfold discard
  split
  · next target value hassigned =>
      obtain ⟨n, rfl, hne⟩ := Expr.assigned?_eq_some hassigned
      obtain ⟨n', name, rfl⟩ := h.eq_ident hne
      refine (holds_expr value h.1).bind fun a => produces_store.gives.bind fun b =>
        gives_pure fun hb ha => .skip nofun (.skip nofun ?_)
      split
      · exact ha.before hb
      · exact ((ha.before (by simp)).before hb).before (by simp)
  · refine (holds_expr e h).bind fun a => gives_pure fun ha => ?_
    split
    · next hload =>
        -- What is dropped is no assignment.
        have hnot : e.parts = [e] ∧ ¬ e.AssignsItem := by
          cases e <;> first
            | exact ⟨rfl, nofun⟩
            | simp [isLoad] at hload
        rw [hnot.1]
        exact .skip hnot.2 (.nothing (by simp))
    · exact ha.before (by simp)

mutual

/-- **Statements.** The code of a statement has that of the assignments to items in it, which are
those in the expressions at its roots. -/
theorem holds_stmt : ∀ (inLoop : Bool) (s : Stmt) {live : List Nat},
    s.Scoped x.facts x.function live →
      Gives final (Holds final x (s.roots.flatMap Expr.parts)) (stmt x inLoop s)
  | inLoop, .block b, _, h => by
      rw [stmt]
      exact holds_block inLoop b h
  | _, .letVar _ _ _ e, _, h => by
      rw [stmt, Stmt.roots, List.flatMap_singleton]
      exact (holds_expr e h.1).bind fun a => produces_store.gives.bind fun b =>
        gives_pure fun hb ha => ha.before hb
  | _, .fnDecl _ _ _ _, _, _ => by
      rw [stmt]
      exact gives_pure (.nothing (by simp))
  | _, .ret _ none, _, _ => by
      rw [stmt]
      exact (holds_nothing (produces_result none)).bind fun a =>
        gives_pure fun ha => ha.before (by simp)
  | _, .ret _ (some e), _, h => by
      rw [stmt, Stmt.roots, List.flatMap_singleton]
      exact (holds_expr e h).bind fun a => gives_pure fun ha => ha.before (by simp)
  | inLoop, .cond _ test yes none, _, h => by
      rw [stmt, Stmt.roots, List.flatMap_cons]
      exact (holds_expr test h.1).bind fun a => (holds_block inLoop yes h.2).bind fun b =>
        gives_pure fun hb ha => ha.skipping hb _
  | inLoop, .cond _ test yes (some no), _, h => by
      rw [stmt, Stmt.roots, List.flatMap_cons, List.flatMap_append]
      exact (holds_expr test h.1).bind fun a => (holds_block inLoop yes h.2.1).bind fun b =>
        (holds_stmt inLoop no h.2.2).bind fun c => gives_pure fun hc hb ha => ha.choice hb hc
  | _, .whileLoop _ test b, _, h => by
      rw [stmt, Stmt.roots, List.flatMap_cons]
      exact (holds_expr test h.1).bind fun a => (holds_block true b h.2).bind fun b =>
        gives_pure fun hb ha => ha.whileTrue hb
  | _, .loop _ b, _, h => by
      rw [stmt]
      exact (holds_block true b h).bind fun a => gives_pure fun ha => ha.forever
  | inLoop, .breakLoop n, _, _ => holds_nothing (produces_stmt inLoop (.breakLoop n))
  | inLoop, .continueLoop n, _, _ => holds_nothing (produces_stmt inLoop (.continueLoop n))
  | _, .expr _ e, _, h => by
      rw [stmt, Stmt.roots, List.flatMap_singleton]
      exact holds_discard e h

/-- The same for statements in a row. -/
theorem holds_stmts : ∀ (inLoop : Bool) (ss : List Stmt) {live : List Nat},
    Stmt.AllScoped x.facts x.function live ss →
      Gives final (Holds final x ((Stmt.rootsOf ss).flatMap Expr.parts)) (stmts x inLoop ss)
  | _, [], _, _ => by
      rw [stmts]
      exact gives_pure (.nothing (by simp))
  | inLoop, s :: ss, _, h => by
      rw [stmts, Stmt.rootsOf, List.flatMap_append]
      exact (holds_stmt inLoop s h.1).bind fun a => (holds_stmts inLoop ss h.2).bind fun b =>
        gives_pure fun hb ha => ha.append hb

/-- The same for a block. -/
theorem holds_block : ∀ (inLoop : Bool) (b : Block) {live : List Nat},
    b.Scoped x.facts x.function live →
      Gives final (Holds final x b.expressions) (block x inLoop b)
  | inLoop, .mk _ ss none, _, h => by
      rw [block]
      exact holds_stmts inLoop ss h
  | inLoop, .mk _ ss (some e), _, h => by
      rw [block, Block.expressions, Block.roots, List.flatMap_append, List.flatMap_singleton]
      exact (holds_stmts inLoop ss h.1).bind fun a => (holds_discard e h.2).bind fun b =>
        gives_pure fun hb ha => ha.append hb

end

/-- **Functions.** So has the code of a function. -/
theorem holds_body {b : Block} (h : b.Scoped x.facts x.function live) :
    Gives final (Holds final x b.expressions) (body x b) := by
  obtain ⟨n, ss, tail⟩ := b
  rw [Block.expressions, Block.roots_mk, List.flatMap_append]
  obtain ⟨hss, htail⟩ := Block.scoped_mk.mp h
  cases tail with
  | some e =>
      rw [body]
      simp only [Option.toList_some, List.flatMap_singleton]
      exact (holds_stmts false ss hss).bind fun a => (holds_expr e (htail e rfl)).bind fun b =>
        gives_pure fun hb ha => (ha.append hb).before (by simp)
  | none =>
      rw [body]
      simp only [Option.toList_none, List.flatMap_nil, List.append_nil]
      refine (holds_stmts false ss hss).bind fun a => ?_
      split
      · exact gives_pure id
      · exact (produces_loadConst (c := .unit) trivial).gives.bind fun b =>
          gives_pure fun hb ha => (ha.before hb).before (by simp)

end Generate

/-! ### Images -/

/-- **Sites.** Every assignment to an item in the body of a function has its code in the routine
of the function. -/
theorem Image.Assembled.exists_site {a : Analyzed} {image : Image} (h : image.Assembled a)
    {f : Nat} {b : Block} (hb : a.bodies.lookup f = some b) (hfits : a.facts.Fits f b) {e : Expr}
    (he : e ∈ b.expressions) (hi : e.AssignsItem) :
    ∃ r code offset loop, image.routines[f]? = some r ∧
      Generate.Yields image.consts (Generate.expr ⟨a.facts, f, true⟩ e) code ∧
      code.Placed r.code offset loop := by
  obtain ⟨b', whole, hb', hsized, hyields, hr⟩ :=
    h.routine f _ (Array.getElem?_eq_getElem hfits.lt)
  obtain rfl : b = b' := Option.some.inj (hb.symm.trans hb')
  obtain ⟨code, hcode, hs⟩ :=
    ((Generate.holds_body hfits.inScope).2 whole hyields).surrounds e he hi
  obtain ⟨offset, loop, hp⟩ := hs _ _ _ whole.placed_code
  exact ⟨_, code, offset, loop, hr, hcode, hp⟩

end Parlance
