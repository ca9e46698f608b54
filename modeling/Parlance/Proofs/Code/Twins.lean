import Parlance.Proofs.Code.Detours

/-!
# Code for one tree, short and with detours

Code generation is followed twice: as it is, and with everything in place that it leaves out.
Both parts find what they need, and what the second one gives is the twin of what the first one
gives.

The pools differ. If the last statement of a function is a dropped load behind a return, the short
code ends with the return. The code with detours does not, and loads a result, which may be a new
constant.

## Main definitions

* `Generate.Together`: two parts of code generation succeed together.
* `Image.Twins`: the routines of two images do the same.

## Main results

* `Generate.together_expr`, `Generate.together_stmt`: the induction over trees.
* `exists_twins`: every tree that has short code has code with detours.
-/

namespace Parlance

/-- The same code generation, which leaves nothing out. -/
def GenerateContext.plain (x : GenerateContext) : GenerateContext :=
  { x with tidy := false }

namespace Generate

/-! ### Two parts of code generation -/

/-- A pool grew, and still has no constant twice. -/
structure Grown (before after : Array Const) : Prop where
  extends_ : Extends before after
  distinct : Distinct after

/-- **Success together.** Where the first part of code generation succeeds, the second one does,
each with a pool of its own. What they give is related on the way to any finished pools. -/
def Together {α : Type} (P : Array Const → Array Const → α → α → Prop) (m m' : Generate α) : Prop :=
  ∀ consts consts' a after, Distinct consts → Distinct consts' → m consts = .ok (a, after) →
    ∃ a' after', m' consts' = .ok (a', after') ∧ Grown consts after ∧ Grown consts' after' ∧
      ∀ final final', Extends after final → Extends after' final' → P final final' a a'

section Rules

variable {α β : Type} {P : Array Const → Array Const → α → α → Prop}
  {Q : Array Const → Array Const → β → β → Prop}

/-- Two parts that both give a result at once succeed together if the results are related for all
finished pools. -/
theorem together_pure {a a' : α} (h : ∀ final final', P final final' a a') :
    Together P (pure a : Generate α) (pure a') := by
  intro consts consts' b after hd hd' he
  cases he
  exact ⟨a', consts', rfl, ⟨.refl _, hd⟩, ⟨.refl _, hd'⟩, fun final final' _ _ => h final final'⟩

/-- A part that always fails succeeds together with anything. -/
theorem together_unresolved {range : Range} {m' : Generate α} :
    Together P (unresolved range : Generate α) m' := by
  intro consts consts' a after hd hd' he
  cases he

/-- A pool that grew twice grew. -/
theorem Grown.trans {a b c : Array Const} (hab : Grown a b) (hbc : Grown b c) : Grown a c :=
  ⟨hab.extends_.trans hbc.extends_, hbc.distinct⟩

/-- **Sequences.** Parts that succeed together may be put one after the other. The rest may rely on
the relation between what the first parts gave, which holds for some finished pools at least. -/
theorem Together.bind {m m' : Generate α} {f f' : α → Generate β} (hm : Together P m m')
    (hf : ∀ a a', (∃ final final', P final final' a a') →
      Together (fun final final' b b' => P final final' a a' → Q final final' b b') (f a) (f' a')) :
    Together Q (m >>= f) (m' >>= f') := by
  intro consts consts' b after hd hd' he
  obtain ⟨a, mid, ha, hb⟩ := bind_eq_ok he
  obtain ⟨a', mid', ha', hg, hg', hP⟩ := hm consts consts' a mid hd hd' ha
  obtain ⟨b', after', hb', hh, hh', hQ⟩ := hf a a' ⟨mid, mid', hP _ _ (.refl _) (.refl _)⟩ mid mid'
    b after hg.distinct hg'.distinct hb
  refine ⟨b', after', bind_of_ok ha' hb', hg.trans hh, hg'.trans hh', fun final final' hx hx' => ?_⟩
  exact hQ final final' hx hx' (hP final final' (hh.extends_.trans hx) (hh'.extends_.trans hx'))

/-- What the second part gives, gives a property. -/
theorem Together.and_produces {R : α → Prop} {m m' : Generate α} (hm : Together P m m')
    (hR : Produces R m') : Together (fun final final' a a' => P final final' a a' ∧ R a') m m' := by
  intro consts consts' a after hd hd' he
  obtain ⟨a', after', ha', hg, hg', hP⟩ := hm consts consts' a after hd hd' he
  exact ⟨a', after', ha', hg, hg', fun final final' hx hx' =>
    ⟨hP final final' hx hx', (hR consts' a' after' hd' ha').2.2⟩⟩

end Rules

/-- Two parts of code generation succeed together with fragments that are twins. -/
abbrev Paired (inLoop : Bool) (m m' : Generate Fragment) : Prop :=
  Together (fun final final' a a' => Fragment.Twins final final' inLoop a a') m m'

/-! ### Loads and stores -/

variable {x : GenerateContext} {inLoop : Bool}

open Fragment

/-- A canonical constant is loaded by twins, though it may have another place in each pool. -/
theorem paired_loadConst {c : Const} (hc : c.IsCanonical) :
    Paired inLoop (loadConst c) (loadConst c) := by
  intro consts consts' a after hd hd' he
  obtain ⟨hx, hd, i, rfl, hi⟩ := loadConst_eq_ok hd hc he
  obtain ⟨a', after', he'⟩ := exists_loadConst c consts'
  obtain ⟨hx', hd', i', rfl, hi'⟩ := loadConst_eq_ok hd' hc he'
  exact ⟨_, after', he', ⟨hx, hd⟩, ⟨hx', hd'⟩, fun final final' hx hx' =>
    twins_one fun To => ⟨c, i', hx i c hi, hx' i' c hi', rfl⟩⟩

/-- An instruction that has no pool index and no jump target is its own twin. -/
theorem paired_one {i : Instr} (h : i.isOwnTwin = true) :
    Paired inLoop (pure (.one i)) (pure (.one i)) :=
  together_pure fun _ _ => twins_self h

/-! Loads and stores are never left out as such: they do not depend on what is shortened. -/

/-- Loads do not look at what is left out. -/
theorem load_plain (n : Note) : load x.plain n = load x n := rfl

/-- Stores do not look at what is left out. -/
theorem store_plain (n : Note) : store x.plain n = store x n := rfl

/-- Loads of captured variables do not look at what is left out. -/
theorem loadAllCaptured_plain (range : Range) (captures : List Nat) :
    loadAllCaptured x.plain range captures = loadAllCaptured x range captures := by
  induction captures with
  | nil => rfl
  | cons symbol rest ih =>
      rw [loadAllCaptured, loadAllCaptured, ih]
      rfl

/-- Closures do not look at what is left out. -/
theorem lambda_plain (n : Note) : lambda x.plain n = lambda x n := by
  unfold lambda
  simp only [loadAllCaptured_plain]
  rfl

/-- A variable is loaded by the same instruction with both settings. -/
theorem paired_loadVariable {symbol slot owner : Nat} {range : Range} :
    Paired inLoop (loadVariable x symbol slot owner range)
      (loadVariable x symbol slot owner range) := by
  unfold loadVariable
  split
  · exact paired_one rfl
  · split
    · exact paired_one rfl
    · exact together_unresolved

/-- The load of a name is paired with itself. -/
theorem paired_load {n : Note} : Paired inLoop (load x n) (load x n) := by
  unfold load
  split
  · exact together_unresolved
  · split
    · exact paired_one rfl
    · exact paired_loadVariable
    · exact paired_loadConst trivial
    · exact paired_loadConst trivial

/-- The captured variables of a closure are loaded in the same order with both settings. -/
theorem paired_loadAllCaptured {range : Range} (captures : List Nat) :
    Paired inLoop (loadAllCaptured x range captures) (loadAllCaptured x range captures) := by
  induction captures with
  | nil => exact together_pure fun _ _ => twins_empty
  | cons symbol rest ih =>
      have hload : Paired inLoop (loadCaptured x range symbol) (loadCaptured x range symbol) := by
        unfold loadCaptured
        split
        · exact paired_loadVariable
        · exact together_unresolved
      exact hload.bind fun a a' _ => ih.bind fun b b' _ =>
        together_pure fun _ _ hb ha => ha.append hb

/-- A closure is built by the same code with both settings, since its body is emitted elsewhere. -/
theorem paired_lambda {n : Note} : Paired inLoop (lambda x n) (lambda x n) := by
  unfold lambda
  split
  · exact together_unresolved
  · split
    · exact paired_loadConst trivial
    · exact (paired_loadAllCaptured _).bind fun a a' _ =>
        together_pure fun _ _ ha => ha.append (twins_self rfl)

/-- Both parts store with the same instruction. -/
theorem together_store {n : Note} :
    Together (fun _ _ a a' => ∃ i, i.isStore = true ∧ a = .one i ∧ a' = .one i)
      (store x n) (store x n) := by
  unfold store
  split
  · exact together_unresolved
  · split
    · exact together_pure fun _ _ => ⟨_, rfl, rfl, rfl⟩
    · split
      · exact together_pure fun _ _ => ⟨_, rfl, rfl, rfl⟩
      · exact together_unresolved
    · exact together_unresolved

/-- A store is paired with itself. -/
theorem paired_store {n : Note} : Paired inLoop (store x n) (store x n) := by
  intro consts consts' a after hd hd' he
  obtain ⟨a', after', he', hg, hg', h⟩ := together_store consts consts' a after hd hd' he
  refine ⟨a', after', he', hg, hg', fun final final' hx hx' => ?_⟩
  obtain ⟨i, hi, rfl, rfl⟩ := h final final' hx hx'
  exact twins_self (Instr.isOwnTwin_of_isStore hi)

/-- The code of an expression that is a load is a load. For a function value this holds if it
captures nothing, as it is a constant then. -/
theorem produces_isLoad {e : Expr} (h : isLoad x e = true) :
    Produces (fun a => ∃ i, i.isLoad = true ∧ a = .one i) (expr x e) := by
  have hconst : ∀ c : Const, c.IsCanonical →
      Produces (fun a => ∃ i, i.isLoad = true ∧ a = .one i) (loadConst c) := by
    intro c hc consts a after hd he
    obtain ⟨hx, hd', i, rfl, -⟩ := loadConst_eq_ok hd hc he
    exact ⟨hx, hd', _, rfl, rfl⟩
  cases e with
  | lit n v =>
      rw [expr]
      exact hconst _ v.isCanonical_toConst
  | ident n name =>
      rw [expr, load]
      split
      · exact produces_unresolved
      · split
        · exact produces_pure ⟨_, rfl, rfl⟩
        · unfold loadVariable
          split
          · exact produces_pure ⟨_, rfl, rfl⟩
          · split
            · exact produces_pure ⟨_, rfl, rfl⟩
            · exact produces_unresolved
        · exact hconst _ trivial
        · exact hconst _ trivial
  | lambda n params b =>
      rw [expr, lambda]
      split
      · exact produces_unresolved
      · next f hf =>
          have hnil : x.facts.captures f = [] := by simpa [isLoad, hf] using h
          rw [hnil]
          exact hconst _ trivial
  | _ => cases h

/-! ### Expressions -/

/-- The jump of a short-circuit operator is its own twin, up to where the targets lie. -/
theorem twin_skipJump (op : LogicalOp) {consts consts' : Array Const} (To : Nat → Nat → Prop)
    (t t' : Nat) (h : To t t') : (op.skipJump t).Twin consts consts' To (op.skipJump t') := by
  cases op <;> exact ⟨t', h, rfl⟩

mutual

/-- **Expressions.** Nothing is left out of the code of an expression, so the two codes differ only
in where their jumps go. -/
theorem paired_expr : ∀ e : Expr, Paired inLoop (expr x e) (expr x.plain e)
  | .lit _ v => by
      rw [expr, expr]
      exact paired_loadConst v.isCanonical_toConst
  | .ident n _ => by
      rw [expr, expr, load_plain]
      exact paired_load
  | .unary _ _ e => by
      rw [expr, expr]
      exact (paired_expr e).bind fun a a' _ =>
        together_pure fun _ _ ha => ha.append (twins_self rfl)
  | .binary _ op l r => by
      rw [expr, expr]
      refine (paired_expr l).bind fun a a' _ => (paired_expr r).bind fun b b' _ => ?_
      split
      · exact together_pure fun _ _ hb ha => (ha.append hb).append (twins_self rfl)
      · exact together_pure fun _ _ hb ha => ha.skipping hb (twin_skipJump _)
  | .assign _ target value => by
      cases target with
      | index _ base index =>
          rw [expr, expr, load_plain, store_plain]
          exact paired_load.bind fun a a' _ => (paired_expr index).bind fun b b' _ =>
            (paired_expr value).bind fun c c' _ => paired_store.bind fun d d' _ =>
              together_pure fun _ _ hd hc hb ha =>
                (((ha.append hb).append hc).append (twins_self (i := .setItem) rfl)).append hd
      | _ =>
          rw [expr, expr, store_plain]
          · exact (paired_expr value).bind fun a a' _ => paired_store.bind fun b b' _ =>
              together_pure fun _ _ hb ha => (ha.append (twins_self (i := .copy) rfl)).append hb
          all_goals
            intros
            contradiction
  | .call _ callee args => by
      rw [expr, expr]
      exact (paired_expr callee).bind fun a a' _ => (paired_exprs args).bind fun b b' _ =>
        together_pure fun _ _ hb ha => (ha.append hb).append (twins_self rfl)
  | .index _ target index => by
      rw [expr, expr]
      exact (paired_expr target).bind fun a a' _ => (paired_expr index).bind fun b b' _ =>
        together_pure fun _ _ hb ha => (ha.append hb).append (twins_self rfl)
  | .list _ items => by
      rw [expr, expr]
      exact (paired_exprs items).bind fun a a' _ =>
        together_pure fun _ _ ha => ha.append (twins_self rfl)
  | .cast _ e _ => by
      rw [expr, expr]
      exact (paired_expr e).bind fun a a' _ =>
        together_pure fun _ _ ha => ha.append (twins_self rfl)
  | .lambda n _ _ => by
      rw [expr, expr, lambda_plain]
      exact paired_lambda

/-- Lists of expressions are paired, one expression after the other. -/
theorem paired_exprs : ∀ es : List Expr, Paired inLoop (exprs x es) (exprs x.plain es)
  | [] => by
      rw [exprs, exprs]
      exact together_pure fun _ _ => twins_empty
  | e :: es => by
      rw [exprs, exprs]
      exact (paired_expr e).bind fun a a' _ => (paired_exprs es).bind fun b b' _ =>
        together_pure fun _ _ hb ha => ha.append hb

end

/-! ### Statements -/

/-- **Shortening.** Where the code of a dropped expression is shortened, the code with detours
stores between a copy and a drop, or loads and drops. -/
theorem paired_discard (ht : x.tidy = true) (e : Expr) :
    Paired inLoop (discard x e) (discard x.plain e) := by
  have hexpr : ∀ e, Paired inLoop (expr x e) (expr x.plain e) := paired_expr
  unfold discard
  split
  · refine (hexpr _).bind fun a a' _ => together_store.bind fun b b' _ => ?_
    rw [if_pos ht, if_neg (by simp [GenerateContext.plain])]
    refine together_pure fun final final' hb ha => ?_
    obtain ⟨i, hi, rfl, rfl⟩ := hb
    rw [append_assoc, append_assoc]
    exact ha.append (twins_store hi)
  · by_cases hl : isLoad x e = true
    · refine ((hexpr e).and_produces (produces_isLoad (x := x.plain) hl)).bind fun a a' _ => ?_
      rw [if_pos (by simp [ht, hl]), if_neg (by simp [GenerateContext.plain])]
      refine together_pure fun final final' ha => ?_
      obtain ⟨-, i, hi, rfl⟩ := ha
      exact twins_load hi
    · refine (hexpr e).bind fun a a' _ => ?_
      rw [if_neg (by simp [hl]), if_neg (by simp [GenerateContext.plain])]
      exact together_pure fun _ _ ha => ha.append (twins_self rfl)

/-- The result of a block is paired, also the unit that stands for a missing one. -/
theorem paired_result (value : Option Expr) :
    Paired inLoop (result x value) (result x.plain value) := by
  cases value with
  | none => exact paired_loadConst trivial
  | some e => exact paired_expr e

mutual

/-- **Statements.** The code of a statement and the one with nothing left out go in step, but for
the values that are not used. -/
theorem paired_stmt (ht : x.tidy = true) : ∀ (inLoop : Bool) (s : Stmt),
    Paired inLoop (stmt x inLoop s) (stmt x.plain inLoop s)
  | inLoop, .block b => by
      rw [stmt, stmt]
      exact paired_block ht inLoop b
  | _, .letVar n _ _ init => by
      rw [stmt, stmt, store_plain]
      exact (paired_expr init).bind fun a a' _ => paired_store.bind fun b b' _ =>
        together_pure fun _ _ hb ha => ha.append hb
  | _, .fnDecl _ _ _ _ => by
      rw [stmt, stmt]
      exact together_pure fun _ _ => twins_empty
  | _, .ret _ value => by
      rw [stmt, stmt]
      exact (paired_result value).bind fun a a' _ =>
        together_pure fun _ _ ha => ha.append (twins_self rfl)
  | inLoop, .cond _ test yes none => by
      rw [stmt, stmt]
      exact (paired_expr test).bind fun a a' _ => (paired_block ht inLoop yes).bind fun b b' _ =>
        together_pure fun _ _ hb ha => ha.skipping hb fun _ _ t' h => ⟨t', h, rfl⟩
  | inLoop, .cond _ test yes (some no) => by
      rw [stmt, stmt]
      exact (paired_expr test).bind fun a a' _ => (paired_block ht inLoop yes).bind fun b b' _ =>
        (paired_stmt ht inLoop no).bind fun c c' _ =>
          together_pure fun _ _ hc hb ha => ha.choice hb hc
  | _, .whileLoop _ test body => by
      rw [stmt, stmt]
      exact (paired_expr test).bind fun a a' _ => (paired_block ht true body).bind fun b b' _ =>
        together_pure fun _ _ hb ha => ha.whileTrue hb
  | _, .loop _ body => by
      rw [stmt, stmt]
      exact (paired_block ht true body).bind fun a a' _ => together_pure fun _ _ ha => ha.forever
  | inLoop, .breakLoop n => by
      rw [stmt, stmt]
      split
      · next hin => exact together_pure fun _ _ => hin ▸ twins_breakLoop
      · exact together_unresolved
  | inLoop, .continueLoop n => by
      rw [stmt, stmt]
      split
      · next hin => exact together_pure fun _ _ => hin ▸ twins_continueLoop
      · exact together_unresolved
  | _, .expr _ e => by
      rw [stmt, stmt]
      exact paired_discard ht e

/-- Statements in a row are paired. The induction is on the list, together with the statements and
blocks inside. -/
theorem paired_stmts (ht : x.tidy = true) : ∀ (inLoop : Bool) (ss : List Stmt),
    Paired inLoop (stmts x inLoop ss) (stmts x.plain inLoop ss)
  | _, [] => by
      rw [stmts, stmts]
      exact together_pure fun _ _ => twins_empty
  | inLoop, s :: ss => by
      rw [stmts, stmts]
      exact (paired_stmt ht inLoop s).bind fun a a' _ =>
        (paired_stmts ht inLoop ss).bind fun b b' _ =>
          together_pure fun _ _ hb ha => ha.append hb

/-- Blocks are paired: their statements and then their result. -/
theorem paired_block (ht : x.tidy = true) : ∀ (inLoop : Bool) (b : Block),
    Paired inLoop (block x inLoop b) (block x.plain inLoop b)
  | inLoop, .mk _ ss none => by
      rw [block, block]
      exact paired_stmts ht inLoop ss
  | inLoop, .mk _ ss (some e) => by
      rw [block, block]
      exact (paired_stmts ht inLoop ss).bind fun a a' _ => (paired_discard ht e).bind fun b b' _ =>
        together_pure fun _ _ hb ha => ha.append hb

end

/-! ### Functions -/

/-- **Functions.** Behind a return, the code with detours may load a result that the short code
does not have. Control does not come there. -/
theorem together_body (ht : x.tidy = true) (b : Block) :
    Together (fun final final' a a' => ∃ chart, Chart.Guides final final' a.code a'.code chart)
      (body x b) (body x.plain b) := by
  obtain ⟨n, ss, tail⟩ := b
  cases tail with
  | some e =>
      rw [body, body]
      exact (paired_stmts ht false ss).bind fun a a' _ => (paired_expr e).bind fun b b' _ =>
        together_pure fun _ _ hb ha =>
          ((ha.append hb).append (twins_self rfl)).guides (placed_code _)
  | none =>
      rw [body, body]
      refine (paired_stmts ht false ss).bind fun a a' htwins => ?_
      by_cases hr' : a'.returns = true
      · obtain ⟨_, _, htwins⟩ := htwins
        rw [if_pos hr', if_pos (htwins.returns hr').1]
        exact together_pure fun _ _ ha => ha.guides (placed_code _)
      · rw [if_neg hr']
        split
        · -- Only the code with detours loads a result.
          intro consts consts' b after hd hd' he
          cases he
          obtain ⟨b', after', he'⟩ := exists_loadConst .unit consts'
          obtain ⟨hx', hd', -⟩ := loadConst_eq_ok hd' (c := .unit) trivial he'
          refine ⟨a' ++ b' ++ .one .ret, after', bind_of_ok he' rfl, ⟨.refl _, hd⟩, ⟨hx', hd'⟩,
            fun final final' _ _ ha => ?_⟩
          rw [append_assoc]
          exact ha.guides (ha.sized.placed_append.mp (placed_code _)).1
        · exact (paired_loadConst (c := .unit) trivial).bind fun b b' _ =>
            together_pure fun _ _ hb ha =>
              ((ha.append hb).append (twins_self rfl)).guides (placed_code _)

end Generate

/-! ### Routines -/

/-- Two routines do the same. -/
structure Routine.Twins (consts consts' : Array Const) (r r' : Routine) : Prop where
  params : r'.params = r.params
  slots : r'.slots = r.slots
  captures : r'.captures = r.captures
  guides : ∃ chart, Chart.Guides consts consts' r.code r'.code chart

/-- **Twins.** The routines of two images do the same. -/
structure Image.Twins (image image' : Image) : Prop where
  distinct : Generate.Distinct image.consts
  distinct' : Generate.Distinct image'.consts
  globals : image'.globals = image.globals
  routines : List.Forall₂ (Routine.Twins image.consts image'.consts) image.routines.toList
    image'.routines.toList

namespace Generate

/-- A routine is emitted with both settings or with neither, and the two do the same. -/
theorem together_routine {x : GenerateContext} (ht : x.tidy = true) {info : FunctionInfo}
    {bodies : List FunctionBody} :
    Together Routine.Twins (routine x info bodies) (routine x.plain info bodies) := by
  cases hb : bodies.lookup x.function with
  | none =>
      simp only [routine, hb]
      exact together_unresolved
  | some b =>
      rw [routine_eq hb, routine_eq (x := x.plain) hb]
      exact (together_body ht b).bind fun a a' _ =>
        together_pure fun _ _ h => ⟨rfl, rfl, rfl, h⟩

/-- All routines are emitted with both settings or with neither, and correspond one by one. -/
theorem together_routines {facts : Facts} {bodies : List FunctionBody} (infos : List FunctionInfo) :
    ∀ function, Together (fun final final' => List.Forall₂ (Routine.Twins final final'))
      (routines facts true bodies function infos) (routines facts false bodies function infos) := by
  induction infos with
  | nil => exact fun _ => together_pure fun _ _ => .nil
  | cons info rest ih =>
      intro function
      rw [routines, routines]
      have hroutine : Together Routine.Twins (routine ⟨facts, function, true⟩ info bodies)
          (routine ⟨facts, function, false⟩ info bodies) := together_routine rfl
      exact hroutine.bind fun r r' _ => (ih _).bind fun rs rs' _ =>
        together_pure fun _ _ hrs hr => .cons hr hrs

end Generate

/-- **Images.** Where code generation succeeds, it does so if it leaves nothing out, and what it
gives then is a twin of what it gives else. -/
theorem exists_twins {a : Analyzed} {image : Image} (h : assemble true a = .ok image) :
    ∃ image', assemble false a = .ok image' ∧ image.Twins image' := by
  obtain ⟨rs, consts, hr, rfl⟩ := assemble_eq_ok_iff.mp h
  obtain ⟨rs', consts', hr', hg, hg', htwins⟩ :=
    Generate.together_routines _ 0 #[] #[] rs consts distinct_empty distinct_empty hr
  exact ⟨_, assemble_eq_ok_iff.mpr ⟨rs', consts', hr', rfl⟩, hg.distinct, hg'.distinct, rfl,
    htwins _ _ (.refl _) (.refl _)⟩

end Parlance
