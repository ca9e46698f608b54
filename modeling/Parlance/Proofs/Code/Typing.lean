import Parlance.Proofs.Analysis.Accepted
import Parlance.Proofs.Analysis.Scoping
import Parlance.Proofs.Code.Points

/-!
# Generated code is typed

The code that is made of an accepted program leads from each of its points only to points that
are listed. Whatever the judgements about the tree say is thereby said about the code: which
variables are stored before an instruction, and which types its operands have.

## Main results

* `Generate.computes_expr`, `Generate.executes_stmt`: the code of accepted trees is typed.
* `Generate.flows_body`: so is that of accepted functions.
* `Image.Assembled.checked`: the routines of an accepted program are typed.
-/

namespace Parlance

/-! ### Variables -/

/-- The variables have places of their own. -/
def Facts.Separate (facts : Facts) (live : List Nat) : Prop :=
  ∀ y ∈ live, ∀ z ∈ live, (facts.symbol y).storage = (facts.symbol z).storage → y = z

namespace Facts.Separate

variable {facts : Facts} {function : Nat} {live : List Nat}

/-- Variables keep places of their own behind a statement that declares more of them. -/
theorem declared (hsep : facts.Separate live) {s : Stmt} (h : s.Scoped facts function live) :
    facts.Separate (s.declared ++ live) := by
  cases s with
  | letVar n name annotated init =>
      intro y hy z hz he
      have hnew : ∀ y, y ∈ n.symbol.toList → ∀ z ∈ live,
          (facts.symbol z).storage ≠ (facts.symbol y).storage :=
        fun y hy => (h.2 y (Option.mem_toList.mp hy)).separate
      rcases List.mem_append.mp hy with hy | hy
      · rcases List.mem_append.mp hz with hz | hz
        · exact Option.mem_unique (Option.mem_toList.mp hy) (Option.mem_toList.mp hz)
        · exact absurd he.symm (hnew y hy z hz)
      · rcases List.mem_append.mp hz with hz | hz
        · exact absurd he (hnew z hz y hy)
        · exact hsep y hy z hz he
  | _ => exact hsep

/-- The same behind statements in a row. -/
theorem liveAfter : ∀ {ss : List Stmt} {live : List Nat}, facts.Separate live →
    Stmt.AllScoped facts function live ss → facts.Separate (Stmt.liveAfter live ss)
  | [], _, hsep, _ => hsep
  | _ :: _, _, hsep, h => (hsep.declared h.1).liveAfter h.2

end Facts.Separate

/-- Parameters have places of their own. -/
theorem Facts.Accepts.separate {facts : Facts} {function : Nat} {b : Block}
    (h : facts.Accepts function b) : facts.Separate (facts.info function).params := by
  intro y hy z hz he
  obtain ⟨i, hi⟩ := List.mem_iff_getElem?.mp hy
  obtain ⟨j, hj⟩ := List.mem_iff_getElem?.mp hz
  rw [(h.param i y hi).storage, (h.param j z hj).storage] at he
  cases he
  exact Option.some.inj (hi.symm.trans hj)

/-! ### Constants -/

/-- The constant of a literal has the type of the literal. -/
theorem Lit.hasTy_toConst {facts : Facts} (v : Lit) : v.toConst.HasTy facts v.ty := by
  intro tag
  cases v <;> exact rfl

/-- The constant of a function that captures nothing. -/
theorem Const.hasTy_function {facts : Facts} {f : Nat} (hf : f < facts.functions.size)
    (hc : facts.captures f = []) : (Const.function f).HasTy facts (facts.signature f) := by
  intro tag
  refine Value.hasTy_function.mpr ⟨hf, rfl, ?_⟩
  rw [hc]
  exact .nil

namespace Generate

open Fragment

variable {final : Array Const} {x : GenerateContext} {live : List Nat} {stack : List Ty}

/-! ### Loads -/

/-- Loading a constant adds an operand of its type. -/
theorem computes_loadConst {c : Const} {t : Ty} (hc : c.IsCanonical) (ht : c.HasTy x.facts t) :
    Gives final (Computes x final live stack · [stack] (t :: stack)) (loadConst c) := by
  refine ⟨(produces_loadConst hc).grows, fun a ha => ?_⟩
  obtain ⟨i, rfl, hi⟩ := yields_loadConst hc ha
  exact computes_one rfl fun _ _ hn => .loadConst hi ht hn

/-- Loading a variable adds an operand of its type. -/
theorem computes_loadVariable {y slot : Nat} {range : Range}
    (hs : (x.facts.symbol y).storage = .frame slot) (h : x.facts.Has x.function live y) :
    Gives final (Computes x final live stack · [stack] ((x.facts.symbol y).ty :: stack))
      (loadVariable x y slot (x.facts.symbol y).function range) := by
  unfold Facts.Has at h
  unfold loadVariable
  split at h
  · next ho =>
      rw [if_pos ho]
      exact gives_pure (computes_one rfl fun _ _ hn => .loadLocal h hs hn)
  · next ho =>
      rw [if_neg ho]
      cases hi : (x.facts.captures x.function).idxOf? y with
      | none => exact gives_unresolved
      | some i =>
          obtain ⟨hlt, he, -⟩ := List.idxOf?_eq_some_iff.mp hi
          have hi' : (x.facts.captures x.function)[i]? = some y := by
            rw [List.getElem?_eq_getElem hlt, he]
          exact gives_pure (computes_one rfl fun _ _ hn => .loadCapture hi' hn)

/-- Loading a name adds an operand of its type. Where the name can be loaded from depends on where
its variable is: in the frame, among the captures or among the globals. -/
theorem computes_load {n : Note} {y : Nat} (stack : List Ty) (hy : n.symbol = some y) (hc : x.facts.Coherent)
    (h : x.facts.Readable x.function live y) :
    Gives final (Computes x final live stack · [stack] ((x.facts.symbol y).ty :: stack))
      (load x n) := by
  obtain ⟨hlt, h⟩ := h
  unfold load
  rw [hy]
  dsimp only
  cases hs : (x.facts.symbol y).storage with
  | global k =>
      rw [hs] at h
      have hlive : x.function = 0 → y ∈ live := fun h0 => by
        rcases h with ⟨hne, -⟩ | ⟨-, hm⟩
        · exact absurd h0 hne
        · exact hm
      exact gives_pure (computes_one rfl fun _ _ hn => .loadGlobal hlt hs hlive hn)
  | frame k =>
      rw [hs] at h
      exact computes_loadVariable hs h
  | function f =>
      obtain ⟨hf, ht⟩ := hc.function y hlt f hs
      rw [ht]
      exact computes_loadConst trivial (Const.hasTy_function hf (hc.named y hlt f hs))
  | builtin b =>
      rw [(hc.symbol y hlt).of_builtin hs]
      exact computes_loadConst trivial fun _ => rfl

/-- The variables that a lambda captures are loaded one after the other. -/
theorem computes_loadAllCaptured (range : Range) :
    ∀ (ys : List Nat) (stack : List Ty),
      (∀ y ∈ ys, x.facts.Has x.function live y ∧ ∃ k, (x.facts.symbol y).storage = .frame k) →
      Gives final (fun a => ∃ operands, x.facts.captureOperands stack ys =
          operands ++ [(ys.map fun y => (x.facts.symbol y).ty).reverse ++ stack] ∧
        a.Computes x final live stack operands
          ((ys.map fun y => (x.facts.symbol y).ty).reverse ++ stack))
        (loadAllCaptured x range ys)
  | [], _, _ => gives_pure ⟨[], rfl, computes_empty⟩
  | y :: ys, stack, h => by
      obtain ⟨hhas, k, hk⟩ := h y List.mem_cons_self
      have hy : Gives final
          (Computes x final live stack · [stack] ((x.facts.symbol y).ty :: stack))
          (loadCaptured x range y) := by
        unfold loadCaptured
        rw [hk]
        exact computes_loadVariable hk hhas
      have hys := computes_loadAllCaptured range ys ((x.facts.symbol y).ty :: stack)
        fun z hz => h z (List.mem_cons_of_mem _ hz)
      refine hy.bind fun a => hys.bind fun b => gives_pure fun hb ha => ?_
      obtain ⟨operands, he, hb⟩ := hb
      refine ⟨stack :: operands, ?_, ?_⟩
      · rw [Facts.captureOperands, he]
        simp
      · simpa using ha.append hb

/-- Building a closure replaces what it captures by an operand of its type. -/
theorem computes_lambda {n : Note} {f : Nat} (hn : n.function = some f) (hc : x.facts.Coherent)
    (h : x.facts.Makes x.function live f) :
    Gives final (Computes x final live stack ·
        (x.facts.captureOperands stack (x.facts.captures f)) (x.facts.signature f :: stack))
      (lambda x n) := by
  unfold lambda
  rw [hn]
  dsimp only
  split
  · next he =>
      rw [he]
      exact computes_loadConst trivial (Const.hasTy_function h.lt he)
  · have hload : Gives final _ _ := computes_loadAllCaptured n.range (x.facts.captures f) stack
      fun y hy => ⟨h.has y hy, (hc.captured f y hy).2.2⟩
    refine hload.bind fun a => gives_pure fun ha => ?_
    obtain ⟨operands, he, ha⟩ := ha
    rw [he]
    exact ha.apply rfl fun _ _ hn => .closure h.lt hn

/-! ### Stores -/

/-- After a store the variable is stored, and no other variable in scope loses its value, since none
has the same slot. -/
theorem gives_store {n : Note} {y : Nat} (stack : List Ty) (hy : n.symbol = some y)
    (hlt : y < x.facts.symbols.size)
    (hsep : ∀ k, (x.facts.symbol y).storage = .frame k → ∀ z ∈ live,
      (x.facts.symbol z).storage = .frame k → z = y) :
    Gives final (fun a => a.returns = false ∧ ∀ J,
      a.Flows (pointRules x.facts x.function final) J
        (some ⟨live, (x.facts.symbol y).ty :: stack⟩)
        [some ⟨live, (x.facts.symbol y).ty :: stack⟩] (some ⟨y :: live, stack⟩))
      (store x n) := by
  unfold store
  rw [hy]
  dsimp only
  cases hs : (x.facts.symbol y).storage with
  | global k =>
      exact gives_pure ⟨returns_one rfl, fun _ => flows_one fun _ _ hn => .storeGlobal hlt hs hn⟩
  | frame k =>
      dsimp only
      split
      · exact gives_pure ⟨returns_one rfl,
          fun _ => flows_one fun _ _ hn => .storeLocal hs (hsep k hs) hn⟩
      · exact gives_unresolved
  | _ => exact gives_unresolved

/-- A store into a variable that is there. -/
theorem computes_store {n : Note} {y : Nat} (stack : List Ty) (hy : n.symbol = some y)
    (hsep : x.facts.Separate live) (h : x.facts.Writable x.function live y) :
    Gives final (Computes x final live ((x.facts.symbol y).ty :: stack) ·
      [(x.facts.symbol y).ty :: stack] stack) (store x n) := by
  obtain ⟨hlt, h⟩ := h
  have hslot : ∀ k, (x.facts.symbol y).storage = .frame k → ∀ z ∈ live,
      (x.facts.symbol z).storage = .frame k → z = y := by
    intro k hk z hz hzk
    rw [hk] at h
    exact hsep z hz y h.2 (hzk.trans hk.symm)
  have hstore : Gives final _ (store x n) := gives_store stack hy hlt hslot
  refine hstore.mono ?_
  rintro a ⟨hr, hf⟩
  refine ⟨fun J => ?_, hr⟩
  exact (hf J).strengthen fun _ _ hn => Point.Accepts.mono hn (List.subset_cons_self _ _)

/-! ### Expressions -/

mutual

/-- **Expressions.** The code of an accepted expression pushes one value of its type. The operands
at each of its places are listed by `operands`, and each instruction finds the types that it needs.
-/
theorem computes_expr (hc : x.facts.Coherent) (hsep : x.facts.Separate live) :
    ∀ (e : Expr) (stack : List Ty), e.Scoped x.facts x.function live → e.Typed x.facts →
      Gives final (Computes x final live stack · (e.operands x.facts stack) (e.ty :: stack))
        (expr x e)
  | .lit n v, stack, _, ht => by
      rw [expr, Expr.operands]
      have : (Expr.lit n v).ty = v.ty := ht
      rw [this]
      exact computes_loadConst v.isCanonical_toConst v.hasTy_toConst
  | .ident n name, stack, hs, ht => by
      obtain ⟨y, hy, ht⟩ := ht
      have : (Expr.ident n name).ty = (x.facts.symbol y).ty := ht
      rw [expr, Expr.operands, this]
      exact computes_load stack hy hc (hs y hy)
  | .unary n op e, stack, hs, ht => by
      rw [expr, Expr.operands]
      exact (computes_expr hc hsep e stack hs ht.1).bind fun a => gives_pure fun ha =>
        ha.apply rfl fun _ _ hn => .unary ht.2 hn
  | .binary n op l r, stack, hs, ht => by
      obtain ⟨hl, hr, he, hop⟩ := ht
      rw [expr, Expr.operands]
      refine (computes_expr hc hsep l stack hs.1 hl).bind fun a => ?_
      cases hsplit : op.split with
      | inl strict =>
          refine (computes_expr hc hsep r (l.ty :: stack) hs.2 hr).bind fun b =>
            gives_pure fun hb ha => ?_
          refine (ha.append hb).apply rfl fun _ _ hn => ?_
          rw [he]
          rw [← BinaryOp.toBinary_of_split hsplit] at hop
          exact .binary hop hn
      | inr logical =>
          refine (computes_expr hc hsep r stack hs.2 hr).bind fun b =>
            gives_pure fun hb ha => ?_
          rw [BinaryOp.Types, if_pos (BinaryOp.isLogical_of_split hsplit)] at hop
          obtain ⟨hl, hn⟩ := hop
          have : (Expr.binary n op l r).ty = .bool := hn
          rw [this]
          rw [he, hl] at hb
          rw [hl] at ha ⊢
          exact ha.skipJump hb logical
  | .assign n target v, stack, hs, ht => by
      cases target with
      | ident t name =>
          obtain ⟨hv, hn, y, hy, hty, -⟩ := ht
          have : (Expr.assign n (.ident t name) v).ty = v.ty := hn
          rw [expr, Expr.operands, this]
          · refine (computes_expr hc hsep v stack hs.1 hv).bind fun a =>
              (computes_store (v.ty :: stack) hy hsep (hs.2 y hy)).bind fun b =>
                gives_pure fun hb ha => ?_
            rw [hty] at hb
            exact (ha.apply rfl fun _ _ hn => .copy hn).append hb
          · intros
            contradiction
          · intros
            contradiction
      | index m base i =>
          cases base with
          | ident t name =>
              obtain ⟨hi, hint, hv, hn, y, hy, hty, -⟩ := ht
              obtain ⟨his, hvs, hw⟩ := hs
              have : (Expr.assign n (.index m (.ident t name) i) v).ty = v.ty := hn
              rw [expr, Expr.operands, this]
              refine (computes_load stack hy hc (hw y hy).readable).bind fun a =>
                (computes_expr hc hsep i (.list v.ty :: stack) his hi).bind fun b =>
                  (computes_expr hc hsep v (i.ty :: .list v.ty :: stack) hvs hv).bind fun c =>
                    (computes_store (v.ty :: stack) hy hsep (hw y hy)).bind fun d =>
                      gives_pure fun hd hc hb ha => ?_
              rw [hty] at ha hd
              refine (((ha.append hb).append hc).apply rfl fun _ _ hn => ?_).append hd
              rw [hint]
              exact .setItem hn
          | _ => exact ht.elim
      | _ => exact ht.elim
  | .call n f args, stack, hs, ht => by
      obtain ⟨hf, hargs, hcall⟩ := ht
      rw [expr, Expr.operands]
      refine (computes_expr hc hsep f stack hs.1 hf).bind fun a =>
        (computes_exprs hc hsep args (f.ty :: stack) hs.2 hargs).bind fun b =>
          gives_pure fun hb ha => (ha.append hb).apply rfl fun _ _ hn => ?_
      exact .call (List.length_map _) hcall hn
  | .index n t i, stack, hs, ht => by
      obtain ⟨htt, hi, hint, hitem⟩ := ht
      rw [expr, Expr.operands]
      refine (computes_expr hc hsep t stack hs.1 htt).bind fun a =>
        (computes_expr hc hsep i (t.ty :: stack) hs.2 hi).bind fun b =>
          gives_pure fun hb ha => (ha.append hb).apply rfl fun _ _ hn => ?_
      rw [hint]
      exact .getItem hitem hn
  | .list n items, stack, hs, ht => by
      obtain ⟨hitems, t, hn, hall⟩ := ht
      have : (Expr.list n items).ty = .list t := hn
      rw [expr, Expr.operands, this]
      refine (computes_exprs hc hsep items stack hs hitems).bind fun a =>
        gives_pure fun ha => ha.apply rfl fun _ _ hn => ?_
      exact .buildList (List.length_map _) (by simpa using hall) hn
  | .cast n e target, stack, hs, ht => by
      obtain ⟨he, -, hn⟩ := ht
      have : (Expr.cast n e target).ty = target.toTy := hn
      rw [expr, Expr.operands, this]
      exact (computes_expr hc hsep e stack hs he).bind fun a => gives_pure fun ha =>
        ha.apply rfl fun _ _ hn => .cast hn
  | .lambda n params body, stack, hs, ht => by
      obtain ⟨f, hf, hn⟩ := ht
      have : (Expr.lambda n params body).ty = x.facts.signature f := hn
      rw [expr, Expr.operands, this, hf]
      exact computes_lambda hf hc (hs f hf)

/-- Expressions add operands of their types, the last on top. -/
theorem computes_exprs (hc : x.facts.Coherent) (hsep : x.facts.Separate live) :
    ∀ (es : List Expr) (stack : List Ty), Expr.AllScoped x.facts x.function live es →
      Expr.AllTyped x.facts es →
      Gives final (Computes x final live stack · (Expr.operandsOf x.facts stack es)
        ((es.map Expr.ty).reverse ++ stack)) (exprs x es)
  | [], stack, _, _ => by
      rw [exprs, Expr.operandsOf]
      exact gives_pure computes_empty
  | e :: es, stack, hs, ht => by
      rw [exprs, Expr.operandsOf]
      refine (computes_expr hc hsep e stack hs.1 ht.1).bind fun a =>
        (computes_exprs hc hsep es (e.ty :: stack) hs.2 ht.2).bind fun b =>
          gives_pure fun hb ha => ?_
      simpa using ha.append hb

end

/-! ### Statements -/

/-- Control may come to the end of the body of a loop. -/
theorem reaches_behind {facts : Facts} {function : Nat} {chart : Chart Point} {pc : Nat}
    {terminates : Bool} (h : chart pc = some ⟨live, []⟩) :
    (pointRules facts function final).Reaches chart pc (Point.behind live terminates) := by
  cases terminates with
  | true => trivial
  | false => exact Rules.accepts_of_eq h

/-- Whether an expression is a load does not depend on the function. -/
theorem isLoad_eq (e : Expr) :
    isLoad { facts := x.facts, function := 0, tidy := true } e = isLoad x e := by
  cases e <;> rfl

/-- An expression whose value is not used leaves the operands as they were. Its code ends with a
drop, or there is none at all. -/
theorem executes_discard (hc : x.facts.Coherent) (hsep : x.facts.Separate live)
    (htidy : x.tidy = true) {J : Jumps Point} (e : Expr)
    (hs : e.Scoped x.facts x.function live) (ht : e.Typed x.facts) :
    Gives final (Executes x final J live · (e.discardPoints x.facts live) live false)
      (discard x e) := by
  unfold discard
  split
  · next target v hassigned =>
      obtain ⟨m, rfl, hne⟩ := Expr.assigned?_eq_some hassigned
      obtain ⟨n, name, rfl⟩ := hs.eq_ident hne
      obtain ⟨hv, -, y, hy, hty, -⟩ := ht
      rw [Expr.discardPoints, htidy]
      refine (computes_expr hc hsep v [] hs.1 hv).bind fun a =>
        (computes_store [] hy hsep (hs.2 y hy)).bind fun b => gives_pure fun hb ha => ?_
      rw [hty] at hb
      exact (ha.append hb).executes
  · next hnone =>
      have hne : ∀ m n name v, e ≠ .assign m (.ident n name) v := by
        rintro m n name v rfl
        cases hnone
      rw [Expr.discardPoints, htidy, isLoad_eq]
      · refine (computes_expr hc hsep e [] hs ht).bind fun a => gives_pure fun ha => ?_
        rw [Bool.true_and]
        split
        · exact computes_empty.executes
        · exact (ha.apply rfl fun _ _ hn => .pop hn).executes
      · exact hne

/-- The value that a function returns. -/
theorem flows_ret {J : Jumps Point} {a : Fragment} {operands : List (List Ty)}
    (ha : a.Computes x final live [] operands [(x.facts.info x.function).returns]) :
    (a ++ one .ret).Flows (pointRules x.facts x.function final) J (some ⟨live, []⟩)
      (Point.listAt live (operands ++ [[(x.facts.info x.function).returns]])) none := by
  rw [Point.listAt_append]
  exact (ha.flows J).append (flows_one fun _ _ _ => .ret)

/-- A result and the return behind it leave the function with a value of its result type. -/
theorem executes_result (hc : x.facts.Coherent) (hsep : x.facts.Separate live)
    (J : Jumps Point) {e : Expr}
    (hs : e.Scoped x.facts x.function live) (ht : e.Typed x.facts)
    (hr : e.ty = (x.facts.info x.function).returns) :
    Gives final (fun a => (a ++ one .ret).Flows (pointRules x.facts x.function final) J
      (some ⟨live, []⟩) (Point.listAt live (e.operands x.facts [] ++ [[e.ty]])) none)
      (expr x e) := by
  refine (computes_expr hc hsep e [] hs ht).mono fun a ha => ?_
  rw [hr] at ha ⊢
  exact flows_ret ha

/-- The implicit value of a function without a result. -/
theorem executes_unit (J : Jumps Point) (hr : (x.facts.info x.function).returns = .unit) :
    Gives final (fun a => (a ++ one .ret).Flows (pointRules x.facts x.function final) J
      (some ⟨live, []⟩) (Point.listAt live [[], [.unit]]) none) (loadConst .unit) := by
  have hunit : Const.unit.HasTy x.facts .unit := fun _ => rfl
  have hload : Gives final (Computes x final live [] · [[]] [.unit]) (loadConst .unit) :=
    computes_loadConst trivial hunit
  refine hload.mono fun a ha => ?_
  rw [← hr] at ha ⊢
  exact flows_ret ha

mutual

/-- **Statements.** The code of an accepted statement leads from point to point. The variables
at the start of the loop around it are still there. -/
theorem executes_stmt (hc : x.facts.Coherent) (htidy : x.tidy = true) {start : List Nat} :
    ∀ (inLoop breaks : Bool) (live : List Nat) (s : Stmt), x.facts.Separate live →
      start ⊆ live → (s.breaks = true → breaks = true) → s.Scoped x.facts x.function live →
      s.Typed x.facts (x.facts.info x.function).returns →
      Gives final (Executes x final (loopPoints inLoop start breaks) live ·
        (s.points x.facts live) (s.declared ++ live) s.terminates) (stmt x inLoop s)
  | inLoop, breaks, live, .block b, hsep, hsub, hb, hs, ht => by
      rw [stmt, Stmt.points, Stmt.terminates]
      exact executes_block hc htidy inLoop breaks live b hsep hsub hb hs ht
  | inLoop, breaks, live, .letVar n name annotated init, hsep, hsub, hb, hs, ht => by
      obtain ⟨hinit, y, hy, hty⟩ := ht
      have hd := hs.2 y hy
      rw [stmt, Stmt.points, Stmt.declared, Stmt.terminates, hy]
      · refine (computes_expr hc hsep init [] hs.1 hinit).bind fun a =>
          (gives_store [] hy hd.lt fun k hk z hz hzk =>
            absurd (hzk.trans hk.symm) (hd.separate z hz)).bind fun b =>
            gives_pure fun hb ha => ⟨?_, fun h => ?_⟩
        · rw [hty] at hb
          rw [Point.listAt_append]
          exact (ha.flows _).append (hb.2 _)
        · rw [returns_append ha.falls hb.1] at h
          cases h
      all_goals intros; contradiction
  | inLoop, breaks, live, .fnDecl _ _ _ _, _, _, _, _, _ => by
      rw [stmt, Stmt.points]
      exact gives_pure computes_empty.executes
  | inLoop, breaks, live, .ret n value, hsep, hsub, hb, hs, ht => by
      rw [stmt, Stmt.terminates]
      cases value with
      | none =>
          rw [Stmt.points]
          exact (executes_unit _ ht).bind fun a => gives_pure fun ha => ⟨ha, fun _ => rfl⟩
      | some e =>
          rw [Stmt.points]
          exact (executes_result hc hsep _ hs ht.1 ht.2).bind fun a =>
            gives_pure fun ha => ⟨ha, fun _ => rfl⟩
  | inLoop, breaks, live, .cond n test yes none, hsep, hsub, hb, hs, ht => by
      obtain ⟨htest, hbool, hyes⟩ := ht
      rw [stmt, Stmt.points]
      refine (computes_expr hc hsep test [] hs.1 htest).bind fun a =>
        (executes_block hc htidy inLoop breaks live yes hsep hsub hb hs.2 hyes).bind fun b =>
          gives_pure fun hb ha => ⟨?_, fun h => ?_⟩
      · rw [hbool] at ha ⊢
        refine (ha.flows _).skipping (hb.flows_to (List.Subset.refl _) fun h => ?_)
          fun _ _ _ hn ht => .jumpIfFalse hn ht
        cases h
      · cases h
  | inLoop, breaks, live, .cond n test yes (some no), hsep, hsub, hb, hs, ht => by
      obtain ⟨htest, hbool, hyes, hno⟩ := ht
      obtain ⟨hstest, hsyes, hsno⟩ := hs
      rw [Stmt.breaks, Bool.or_eq_true] at hb
      rw [stmt, Stmt.points, Stmt.terminates]
      refine (computes_expr hc hsep test [] hstest htest).bind fun a =>
        (executes_block hc htidy inLoop breaks live yes hsep hsub (fun h => hb (.inl h)) hsyes
          hyes).bind fun b =>
        (executes_stmt hc htidy inLoop breaks live no hsep hsub (fun h => hb (.inr h)) hsno
          hno).bind fun c => gives_pure fun hc hb ha => ⟨?_, fun h => ?_⟩
      · rw [hbool] at ha ⊢
        refine (ha.flows _).choice (hb.flows_to (List.Subset.refl _) fun h => h)
          (hc.flows_to (List.subset_append_right _ _) fun h => ?_)
          (fun _ _ _ hn ht => .jumpIfFalse hn ht) fun _ _ _ u hu hq => ?_
        · exact (Bool.and_eq_true_iff.mp h).2
        · cases hy : yes.terminates with
          | true =>
              rw [hy] at hu
              cases hu
          | false =>
              rw [hy] at hu hq
              cases hu
              exact .jump hq
      · cases h
  | inLoop, breaks, live, .whileLoop n test b, hsep, hsub, hb, hs, ht => by
      obtain ⟨htest, hbool, hbody⟩ := ht
      rw [stmt, Stmt.points]
      refine (computes_expr hc hsep test [] hs.1 htest).bind fun a =>
        (executes_block hc htidy true true live b hsep (List.Subset.refl _) (fun _ => rfl) hs.2
          hbody).bind fun b => gives_pure fun hb ha => ⟨?_, fun h => ?_⟩
      · rw [hbool] at ha ⊢
        exact (ha.flows _).whileTrue (hb.flows_to (List.Subset.refl _) fun h => h)
          (fun _ _ he => reaches_behind he) (fun _ _ _ hn ht => .jumpIfFalse hn ht)
          (fun _ _ _ ht => .jump ht) fun _ _ hs he _ => ⟨hs, fun _ => he⟩
      · cases h
  | inLoop, breaks, live, .loop n b, hsep, hsub, hb, hs, ht => by
      rw [stmt, Stmt.points, Stmt.terminates]
      refine (executes_block hc htidy true b.breaks live b hsep (List.Subset.refl _) (fun h => h)
        hs ht).bind fun a => gives_pure fun ha => ⟨?_, fun h => ?_⟩
      · refine (ha.flows_to (List.Subset.refl _) fun h => h).forever
          (fun _ _ he => reaches_behind he) (fun _ _ _ ht => .jump ht)
          fun _ _ hs he _ => ⟨hs, fun hb => ?_⟩
        rw [hb] at he
        exact he
      · cases h
  | inLoop, breaks, live, .breakLoop n, hsep, hsub, hb, hs, ht => by
      rw [stmt, Stmt.points]
      split
      · next hin =>
          refine gives_pure ⟨flows_single rfl (fun _ _ => rfl) fun _ _ _ _ hj => ?_, fun h => ?_⟩
          · exact .jump (((hj hin).2 (hb rfl)).mono hsub)
          · cases h
      · exact gives_unresolved
  | inLoop, breaks, live, .continueLoop n, hsep, hsub, hb, hs, ht => by
      rw [stmt, Stmt.points]
      split
      · next hin =>
          refine gives_pure ⟨flows_single rfl (fun _ _ => rfl) fun _ _ _ _ hj => ?_, fun h => ?_⟩
          · exact .jump ((hj hin).1.mono hsub)
          · cases h
      · exact gives_unresolved
  | inLoop, breaks, live, .expr n e, hsep, hsub, hb, hs, ht => by
      rw [stmt, Stmt.points]
      exact executes_discard hc hsep htidy e hs ht

/-- Statements in a row leave the operands as they are, with their variables stored behind them. -/
theorem executes_stmts (hc : x.facts.Coherent) (htidy : x.tidy = true) {start : List Nat} :
    ∀ (inLoop breaks : Bool) (live : List Nat) (ss : List Stmt), x.facts.Separate live →
      start ⊆ live → (Stmt.anyBreaks ss = true → breaks = true) →
      Stmt.AllScoped x.facts x.function live ss →
      Stmt.AllTyped x.facts (x.facts.info x.function).returns ss →
      Gives final (Executes x final (loopPoints inLoop start breaks) live ·
        (Stmt.pointsOf x.facts live ss) (Stmt.liveAfter live ss) (Stmt.anyTerminates ss))
        (stmts x inLoop ss)
  | _, _, _, [], _, _, _, _, _ => by
      rw [stmts, Stmt.pointsOf]
      exact gives_pure computes_empty.executes
  | inLoop, breaks, live, s :: ss, hsep, hsub, hb, hs, ht => by
      rw [Stmt.anyBreaks, Bool.or_eq_true] at hb
      rw [stmts, Stmt.pointsOf, Stmt.anyTerminates, Stmt.liveAfter]
      exact (executes_stmt hc htidy inLoop breaks live s hsep hsub (fun h => hb (.inl h)) hs.1
        ht.1).bind fun a =>
        (executes_stmts hc htidy inLoop breaks (s.declared ++ live) ss (hsep.declared hs.1)
          (List.Subset.trans hsub (List.subset_append_right _ _)) (fun h => hb (.inr h)) hs.2
          ht.2).bind fun b => gives_pure fun hb ha => ha.append hb

/-- The same for blocks. -/
theorem executes_block (hc : x.facts.Coherent) (htidy : x.tidy = true) {start : List Nat} :
    ∀ (inLoop breaks : Bool) (live : List Nat) (b : Block), x.facts.Separate live →
      start ⊆ live → (b.breaks = true → breaks = true) → b.Scoped x.facts x.function live →
      b.Typed x.facts (x.facts.info x.function).returns →
      Gives final (Executes x final (loopPoints inLoop start breaks) live ·
        (b.points x.facts live) live b.terminates) (block x inLoop b)
  | inLoop, breaks, live, .mk n ss none, hsep, hsub, hb, hs, ht => by
      rw [block, Block.points, Block.terminates]
      refine (executes_stmts hc htidy inLoop breaks live ss hsep hsub hb hs ht).mono fun a ha => ?_
      exact ⟨ha.flows_to (Stmt.subset_liveAfter _ _) fun h => h, ha.returns⟩
  | _, _, _, .mk _ _ (some _), _, _, _, _, ht => ht.elim

end

/-! ### Functions -/

/-- Code, and what ends a function. Nothing is known about the end if control does not come
there. -/
theorem flows_ending {J : Jumps Point} {a b : Fragment} {ps qs : List (Option Point)}
    {later : List Nat} {terminates : Bool}
    (ha : a.Executes x final J live ps later terminates) (hsize : b.Sized)
    (hb : terminates = false → b.Flows (pointRules x.facts x.function final) J
      (some ⟨later, []⟩) qs none) :
    ∃ k, (a ++ b).Flows (pointRules x.facts x.function final) J (some ⟨live, []⟩)
      ((ps ++ if terminates then [] else qs) ++ List.replicate k none) none := by
  cases terminates with
  | true =>
      refine ⟨b.size, ?_⟩
      rw [if_pos rfl, List.append_nil]
      exact ha.flows.append hsize.unreachable
  | false =>
      refine ⟨0, ?_⟩
      rw [if_neg (by simp), List.replicate_zero, List.append_nil]
      exact ha.flows.append (hb rfl)

/-- A function without a result returns unit, if control comes to its end. -/
theorem executes_end (J : Jumps Point) (live : List Nat) {terminates : Bool}
    (hr : (x.facts.info x.function).returns = .unit ∨ terminates = true) :
    Gives final (fun a => (a ++ one .ret).Sized ∧ (terminates = false →
      (a ++ one .ret).Flows (pointRules x.facts x.function final) J
        (some ⟨live, []⟩) (Point.listAt live [[], [.unit]]) none)) (loadConst .unit) := by
  rcases hr with hr | rfl
  · exact (executes_unit J hr).mono fun a ha => ⟨ha.sized, fun _ => ha⟩
  · have hload : Produces Sized (loadConst .unit) := produces_loadConst trivial
    exact hload.gives.mono fun a ha => ⟨ha.append sized_one, by simp⟩

/-- **Functions.** The code of an accepted function leads from point to point, and control does
not come to its end. -/
theorem flows_body (hc : x.facts.Coherent) (htidy : x.tidy = true) {b : Block}
    (h : x.facts.Accepts x.function b) :
    Gives final (fun a => ∃ k, a.Flows (pointRules x.facts x.function final)
        (loopPoints false [] true) (some ⟨(x.facts.info x.function).params, []⟩)
        (b.bodyPoints x.facts (x.facts.info x.function).params ++ List.replicate k none) none)
      (body x b) := by
  obtain ⟨n, ss, tail⟩ := b
  have hin : Stmt.AllScoped x.facts x.function (x.facts.info x.function).params ss := by
    have := h.inScope
    cases tail with
    | none => exact this
    | some e => exact this.1
  have htyped : Stmt.AllTyped x.facts (x.facts.info x.function).returns ss := by
    have := h.typed
    cases tail with
    | none => exact this.1
    | some e => exact this.1
  have hstmts : Gives final _ (stmts x false ss) :=
    executes_stmts hc htidy false true _ ss h.separate (List.nil_subset _) (fun _ => rfl) hin
      htyped
  cases tail with
  | some e =>
      rw [body, Block.bodyPoints, Block.endPoints]
      refine hstmts.bind fun a => (executes_result hc (h.separate.liveAfter hin)
        (loopPoints false [] true) h.inScope.2 h.typed.2.1 h.typed.2.2).bind fun b => gives_pure ?_
      intro hb ha
      rw [append_assoc]
      exact flows_ending ha hb.sized fun _ => hb
  | none =>
      rw [body, Block.bodyPoints, Block.endPoints]
      refine hstmts.bind fun a => ?_
      by_cases hr : a.returns = true
      · rw [if_pos hr]
        refine gives_pure ?_
        intro ha
        refine ⟨0, ?_⟩
        have hf := ha.flows
        rw [ha.returns hr] at hf ⊢
        rwa [if_pos rfl, List.append_nil, List.replicate_zero, List.append_nil]
      · rw [if_neg hr]
        refine (executes_end (loopPoints false [] true)
          (Stmt.liveAfter (x.facts.info x.function).params ss) h.typed.2).bind fun b =>
            gives_pure ?_
        intro hb ha
        rw [append_assoc]
        exact flows_ending ha hb.1 hb.2

end Generate

/-! ### Routines -/

/-- **The types of a routine.** It starts where the parameters are stored, and each instruction
leads only to points of the chart. -/
structure Routine.Checked (facts : Facts) (function : Nat) (consts : Array Const)
    (chart : Chart Point) (r : Routine) : Prop where
  entry : Point.Accepts chart 0 ⟨(facts.info function).params, []⟩
  leads : ∀ (pc : Nat) (i : Instr) (p : Point), r.code[pc]? = some i → chart pc = some p →
    i.Leads facts function consts chart pc p

/-- The points of a function. -/
def Analyzed.chart (a : Analyzed) (function : Nat) : Chart Point :=
  .ofList (((a.bodies.lookup function).map
    fun b => b.bodyPoints a.facts (a.facts.info function).params).getD [])

/-- **Programs.** The routines of an accepted program are typed, each along the chart of its
function. -/
theorem Image.Assembled.checked {a : Analyzed} {image : Image} (h : image.Assembled a)
    (hacc : a.Accepted) {f : Nat} {r : Routine} (hr : image.routines[f]? = some r) :
    r.Checked a.facts f image.consts (a.chart f) := by
  obtain ⟨info, hinfo⟩ := h.info_of_routine hr
  obtain ⟨b, frag, hb, -, hy, hr'⟩ := h.routine f info hinfo
  cases hr.symm.trans hr'
  obtain ⟨k, hf⟩ := (Generate.flows_body hacc.coherent rfl (hacc.accepts_of_lookup hb)).2 frag hy
  have hchart : a.chart f =
      .ofList (b.bodyPoints a.facts (a.facts.info f).params ++ List.replicate k none) := by
    rw [Analyzed.chart, hb, Chart.ofList_append_replicate]
    rfl
  have hlists := Chart.lists_ofList
    (b.bodyPoints a.facts (a.facts.info f).params ++ List.replicate k none)
  rw [← hchart] at hlists
  have hentry := hf.entry hlists trivial
  have hlead : (pointRules a.facts f image.consts).AllLead (a.chart f) 0 (frag.place 0 ⟨0, 0⟩) :=
    hf.leads hlists trivial (by simp [loopPoints])
  refine ⟨hentry, fun pc i p hi hp => ?_⟩
  have := hlead pc i p (by simpa [Generate.routineOf, Fragment.code] using hi) (by simpa using hp)
  rwa [Nat.zero_add] at this

end Parlance
