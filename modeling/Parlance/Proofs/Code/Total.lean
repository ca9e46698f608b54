import Parlance.Proofs.Analysis.Accepted
import Parlance.Proofs.Code.Known
import Parlance.Proofs.Code.Names

/-!
# Accepted programs have code

Code generation fails where a name has no place, a jump no loop or a function no body, and
where verification finds something out of range. None of this happens to a program that
analysis accepts.

Code generation is followed through scoped and resolved trees. There a name without a symbol is
the only thing that stops it, and it stops at the first one. What analysis accepts has no such
names. That verification finds nothing is known of all scoped programs.

## Main results

* `Generate.stopsAt_expr`, `Generate.stopsAt_stmt`: the induction over trees.
* `Generate.stopsAt_routines`: all functions of a program.
* `CompileOptions.analyzed_compiles`: every text that analysis accepts has code.
-/

namespace Parlance

/-- Lambdas capture variables of frames. -/
def Facts.CapturesFrames (facts : Facts) : Prop :=
  ∀ f, ∀ y ∈ facts.captures f, ∃ k, (facts.symbol y).storage = .frame k

/-- Coherent facts have lambdas capture variables of frames only. -/
theorem Facts.Coherent.capturesFrames {facts : Facts} (h : facts.Coherent) :
    facts.CapturesFrames :=
  fun f y hy => (h.captured f y hy).2.2

namespace Generate

/-! ### Names where code generation stops -/

/-- A part of code generation comes to these names without a symbol. It fails at the first one, and
succeeds for every pool if there is none. -/
def StopsAt {α : Type} : List Note → Generate α → Prop
  | [], m => ∀ consts, ∃ a after, m consts = .ok (a, after)
  | n :: _, m => ∀ consts, m consts = .error (.unresolved n.range)

section Rules

variable {α β : Type} {names names' : List Note} {m : Generate α} {f : α → Generate β}

/-- A result that is given at once stops at no name. -/
theorem stopsAt_pure {a : α} : StopsAt [] (pure a : Generate α) :=
  fun consts => ⟨a, consts, rfl⟩

/-- A sequence stops at the names of both its parts. If the first part stops, so does the sequence,
and at the same name. -/
theorem StopsAt.bind (hm : StopsAt names m) (hf : ∀ a, StopsAt names' (f a)) :
    StopsAt (names ++ names') (m >>= f) := by
  have hrun : ∀ consts, (m >>= f) consts = m consts >>= fun p => f p.1 p.2 := fun _ => rfl
  cases names with
  | cons n names =>
      intro consts
      rw [hrun, hm consts]
      rfl
  | nil =>
      cases names' with
      | nil =>
          intro consts
          obtain ⟨a, mid, ha⟩ := hm consts
          rw [hrun, ha]
          exact hf a mid
      | cons n names' =>
          intro consts
          obtain ⟨a, mid, ha⟩ := hm consts
          rw [hrun, ha]
          exact hf a mid

/-- What follows does not stop. -/
theorem StopsAt.andThen (hm : StopsAt names m) (hf : ∀ a, StopsAt [] (f a)) :
    StopsAt names (m >>= f) := by
  simpa using hm.bind hf

end Rules

variable {x : GenerateContext} {live : List Nat}

/-- Loading a constant stops at no name. -/
theorem stopsAt_loadConst {c : Const} : StopsAt [] (loadConst c) :=
  exists_loadConst c

/-- Loading a variable that the function has stops at no name. -/
theorem stopsAt_loadVariable {y slot : Nat} {range : Range} (h : x.facts.Has x.function live y) :
    StopsAt [] (loadVariable x y slot (x.facts.symbol y).function range) := by
  unfold Facts.Has at h
  unfold loadVariable
  split at h
  · next ho =>
      rw [if_pos ho]
      exact stopsAt_pure
  · next ho =>
      obtain ⟨i, hi⟩ := Option.isSome_iff_exists.mp (List.isSome_idxOf?.mpr h)
      rw [if_neg ho, hi]
      exact stopsAt_pure

/-- A name is loaded unless it has no symbol. -/
theorem stopsAt_load {n : Note}
    (h : ∀ y, n.symbol = some y → x.facts.Readable x.function live y) :
    StopsAt n.lost (load x n) := by
  unfold load
  cases hy : n.symbol with
  | none =>
      rw [Note.lost, hy]
      exact fun _ => rfl
  | some y =>
      obtain ⟨-, h⟩ := h y hy
      rw [Note.lost_eq_nil (Option.isSome_of_eq_some hy)]
      dsimp only
      cases hs : (x.facts.symbol y).storage with
      | global k => exact stopsAt_pure
      | frame k =>
          rw [hs] at h
          exact stopsAt_loadVariable h
      | function f => exact stopsAt_loadConst
      | builtin b => exact stopsAt_loadConst

/-- A store stops at no name if its name has a symbol with a place. -/
theorem stopsAt_store {n : Note} (hn : n.symbol.isSome = true)
    (h : ∀ y, n.symbol = some y → x.facts.Placed x.function y) : StopsAt [] (store x n) := by
  obtain ⟨y, hy⟩ := Option.isSome_iff_exists.mp hn
  obtain ⟨-, ⟨k, hs⟩, howner, -⟩ := h y hy
  unfold store
  rw [hy]
  dsimp only
  rcases hs with hs | hs
  · rw [hs]
    exact stopsAt_pure
  · rw [hs]
    dsimp only
    rw [if_pos (howner k hs)]
    exact stopsAt_pure

/-- Captures are passed on: the function around a lambda has what the lambda captures, among its
own variables or among its captures. -/
theorem stopsAt_loadAllCaptured (range : Range) (hk : x.facts.CapturesFrames) {f : Nat} :
    ∀ captures : List Nat, (∀ y ∈ captures, y ∈ x.facts.captures f) →
      (∀ y ∈ captures, x.facts.Has x.function live y) →
      StopsAt [] (loadAllCaptured x range captures)
  | [], _, _ => stopsAt_pure
  | y :: ys, hf, h => by
      obtain ⟨k, hk'⟩ := hk f y (hf y List.mem_cons_self)
      have hy : StopsAt [] (loadCaptured x range y) := by
        unfold loadCaptured
        rw [hk']
        exact stopsAt_loadVariable (h y List.mem_cons_self)
      have hys := stopsAt_loadAllCaptured range hk ys
        (fun z hz => hf z (List.mem_cons_of_mem _ hz)) fun z hz => h z (List.mem_cons_of_mem _ hz)
      exact hy.bind fun _ => hys.andThen fun _ => stopsAt_pure

/-- A closure stops at no name if its captures are there to be loaded. -/
theorem stopsAt_lambda {n : Note} {f : Nat} (hf : n.function = some f)
    (hk : x.facts.CapturesFrames) (h : x.facts.Makes x.function live f) :
    StopsAt [] (lambda x n) := by
  unfold lambda
  rw [hf]
  dsimp only
  split
  · exact stopsAt_loadConst
  · exact (stopsAt_loadAllCaptured n.range hk _ (fun _ hy => hy) h.has).andThen fun _ =>
      stopsAt_pure

/-! ### Trees -/

section Trees

variable {reads guarded : Prop}

mutual

/-- **Expressions.** Code is made of an expression in scope unless a name in it has lost its symbol,
and then the first such name is what is reported. -/
theorem stopsAt_expr (hk : x.facts.CapturesFrames) : ∀ e : Expr,
    e.Scoped x.facts x.function live → e.Resolved reads guarded →
      StopsAt e.lost (expr x e)
  | .lit _ v, _, _ => by
      rw [expr]
      exact stopsAt_loadConst
  | .ident n _, hs, _ => by
      rw [expr]
      exact stopsAt_load hs
  | .unary _ _ e, hs, hr => by
      rw [expr]
      exact (stopsAt_expr hk e hs hr).andThen fun _ => stopsAt_pure
  | .binary _ op l r, hs, hr => by
      rw [expr]
      refine (stopsAt_expr hk l hs.1 hr.2.1).bind fun a =>
        (stopsAt_expr hk r hs.2 hr.2.2).andThen fun b => ?_
      split
      · exact stopsAt_pure
      · exact stopsAt_pure
  | .assign _ (.ident n _) value, hs, hr => by
      rw [expr, Expr.lost]
      · exact (stopsAt_expr hk value hs.1 hr.2).andThen fun _ =>
          (stopsAt_store hr.1 fun y hy => (hs.2 y hy).placed).andThen fun _ => stopsAt_pure
      · simp
      · simp
  | .assign _ (.index _ (.ident n name) i) value, hs, hr => by
      rw [expr, Expr.lost]
      have hload := stopsAt_load fun y hy => (hs.2.2 y hy).readable
      rw [Note.lost_eq_nil hr.1] at hload
      exact hload.bind fun _ => (stopsAt_expr hk i hs.1 hr.2.1).bind fun _ =>
        (stopsAt_expr hk value hs.2.1 hr.2.2).andThen fun _ =>
          (stopsAt_store hr.1 fun y hy => (hs.2.2 y hy).placed).andThen fun _ => stopsAt_pure
  | .call _ callee args, hs, hr => by
      rw [expr]
      exact (stopsAt_expr hk callee hs.1 hr.1).bind fun _ =>
        (stopsAt_exprs hk args hs.2 hr.2).andThen fun _ => stopsAt_pure
  | .index _ target i, hs, hr => by
      rw [expr]
      exact (stopsAt_expr hk target hs.1 hr.1).bind fun _ =>
        (stopsAt_expr hk i hs.2 hr.2).andThen fun _ => stopsAt_pure
  | .list _ items, hs, hr => by
      rw [expr]
      exact (stopsAt_exprs hk items hs hr).andThen fun _ => stopsAt_pure
  | .cast _ e _, hs, hr => by
      rw [expr]
      exact (stopsAt_expr hk e hs hr).andThen fun _ => stopsAt_pure
  | .lambda n _ _, hs, hr => by
      rw [expr]
      obtain ⟨f, hf⟩ := Option.isSome_iff_exists.mp hr
      exact stopsAt_lambda hf hk (hs f hf)

/-- Lists of expressions stop at their lost names. -/
theorem stopsAt_exprs (hk : x.facts.CapturesFrames) : ∀ es : List Expr,
    Expr.AllScoped x.facts x.function live es → Expr.AllResolved reads guarded es →
      StopsAt (Expr.lostOf es) (exprs x es)
  | [], _, _ => by
      rw [exprs]
      exact stopsAt_pure
  | e :: es, hs, hr => by
      rw [exprs]
      exact (stopsAt_expr hk e hs.1 hr.1).bind fun _ =>
        (stopsAt_exprs hk es hs.2 hr.2).andThen fun _ => stopsAt_pure

end

/-- An expression whose value is not used stops at the same names. -/
theorem stopsAt_discard (hk : x.facts.CapturesFrames) (e : Expr)
    (hs : e.Scoped x.facts x.function live) (hr : e.Resolved reads guarded) :
    StopsAt e.lost (discard x e) := by
  unfold discard
  split
  · next target value hassigned =>
      obtain ⟨n, rfl, hne⟩ := Expr.assigned?_eq_some hassigned
      obtain ⟨n', name, rfl⟩ := hs.eq_ident hne
      rw [Expr.lost]
      · exact (stopsAt_expr hk _ hs.1 hr.2).andThen fun _ =>
          (stopsAt_store hr.1 fun y hy => (hs.2 y hy).placed).andThen fun _ => stopsAt_pure
      · simp
  · exact (stopsAt_expr hk e hs hr).andThen fun _ => stopsAt_pure

mutual

/-- **Statements.** Code is made of a statement in scope unless a name in it has lost its symbol.
Jumps out of loops stand in loops, so none of them is reported. -/
theorem stopsAt_stmt (ho : x.facts.Orderly) (hk : x.facts.CapturesFrames) {live : List Nat} :
    ∀ (inLoop : Bool) (s : Stmt), s.Scoped x.facts x.function live →
      s.Resolved reads guarded (inLoop = true) → StopsAt s.lost (stmt x inLoop s)
  | inLoop, .block b, hs, hr => by
      rw [stmt]
      exact stopsAt_block ho hk inLoop b hs hr
  | _, .letVar n _ _ init, hs, hr => by
      rw [stmt]
      exact (stopsAt_expr hk init hs.1 hr.2).andThen fun _ =>
        (stopsAt_store hr.1 fun y hy => (hs.2 y hy).placed ho).andThen fun _ => stopsAt_pure
  | _, .fnDecl _ _ _ _, _, _ => by
      rw [stmt]
      exact stopsAt_pure
  | _, .ret _ none, _, _ => by
      rw [stmt, result]
      exact stopsAt_loadConst.andThen fun _ => stopsAt_pure
  | _, .ret _ (some e), hs, hr => by
      rw [stmt, result]
      exact (stopsAt_expr hk e hs hr).andThen fun _ => stopsAt_pure
  | inLoop, .cond _ test yes none, hs, hr => by
      rw [stmt]
      exact (stopsAt_expr hk test hs.1 hr.1).bind fun _ =>
        (stopsAt_block ho hk inLoop yes hs.2 hr.2).andThen fun _ => stopsAt_pure
  | inLoop, .cond _ test yes (some no), hs, hr => by
      rw [stmt]
      exact (stopsAt_expr hk test hs.1 hr.1).bind fun _ =>
        (stopsAt_block ho hk inLoop yes hs.2.1 hr.2.1).bind fun _ =>
          (stopsAt_stmt ho hk inLoop no hs.2.2 hr.2.2).andThen fun _ => stopsAt_pure
  | _, .whileLoop _ test body, hs, hr => by
      rw [stmt]
      exact (stopsAt_expr hk test hs.1 hr.1).bind fun _ =>
        (stopsAt_block ho hk true body hs.2 (by simpa using hr.2)).andThen fun _ =>
          stopsAt_pure
  | _, .loop _ body, hs, (hr : body.Resolved reads guarded True) => by
      rw [stmt]
      exact (stopsAt_block ho hk true body hs (by simpa using hr)).andThen fun _ =>
        stopsAt_pure
  | inLoop, .breakLoop _, _, (hr : inLoop = true) => by
      rw [stmt, if_pos hr]
      exact stopsAt_pure
  | inLoop, .continueLoop _, _, (hr : inLoop = true) => by
      rw [stmt, if_pos hr]
      exact stopsAt_pure
  | _, .expr _ e, hs, hr => by
      rw [stmt]
      exact stopsAt_discard hk e hs hr

/-- Statements in a row stop at their lost names. -/
theorem stopsAt_stmts (ho : x.facts.Orderly) (hk : x.facts.CapturesFrames) {live : List Nat} :
    ∀ (inLoop : Bool) (ss : List Stmt), Stmt.AllScoped x.facts x.function live ss →
      Stmt.AllResolved reads guarded (inLoop = true) ss →
        StopsAt (Stmt.lostOf ss) (stmts x inLoop ss)
  | _, [], _, _ => by
      rw [stmts]
      exact stopsAt_pure
  | inLoop, s :: ss, hs, hr => by
      rw [stmts]
      exact (stopsAt_stmt ho hk inLoop s hs.1 hr.1).bind fun _ =>
        (stopsAt_stmts ho hk inLoop ss hs.2 hr.2).andThen fun _ => stopsAt_pure

/-- Blocks stop at their lost names. -/
theorem stopsAt_block (ho : x.facts.Orderly) (hk : x.facts.CapturesFrames) {live : List Nat} :
    ∀ (inLoop : Bool) (b : Block), b.Scoped x.facts x.function live →
      b.Resolved reads guarded (inLoop = true) → StopsAt b.lost (block x inLoop b)
  | inLoop, .mk _ ss none, hs, hr => by
      rw [block]
      exact stopsAt_stmts ho hk inLoop ss hs hr
  | inLoop, .mk _ ss (some e), hs, hr => by
      rw [block]
      exact (stopsAt_stmts ho hk inLoop ss hs.1 hr.1).bind fun _ =>
        (stopsAt_discard hk e hs.2 hr.2).andThen fun _ => stopsAt_pure

end

/-- **Functions.** -/
theorem stopsAt_body (ho : x.facts.Orderly) (hk : x.facts.CapturesFrames) {b : Block}
    (hs : b.Scoped x.facts x.function live) (hr : b.Resolved reads guarded False) :
    StopsAt b.lost (body x b) := by
  have hloop : b.Resolved reads guarded (false = true) := by simpa using hr
  obtain ⟨n, ss, tail⟩ := b
  cases tail with
  | some e =>
      rw [body]
      exact (stopsAt_stmts ho hk false ss hs.1 hloop.1).bind fun _ =>
        (stopsAt_expr hk e hs.2 hr.2).andThen fun _ => stopsAt_pure
  | none =>
      rw [body]
      refine (stopsAt_stmts ho hk false ss hs hloop).andThen fun a => ?_
      split
      · exact stopsAt_pure
      · exact stopsAt_loadConst.andThen fun _ => stopsAt_pure

/-! ### Routines -/

/-- A function has a scoped and resolved body. -/
def Prepared (facts : Facts) (reads guarded : Prop) (bodies : List FunctionBody)
    (function : Nat) : Prop :=
  ∃ b, bodies.lookup function = some b ∧
    b.Scoped facts function (facts.info function).params ∧ b.Resolved reads guarded False

/-- The routines of prepared functions stop at no name but those that are lost. -/
theorem stopsAt_routines {facts : Facts} (ho : facts.Orderly) (hk : facts.CapturesFrames)
    (tidy : Bool) {bodies : List FunctionBody} (infos : List FunctionInfo) :
    ∀ function, (∀ i < infos.length,
        Prepared facts reads guarded bodies (function + i)) →
      StopsAt (lostIn bodies function infos) (routines facts tidy bodies function infos) := by
  induction infos with
  | nil => exact fun function _ => stopsAt_pure
  | cons info infos ih =>
      intro function h
      obtain ⟨b, hb, hs, hr⟩ := h 0 (Nat.zero_lt_succ _)
      have hrest := ih (function + 1) fun i hi => by
        have := h (i + 1) (Nat.succ_lt_succ hi)
        rwa [Nat.add_comm i, ← Nat.add_assoc] at this
      rw [Nat.add_zero] at hb
      rw [routines, routine_eq hb, lostIn, hb]
      have hbody := stopsAt_body (x := { facts, function, tidy }) ho hk hs hr
      exact (hbody.andThen fun _ => stopsAt_pure).bind fun _ =>
        hrest.andThen fun _ => stopsAt_pure

end Trees

end Generate

/-! ### Programs -/

namespace Analyzed

variable {a : Analyzed}

/-- The functions of an accepted program have bodies. -/
theorem Accepted.prepared (h : a.Accepted) {f : Nat} (hf : f < a.facts.functions.size) :
    Generate.Prepared a.facts True False a.bodies f := by
  obtain ⟨b, hb, hacc⟩ := h.exists_body hf
  exact ⟨b, hb, hacc.inScope, hacc.resolved nofun⟩

/-- No name of an accepted program is without a symbol. -/
theorem Accepted.lost_eq_nil (h : a.Accepted) : a.lost = [] := by
  refine lostIn_eq_nil fun f b hb => ?_
  have hresolved : b.Resolved True False False := (h.accepts_of_lookup hb).resolved nofun
  exact hresolved.lost_eq_nil

/-- **Programs.** An accepted program has an image. -/
theorem Accepted.exists_image (h : a.Accepted) : ∃ image, generate a = .ok image := by
  have hroutines := Generate.stopsAt_routines h.coherent.orderly h.coherent.capturesFrames true
    a.facts.functions.toList 0 fun i hi => h.prepared (by simpa using hi)
  rw [show lostIn a.bodies 0 a.facts.functions.toList = [] from h.lost_eq_nil] at hroutines
  obtain ⟨rs, consts, hrs⟩ := hroutines #[]
  have himage := assemble_eq_ok_iff.mpr ⟨rs, consts, hrs, rfl⟩
  exact ⟨_, generate_eq_ok_iff.mpr ⟨himage, Image.verifies_of_assemble himage h.coherent.stocked
    (fun f b hb => (h.accepts_of_lookup hb).fits) h.params h.captures⟩⟩

end Analyzed

namespace CompileOptions

/-- **Every analyzed program compiles.** Code generation succeeds on the tree of every text that
analysis accepts: all names, jumps and captures are resolved, and the image passes
verification. -/
theorem analyzed_compiles {o : CompileOptions} {text : List Char} {a : Analyzed}
    (h : o.analyze text = .ok a) : ∃ image, generate a = .ok image ∧ image.verify = .ok () := by
  obtain ⟨image, himage⟩ := (analyze_accepted h).1.exists_image
  exact ⟨image, himage, (generate_eq_ok_iff.mp himage).2⟩

/-- A variable that is captured through two functions, and a loop that is left. -/
def passesOn : List Char :=
  ("fn f(x: int) -> fn() -> fn() -> int " ++
    "\x7b fn() -> fn() -> int \x7b fn() -> int \x7b x \x7d \x7d \x7d " ++
    "loop \x7b break; \x7d f(1)()()").toList

/-- The analysis accepts `passesOn`: its last two functions capture one variable each. -/
theorem analyze_passesOn :
    (analyze { optimize := false } passesOn).toOption.map (fun a =>
      a.facts.functions.toList.map (·.captures.length)) = some [0, 0, 1, 1] := by
  rw [Grammar.standard_eq]
  decide +kernel

/-- The code of `passesOn` is generated and verified, though one function captures a variable only
to hand it on. -/
theorem passesOn_compiles :
    ∃ a image, analyze { optimize := false } passesOn = .ok a ∧
      a.facts.functions.toList.map (·.captures.length) = [0, 0, 1, 1] ∧
      generate a = .ok image ∧ image.verify = .ok () := by
  have h := analyze_passesOn
  cases ha : analyze { optimize := false } passesOn with
  | error e => simp [ha, Except.toOption] at h
  | ok a =>
      obtain ⟨image, himage, hv⟩ := analyzed_compiles ha
      exact ⟨a, image, rfl, by simpa [ha, Except.toOption] using h, himage, hv⟩

end CompileOptions

end Parlance
