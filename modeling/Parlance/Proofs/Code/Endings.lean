import Parlance.Proofs.Code.Heights
import Parlance.Proofs.Machine.Routes

/-!
# Where the code of statements ends

Code generation does not know whether control comes to the end of a function body, so it puts a
return of unit there whenever the code does not end with a return. Some of these returns are
never executed: behind a loop without a `break`, or behind a choice both of whose branches
return.

The routes of a fragment are the offsets where control may come, if nothing is known about the
values it tests. They are a chart without knowledge. If `Stmt.diverges` says that control does
not come behind a statement, there are routes for its code that do not lead to its end.

## Main results

* `Generate.routed_stmt`: the routes of statements.
* `Generate.Yields.implicit`: the code of a body without a result is that of its statements,
  with a return of unit behind it or not.
* `Image.Assembled.confined`: in the routine of a body whose statements diverge there are routes
  that stay in the code of the statements.
-/

namespace Parlance

/-! ### Routes -/

/-- An instruction leads to the next one and to its target. -/
structure Instr.Routed (chart : Chart Unit) (pc : Nat) (i : Instr) : Prop where
  next : i.isFinal = false → chart (pc + 1) = some ()
  target : ∀ t, i.target? = some t → chart t = some ()

/-- Routes are charts of the offsets where control may come. Nothing is known there. -/
def routeRules : Rules Unit where
  Covers _ _ := True
  covers_refl _ := trivial
  Leads chart pc _ i := i.Routed chart pc

/-- Inside a loop its start is on a route, and so is its exit if there is a `break`. -/
def loopRoutes (inLoop breaks : Bool) : Jumps Unit := fun chart loop =>
  inLoop = true → chart loop.start = some () ∧ (breaks = true → chart loop.exit = some ())

/-- A chart of routes accepts an offset if control may come there. -/
theorem routeRules_accepts {chart : Chart Unit} {pc : Nat} {p : Unit} :
    routeRules.Accepts chart pc p ↔ chart pc = some () :=
  ⟨fun ⟨_, hq, _⟩ => hq, fun h => ⟨(), h, trivial⟩⟩

/-- What is known behind code: nothing at all, if control does not come there. -/
def behind (diverges : Bool) : Option Unit :=
  if diverges then none else some ()

/-- Control does not come behind code that diverges. -/
@[simp] theorem behind_true : behind true = none := rfl

/-- Control may come behind other code. -/
@[simp] theorem behind_false : behind false = some () := rfl

/-- There are routes from the start of a fragment. If it diverges, they do not lead to its
end. -/
def Fragment.Routed (inLoop breaks diverges : Bool) (a : Fragment) : Prop :=
  ∃ ps, a.Flows routeRules (loopRoutes inLoop breaks) (some ()) ps (behind diverges)

namespace Fragment

variable {captures : Nat → Nat} {inLoop breaks d d' : Bool} {h k : Nat}
  {a b test yes no : Fragment}

/-- A jump leads to its target only. -/
theorem routed_jump {chart : Chart Unit} {pc target : Nat} (h : chart target = some ()) :
    Instr.Routed chart pc (.jump target) :=
  ⟨by simp [Instr.isFinal], by simpa [Instr.target?] using h⟩

/-- A conditional jump leads to its target and to the next instruction. -/
theorem routed_jumpIfFalse {chart : Chart Unit} {pc target : Nat} (hn : chart (pc + 1) = some ())
    (h : chart target = some ()) : Instr.Routed chart pc (.jumpIfFalse target) :=
  ⟨fun _ => hn, by simpa [Instr.target?] using h⟩

/-- Nothing leads behind a return. -/
theorem routed_ret : Routed inLoop breaks true (one .ret) :=
  ⟨[some ()], flows_one fun _ _ _ => ⟨by simp [Instr.isFinal], by simp [Instr.target?]⟩⟩

/-- Nothing leads behind a jump to the start of the loop. -/
theorem routed_continueLoop : Routed true breaks true continueLoop :=
  ⟨[some ()], flows_single rfl (fun _ _ => rfl) fun _ _ _ _ hj => routed_jump (hj rfl).1⟩

/-- Nothing leads behind a jump to the exit of the loop, which must be on a route. -/
theorem routed_breakLoop : Routed true true true breakLoop :=
  ⟨[some ()], flows_single rfl (fun _ _ => rfl) fun _ _ _ _ hj => routed_jump ((hj rfl).2 rfl)⟩

/-- Routes through code that does not jump to the ends of a loop: all its offsets. They lead on
because the heights do. -/
theorem Levels.routed (ha : Levels captures false h a (some k)) :
    Routed inLoop breaks false a := by
  obtain ⟨hs, hf⟩ := ha
  have hlen : hs.length = a.size := by rw [← hf.length, List.length_map]
  refine ⟨List.replicate a.size (some ()), by simp, hf.sized, fun {chart offset} hl hend => ?_,
    fun {chart offset loop} hl hend _ n i _ hi _ => ?_⟩
  all_goals
    have hall : ∀ pc, offset ≤ pc → pc ≤ offset + a.size → chart pc = some () := by
      intro pc hle hge
      rcases Nat.lt_or_eq_of_le hge with hlt | rfl
      · have := hl (pc - offset) (some ()) (List.getElem?_replicate_of_lt (by omega))
        rwa [Nat.add_sub_cancel' hle] at this
      · exact routeRules_accepts.mp hend
  · exact routeRules_accepts.mpr (hall offset (Nat.le_refl _) (Nat.le_add_right _ _))
  · -- The heights of the fragment where it stands, with that of its end and nothing beyond.
    let heights := Chart.ofListAt offset (hs.map some ++ [some k])
    have hknown : ∀ {pc n}, heights pc = some n → chart pc = some () := by
      intro pc n hn
      obtain ⟨hle, hlt⟩ := Chart.of_ofListAt_eq_some hn
      rw [List.length_append, List.length_map, List.length_singleton, hlen] at hlt
      exact hall pc hle (by omega)
    have hlists := Chart.lists_ofListAt offset (hs.map some ++ [some k])
    rw [Chart.lists_append, List.length_map, hlen] at hlists
    have hn : n < hs.length := by
      rw [hlen, ← hf.sized offset loop]
      exact (List.getElem?_eq_some_iff.mp hi).1
    have hloop : loopHeights false heights loop := by simp [loopHeights]
    have hbalanced := hf.leads hlists.1 (Rules.reaches_of_eq hlists.2.head) hloop n i hs[n] hi
      (hlists.1 n _ (by simp [hn]))
    exact ⟨fun hfin => hknown (hbalanced.next hfin), fun t ht => hknown (hbalanced.target t ht)⟩

namespace Routed

/-- Fragments with routes have as much code as they say. -/
theorem sized (ha : Routed inLoop breaks d a) : a.Sized := by
  obtain ⟨ps, hf⟩ := ha
  exact hf.sized

/-- Code that diverges may be taken for code that does not. -/
theorem weaken (ha : Routed inLoop breaks d a) (d' : Bool) (h : d' = true → d = true) :
    Routed inLoop breaks d' a := by
  obtain ⟨ps, hf⟩ := ha
  refine ⟨ps, hf.strengthen fun chart pc hr => ?_⟩
  cases d
  · cases d'
    · exact hr
    · cases h rfl
  · trivial

/-- Control does not come to code behind code that diverges. -/
theorem append (ha : Routed inLoop breaks d a) (hb : Routed inLoop breaks d' b) :
    Routed inLoop breaks (d || d') (a ++ b) := by
  obtain ⟨ps, hf⟩ := ha
  cases d
  · obtain ⟨qs, hg⟩ := hb
    exact ⟨ps ++ qs, hf.append hg⟩
  · exact ⟨_, hf.append hb.sized.unreachable⟩

/-- An `if` without `else` may be passed over, so control may come behind it. -/
theorem ifTrue (ht : Routed inLoop breaks false test) (hb : Routed inLoop breaks d b) :
    Routed inLoop breaks false (skipping .jumpIfFalse test b) := by
  obtain ⟨ts, ht⟩ := ht
  obtain ⟨ps, hb⟩ := hb.weaken false (by simp)
  exact ⟨_, ht.skipping (s := ()) (t := ()) hb fun chart pc target hn he =>
    routed_jumpIfFalse (routeRules_accepts.mp hn) (routeRules_accepts.mp he)⟩

/-- Control comes behind a choice if it comes behind one of its branches. -/
theorem choice (ht : Routed inLoop breaks false test) (hy : Routed inLoop breaks d yes)
    (hn : Routed inLoop breaks d' no) :
    Routed inLoop breaks (d && d') (choice test yes no) := by
  obtain ⟨ts, ht⟩ := ht
  obtain ⟨ys, hy⟩ := hy
  obtain ⟨ns, hn⟩ := hn.weaken (d && d') (by cases d <;> simp)
  refine ⟨_, ht.choice (s := ()) (t := ()) hy hn (fun chart pc target hn he => ?_)
    fun chart pc target u hu hq => ?_⟩
  · exact routed_jumpIfFalse (routeRules_accepts.mp hn) (routeRules_accepts.mp he)
  · cases d
    · exact routed_jump (routeRules_accepts.mp hq)
    · cases hu

/-- Control comes behind a loop only by a `break`. -/
theorem forever (ha : Routed true d d' a) : Routed inLoop breaks (!d) (forever a) := by
  obtain ⟨ps, hf⟩ := ha.weaken false (by simp)
  refine ⟨_, hf.forever (s := ()) (fun _ _ => Rules.accepts_of_eq)
    (fun chart pc target he => routed_jump (routeRules_accepts.mp he))
    fun chart loop hs he _ => ⟨routeRules_accepts.mp hs, ?_⟩⟩
  rintro rfl
  exact routeRules_accepts.mp he

/-- Control comes behind a loop with a test. -/
theorem whileTrue (ht : Routed true true false test) (ha : Routed true true d a) :
    Routed inLoop breaks false (whileTrue test a) := by
  obtain ⟨ts, ht⟩ := ht
  obtain ⟨ps, hf⟩ := ha.weaken false (by simp)
  exact ⟨_, ht.whileTrue (s := ()) (t := ()) hf (fun _ _ => Rules.accepts_of_eq)
    (fun chart pc target hn he =>
      routed_jumpIfFalse (routeRules_accepts.mp hn) (routeRules_accepts.mp he))
    (fun chart pc target he => routed_jump (routeRules_accepts.mp he))
    fun chart loop hs he _ => ⟨routeRules_accepts.mp hs, fun _ => routeRules_accepts.mp he⟩⟩

end Routed

end Fragment

/-! ### Code generation -/

namespace Generate

open Fragment

variable {x : GenerateContext} {inLoop breaks : Bool}

/-- Control comes behind an expression. -/
theorem routed_expr (e : Expr) : Produces (Routed inLoop breaks false) (expr x e) :=
  (pushes_expr e).mono fun _ ha => (ha.levels 0).routed

/-- Control comes behind an expression whose value is not used. -/
theorem routed_discard (e : Expr) : Produces (Routed inLoop breaks false) (discard x e) :=
  (settles_discard e).mono fun _ ha => ha.levels.routed

/-- Control comes behind no code at all. -/
theorem routed_empty : Produces (Routed inLoop breaks false) (pure empty : Generate Fragment) :=
  produces_pure ⟨[], flows_empty⟩

mutual

/-- **Statements.** There are routes through the code of a statement, which do not lead to its
end if it diverges. -/
theorem routed_stmt : ∀ (inLoop breaks : Bool) (s : Stmt), (s.breaks = true → breaks = true) →
    Produces (Routed inLoop breaks s.diverges) (stmt x inLoop s)
  | inLoop, breaks, .block b, h => by
      rw [stmt]
      exact routed_block inLoop breaks b h
  | _, _, .letVar n _ _ init, _ => by
      rw [stmt]
      exact (pushes_expr init).bind fun a ha => stores_store.bind fun b hb =>
        produces_pure ((ha.store hb).levels 0).routed
  | _, _, .fnDecl _ _ _ _, _ => by
      rw [stmt]
      exact routed_empty
  | _, _, .ret _ value, _ => by
      rw [stmt]
      exact (pushes_result value).bind fun a ha =>
        produces_pure ((ha.levels 0).routed.append routed_ret)
  | inLoop, breaks, .cond _ test yes none, h => by
      rw [stmt]
      exact (routed_expr test).bind fun a ha => (routed_block inLoop breaks yes h).bind fun b hb =>
        produces_pure (ha.ifTrue hb)
  | inLoop, breaks, .cond _ test yes (some no), h => by
      rw [Stmt.breaks, Bool.or_eq_true] at h
      rw [stmt]
      exact (routed_expr test).bind fun a ha =>
        (routed_block inLoop breaks yes fun hy => h (.inl hy)).bind fun b hb =>
          (routed_stmt inLoop breaks no fun hn => h (.inr hn)).bind fun c hc =>
            produces_pure (ha.choice hb hc)
  | _, _, .whileLoop _ test body, _ => by
      rw [stmt]
      exact (routed_expr test).bind fun a ha =>
        (routed_block true true body fun _ => rfl).bind fun b hb => produces_pure (ha.whileTrue hb)
  | _, _, .loop _ body, _ => by
      rw [stmt]
      exact (routed_block true body.breaks body id).bind fun a ha => produces_pure ha.forever
  | inLoop, breaks, .breakLoop n, h => by
      obtain rfl : breaks = true := h rfl
      rw [stmt]
      split
      · next hin =>
          subst hin
          exact produces_pure routed_breakLoop
      · exact produces_unresolved
  | inLoop, _, .continueLoop n, _ => by
      rw [stmt]
      split
      · next hin => exact produces_pure (hin ▸ routed_continueLoop)
      · exact produces_unresolved
  | _, _, .expr _ e, _ => by
      rw [stmt]
      exact routed_discard e

/-- Control does not come behind statements that diverge. -/
theorem routed_stmts : ∀ (inLoop breaks : Bool) (ss : List Stmt),
    (Stmt.anyBreaks ss = true → breaks = true) →
      Produces (Routed inLoop breaks (Stmt.anyDiverges ss)) (stmts x inLoop ss)
  | _, _, [], _ => by
      rw [stmts]
      exact routed_empty
  | inLoop, breaks, s :: ss, h => by
      rw [Stmt.anyBreaks, Bool.or_eq_true] at h
      rw [stmts, Stmt.anyDiverges]
      exact (routed_stmt inLoop breaks s fun hs => h (.inl hs)).bind fun a ha =>
        (routed_stmts inLoop breaks ss fun hs => h (.inr hs)).bind fun b hb =>
          produces_pure (ha.append hb)

/-- Control does not come behind a block that diverges. -/
theorem routed_block : ∀ (inLoop breaks : Bool) (b : Block), (b.breaks = true → breaks = true) →
    Produces (Routed inLoop breaks b.diverges) (block x inLoop b)
  | inLoop, breaks, .mk _ ss none, h => by
      rw [block]
      exact routed_stmts inLoop breaks ss h
  | inLoop, breaks, .mk _ ss (some e), h => by
      rw [block, Block.diverges, ← Bool.or_false (Stmt.anyDiverges ss)]
      exact (routed_stmts inLoop breaks ss h).bind fun a ha => (routed_discard e).bind fun b hb =>
        produces_pure (ha.append hb)

end

/-! ### Bodies -/

/-- The code of a body without a result: that of its statements, with a return of unit behind it
unless it ends with a return. -/
inductive Implicit (consts : Array Const) (code : Fragment) : Fragment → Prop where
  | returns : code.returns = true → Implicit consts code code
  | appended {k : Nat} : code.returns = false → consts[k]? = some .unit →
      Implicit consts code (code ++ .one (.loadConst k) ++ .one .ret)

/-- **Inversion.** What a body without a result yields. -/
theorem Yields.implicit {final : Array Const} {n : Note} {ss : List Stmt} {whole : Fragment}
    (h : Yields final (body x (.mk n ss none)) whole) :
    ∃ code, Yields final (stmts x false ss) code ∧ Implicit final code whole := by
  have hunit : Grows (loadConst .unit) := (produces_loadConst (c := .unit) trivial).grows
  rw [body] at h
  obtain ⟨code, -, hc, h⟩ := h.bind grows_stmts fun a => by
    split
    · exact grows_pure
    · exact grows_bind hunit fun _ => grows_pure
  refine ⟨code, hc, ?_⟩
  split at h
  · next hr =>
      cases h.pure_eq
      exact .returns hr
  · next hr =>
      obtain ⟨l, -, hl, h⟩ := h.bind hunit fun _ => grows_pure
      obtain ⟨k, rfl, hk⟩ := yields_loadConst (c := .unit) trivial hl
      cases h.pure_eq
      exact .appended (Bool.eq_false_iff.mpr hr) hk

/-- The code of such a body starts with that of its statements. -/
theorem Implicit.getElem?_eq {consts : Array Const} {code whole : Fragment}
    (h : Implicit consts code whole) (hs : code.Sized) {pc : Nat} (hpc : pc < code.size) :
    whole.code[pc]? = (code.place 0 ⟨0, 0⟩)[pc]? := by
  cases h with
  | returns => simp [Fragment.code]
  | appended =>
      rw [Fragment.append_assoc, Fragment.code, Fragment.place_append, List.getElem?_toArray]
      exact List.getElem?_append_left (by rwa [hs])

end Generate

/-- If the statements of a body diverge, there are routes that stay in their code. What was appended
stands behind that code. -/
theorem Fragment.Routed.confined {consts : Array Const} {code whole : Fragment} {r : Routine}
    (ha : code.Routed false true true) (hi : Generate.Implicit consts code whole)
    (hr : r.code = whole.code) :
    ∃ area, r.Confined area ∧ ∀ pc, area pc → pc < code.size := by
  obtain ⟨ps, hf⟩ := ha
  have hlists := Chart.lists_ofList ps
  have hleads : routeRules.AllLead (.ofList ps) 0 (code.place 0 ⟨0, 0⟩) :=
    hf.leads hlists trivial (by simp [loopRoutes])
  have hlt : ∀ pc, Chart.ofList ps pc = some () → pc < code.size := by
    intro pc h
    by_contra hge
    rw [Chart.ofList, List.getElem?_eq_none (by rw [hf.length]; omega)] at h
    cases h
  have hrouted : ∀ pc i, r.code[pc]? = some i → Chart.ofList ps pc = some () →
      i.Routed (.ofList ps) pc := by
    intro pc i hget hpc
    rw [hr, hi.getElem?_eq hf.sized (hlt pc hpc)] at hget
    have := hleads pc i () hget (by rwa [Nat.zero_add])
    rwa [Nat.zero_add] at this
  refine ⟨fun pc => Chart.ofList ps pc = some (), ⟨?_, fun pc i hget hpc hfin => ?_,
    fun pc i t hget hpc ht => ?_⟩, hlt⟩
  · exact routeRules_accepts.mp (hf.entry hlists trivial)
  · exact (hrouted pc i hget hpc).next hfin
  · exact (hrouted pc i hget hpc).target t ht

/-- **Routines.** The routine of a body without a result starts with the code of the statements.
If they diverge, there are routes that stay in it. -/
theorem Image.Assembled.confined {a : Analyzed} {image : Image} (h : image.Assembled a) {f : Nat}
    {n : Note} {ss : List Stmt} {r : Routine} (hb : a.bodies.lookup f = some (.mk n ss none))
    (hr : image.routines[f]? = some r) :
    ∃ code whole,
      Generate.Yields image.consts
        (Generate.stmts { facts := a.facts, function := f, tidy := true } false ss) code ∧
      Generate.Implicit image.consts code whole ∧ r.code = whole.code ∧
      (Stmt.anyDiverges ss = true →
        ∃ area, r.Confined area ∧ ∀ pc, area pc → pc < code.size) := by
  obtain ⟨info, hinfo⟩ := h.info_of_routine hr
  obtain ⟨b, whole, hlookup, -, hy, hr'⟩ := h.routine f info hinfo
  cases hr.symm.trans hr'
  cases hb.symm.trans hlookup
  obtain ⟨code, hcode, himp⟩ := hy.implicit
  refine ⟨code, whole, hcode, himp, rfl, fun hd => ?_⟩
  have hrouted := hcode.of_produces (Generate.routed_stmts false true ss fun _ => rfl)
  rw [hd] at hrouted
  exact hrouted.confined himp rfl

end Parlance
