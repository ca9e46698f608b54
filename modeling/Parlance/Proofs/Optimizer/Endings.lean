import Parlance.Proofs.Code.Endings
import Parlance.Proofs.Machine.Heights
import Parlance.Proofs.Optimizer.Bodies
import Parlance.Proofs.Optimizer.Convergence
import Parlance.Proofs.Optimizer.Equivalence
import Parlance.Proofs.Optimizer.Frames

/-!
# Functions with a result return it

Analysis only accepts a function with a result if its body has a tail, or if control does not
come to the end of the body. It decides that with `Stmt.terminates`, and the dead code pass has a
test of its own, `Stmt.diverges`, which also counts jumps out of the block. A pass may remove the
tail of a body and rewrite its statements. What it puts in their place still diverges if they did,
and has no `break` that they did not have, so loops around it stay as endless as they were.

So the return of unit that code generation puts at the end of such a body is never executed.

## Main definitions

* `Tightens`: code diverges where other code did, and breaks only where it did.

## Main results

* `Block.tightens_update`, `Block.tightens_folded`, `DeadCode.tightens_block`,
  `Share.tightens_block`: what takes the place of a block.
* `Block.respects_tightens`: so sweeps keep it.
* `CompileOptions.implicit_unreached`: no run of a compiled program comes to the return of unit
  behind the statements of a function with a result.
-/

namespace Parlance

/-! ### Code that takes the place of other code -/

/-- Code that diverges or breaks (`d'`, `b'`) may stand for code that does (`d`, `b`): it
diverges if that did, and does not break if that did not. -/
structure Tightens (d b d' b' : Bool) : Prop where
  diverges : d = true → d' = true
  breaks : b' = true → b = true

namespace Tightens

variable {d b d' b' d'' b'' e c e' c' : Bool}

/-- Code may stand for itself. -/
theorem refl : Tightens d b d b :=
  ⟨id, id⟩

/-- Replacements may follow one another. -/
theorem trans (h : Tightens d b d' b') (h' : Tightens d' b' d'' b'') : Tightens d b d'' b'' :=
  ⟨h'.diverges ∘ h.diverges, h.breaks ∘ h'.breaks⟩

/-- One after the other. -/
theorem seq (h : Tightens d b d' b') (h' : Tightens e c e' c') :
    Tightens (d || e) (b || c) (d' || e') (b' || c') where
  diverges hd := Bool.or_eq_true_iff.mpr ((Bool.or_eq_true_iff.mp hd).imp h.diverges h'.diverges)
  breaks hb := Bool.or_eq_true_iff.mpr ((Bool.or_eq_true_iff.mp hb).imp h.breaks h'.breaks)

/-- One or the other. -/
theorem choice (h : Tightens d b d' b') (h' : Tightens e c e' c') :
    Tightens (d && e) (b || c) (d' && e') (b' || c') where
  diverges hd := Bool.and_eq_true_iff.mpr ((Bool.and_eq_true_iff.mp hd).imp h.diverges h'.diverges)
  breaks := (h.seq h').breaks

/-- A branch without an alternative. -/
theorem branch (h : Tightens d b d' b') : Tightens false b false b' :=
  ⟨id, h.breaks⟩

/-- A loop diverges if nothing breaks it. -/
theorem loop (h : Tightens d b d' b') : Tightens (!b) false (!b') false := by
  refine ⟨fun hb => ?_, id⟩
  rw [Bool.not_eq_true', Bool.eq_false_iff] at hb ⊢
  exact hb ∘ h.breaks

end Tightens

namespace Stmt

/-- A statement that may stand for another one. -/
protected abbrev Tightens (s s' : Stmt) : Prop :=
  Parlance.Tightens s.diverges s.breaks s'.diverges s'.breaks

/-- Statements that may stand for others. -/
abbrev AllTighten (ss ss' : List Stmt) : Prop :=
  Tightens (anyDiverges ss) (anyBreaks ss) (anyDiverges ss') (anyBreaks ss')

/-- Statements in a row diverge if some statement does, in either half. -/
@[simp] theorem anyDiverges_append (ss ts : List Stmt) :
    anyDiverges (ss ++ ts) = (anyDiverges ss || anyDiverges ts) := by
  induction ss with
  | nil => rfl
  | cons s ss ih => rw [List.cons_append, anyDiverges, anyDiverges, ih, Bool.or_assoc]

/-- Statements in a row break if some statement does, in either half. -/
@[simp] theorem anyBreaks_append (ss ts : List Stmt) :
    anyBreaks (ss ++ ts) = (anyBreaks ss || anyBreaks ts) := by
  induction ss with
  | nil => rfl
  | cons s ss ih => rw [List.cons_append, anyBreaks, anyBreaks, ih, Bool.or_assoc]

/-- Two runs of statements may be replaced each on its own. -/
theorem allTighten_append {ss ss' ts ts' : List Stmt} (h : AllTighten ss ss')
    (h' : AllTighten ts ts') : AllTighten (ss ++ ts) (ss' ++ ts') := by
  simp only [AllTighten, anyDiverges_append, anyBreaks_append]
  exact h.seq h'

end Stmt

/-- A block that may stand for another one. A block without a tail may stand for one with a tail
if it diverges. -/
structure Block.Tightens (b b' : Block) : Prop extends
    Parlance.Tightens b.diverges b.breaks b'.diverges b'.breaks where
  tail : b.tail.isSome = true → b'.tail.isSome = true ∨ b'.diverges = true

namespace Block.Tightens

variable {b b' b'' : Block}

/-- A block may stand for itself. -/
theorem refl (b : Block) : b.Tightens b :=
  ⟨.refl, .inl⟩

/-- Blocks may be replaced one after another. -/
theorem trans (h : b.Tightens b') (h' : b'.Tightens b'') : b.Tightens b'' :=
  ⟨h.toTightens.trans h'.toTightens, fun ht => (h.tail ht).elim h'.tail (.inr ∘ h'.diverges)⟩

end Block.Tightens

/-! ### A block inside other code -/

section Update

variable {label : Nat} {new : Block}

/-- The block with a label may be replaced. -/
def Loosens (label : Nat) (new : Block) (blocks : List OwnedBlock) : Prop :=
  ∀ c ∈ blocks, c.1.note.id = label → c.1.Tightens new

/-- A condition on the blocks of two lists is one on those of each. -/
theorem loosens_append {as bs : List OwnedBlock} :
    Loosens label new (as ++ bs) ↔ Loosens label new as ∧ Loosens label new bs :=
  List.forall_mem_append

mutual

/-- A statement inside which a block is replaced may stand for the statement before. -/
theorem Stmt.tightens_update : ∀ (s : Stmt) {f : Nat}, Loosens label new (s.blocks f) →
    s.Tightens (s.update label fun _ => new)
  | .block b, _, h => (b.tightens_update h).toTightens
  | .letVar _ _ _ _, _, _ | .fnDecl _ _ _ _, _, _ | .ret _ none, _, _ | .ret _ (some _), _, _
  | .whileLoop _ _ _, _, _ | .breakLoop _, _, _ | .continueLoop _, _, _ | .expr _ _, _, _ => .refl
  | .cond _ _ yes none, _, h => (yes.tightens_update (loosens_append.mp h).2).branch
  | .cond _ _ yes (some no), _, h => by
      obtain ⟨h, hno⟩ := loosens_append.mp h
      exact (yes.tightens_update (loosens_append.mp h).2).choice (no.tightens_update hno)
  | .loop _ b, _, h => (b.tightens_update h).loop

/-- The same for statements in a row. -/
theorem Stmt.allTighten_update : ∀ (ss : List Stmt) {f : Nat},
    Loosens label new (Stmt.blocksOf f ss) →
      Stmt.AllTighten ss (Stmt.updateAll label (fun _ => new) ss)
  | [], _, _ => .refl
  | s :: ss, _, h => by
      obtain ⟨hs, hss⟩ := loosens_append.mp h
      exact (s.tightens_update hs).seq (Stmt.allTighten_update ss hss)

/-- **One block.** A block around a block that is replaced. -/
theorem Block.tightens_update : ∀ (b : Block) {f : Nat}, Loosens label new (b.blocks f) →
    b.Tightens (b.update label fun _ => new)
  | .mk n ss none, f, h => by
      rw [Block.update]
      split
      · next hid => exact h (.mk n ss none, f) List.mem_cons_self hid
      · exact ⟨Stmt.allTighten_update ss fun c hc => h c (List.mem_cons_of_mem _ hc), nofun⟩
  | .mk n ss (some e), f, h => by
      rw [Block.update]
      split
      · next hid => exact h (.mk n ss (some e), f) List.mem_cons_self hid
      · exact ⟨Stmt.allTighten_update ss fun c hc =>
          h c (List.mem_cons_of_mem _ (List.mem_append_left _ hc)), fun _ => .inl rfl⟩

end

end Update

/-! ### Folding -/

mutual

/-- A folded statement may stand for the statement before: folding drops no divergence and adds no
`break`. -/
theorem Stmt.tightens_folded : ∀ s : Stmt, s.Tightens s.folded
  | .block b => b.tightens_folded.toTightens
  | .letVar _ _ _ _ | .fnDecl _ _ _ _ | .ret _ none | .ret _ (some _) | .whileLoop _ _ _
  | .breakLoop _ | .continueLoop _ | .expr _ _ => .refl
  | .cond _ _ yes none => yes.tightens_folded.branch
  | .cond _ _ yes (some no) => yes.tightens_folded.choice no.tightens_folded
  | .loop _ b => b.tightens_folded.loop

/-- The same for statements in a row. -/
theorem Stmt.allTighten_folded : ∀ ss : List Stmt, Stmt.AllTighten ss (Stmt.foldedAll ss)
  | [] => .refl
  | s :: ss => s.tightens_folded.seq (Stmt.allTighten_folded ss)

/-- **Folding.** A folded block. -/
theorem Block.tightens_folded : ∀ b : Block, b.Tightens b.folded
  | .mk _ ss none => ⟨Stmt.allTighten_folded ss, nofun⟩
  | .mk _ ss (some _) => ⟨Stmt.allTighten_folded ss, fun _ => .inl rfl⟩

end

/-! ### Dead code -/

namespace DeadCode

/-- Control comes behind a statement that is removed. -/
theorem diverges_of_removed {s : Stmt} (h : simplify s = .removed) : s.diverges = false := by
  obtain ⟨n, e, rfl, -⟩ | ⟨n, rfl⟩ | ⟨n, m, yes, rfl⟩ | ⟨n, m, body, rfl⟩ :=
    simplify_eq_removed h <;> rfl

/-- The branch that is taken. -/
theorem tightens_simplify {s s' : Stmt} (h : simplify s = .replaced s') : s.Tightens s' := by
  obtain ⟨n, m, yes, no, rfl, rfl⟩ | ⟨n, m, yes, rfl⟩ := simplify_eq_replaced h
  · cases no with
    | none => exact ⟨nofun, id⟩
    | some no =>
        exact ⟨fun hd => (Bool.and_eq_true_iff.mp hd).1,
          fun hb => Bool.or_eq_true_iff.mpr (.inl hb)⟩
  · exact ⟨fun hd => (Bool.and_eq_true_iff.mp hd).2,
      fun hb => Bool.or_eq_true_iff.mpr (.inr hb)⟩

/-- Declarations neither diverge nor break. -/
theorem breaks_filter (ss : List Stmt) : Stmt.anyBreaks (ss.filter isDeclaration) = false := by
  induction ss with
  | nil => rfl
  | cons s ss ih =>
      rw [List.filter_cons]
      split
      · next hs =>
          cases s with
          | fnDecl => exact ih
          | _ => cases hs
      · exact ih

/-- Statements that start with one that diverges, if what was kept of the others counts. -/
theorem tightens_cons {s s' : Stmt} {ss : List Stmt} {changes : Nat} (hs : s.Tightens s')
    (ih : Stmt.AllTighten ss (reachable ss).stmts ∧
      ((reachable ss).diverged = true → Stmt.anyDiverges (reachable ss).stmts = true)) :
    let swept := (if s'.diverges then unreachable ss else reachable ss).cons s' changes
    Stmt.AllTighten (s :: ss) swept.stmts ∧
      (swept.diverged = true → Stmt.anyDiverges swept.stmts = true) := by
  dsimp only
  split
  · next hd =>
      have hall : Stmt.anyDiverges (s' :: (unreachable ss).stmts) = true := by
        rw [Stmt.anyDiverges, hd, Bool.true_or]
      refine ⟨⟨fun _ => hall, fun hb => ?_⟩, fun _ => hall⟩
      change (s'.breaks || Stmt.anyBreaks (ss.filter isDeclaration)) = true at hb
      rw [breaks_filter, Bool.or_false] at hb
      exact Bool.or_eq_true_iff.mpr (.inl (hs.breaks hb))
  · exact ⟨hs.seq ih.1, fun h => Bool.or_eq_true_iff.mpr (.inr (ih.2 h))⟩

/-- What is kept of some statements. If the sweep says that control does not come to their end,
then the kept ones diverge. -/
theorem tightens_reachable (ss : List Stmt) : Stmt.AllTighten ss (reachable ss).stmts ∧
    ((reachable ss).diverged = true → Stmt.anyDiverges (reachable ss).stmts = true) := by
  induction ss with
  | nil => exact ⟨.refl, nofun⟩
  | cons s ss ih =>
      rw [reachable]
      split
      · next hs =>
          refine ⟨⟨fun hd => ih.1.diverges ?_, fun hb => ?_⟩, ih.2⟩
          · rwa [Stmt.anyDiverges, diverges_of_removed hs, Bool.false_or] at hd
          · exact Bool.or_eq_true_iff.mpr (.inr (ih.1.breaks hb))
      · exact tightens_cons .refl ih
      · next hs => exact tightens_cons (tightens_simplify hs) ih

/-- What is left of statements may stand for them. -/
theorem Dropped.tightens {ss ss' : List Stmt} (h : Dropped ss ss') : Stmt.AllTighten ss ss' := by
  cases h <;> exact .refl

/-- What the loop over stores makes of statements may stand for them. -/
theorem tightens_dropStores (facts : Facts) (tail : Option Expr) (before ss : List Stmt) :
    Stmt.AllTighten (before ++ ss) (dropStores facts tail before ss).1 := by
  fun_induction dropStores facts tail before ss with
  | case1 before =>
      rw [List.append_nil]
      exact .refl
  | case2 before s ss ss' h out changes hout ih =>
      rw [hout] at ih
      exact (Stmt.allTighten_append .refl (dropped_of_dropStore? h).tightens).trans ih
  | case3 before s ss h ih => rwa [List.append_assoc] at ih

/-- **Dead code.** A swept block. It only loses its tail if its statements diverge. -/
theorem tightens_block (facts : Facts) (b : Block) : b.Tightens (block facts b).1 := by
  obtain ⟨n, ss, tail⟩ := b
  obtain ⟨hreach, hdiverged⟩ := tightens_reachable ss
  have hdrop := tightens_dropStores facts (sweptTail ss tail) [] (reachable ss).stmts
  rw [block_mk]
  refine ⟨hreach.trans hdrop, fun ht => ?_⟩
  cases hd : (reachable ss).diverged with
  | false => exact .inl (by rwa [sweptTail_of_reached hd])
  | true => exact .inr (hdrop.diverges (hdiverged hd))

end DeadCode

/-! ### Sharing -/

namespace Share

variable {function : Nat}

/-- The temporaries in front of an expression neither diverge nor break, so they may be put in front
of any statement. -/
theorem tightens_expr (fuel : Nat) (e : Expr) :
    Gives (expr function fuel e) fun r => Stmt.AllTighten [] r.1 := by
  induction fuel generalizing e with
  | zero => exact .pure .refl
  | succ fuel ih =>
      rw [expr]
      split
      · exact .pure .refl
      · split
        · exact .pure .refl
        · exact Gives.bind (P := fun _ => True) (fun _ => trivial) fun _ _ =>
            Gives.bind (P := fun _ => True) (fun _ => trivial) fun _ _ =>
              Gives.bind (P := fun _ => True) (fun _ => trivial) fun _ _ =>
                (ih _).bind fun inner hi => (ih _).bind fun rest hr =>
                  .pure (Stmt.allTighten_append hi hr)

/-- A statement with its temporaries taken out may stand for it, and the temporaries for nothing. -/
theorem tightens_stmt (s : Stmt) :
    Gives (stmt function s) fun r => Stmt.AllTighten [] r.1 ∧ s.Tightens r.2 := by
  unfold stmt
  split
  · exact (tightens_expr _ _).bind fun r h => .pure ⟨h, .refl⟩
  · exact (tightens_expr _ _).bind fun r h => .pure ⟨h, .refl⟩
  · exact (tightens_expr _ _).bind fun r h => .pure ⟨h, .refl⟩
  · next n test yes no =>
      refine (tightens_expr _ _).bind fun r h => .pure ⟨h, ?_⟩
      cases no <;> exact .refl
  · exact .pure ⟨.refl, .refl⟩

/-- Statements with temporaries between them may stand for the statements. -/
theorem tightens_stmts (ss : List Stmt) :
    Gives (stmts function ss) fun r => Stmt.AllTighten ss r.1 := by
  induction ss with
  | nil => exact .pure .refl
  | cons s ss ih =>
      exact (tightens_stmt s).bind fun r hr => ih.bind fun rest hrest =>
        .pure (Stmt.allTighten_append hr.1 (hr.2.seq hrest))

/-- **Sharing.** A block with temporaries. -/
theorem tightens_block (b : Block) : Gives (block function b) fun r => b.Tightens r.1 := by
  obtain ⟨n, ss, tail⟩ := b
  cases tail with
  | none => exact (tightens_stmts ss).bind fun r hr => .pure ⟨hr, nofun⟩
  | some e =>
      refine (tightens_stmts ss).bind fun r hr => (tightens_expr _ e).bind fun lets hl =>
        .pure ⟨?_, fun _ => .inl rfl⟩
      have := Stmt.allTighten_append hr hl
      rwa [List.append_nil] at this

end Share

/-- What passes make of a block may stand for it. -/
theorem Block.respects_tightens : Respects Block.Tightens where
  refl := .refl
  trans := .trans
  update b _ h := Block.tightens_update b h
  folded _ := Block.tightens_folded _
  deadCode := DeadCode.tightens_block
  shared function s b _ := by
    have h : Share.Gives (Share.block function b) fun r => b.Tightens r.1 := Share.tightens_block b
    exact h s

/-! ### Accepted programs -/

mutual

/-- What terminates diverges. -/
theorem Stmt.diverges_of_terminates : ∀ s : Stmt, s.terminates = true → s.diverges = true
  | .ret _ _, _ => rfl
  | .block b, h => b.diverges_of_terminates h
  | .cond _ _ yes (some no), h =>
      Bool.and_eq_true_iff.mpr ((Bool.and_eq_true_iff.mp h).imp yes.diverges_of_terminates
        no.diverges_of_terminates)
  | .loop _ _, h => h

/-- A statement that terminates its block diverges, so a block that the analyzer accepts without a
result diverges. -/
theorem Stmt.anyDiverges_of_anyTerminates : ∀ ss : List Stmt, Stmt.anyTerminates ss = true →
    Stmt.anyDiverges ss = true
  | s :: ss, h =>
      Bool.or_eq_true_iff.mpr ((Bool.or_eq_true_iff.mp h).imp s.diverges_of_terminates
        (Stmt.anyDiverges_of_anyTerminates ss))

/-- The same for blocks. -/
theorem Block.diverges_of_terminates : ∀ b : Block, b.terminates = true → b.diverges = true
  | .mk _ ss _, h => Stmt.anyDiverges_of_anyTerminates ss h

end

/-- A function with a result has a tail, or its statements diverge. -/
theorem Facts.Accepts.concludes {F : Facts} {f : Nat} {b : Block} (h : F.Accepts f b)
    (hr : (F.info f).returns ≠ .unit) : b.tail.isSome = true ∨ b.diverges = true := by
  obtain ⟨n, ss, tail⟩ := b
  cases tail with
  | some e => exact .inl rfl
  | none => exact .inr (Stmt.anyDiverges_of_anyTerminates ss (h.typed.2.resolve_left hr))

/-- **Programs.** So it is after any sweeps. -/
theorem Analyzed.Accepted.concludes {a b : Analyzed} {owner : Nat → Nat} (ha : a.Accepted)
    (h : a.Sound owner) (hs : a.Sweeps b) {f : Nat} {body : Block}
    (hb : b.bodies.lookup f = some body) (hr : (b.facts.info f).returns ≠ .unit) :
    body.tail.isSome = true ∨ body.diverges = true := by
  obtain ⟨⟨g, old⟩, hold, rfl, ht⟩ := (hs.related Block.respects_tightens h).body _ (mem_of_lookup hb)
  rw [(hs.spawns h).extends.info] at hr
  rcases (ha.accepts hold).concludes hr with htail | hd
  · exact ht.tail htail
  · exact .inr (ht.diverges hd)

/-! ### Compiled programs -/

namespace CompileOptions

variable {o : CompileOptions} {text : List Char} {c : Compilation}

/-- **Functions with a result return it.** A text was compiled, optimized or not, and a function
has a result, but its body has no tail. Then the code of the function is that of its statements,
and no frame of any run ever stands behind it. So if there is a return of unit behind it, that is
not executed. -/
theorem implicit_unreached (h : o.compile text = .ok c) :
    ∃ a, o.optimized text = .ok a ∧ generate a = .ok c.image ∧
      ∀ (f : Nat) (n : Note) (ss : List Stmt) (r : Routine),
        a.bodies.lookup f = some (.mk n ss none) → (a.facts.info f).returns ≠ .unit →
        c.image.routines[f]? = some r →
        ∃ code whole : Fragment,
          Generate.Yields c.image.consts
            (Generate.stmts { facts := a.facts, function := f, tidy := true } false ss) code ∧
          Generate.Implicit c.image.consts code whole ∧ r.code = whole.code ∧
          ∀ (run : RunOptions) (start m : Machine), Machine.start c.image run = .ok start →
            Machine.Reachable start m → m.outcome = none →
            ∀ g ∈ m.frames, g.function = f → g.pc < code.size := by
  obtain ⟨a, ha, hg⟩ := compile_eq_ok h
  refine ⟨a, ha, hg, fun f n ss r hb hreturns hr => ?_⟩
  obtain ⟨b, hanalyze, hsweeps, -⟩ := analyze_of_optimized ha
  obtain ⟨owner, hsound⟩ := analyze_sound hanalyze
  have hdiverges : Stmt.anyDiverges ss = true :=
    ((analyze_accepted hanalyze).1.concludes hsound hsweeps hb hreturns).resolve_left nofun
  obtain ⟨code, whole, hcode, himplicit, heq, hconfined⟩ :=
    (Image.generated_of_generate hg).toAssembled.confined hb hr
  obtain ⟨area, harea, hlt⟩ := hconfined hdiverges
  refine ⟨code, whole, hcode, himplicit, heq, fun run start m hs hreach ho g hg hf => ?_⟩
  exact hlt _ (hreach.within (Image.confined_one hr harea) hs ho g hg hf)

/-- A function whose result comes out of an endless loop, and a call of it. -/
def countsPast : List Char :=
  ("fn f(n: int) -> int \x7b loop \x7b if n > 2 \x7b return n; \x7d n = n + 1; \x7d \x7d f(0)").toList

set_option synthInstance.maxSize 1000 in
/-- What `countsPast` compiles to: its function keeps no tail, and its code ends with the return of
unit that is never executed. -/
theorem compile_countsPast :
    (optimized {} countsPast).toOption.map (fun a =>
      ((a.bodies.lookup 1).map fun b => b.tail.isNone, (a.facts.info 1).returns,
        (compile {} countsPast).toOption.map fun c =>
          (c.image.routines[1]?.map fun r => r.code.toList.drop 11, c.image.consts[4]?))) =
      some (some true, .int, some (some [.loadConst 4, .ret], some .unit)) := by
  rw [Grammar.standard_eq]
  decide +kernel

/-- The routine of the function in `countsPast` ends with a return of unit, and no run comes
behind the loop. -/
theorem countsPast_unreached :
    ∃ a c n ss r, optimized {} countsPast = .ok a ∧ compile {} countsPast = .ok c ∧
      a.bodies.lookup 1 = some (.mk n ss none) ∧ (a.facts.info 1).returns = .int ∧
      c.image.routines[1]? = some r ∧ r.code.toList.drop 11 = [.loadConst 4, .ret] ∧
      c.image.consts[4]? = some .unit ∧
      ∃ code whole : Fragment, Generate.Implicit c.image.consts code whole ∧ r.code = whole.code ∧
        ∀ (run : RunOptions) (start m : Machine), Machine.start c.image run = .ok start →
          Machine.Reachable start m → m.outcome = none →
          ∀ g ∈ m.frames, g.function = 1 → g.pc < code.size := by
  have h := compile_countsPast
  cases ha : optimized {} countsPast with
  | error e => simp [ha, Except.toOption] at h
  | ok a =>
      cases hc : compile {} countsPast with
      | error e => simp [ha, hc, Except.toOption] at h
      | ok c =>
          simp only [ha, hc, Except.toOption, Option.map_some, Option.some.injEq,
            Prod.mk.injEq] at h
          obtain ⟨hbody, hreturns, hroutine, hunit⟩ := h
          obtain ⟨⟨n, ss, tail⟩, hlookup, htail⟩ := Option.map_eq_some_iff.mp hbody
          obtain rfl : tail = none := Option.isNone_iff_eq_none.mp htail
          obtain ⟨r, hr, hdrop⟩ := Option.map_eq_some_iff.mp hroutine
          obtain ⟨a', ha', -, hall⟩ := implicit_unreached hc
          cases ha.symm.trans ha'
          obtain ⟨code, whole, -, himplicit, hcode, hrun⟩ :=
            hall 1 n ss r hlookup (by simp [hreturns]) hr
          exact ⟨a, c, n, ss, r, rfl, rfl, hlookup, hreturns, hr, hdrop, hunit, code, whole,
            himplicit, hcode, hrun⟩

end CompileOptions

end Parlance
