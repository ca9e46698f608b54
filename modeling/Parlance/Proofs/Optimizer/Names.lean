import Parlance.Proofs.Code.Shortening
import Parlance.Proofs.Optimizer.Bodies

/-!
# Names in optimized programs

The optimizer may break a compilation in one way only: a name that takes the place of a logical
operator has no symbol, and code generation stops where it comes to such a name. All else that
code generation asks for stays. What is declared or stored to has its symbol, jumps stand in
loops, functions have bodies, and what is assembled passes verification.

So code generation succeeds on what sweeps make of an accepted program exactly if no name lost its
symbol. No name does if no logical operator has a name as its right operand.

## Main definitions

* `Expr.shields`: the labels of the right operands of logical operators.
* `Analyzed.Guarded`: no logical operator of a program has a name as its right operand.

## Main results

* `Block.respects_resolved`: sweeps keep bodies resolved.
* `Analyzed.Sweeps.generate`: code generation after sweeps.
* `CompileOptions.compile_optimized`: texts that are compiled with the optimizer.
* `CompileOptions.compile_guarded`: texts in which no name can lose its symbol.
-/

namespace Parlance

section

variable {reads guarded : Prop}

/-- Statements in a row are resolved if both parts are. -/
theorem Stmt.allResolved_append {inLoop : Prop} {ss ts : List Stmt} :
    Stmt.AllResolved reads guarded inLoop (ss ++ ts) ↔
      Stmt.AllResolved reads guarded inLoop ss ∧ Stmt.AllResolved reads guarded inLoop ts := by
  induction ss with
  | nil => exact ⟨fun h => ⟨trivial, h⟩, And.right⟩
  | cons s ss ih => rw [List.cons_append, AllResolved, AllResolved, ih, and_assoc]

/-- A block is resolved if its statements and its result are. -/
theorem Block.resolved_mk {inLoop : Prop} {n : Note} {ss : List Stmt} {tail : Option Expr} :
    (Block.mk n ss tail).Resolved reads guarded inLoop ↔
      Stmt.AllResolved reads guarded inLoop ss ∧
        ∀ e, tail = some e → e.Resolved reads guarded := by
  cases tail with
  | none => exact ⟨fun h => ⟨h, fun _ he => by cases he⟩, And.left⟩
  | some e =>
      exact ⟨fun h => ⟨h.1, fun _ he => Option.some.inj he ▸ h.2⟩, fun h => ⟨h.1, h.2 e rfl⟩⟩

/-! ### A block in the place of another one -/

section Update

variable {label : Nat} {new : Block}

/-- A changed block inside an expression makes no name of it. -/
@[simp] theorem Expr.isName_update {change : Block → Block} (e : Expr) :
    (e.update label change).isName = e.isName := by
  cases e <;> rfl

mutual

/-- An expression stays resolved when a block inside it changes, as its lambdas are not looked into.
-/
theorem Expr.resolved_update : ∀ e : Expr, e.Resolved reads guarded →
    (e.update label fun _ => new).Resolved reads guarded
  | .lit _ _, _ => trivial
  | .ident _ _, h | .lambda _ _ _, h => h
  | .unary _ _ e, h | .cast _ e _, h => e.resolved_update h
  | .binary _ _ a b, h =>
      ⟨fun hg hop => b.isName_update.trans (h.1 hg hop), a.resolved_update h.2.1,
        b.resolved_update h.2.2⟩
  | .index _ a b, h => ⟨a.resolved_update h.1, b.resolved_update h.2⟩
  | .assign _ (.ident _ _) v, h => ⟨h.1, v.resolved_update h.2⟩
  | .assign _ (.index _ (.ident _ _) i) v, h =>
      ⟨h.1, i.resolved_update h.2.1, v.resolved_update h.2.2⟩
  | .call _ g args, h => ⟨g.resolved_update h.1, Expr.allResolved_update args h.2⟩
  | .list _ items, h => Expr.allResolved_update items h

/-- Expressions stay resolved when a block inside them changes. -/
theorem Expr.allResolved_update : ∀ es : List Expr, Expr.AllResolved reads guarded es →
    Expr.AllResolved reads guarded (Expr.updateAll label (fun _ => new) es)
  | [], _ => trivial
  | e :: es, h => ⟨e.resolved_update h.1, Expr.allResolved_update es h.2⟩

end

/-- The block with a label may be replaced by one that is resolved if it was. -/
def KeepsResolved (reads guarded : Prop) (label : Nat) (new : Block)
    (blocks : List OwnedBlock) : Prop :=
  ∀ c ∈ blocks, c.1.note.id = label → ∀ inLoop,
    c.1.Resolved reads guarded inLoop → new.Resolved reads guarded inLoop

/-- Where blocks in a row are replaced, the new block is to be resolved in both parts. -/
theorem keepsResolved_append {as bs : List OwnedBlock} :
    KeepsResolved reads guarded label new (as ++ bs) ↔
      KeepsResolved reads guarded label new as ∧ KeepsResolved reads guarded label new bs :=
  List.forall_mem_append

mutual

/-- A statement stays resolved when a block inside it is replaced by a resolved one. -/
theorem Stmt.resolved_update : ∀ (s : Stmt) {f : Nat} {inLoop : Prop},
    KeepsResolved reads guarded label new (s.blocks f) → s.Resolved reads guarded inLoop →
      (s.update label fun _ => new).Resolved reads guarded inLoop
  | .block b, _, _, hk, h | .loop _ b, _, _, hk, h => b.resolved_update hk h
  | .letVar _ _ _ e, _, _, _, h => ⟨h.1, e.resolved_update h.2⟩
  | .expr _ e, _, _, _, h | .ret _ (some e), _, _, _, h => e.resolved_update h
  | .fnDecl _ _ _ _, _, _, _, h | .ret _ none, _, _, _, h | .breakLoop _, _, _, _, h
  | .continueLoop _, _, _, _, h => h
  | .cond _ test yes none, _, _, hk, h =>
      ⟨test.resolved_update h.1, yes.resolved_update (keepsResolved_append.mp hk).2 h.2⟩
  | .cond _ test yes (some no), _, _, hk, h => by
      obtain ⟨hk, hno⟩ := keepsResolved_append.mp hk
      exact ⟨test.resolved_update h.1, yes.resolved_update (keepsResolved_append.mp hk).2 h.2.1,
        no.resolved_update hno h.2.2⟩
  | .whileLoop _ test b, _, _, hk, h =>
      ⟨test.resolved_update h.1, b.resolved_update (keepsResolved_append.mp hk).2 h.2⟩

/-- Statements stay resolved when a block inside them is replaced by a resolved one. -/
theorem Stmt.allResolved_update : ∀ (ss : List Stmt) {f : Nat} {inLoop : Prop},
    KeepsResolved reads guarded label new (Stmt.blocksOf f ss) →
      Stmt.AllResolved reads guarded inLoop ss →
        Stmt.AllResolved reads guarded inLoop (Stmt.updateAll label (fun _ => new) ss)
  | [], _, _, _, _ => trivial
  | s :: ss, _, _, hk, h => by
      obtain ⟨hs, hss⟩ := keepsResolved_append.mp hk
      exact ⟨s.resolved_update hs h.1, Stmt.allResolved_update ss hss h.2⟩

/-- A block around a block that is replaced. -/
theorem Block.resolved_update : ∀ (b : Block) {f : Nat} {inLoop : Prop},
    KeepsResolved reads guarded label new (b.blocks f) → b.Resolved reads guarded inLoop →
      (b.update label fun _ => new).Resolved reads guarded inLoop
  | .mk n ss none, f, inLoop, hk, h => by
      rw [Block.update]
      split
      · next hid => exact hk (.mk n ss none, f) List.mem_cons_self hid inLoop h
      · exact Stmt.allResolved_update ss (fun c hc => hk c (List.mem_cons_of_mem _ hc)) h
  | .mk n ss (some e), f, inLoop, hk, h => by
      rw [Block.update]
      split
      · next hid => exact hk (.mk n ss (some e), f) List.mem_cons_self hid inLoop h
      · have hss : KeepsResolved reads guarded label new (Stmt.blocksOf f ss) := fun c hc =>
          hk c (List.mem_cons_of_mem _ (List.mem_append_left _ hc))
        exact ⟨Stmt.allResolved_update ss hss h.1, e.resolved_update h.2⟩

end

end Update

/-! ### Folding -/

section Folding

variable {owner : Nat → Nat} {f : Nat} {e e' : Expr} {n : Note}

/-- Another note makes no name of an expression, and changes none into something else. -/
@[simp] theorem Expr.isName_withNote (e : Expr) : (e.withNote n).isName = e.isName := by
  cases e <;> rfl

/-- Names and lambdas apart, the note of an expression does not matter. -/
theorem Expr.Resolved.withNote (h : e.Resolved reads guarded) (hname : reads → e.isName = false)
    (hl : e.isLambda = false) : (e.withNote n).Resolved reads guarded := by
  cases e with
  | ident m name => exact fun hreads => by cases hname hreads
  | lambda => cases hl
  | assign m t v =>
      cases t with
      | index k base i => cases base <;> exact h
      | _ => exact h
  | _ => exact h

/-- **One node.** A name does not get the note of another node if all operands are guarded. -/
theorem Fold.Reduces.resolved (hr : Reduces e e') (hguard : reads → guarded)
    (hn : e.Noted owner f) (h : e.Resolved reads guarded) :
    e'.Resolved reads guarded ∧ (guarded → e.isName = false → e'.isName = false) := by
  cases hr with
  | same => exact ⟨h, fun _ => id⟩
  | value => exact ⟨trivial, fun _ _ => rfl⟩
  | decided => exact ⟨trivial, fun _ _ => rfl⟩
  | operand hop =>
      have hlogical := BinaryOp.isLogical_of_split hop
      refine ⟨h.2.2.withNote (fun hreads => h.1 (hguard hreads) hlogical) (hn.1 hlogical).2, ?_⟩
      exact fun hg _ => (Expr.isName_withNote _).trans (h.1 hg hlogical)

mutual

/-- **Expressions.** Folding keeps the names of a guarded expression resolved. A name that is a
right operand would lose its symbol, and this is what the guard excludes. -/
theorem Expr.resolved_folded (hguard : reads → guarded) : ∀ (e : Expr) {f : Nat},
    e.Noted owner f → e.Resolved reads guarded →
      e.folded.Resolved reads guarded ∧ (guarded → e.isName = false → e.folded.isName = false)
  | .lit _ _, _, _, h | .ident _ _, _, _, h | .lambda _ _ _, _, _, h => ⟨h, fun _ => id⟩
  | .unary n op e, f, hn, h => by
      have hn' : (Expr.unary n op e.folded).Noted owner f := (e.noted_folded hn).1
      exact (Fold.reduces_reduce _).resolved hguard hn' (e.resolved_folded hguard hn h).1
  | .cast n e target, f, hn, h => by
      have hn' : (Expr.cast n e.folded target).Noted owner f := (e.noted_folded hn).1
      exact (Fold.reduces_reduce _).resolved hguard hn' (e.resolved_folded hguard hn h).1
  | .binary n op a b, _, hn, h => by
      obtain ⟨hb, hname⟩ := b.resolved_folded hguard hn.2.2 h.2.2
      exact (Fold.reduces_reduce _).resolved hguard (Expr.noted_binary_folded hn)
        ⟨fun hg hop => hname hg (h.1 hg hop), (a.resolved_folded hguard hn.2.1 h.2.1).1, hb⟩
  | .index n a b, f, hn, h => by
      have hn' : (Expr.index n a.folded b.folded).Noted owner f :=
        ⟨(a.noted_folded hn.1).1, (b.noted_folded hn.2).1⟩
      exact (Fold.reduces_reduce _).resolved hguard hn'
        ⟨(a.resolved_folded hguard hn.1 h.1).1, (b.resolved_folded hguard hn.2 h.2).1⟩
  | .assign _ (.ident _ _) v, _, hn, h =>
      ⟨⟨h.1, (v.resolved_folded hguard hn.2 h.2).1⟩, fun _ => id⟩
  | .assign _ (.index _ (.ident _ _) i) v, _, hn, h =>
      ⟨⟨h.1, (i.resolved_folded hguard hn.1.2 h.2.1).1, (v.resolved_folded hguard hn.2 h.2.2).1⟩,
        fun _ => id⟩
  | .call _ g args, _, hn, h =>
      ⟨⟨(g.resolved_folded hguard hn.1 h.1).1, Expr.allResolved_folded hguard args hn.2 h.2⟩,
        fun _ => id⟩
  | .list _ items, _, hn, h => ⟨Expr.allResolved_folded hguard items hn h, fun _ => id⟩

/-- Folding keeps the names of guarded expressions resolved. -/
theorem Expr.allResolved_folded (hguard : reads → guarded) : ∀ (es : List Expr) {f : Nat},
    Expr.AllNoted owner f es → Expr.AllResolved reads guarded es →
      Expr.AllResolved reads guarded (Expr.foldedAll es)
  | [], _, _, _ => trivial
  | e :: es, _, hn, h =>
      ⟨(e.resolved_folded hguard hn.1 h.1).1, Expr.allResolved_folded hguard es hn.2 h.2⟩

end

mutual

/-- Folding keeps the names of a guarded statement resolved. -/
theorem Stmt.resolved_folded (hguard : reads → guarded) : ∀ (s : Stmt) {f : Nat} {inLoop : Prop},
    s.Noted owner f → s.Resolved reads guarded inLoop → s.folded.Resolved reads guarded inLoop
  | .block b, _, _, hn, h | .loop _ b, _, _, hn, h => b.resolved_folded hguard hn h
  | .letVar _ _ _ e, _, _, hn, h => ⟨h.1, (e.resolved_folded hguard hn h.2).1⟩
  | .expr _ e, _, _, hn, h | .ret _ (some e), _, _, hn, h => (e.resolved_folded hguard hn h).1
  | .fnDecl _ _ _ _, _, _, _, h | .ret _ none, _, _, _, h | .breakLoop _, _, _, _, h
  | .continueLoop _, _, _, _, h => h
  | .cond _ test yes none, _, _, hn, h =>
      ⟨(test.resolved_folded hguard hn.1 h.1).1, yes.resolved_folded hguard hn.2 h.2⟩
  | .cond _ test yes (some no), _, _, hn, h =>
      ⟨(test.resolved_folded hguard hn.1 h.1).1, yes.resolved_folded hguard hn.2.1 h.2.1,
        no.resolved_folded hguard hn.2.2.2 h.2.2⟩
  | .whileLoop _ test b, _, _, hn, h =>
      ⟨(test.resolved_folded hguard hn.1 h.1).1, b.resolved_folded hguard hn.2 h.2⟩

/-- Folding keeps the names of guarded statements resolved. -/
theorem Stmt.allResolved_folded (hguard : reads → guarded) :
    ∀ (ss : List Stmt) {f : Nat} {inLoop : Prop}, Stmt.AllNoted owner f ss →
      Stmt.AllResolved reads guarded inLoop ss →
        Stmt.AllResolved reads guarded inLoop (Stmt.foldedAll ss)
  | [], _, _, _, _ => trivial
  | s :: ss, _, _, hn, h =>
      ⟨s.resolved_folded hguard hn.1 h.1, Stmt.allResolved_folded hguard ss hn.2 h.2⟩

/-- **Folding.** -/
theorem Block.resolved_folded (hguard : reads → guarded) :
    ∀ (b : Block) {f : Nat} {inLoop : Prop}, b.Noted owner f →
      b.Resolved reads guarded inLoop → b.folded.Resolved reads guarded inLoop
  | .mk _ ss none, _, _, hn, h => Stmt.allResolved_folded hguard ss hn.2 h
  | .mk _ ss (some e), _, _, hn, h =>
      ⟨Stmt.allResolved_folded hguard ss hn.2.1 h.1, (e.resolved_folded hguard hn.2.2 h.2).1⟩

end

end Folding

/-! ### Dead code -/

namespace DeadCode

variable {inLoop : Prop}

/-- A statement that stands in for a resolved one is resolved. -/
theorem resolved_replaced {s s' : Stmt} (hs : simplify s = .replaced s')
    (h : s.Resolved reads guarded inLoop) : s'.Resolved reads guarded inLoop := by
  obtain ⟨n, m, yes, no, rfl, rfl⟩ | ⟨n, m, yes, rfl⟩ := simplify_eq_replaced hs
  · cases no with
    | none => exact h.2
    | some no => exact h.2.1
  · exact h.2.2

/-- What is left of resolved statements is resolved. -/
theorem resolved_filter (keep : Stmt → Bool) {ss : List Stmt}
    (h : Stmt.AllResolved reads guarded inLoop ss) :
    Stmt.AllResolved reads guarded inLoop (ss.filter keep) := by
  induction ss with
  | nil => exact h
  | cons s ss ih =>
      rw [List.filter_cons]
      split
      · exact ⟨h.1, ih h.2⟩
      · exact ih h.2

/-- What is left of resolved statements behind a jump is resolved. -/
theorem resolved_reachable {ss : List Stmt} (h : Stmt.AllResolved reads guarded inLoop ss) :
    Stmt.AllResolved reads guarded inLoop (reachable ss).stmts := by
  induction ss with
  | nil => exact h
  | cons s ss ih =>
      have hrest : ∀ diverges : Bool, Stmt.AllResolved reads guarded inLoop
          (if diverges then unreachable ss else reachable ss).stmts := by
        intro diverges
        cases diverges with
        | true => exact resolved_filter _ h.2
        | false => exact ih h.2
      rw [reachable]
      split
      · exact ih h.2
      · exact ⟨h.1, hrest _⟩
      · next hs => exact ⟨resolved_replaced hs h.1, hrest _⟩

/-- The value of a store that is dropped stays, and a declaration keeps its symbol. -/
theorem Dropped.resolved {ss ss' : List Stmt} (hd : Dropped ss ss')
    (h : Stmt.AllResolved reads guarded inLoop ss) :
    Stmt.AllResolved reads guarded inLoop ss' := by
  cases hd with
  | later => exact ⟨⟨h.1.1, h.2.1.2⟩, h.2.2⟩
  | laterKept => exact ⟨h.1.2, ⟨h.1.1, h.2.1.2⟩, h.2.2⟩
  | store => exact ⟨h.1.2, h.2⟩
  | declaration => exact ⟨h.1.2, h.2⟩

/-- Dropping stores leaves resolved statements resolved. -/
theorem resolved_dropStores (facts : Facts) (tail : Option Expr) (before ss : List Stmt)
    (h : Stmt.AllResolved reads guarded inLoop (before ++ ss)) :
    Stmt.AllResolved reads guarded inLoop (dropStores facts tail before ss).1 := by
  fun_induction dropStores facts tail before ss with
  | case1 before => simpa using h
  | case2 before s ss ss' hd out changes hout ih =>
      rw [hout] at ih
      obtain ⟨hbefore, hss⟩ := Stmt.allResolved_append.mp h
      exact ih (Stmt.allResolved_append.mpr ⟨hbefore, (dropped_of_dropStore? hd).resolved hss⟩)
  | case3 before s ss hd ih => exact ih (by simpa using h)

/-- **Dead code.** -/
theorem resolved_block (facts : Facts) {b : Block} (h : b.Resolved reads guarded inLoop) :
    (block facts b).1.Resolved reads guarded inLoop := by
  obtain ⟨n, ss, tail⟩ := b
  obtain ⟨hss, htail⟩ := Block.resolved_mk.mp h
  rw [block_mk]
  exact Block.resolved_mk.mpr ⟨resolved_dropStores facts _ [] _ (resolved_reachable hss),
    fun e he => htail e (sweptTail_eq_some he).2⟩

end DeadCode

/-! ### Shared subexpressions -/

mutual

/-- The labels of the right operands of logical operators. -/
def Expr.shields : Expr → List Nat
  | .lit _ _ | .ident _ _ | .lambda _ _ _ => []
  | .unary _ _ e | .cast _ e _ => e.shields
  | .binary _ op a b =>
    (if op.isLogical = true then [b.note.id] else []) ++ (a.shields ++ b.shields)
  | .assign _ a b | .index _ a b => a.shields ++ b.shields
  | .call _ f args => f.shields ++ Expr.shieldsOf args
  | .list _ items => Expr.shieldsOf items

def Expr.shieldsOf : List Expr → List Nat
  | [] => []
  | e :: es => e.shields ++ Expr.shieldsOf es

end

section Counting

variable (x : Nat)

/-- The labels of an expression are those inside it and its own. -/
theorem Expr.count_labels (e : Expr) :
    e.labels.count x = e.innerLabels.count x + [e.note.id].count x := by
  rw [e.labels_eq, List.count_append]

mutual

/-- Shields stand below an expression: they are the labels of the right operands of the logical
operators in it. -/
theorem Expr.count_shields : ∀ e : Expr, e.shields.count x ≤ e.innerLabels.count x
  | .lit _ _ | .ident _ _ | .lambda _ _ _ => Nat.zero_le _
  | .unary _ _ e | .cast _ e _ => by
      have := e.count_shields
      have := e.count_labels x
      simp only [Expr.shields, Expr.innerLabels]
      omega
  | .binary _ op a b => by
      have := a.count_shields
      have := b.count_shields
      have := a.count_labels x
      have := b.count_labels x
      simp only [Expr.shields, Expr.innerLabels, List.count_append]
      split
      · omega
      · rw [List.count_nil]
        omega
  | .assign _ a b | .index _ a b => by
      have := a.count_shields
      have := b.count_shields
      have := a.count_labels x
      have := b.count_labels x
      simp only [Expr.shields, Expr.innerLabels, List.count_append]
      omega
  | .call _ f args => by
      have := f.count_shields
      have := Expr.count_shieldsOf args
      have := f.count_labels x
      simp only [Expr.shields, Expr.innerLabels, List.count_append]
      omega
  | .list _ items => Expr.count_shieldsOf items

/-- The right operands of logical operators in expressions are some of their nodes. -/
theorem Expr.count_shieldsOf : ∀ es : List Expr,
    (Expr.shieldsOf es).count x ≤ (Expr.labelsOf es).count x
  | [] => Nat.le_refl _
  | e :: es => by
      have := e.count_shields
      have := Expr.count_shieldsOf es
      have := e.count_labels x
      simp only [Expr.shieldsOf, Expr.labelsOf, List.count_append]
      omega

end

/-- The right operands of logical operators in an expression are some of its nodes. -/
theorem Expr.shields_le (e : Expr) : e.shields.count x ≤ e.labels.count x := by
  have := e.count_shields x
  have := e.count_labels x
  omega

namespace Share

/-- An expression that is a candidate itself. -/
theorem count_self {e : Expr} {c : Candidate} (h : c ∈ (candidate? e).toList) :
    [c.expr.note.id].count x + e.shields.count x ≤ e.labels.count x := by
  have := e.count_shields x
  have := e.count_labels x
  rw [candidate?_expr h]
  omega

mutual

/-- The right operand of a logical operator is no candidate, since it is not always evaluated. So
the label of a candidate and the shields of an expression are different labels of it. -/
theorem count_candidate_shields : ∀ (e : Expr) {c : Candidate}, c ∈ candidates e →
    [c.expr.note.id].count x + e.shields.count x ≤ e.labels.count x
  | .lit _ _, _, h | .ident _ _, _, h | .lambda _ _ _, _, h => by cases h
  | .unary n op e, c, h => by
      rcases List.mem_append.mp h with h | h
      · exact count_self x h
      · have := count_candidate_shields e h
        simp only [Expr.shields, Expr.labels, List.count_append]
        omega
  | .cast n e target, c, h => by
      rcases List.mem_append.mp h with h | h
      · exact count_self x h
      · have := count_candidate_shields e h
        simp only [Expr.shields, Expr.labels, List.count_append]
        omega
  | .binary n op l r, c, h => by
      have hl := l.shields_le x
      have hr := r.shields_le x
      rw [candidates] at h
      split at h
      · next hop =>
          have := count_candidate_shields l h
          have hright := r.count_shields x
          have hinner := r.count_labels x
          simp only [Expr.shields, if_pos hop, Expr.labels, List.count_append]
          omega
      · next hop =>
          rw [List.append_assoc] at h
          rcases List.mem_append.mp h with h | h
          · exact count_self x h
          · simp only [Expr.shields, if_neg hop, Expr.labels, List.count_append, List.count_nil]
            rcases List.mem_append.mp h with h | h
            · have := count_candidate_shields l h
              omega
            · have := count_candidate_shields r h
              omega
  | .assign n a b, c, h | .index n a b, c, h => by
      have ha := a.shields_le x
      have hb := b.shields_le x
      simp only [Expr.shields, Expr.labels, List.count_append]
      rcases List.mem_append.mp h with h | h
      · have := count_candidate_shields a h
        omega
      · have := count_candidate_shields b h
        omega
  | .call n f args, c, h => by
      have hf := f.shields_le x
      have hargs := Expr.count_shieldsOf x args
      simp only [Expr.shields, Expr.labels, List.count_append]
      rcases List.mem_append.mp h with h | h
      · have := count_candidate_shields f h
        omega
      · have := count_candidates_shields args h
        omega
  | .list n items, c, h => by
      have := count_candidates_shields items h
      simp only [Expr.shields, Expr.labels, List.count_append]
      omega

/-- A candidate is not a right operand of a logical operator, since these are not always evaluated.
-/
theorem count_candidates_shields : ∀ (es : List Expr) {c : Candidate}, c ∈ candidatesOf es →
    [c.expr.note.id].count x + (Expr.shieldsOf es).count x ≤ (Expr.labelsOf es).count x
  | [], _, h => by cases h
  | e :: es, c, h => by
      have he := e.shields_le x
      have hes := Expr.count_shieldsOf x es
      simp only [Expr.shieldsOf, Expr.labelsOf, List.count_append]
      rcases List.mem_append.mp h with h | h
      · have := count_candidate_shields e h
        omega
      · have := count_candidates_shields es h
        omega

end

end Share

end Counting

namespace Share

/-- No temporary takes the place of the right operand of a logical operator. -/
theorem contains_shields {e first : Expr} {labels : List Nat} (hd : ∀ x, e.labels.count x ≤ 1)
    (h : repeated? e = some (first, labels)) : ∀ x ∈ e.shields, labels.contains x = false := by
  intro x hx
  obtain ⟨_, -, -, hall⟩ := repeated?_keys h
  rw [List.contains_eq_mem, decide_eq_false_iff_not]
  intro hmem
  obtain ⟨c, hc, -, hid⟩ := hall x hmem
  have hcount := count_candidate_shields x e hc
  have hpos : 0 < e.shields.count x := List.count_pos_iff.mpr hx
  have hself : [c.expr.note.id].count x = 1 := by rw [hid]; exact List.count_singleton_self
  have := hd x
  omega

section

variable {labels : List Nat} {name : String} {y : Nat}

/-- A temporary has a symbol. -/
theorem resolved_temporary (n : Note) :
    (Expr.ident { n with symbol := some y } name).Resolved reads guarded :=
  fun _ => rfl

/-- An expression that is not replaced itself becomes no name. -/
theorem isName_substitute {e : Expr} (h : labels.contains e.note.id = false) :
    (substitute labels name y e).isName = e.isName := by
  rw [substitute.eq_def, h]
  cases e <;> rfl

mutual

/-- Replacing repetitions by a resolved name leaves an expression resolved, and no right operand is
replaced. -/
theorem resolved_substitute (e : Expr) (hw : e.mayWrite = false) (h : e.Resolved reads guarded)
    (hs : ∀ x ∈ e.shields, labels.contains x = false) :
    (substitute labels name y e).Resolved reads guarded := by
  rw [substitute.eq_def]
  split
  · exact resolved_temporary _
  · cases e with
    | lit n v => exact h
    | ident n name => exact h
    | lambda n signature b => exact h
    | unary n op e => exact resolved_substitute e hw h hs
    | cast n e target => exact resolved_substitute e hw h hs
    | binary n op a b =>
        simp only [Expr.mayWrite, Bool.or_eq_false_iff] at hw
        obtain ⟨hself, hs⟩ := List.forall_mem_append.mp hs
        obtain ⟨ha, hb⟩ := List.forall_mem_append.mp hs
        refine ⟨fun hg hop => ?_, resolved_substitute a hw.1 h.2.1 ha,
          resolved_substitute b hw.2 h.2.2 hb⟩
        rw [if_pos hop] at hself
        exact (isName_substitute (hself _ List.mem_cons_self)).trans (h.1 hg hop)
    | index n a b =>
        simp only [Expr.mayWrite, Bool.or_eq_false_iff] at hw
        obtain ⟨ha, hb⟩ := List.forall_mem_append.mp hs
        exact ⟨resolved_substitute a hw.1 h.1 ha, resolved_substitute b hw.2 h.2 hb⟩
    | list n items => exact allResolved_substitute items hw h hs
    | assign n a b => cases hw
    | call n f args => cases hw

/-- Replacing repetitions by a resolved name leaves expressions resolved. -/
theorem allResolved_substitute (es : List Expr) (hw : Expr.anyMayWrite es = false)
    (h : Expr.AllResolved reads guarded es)
    (hs : ∀ x ∈ Expr.shieldsOf es, labels.contains x = false) :
    Expr.AllResolved reads guarded (substituteAll labels name y es) := by
  cases es with
  | nil => trivial
  | cons e es =>
      simp only [Expr.anyMayWrite, Bool.or_eq_false_iff] at hw
      obtain ⟨he, hes⟩ := List.forall_mem_append.mp hs
      exact ⟨resolved_substitute e hw.1 h.1 he, allResolved_substitute es hw.2 h.2 hes⟩

end

end

mutual

/-- Candidates are resolved like the expression they stand in. They do not write, so none of them
holds a name that is assigned to. -/
theorem resolved_candidate : ∀ (e : Expr), e.mayWrite = false → e.Resolved reads guarded →
    ∀ {c : Candidate}, c ∈ candidates e → c.expr.Resolved reads guarded
  | .lit _ _, _, _, _, hc | .ident _ _, _, _, _, hc | .lambda _ _ _, _, _, _, hc => by cases hc
  | .unary n op e, hw, h, c, hc => by
      rcases List.mem_append.mp hc with hc | hc
      · exact (candidate?_expr hc).symm ▸ h
      · exact resolved_candidate e hw h hc
  | .cast n e target, hw, h, c, hc => by
      rcases List.mem_append.mp hc with hc | hc
      · exact (candidate?_expr hc).symm ▸ h
      · exact resolved_candidate e hw h hc
  | .binary n op l r, hw, h, c, hc => by
      simp only [Expr.mayWrite, Bool.or_eq_false_iff] at hw
      rw [candidates] at hc
      split at hc
      · exact resolved_candidate l hw.1 h.2.1 hc
      · rw [List.append_assoc] at hc
        rcases List.mem_append.mp hc with hc | hc
        · exact (candidate?_expr hc).symm ▸ h
        · rcases List.mem_append.mp hc with hc | hc
          · exact resolved_candidate l hw.1 h.2.1 hc
          · exact resolved_candidate r hw.2 h.2.2 hc
  | .index n a b, hw, h, c, hc => by
      simp only [Expr.mayWrite, Bool.or_eq_false_iff] at hw
      rcases List.mem_append.mp hc with hc | hc
      · exact resolved_candidate a hw.1 h.1 hc
      · exact resolved_candidate b hw.2 h.2 hc
  | .list n items, hw, h, c, hc => resolved_candidates items hw h hc
  | .assign _ _ _, hw, _, _, _ | .call _ _ _, hw, _, _, _ => by cases hw

/-- The candidates of resolved expressions are resolved. -/
theorem resolved_candidates : ∀ (es : List Expr), Expr.anyMayWrite es = false →
    Expr.AllResolved reads guarded es → ∀ {c : Candidate}, c ∈ candidatesOf es →
      c.expr.Resolved reads guarded
  | [], _, _, _, hc => by cases hc
  | e :: es, hw, h, c, hc => by
      simp only [Expr.anyMayWrite, Bool.or_eq_false_iff] at hw
      rcases List.mem_append.mp hc with hc | hc
      · exact resolved_candidate e hw.1 h.1 hc
      · exact resolved_candidates es hw.2 h.2 hc

end

/-- An operation may get another note and stays resolved, as its own note has no name. -/
theorem Operation.resolved_withNote {e : Expr} (h : Operation e) (n : Note)
    (hr : e.Resolved reads guarded) : (e.withNote n).Resolved reads guarded := by
  cases h <;> exact hr

variable {function : Nat} {inLoop : Prop}

/-- **Expressions.** The declarations for an expression, and what is left of it, are resolved. The
name of a temporary has a symbol, and it does not come to stand where names may lose theirs. -/
theorem resolved_expr (fuel : Nat) : ∀ {e : Expr} {s : Supply}, Distinct s.labels e.labels →
    e.Resolved reads guarded →
      Stmt.AllResolved reads guarded inLoop ((expr function fuel e).run s).1.1 ∧
        ((expr function fuel e).run s).1.2.Resolved reads guarded := by
  induction fuel with
  | zero => exact fun _ h => ⟨trivial, h⟩
  | succ fuel ih =>
      intro e s hd h
      cases hw : e.mayWrite with
      | true =>
          rw [expr, hw]
          exact ⟨trivial, h⟩
      | false =>
          cases hr : repeated? e with
          | none =>
              rw [expr, hw, hr]
              exact ⟨trivial, h⟩
          | some r =>
              obtain ⟨first, labels⟩ := r
              have hone : ∀ x, e.labels.count x ≤ 1 := fun x =>
                Nat.le_trans (hd x) (by unfold fresh; split <;> omega)
              obtain ⟨c, hc, rfl, -⟩ := repeated?_keys hr
              have hop := (isCandidate e hc).operation
              rw [run_expr_succ hw hr]
              dsimp only
              generalize (s.facts.addTemporary _ c.expr.ty function) = made
              obtain ⟨facts, y⟩ := made
              generalize (s!"%t{s.facts.symbols.size}" : String) = name
              -- the declarations of the temporary, then those for what is left
              obtain ⟨hinner, hinit⟩ := ih (s := s.declared facts c.expr.ty) (hd.withNote hc rfl)
                (hop.resolved_withNote { id := s.labels, range := c.expr.range, ty := c.expr.ty }
                  (resolved_candidate e hw h hc))
              have hle := (from_expr 0 function fuel _ (c.expr.withNote
                { id := s.labels, range := c.expr.range, ty := c.expr.ty })
                (s.declared facts c.expr.ty) rfl).1
              generalize (expr function fuel (c.expr.withNote
                { id := s.labels, range := c.expr.range, ty := c.expr.ty })).run
                  (s.declared facts c.expr.ty) = run at hinner hinit hle ⊢
              obtain ⟨hrest, he⟩ := ih (e := substitute labels name y e) (s := run.2)
                (fun x => Nat.le_trans (count_substitute x labels name y e)
                  (Nat.le_trans (hd x) (fresh_mono (by rw [Supply.declared_labels] at hle; omega))))
                (resolved_substitute e hw h (contains_shields hone hr))
              exact ⟨Stmt.allResolved_append.mpr ⟨hinner, ⟨rfl, hinit⟩, hrest⟩, he⟩

/-- Sharing in a resolved statement gives resolved statements. Only the expression that is evaluated
first changes. -/
theorem resolved_stmt {a : Stmt} {s : Supply} (hd : Distinct s.labels a.labels)
    (h : a.Resolved reads guarded inLoop) :
    Stmt.AllResolved reads guarded inLoop ((stmt function a).run s).1.1 ∧
      ((stmt function a).run s).1.2.Resolved reads guarded inLoop := by
  have hroot : ∀ {e : Expr}, e.Resolved reads guarded →
      (∀ x, e.labels.count x ≤ a.labels.count x) →
      Stmt.AllResolved reads guarded inLoop ((root function e).run s).1.1 ∧
        ((root function e).run s).1.2.Resolved reads guarded :=
    fun he hle => resolved_expr _ (fun x => Nat.le_trans (hle x) (hd x)) he
  cases a with
  | letVar n name ty e =>
      obtain ⟨hlets, he⟩ := hroot h.2 fun x => by
        simp only [Stmt.labels, List.count_append]; omega
      exact ⟨hlets, h.1, he⟩
  | expr n e =>
      exact hroot h fun x => by simp only [Stmt.labels, List.count_append]; omega
  | ret n value =>
      cases value with
      | none => exact ⟨trivial, h⟩
      | some e =>
          exact hroot h fun x => by simp only [Stmt.labels, List.count_append]; omega
  | cond n test yes no =>
      cases no with
      | none =>
          obtain ⟨hlets, htest⟩ := hroot h.1 fun x => by
            simp only [Stmt.labels, List.count_append]; omega
          exact ⟨hlets, htest, h.2⟩
      | some no =>
          obtain ⟨hlets, htest⟩ := hroot h.1 fun x => by
            simp only [Stmt.labels, List.count_append]; omega
          exact ⟨hlets, htest, h.2⟩
  | block b => exact ⟨trivial, h⟩
  | fnDecl n name signature b => exact ⟨trivial, h⟩
  | whileLoop n test b => exact ⟨trivial, h⟩
  | loop n b => exact ⟨trivial, h⟩
  | breakLoop n => exact ⟨trivial, h⟩
  | continueLoop n => exact ⟨trivial, h⟩

/-- Sharing in resolved statements gives resolved statements. -/
theorem resolved_stmts : ∀ (ss : List Stmt) {s : Supply}, Distinct s.labels (Stmt.labelsOf ss) →
    Stmt.AllResolved reads guarded inLoop ss →
      Stmt.AllResolved reads guarded inLoop ((stmts function ss).run s).1.1
  | [], _, _, _ => trivial
  | a :: ss, s, hd, h => by
      have hda : Distinct s.labels a.labels := fun x => by
        have := hd x
        rw [Stmt.labelsOf, List.count_append] at this
        omega
      obtain ⟨hlets, ha⟩ := resolved_stmt hda h.1
      have hle := (from_stmt 0 function _ a s rfl).1
      have hrest := resolved_stmts ss (s := ((stmt function a).run s).2) (fun x => by
        have := hd x
        have := fresh_mono hle (x := x)
        simp only [Stmt.labelsOf, List.count_append] at *
        omega) h.2
      exact Stmt.allResolved_append.mpr ⟨hlets, ha, hrest⟩

/-- **Shared subexpressions.** -/
theorem resolved_block {b : Block} {s : Supply} (hd : Distinct s.labels b.labels)
    (h : b.Resolved reads guarded inLoop) :
    ((block function b).run s).1.1.Resolved reads guarded inLoop := by
  obtain ⟨n, ss, tail⟩ := b
  have hd' : Distinct s.labels (Stmt.labelsOf ss) := fun x => by
    have := hd x
    cases tail <;> simp only [Block.labels, List.count_append] at this <;> omega
  cases tail with
  | none => exact resolved_stmts ss hd' h
  | some e =>
      have hle := (from_stmts 0 function _ ss s rfl).1
      have hde : Distinct ((stmts function ss).run s).2.labels e.labels := fun x => by
        have := hd x
        have := fresh_mono hle (x := x)
        simp only [Block.labels, List.count_append] at *
        omega
      obtain ⟨hlets, he⟩ := resolved_expr (extent e) hde h.2
      exact ⟨Stmt.allResolved_append.mpr ⟨resolved_stmts ss hd' h.1, hlets⟩, he⟩

end Share

/-! ### Sweeps -/

/-- What passes make of a resolved block is resolved. -/
theorem Block.respects_resolved (hguard : reads → guarded) : Respects fun b b' =>
    ∀ inLoop, b.Resolved reads guarded inLoop → b'.Resolved reads guarded inLoop where
  refl _ _ := id
  trans h h' inLoop := h' inLoop ∘ h inLoop
  update b _ hk _ h := Block.resolved_update b hk h
  folded hn _ h := Block.resolved_folded hguard _ hn h
  deadCode facts _ _ h := DeadCode.resolved_block facts h
  shared _ _ _ hd _ h := Share.resolved_block hd h

/-- A program is guarded if no logical operator in it has a name as its right operand. -/
def Analyzed.Guarded (a : Analyzed) : Prop :=
  ∀ p ∈ a.bodies, p.2.Guarded

variable {owner : Nat → Nat} {a b : Analyzed} {o : CompileOptions} {text : List Char}

/-- Code generation can follow the functions of a swept program. -/
theorem Analyzed.Accepted.prepared_sweeps (ha : a.Accepted) (h : a.Sound owner) (hs : a.Sweeps b)
    (hguard : reads → guarded) (hguarded : guarded → a.Guarded) {f : Nat}
    (hf : f < b.facts.functions.size) : Generate.Prepared b.facts reads guarded b.bodies f := by
  have hrelated := hs.related (Block.respects_resolved hguard) h
  have hb := (hs.sound h).1
  rw [(hs.spawns h).extends.functions_size] at hf
  obtain ⟨old, hold, -⟩ := ha.exists_body hf
  have hkey : f ∈ b.bodies.map Prod.fst :=
    hrelated.keys.mem_iff.mpr (List.mem_map_of_mem (mem_of_lookup hold))
  obtain ⟨⟨f, body⟩, hbody, rfl⟩ := List.mem_map.mp hkey
  obtain ⟨q, hq, -, hres⟩ := hrelated.body _ hbody
  exact ⟨body, lookup_of_mem hb.keys hbody, (hb.fits _ hbody).inScope,
    hres False ((ha.accepts hq).resolved fun hg => hguarded hg q hq)⟩

/-- Lambdas of a swept program capture variables of frames. -/
theorem Analyzed.Accepted.capturesFrames_sweeps (ha : a.Accepted) (h : a.Sound owner)
    (hs : a.Sweeps b) : b.facts.CapturesFrames := by
  have hext := (hs.spawns h).extends
  intro f y hy
  rw [hext.captures] at hy
  obtain ⟨k, hk⟩ := ha.coherent.capturesFrames f y hy
  exact ⟨k, by rw [hext.symbol y (ha.coherent.captured f y hy).1, hk]⟩

/-- No name of a guarded program loses its symbol. -/
theorem Analyzed.Sweeps.lost_eq_nil (hs : a.Sweeps b) (ha : o.analyze text = .ok a)
    (hg : a.Guarded) : b.lost = [] := by
  obtain ⟨owner, h⟩ := CompileOptions.analyze_sound ha
  have hacc := (CompileOptions.analyze_accepted ha).1
  have hrelated := hs.related (Block.respects_resolved (id : True → True)) h
  refine lostIn_eq_nil fun f body hbody => ?_
  obtain ⟨q, hq, -, hres⟩ := hrelated.body _ (mem_of_lookup hbody)
  exact (hres False ((hacc.accepts hq).resolved fun _ => hg q hq)).lost_eq_nil

/-- **Swept programs.** Code generation succeeds on what sweeps made of an accepted program if no
name is without a symbol, and else stops at the first one. -/
theorem Analyzed.Sweeps.generate (hs : a.Sweeps b) (ha : o.analyze text = .ok a) :
    (b.lost = [] → ∃ image, Parlance.generate b = .ok image) ∧
      ∀ n names, b.lost = n :: names →
        Parlance.generate b = .error (.unresolved n.range) := by
  obtain ⟨owner, h⟩ := CompileOptions.analyze_sound ha
  have hacc := (CompileOptions.analyze_accepted ha).1
  have hroutines := Generate.stopsAt_routines (hs.sound h).1.orderly
    (hacc.capturesFrames_sweeps h hs) true b.facts.functions.toList 0 fun i hi =>
      hacc.prepared_sweeps h hs (id : False → False) nofun (by simpa using hi)
  refine ⟨fun hlost => ?_, fun n names hlost => ?_⟩
  · rw [show lostIn b.bodies 0 b.facts.functions.toList = [] from hlost] at hroutines
    obtain ⟨rs, consts, hrs⟩ := hroutines #[]
    have himage := assemble_eq_ok_iff.mpr ⟨rs, consts, hrs, rfl⟩
    exact ⟨_, generate_eq_ok_iff.mpr ⟨himage, hs.verifies ha himage⟩⟩
  · rw [show lostIn b.bodies 0 b.facts.functions.toList = n :: names from hlost] at hroutines
    have hassemble : assemble true b = .error (.unresolved n.range) := by
      rw [assemble_eq, Generate.image, StateT.run, hroutines #[]]
      rfl
    rw [Parlance.generate, hassemble]
    rfl

/-! ### Compiled texts -/

namespace CompileOptions

/-- **Compilation after the optimizer.** Analysis accepts a text, and the optimizer, if it is on,
comes to an end. Then the text compiles if no name of the optimized program is without a symbol.
Else the compilation fails with one diagnostic, at the first such name. -/
theorem compile_optimized (h : o.optimized text = .ok a) :
    (a.lost = [] → ∃ c, o.compile text = .ok c ∧ generate a = .ok c.image) ∧
      ∀ n names, a.lost = n :: names → o.compile text =
        .error ((InternalError.unresolved n.range).diagnostics .codegen (.ofText text)) := by
  obtain ⟨b, hb, hs, -⟩ := analyze_of_optimized h
  obtain ⟨hok, herror⟩ := hs.generate hb
  refine ⟨fun hlost => ?_, fun n names hlost => ?_⟩
  · obtain ⟨image, himage⟩ := hok hlost
    exact ⟨_, by rw [compile, h]; simp only [bind, Except.bind, himage]; rfl, himage⟩
  · rw [compile, h]
    simp only [bind, Except.bind, herror n names hlost]
    rfl

/-- A name that takes the place of a logical operator. -/
def namedOperand : List Char :=
  "let x = true; true && x".toList

example : (optimized {} namedOperand).toOption.map (fun a => a.lost.map (·.range)) =
    some [⟨14, 23⟩] := by
  rw [Grammar.standard_eq]
  decide +kernel

/-- **Guarded programs.** If no logical operator in a text has a name as its right operand, then
the optimizer does not break the compilation, unless it does not come to an end. -/
theorem compile_guarded (h : o.analyze text = .ok a) (hg : a.Guarded)
    (hb : o.optimized text = .ok b) : ∃ c, o.compile text = .ok c := by
  obtain ⟨a', ha', hs, -⟩ := analyze_of_optimized hb
  obtain rfl : a = a' := by simpa [h] using ha'
  obtain ⟨c, hc, -⟩ := (compile_optimized hb).1 (hs.lost_eq_nil h hg)
  exact ⟨c, hc⟩

end CompileOptions

end

end Parlance
