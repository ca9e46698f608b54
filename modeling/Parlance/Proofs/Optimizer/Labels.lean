import Mathlib
import Parlance.Optimizer.Passes
import Parlance.Proofs.Analysis.Accepted
import Parlance.Proofs.Tree.Arena

/-!
# Optimizing keeps programs trees

No sweep of the optimizer lets two nodes share a label. Folding and sweeping dead code only drop
nodes and move them. Sharing subexpressions takes new labels for the declarations it adds, and
puts each part of a shared subexpression into one of them only.

All this is counted: for a label `x`, each lemma compares how often `x` occurs after a change
with how often it occurred before, plus one if `x` was handed out in between.

## Main results

* `Fold.count_block`, `DeadCode.count_block`, `Share.count_block`: the passes on one block.
* `Block.count_update`: a change in the middle of a tree.
* `Pass.labelled_sweep`: a whole sweep.
* `sweeps_isTree`: parsed programs are trees, and stay trees through any sweeps.
-/

namespace Parlance

/-! ### Parts -/

/-- The labels in an expression, without its own. -/
def Expr.innerLabels : Expr → List Nat
  | .lit _ _ | .ident _ _ => []
  | .unary _ _ e | .cast _ e _ => e.labels
  | .binary _ _ a b | .assign _ a b | .index _ a b => a.labels ++ b.labels
  | .call _ f args => f.labels ++ Expr.labelsOf args
  | .list _ items => Expr.labelsOf items
  | .lambda _ _ b => b.labels

/-- The label of an expression stands behind those of its parts. -/
theorem Expr.labels_eq (e : Expr) : e.labels = e.innerLabels ++ [e.note.id] := by
  cases e <;> rfl

/-- Another note changes the expression's own label and no other. -/
theorem Expr.labels_withNote (e : Expr) (n : Note) :
    (e.withNote n).labels = e.innerLabels ++ [n.id] := by
  cases e <;> rfl

/-- The labels of statements in a row are those of the first part and then those of the second. -/
@[simp] theorem Stmt.labelsOf_append (ss ts : List Stmt) :
    Stmt.labelsOf (ss ++ ts) = Stmt.labelsOf ss ++ Stmt.labelsOf ts := by
  induction ss with
  | nil => rfl
  | cons s ss ih => simp [Stmt.labelsOf, ih]

section Counts

variable (x : Nat)

/-- Another note adds at most its own label. -/
theorem count_withNote (e : Expr) (n : Note) :
    (e.withNote n).labels.count x ≤ e.labels.count x + [n.id].count x := by
  rw [e.labels_withNote, e.labels_eq, List.count_append, List.count_append]
  omega

/-! ### Folding -/

namespace Fold

variable {α β : Type}

/-- What a folding gives has a property. -/
def Gives (m : Folding α) (P : α → Prop) : Prop :=
  ∀ log, P (m.run log).1

/-- A result that is there already is what is given. -/
theorem Gives.pure {a : α} {P : α → Prop} (h : P a) : Gives (Pure.pure a) P :=
  fun _ => h

/-- Of two foldings in a row the second one gives the result, and it may rely on what the first one
gave. -/
theorem Gives.bind {m : Folding α} {f : α → Folding β} {P : α → Prop} {Q : β → Prop}
    (hm : Gives m P) (hf : ∀ a, P a → Gives (f a) Q) : Gives (m >>= f) Q :=
  fun log => hf _ (hm log) _

/-- A node in the place of another one has no labels but those of that one. Labels are counted, so
that none can come to stand twice. -/
theorem count_node? {e e' : Expr} (h : node? e = some e') : e'.labels.count x ≤ e.labels.count x := by
  have hlit : ∀ {n : Note} {result : Except Fault Value},
      literal? n result = some e' → e'.labels = [n.id] := by
    intro n result h
    cases result with
    | error fault => cases h
    | ok v =>
        obtain ⟨w, -, rfl⟩ := Option.map_eq_some_iff.mp h
        rfl
  unfold node? at h
  split at h
  · rw [hlit h, Expr.labels, List.count_append]
    omega
  · split at h
    · cases h
      split
      · rw [Expr.labels, Expr.labels, List.count_append]
        omega
      · refine Nat.le_trans (count_withNote x _ _) ?_
        rw [Expr.labels, List.count_append, List.count_append]
        omega
    · rw [hlit h, Expr.labels, List.count_append]
      omega
    · cases h
  · rw [hlit h, Expr.labels, List.count_append]
    omega
  · rw [hlit h, Expr.labels, List.count_append]
    omega
  · cases h

/-- What a node is folded to has each label at most as often as the node. -/
theorem count_node (e : Expr) {k : Nat} (h : e.labels.count x ≤ k) :
    Gives (node e) fun e' => e'.labels.count x ≤ k := by
  intro log
  unfold node
  split
  · exact h
  · next e' he => exact Nat.le_trans (count_node? x he) h

mutual

/-- **Expressions.** Folding repeats no label, by induction on the tree. A node that is replaced
keeps its label, and operands only go. -/
theorem count_expr : ∀ e : Expr, Gives (expr e) fun e' => e'.labels.count x ≤ e.labels.count x
  | .lit _ _ | .ident _ _ => .pure (Nat.le_refl _)
  | .unary n op e => by
      rw [expr]
      refine (count_expr e).bind fun e' he => count_node x _ ?_
      simp only [Expr.labels, List.count_append]
      omega
  | .cast n e target => by
      rw [expr]
      refine (count_expr e).bind fun e' he => count_node x _ ?_
      simp only [Expr.labels, List.count_append]
      omega
  | .binary n op l r => by
      rw [expr]
      refine (count_expr l).bind fun l' hl => (count_expr r).bind fun r' hr => count_node x _ ?_
      simp only [Expr.labels, List.count_append]
      omega
  | .index n t i => by
      rw [expr]
      refine (count_expr t).bind fun t' ht => (count_expr i).bind fun i' hi => count_node x _ ?_
      simp only [Expr.labels, List.count_append]
      omega
  | .assign n t v => by
      rw [expr]
      refine (count_expr t).bind fun t' ht => (count_expr v).bind fun v' hv => .pure ?_
      simp only [Expr.labels, List.count_append]
      omega
  | .call n f args => by
      rw [expr]
      refine (count_expr f).bind fun f' hf => (count_exprs args).bind fun as ha => .pure ?_
      simp only [Expr.labels, List.count_append]
      omega
  | .list n items => by
      rw [expr]
      refine (count_exprs items).bind fun is hi => .pure ?_
      simp only [Expr.labels, List.count_append]
      omega
  | .lambda n s b => by
      rw [expr]
      refine (count_block b).bind fun b' hb => .pure ?_
      simp only [Expr.labels, List.count_append]
      omega

/-- Folding expressions in a list repeats no label. -/
theorem count_exprs : ∀ es : List Expr,
    Gives (exprs es) fun es' => (Expr.labelsOf es').count x ≤ (Expr.labelsOf es).count x
  | [] => .pure (Nat.le_refl _)
  | e :: es => by
      rw [exprs]
      refine (count_expr e).bind fun e' he => (count_exprs es).bind fun es' hes => .pure ?_
      simp only [Expr.labelsOf, List.count_append]
      omega

/-- Folding a statement repeats no label: the parts are folded where they are, and the statement
keeps its own label. -/
theorem count_stmt : ∀ s : Stmt, Gives (stmt s) fun s' => s'.labels.count x ≤ s.labels.count x
  | .block b => by
      rw [stmt]
      exact (count_block b).bind fun b' hb => .pure hb
  | .letVar n name t e => by
      rw [stmt]
      refine (count_expr e).bind fun e' he => .pure ?_
      simp only [Stmt.labels, List.count_append]
      omega
  | .expr n e => by
      rw [stmt]
      refine (count_expr e).bind fun e' he => .pure ?_
      simp only [Stmt.labels, List.count_append]
      omega
  | .ret n (some e) => by
      rw [stmt]
      refine (count_expr e).bind fun e' he => .pure ?_
      simp only [Stmt.labels, List.count_append]
      omega
  | .fnDecl n name s b => by
      rw [stmt]
      refine (count_block b).bind fun b' hb => .pure ?_
      simp only [Stmt.labels, List.count_append]
      omega
  | .loop n b => by
      rw [stmt]
      refine (count_block b).bind fun b' hb => .pure ?_
      simp only [Stmt.labels, List.count_append]
      omega
  | .ret n none | .breakLoop n | .continueLoop n => by
      rw [stmt]
      exact .pure (Nat.le_refl _)
  | .cond n test yes none => by
      rw [stmt]
      refine (count_expr test).bind fun t' ht => (count_block yes).bind fun y' hy => .pure ?_
      simp only [Stmt.labels, List.count_append]
      omega
  | .cond n test yes (some no) => by
      rw [stmt]
      refine (count_expr test).bind fun t' ht => (count_block yes).bind fun y' hy =>
        (count_stmt no).bind fun n' hn => .pure ?_
      simp only [Stmt.labels, List.count_append]
      omega
  | .whileLoop n test b => by
      rw [stmt]
      refine (count_expr test).bind fun t' ht => (count_block b).bind fun b' hb => .pure ?_
      simp only [Stmt.labels, List.count_append]
      omega

/-- Folding statements repeats no label. -/
theorem count_stmts : ∀ ss : List Stmt,
    Gives (stmts ss) fun ss' => (Stmt.labelsOf ss').count x ≤ (Stmt.labelsOf ss).count x
  | [] => .pure (Nat.le_refl _)
  | s :: ss => by
      rw [stmts]
      refine (count_stmt s).bind fun s' hs => (count_stmts ss).bind fun ss' hss => .pure ?_
      simp only [Stmt.labelsOf, List.count_append]
      omega

/-- Folding a block repeats no label. -/
theorem count_block : ∀ b : Block, Gives (block b) fun b' => b'.labels.count x ≤ b.labels.count x
  | .mk n ss none => by
      rw [block]
      refine (count_stmts ss).bind fun ss' hs => .pure ?_
      simp only [Block.labels, List.count_append]
      omega
  | .mk n ss (some e) => by
      rw [block]
      refine (count_stmts ss).bind fun ss' hs => (count_expr e).bind fun e' he => .pure ?_
      simp only [Block.labels, List.count_append]
      omega

end

end Fold

/-! ### Dead code -/

namespace DeadCode

/-- The labels of the branch that is taken are among those of the conditional. -/
theorem count_consequent {n : Note} {test : Expr} {yes : Block} {no : Option Stmt} :
    yes.labels.count x ≤ (Stmt.cond n test yes no).labels.count x := by
  cases no with
  | none =>
      simp only [Stmt.labels, List.count_append]
      omega
  | some s =>
      simp only [Stmt.labels, List.count_append]
      omega

/-- A statement that stands in for another one has none of its labels more often. -/
theorem count_simplify {s s' : Stmt} (h : simplify s = .replaced s') :
    s'.labels.count x ≤ s.labels.count x := by
  obtain ⟨n, m, yes, no, rfl, rfl⟩ | ⟨n, m, yes, rfl⟩ := simplify_eq_replaced h
  · exact count_consequent x
  · simp only [Stmt.labels, List.count_append]
    omega

/-- Statements that are struck out take their labels with them. -/
theorem count_filter (keep : Stmt → Bool) (ss : List Stmt) :
    (Stmt.labelsOf (ss.filter keep)).count x ≤ (Stmt.labelsOf ss).count x := by
  induction ss with
  | nil => exact Nat.le_refl _
  | cons s ss ih =>
      rw [List.filter_cons]
      split
      · simp only [Stmt.labelsOf, List.count_append]
        omega
      · simp only [Stmt.labelsOf, List.count_append]
        omega

/-- What is left of statements behind a jump has no label more often than all of them. -/
theorem count_reachable (ss : List Stmt) :
    (Stmt.labelsOf (reachable ss).stmts).count x ≤ (Stmt.labelsOf ss).count x := by
  induction ss with
  | nil => exact Nat.le_refl _
  | cons s ss ih =>
      have hrest : ∀ diverges : Bool,
          (Stmt.labelsOf (if diverges then unreachable ss else reachable ss).stmts).count x ≤
            (Stmt.labelsOf ss).count x := by
        intro diverges
        cases diverges with
        | true => exact count_filter x _ ss
        | false => exact ih
      rw [reachable]
      split
      · simp only [Stmt.labelsOf, List.count_append]
        omega
      · have := hrest s.diverges
        simp only [Swept.cons, Stmt.labelsOf, List.count_append]
        omega
      · next s' hs =>
          have := hrest s'.diverges
          have := count_simplify x hs
          simp only [Swept.cons, Stmt.labelsOf, List.count_append]
          omega

/-- The changes that drop a store. Some of them need to know where the variable is mentioned, but
that does not show in their result. -/
inductive Dropped : List Stmt → List Stmt → Prop
  /-- A declaration takes over the value of the next store. -/
  | later (n m k target : Note) (name name' : String) (t : Option Ty) (init value : Expr)
      (rest : List Stmt) :
      Dropped (.letVar n name t init :: .expr m (.assign k (.ident target name') value) :: rest)
        (.letVar n name t value :: rest)
  /-- The effects of its first value stay. -/
  | laterKept (n m k target : Note) (name name' : String) (t : Option Ty) (init value : Expr)
      (rest : List Stmt) :
      Dropped (.letVar n name t init :: .expr m (.assign k (.ident target name') value) :: rest)
        (.expr m init :: .letVar n name t value :: rest)
  | store (n k target : Note) (name : String) (value : Expr) (rest : List Stmt) :
      Dropped (.expr n (.assign k (.ident target name) value) :: rest) (.expr n value :: rest)
  | declaration (n : Note) (name : String) (t : Option Ty) (init : Expr) (rest : List Stmt) :
      Dropped (.letVar n name t init :: rest) (.expr n init :: rest)

/-- Every store that is dropped is one of the changes listed: a declaration takes over the value of
the next store, or only the value of a store or a declaration is left. -/
theorem dropped_of_dropStore? {facts : Facts} {tail : Option Expr} {before ss ss' : List Stmt}
    (h : dropStore? facts tail before ss = some ss') : Dropped ss ss' := by
  unfold dropStore? at h
  rcases Option.or_eq_some_iff.mp h with h | ⟨-, h⟩
  · unfold declareLater? at h
    split at h
    · split at h
      · split at h
        · cases h
          split
          · exact .later ..
          · exact .laterKept ..
        · cases h
      · cases h
    · cases h
  · rcases Option.or_eq_some_iff.mp h with h | ⟨-, h⟩
    · unfold overwritten? at h
      split at h
      · split at h
        · split at h
          · cases h
            exact .store ..
          · cases h
        · cases h
      · cases h
    · unfold forgotten? at h
      split at h
      · split at h
        · split at h
          · cases h
          · cases h
            exact .declaration ..
        · cases h
      · split at h
        · split at h
          · cases h
            exact .store ..
          · cases h
        · cases h
      · cases h

/-- Where a store is dropped its value stays or goes, so no label becomes more frequent. -/
theorem Dropped.count {ss ss' : List Stmt} (h : Dropped ss ss') :
    (Stmt.labelsOf ss').count x ≤ (Stmt.labelsOf ss).count x := by
  cases h <;> simp only [Stmt.labelsOf, Stmt.labels, Expr.labels, List.count_append] <;> omega

/-- Dropping stores along a block repeats no label, with the statements already passed counted in.
-/
theorem count_dropStores (facts : Facts) (tail : Option Expr) (before ss : List Stmt) :
    (Stmt.labelsOf (dropStores facts tail before ss).1).count x ≤
      (Stmt.labelsOf before).count x + (Stmt.labelsOf ss).count x := by
  fun_induction dropStores facts tail before ss with
  | case1 before => exact Nat.le_add_right _ _
  | case2 before s ss ss' h out changes hout ih =>
      have := (dropped_of_dropStore? h).count x
      rw [hout] at ih
      dsimp only at ih ⊢
      omega
  | case3 before s ss h ih =>
      simp only [Stmt.labelsOf_append, Stmt.labelsOf, List.append_nil, List.count_append] at ih ⊢
      omega

/-- A sweep for dead code through one block repeats no label in it. -/
theorem count_block (facts : Facts) (b : Block) :
    (block facts b).1.labels.count x ≤ b.labels.count x := by
  obtain ⟨n, ss, tail⟩ := b
  have hreach := count_reachable x ss
  have hdrop := fun tail => count_dropStores x facts tail [] (reachable ss).stmts
  simp only [Stmt.labelsOf, List.count_nil, Nat.zero_add] at hdrop
  rw [block]
  dsimp only
  split
  · have := hdrop none
    cases tail <;> simp only [Block.labels, List.count_append] <;> omega
  · have := hdrop tail
    cases tail <;> simp only [Block.labels, List.count_append] <;> omega

end DeadCode

/-! ### Sharing -/

namespace Share

/-- A candidate at a node is this node. -/
theorem candidate?_expr {e : Expr} {c : Candidate} (h : c ∈ (candidate? e).toList) : c.expr = e := by
  unfold candidate? at h
  split at h
  · obtain ⟨key, -, rfl⟩ := Option.map_eq_some_iff.mp (Option.mem_toList.mp h)
    rfl
  · cases h

mutual

/-- A candidate is the expression itself or stands below it, and then its labels are among those
below the expression. -/
theorem count_candidate : ∀ (e : Expr) {c : Candidate}, c ∈ candidates e →
    c.expr = e ∨ c.expr.labels.count x ≤ e.innerLabels.count x
  | .lit _ _, _, h | .ident _ _, _, h | .lambda _ _ _, _, h => by cases h
  | .unary n op e, c, h => by
      rw [candidates, List.mem_append] at h
      rcases h with h | h
      · exact .inl (candidate?_expr h)
      · exact .inr (count_below e h)
  | .cast n e target, c, h => by
      rw [candidates, List.mem_append] at h
      rcases h with h | h
      · exact .inl (candidate?_expr h)
      · exact .inr (count_below e h)
  | .binary n op l r, c, h => by
      rw [candidates] at h
      rw [Expr.innerLabels, List.count_append]
      split at h
      · have := count_below l h
        exact .inr (by omega)
      · rw [List.mem_append, List.mem_append] at h
        rcases h with (h | h) | h
        · exact .inl (candidate?_expr h)
        · have := count_below l h
          exact .inr (by omega)
        · have := count_below r h
          exact .inr (by omega)
  | .assign n a b, c, h | .index n a b, c, h => by
      rw [candidates, List.mem_append] at h
      rw [Expr.innerLabels, List.count_append]
      rcases h with h | h
      · have := count_below a h
        exact .inr (by omega)
      · have := count_below b h
        exact .inr (by omega)
  | .call n f args, c, h => by
      rw [candidates, List.mem_append] at h
      rw [Expr.innerLabels, List.count_append]
      rcases h with h | h
      · have := count_below f h
        exact .inr (by omega)
      · have := count_belowAll args h
        exact .inr (by omega)
  | .list n items, c, h => .inr (count_belowAll items h)

/-- The labels of a candidate are among those of the expression it was found in, by induction on the
expression. -/
theorem count_below : ∀ (e : Expr) {c : Candidate}, c ∈ candidates e →
    c.expr.labels.count x ≤ e.labels.count x
  | e, c, h => by
      rcases count_candidate e h with rfl | hle
      · exact Nat.le_refl _
      · rw [e.labels_eq, List.count_append]
        omega

/-- The labels of a candidate are among those of the expressions it was found in. -/
theorem count_belowAll : ∀ (es : List Expr) {c : Candidate}, c ∈ candidatesOf es →
    c.expr.labels.count x ≤ (Expr.labelsOf es).count x
  | [], _, h => by cases h
  | e :: es, c, h => by
      rw [candidatesOf, List.mem_append] at h
      rw [Expr.labelsOf, List.count_append]
      rcases h with h | h
      · have := count_below e h
        omega
      · have := count_belowAll es h
        omega

end

/-- The labels in an expression are among those of the expression. -/
theorem innerLabels_le (e : Expr) : e.innerLabels.count x ≤ e.labels.count x := by
  rw [e.labels_eq, List.count_append]
  omega

section Substitute

variable (labels : List Nat) (name : String) (symbol : Nat)

mutual

/-- Substitution only drops nodes. -/
theorem count_substitute (e : Expr) :
    (substitute labels name symbol e).labels.count x ≤ e.labels.count x := by
  rw [substitute.eq_def]
  split
  · rw [e.labels_eq, List.count_append]
    exact Nat.le_add_left _ _
  · cases e with
    | lit | ident | lambda => exact Nat.le_refl _
    | unary n op e | cast n e target =>
        have := count_substitute e
        simp only [Expr.labels, List.count_append]
        omega
    | binary n op a b | assign n a b | index n a b =>
        have := count_substitute a
        have := count_substitute b
        simp only [Expr.labels, List.count_append]
        omega
    | call n f args =>
        have := count_substitute f
        have := count_substituteAll args
        simp only [Expr.labels, List.count_append]
        omega
    | list n items =>
        have := count_substituteAll items
        simp only [Expr.labels, List.count_append]
        omega

/-- Expressions in which repetitions are replaced have no label more often than before. -/
theorem count_substituteAll (es : List Expr) :
    (Expr.labelsOf (substituteAll labels name symbol es)).count x ≤
      (Expr.labelsOf es).count x := by
  cases es with
  | nil => exact Nat.le_refl _
  | cons e es =>
      have := count_substitute e
      have := count_substituteAll es
      simp only [substituteAll, Expr.labelsOf, List.count_append]
      omega

end

mutual

/-- Substitution drops the parts of a candidate whose label it replaces. They can be used again
then, in the value of the temporary, and no label is repeated. -/
theorem count_substituted {c : Candidate} (hc : labels.contains c.expr.note.id = true) (e : Expr)
    (h : c ∈ candidates e) :
    (substitute labels name symbol e).labels.count x + c.expr.innerLabels.count x ≤
      e.labels.count x := by
  have hinner := innerLabels_le x c.expr
  rw [substitute.eq_def]
  split
  · rw [e.labels_eq, List.count_append, Nat.add_comm]
    rcases count_candidate x e h with heq | hle
    · rw [heq]
      exact Nat.le_refl _
    · exact Nat.add_le_add_right (Nat.le_trans hinner hle) _
  · next hne =>
      -- The candidate is not the expression itself.
      have hself : ∀ {e' : Expr}, e' = e → c ∉ (candidate? e').toList := by
        rintro e' rfl h'
        rw [candidate?_expr h'] at hc
        exact hne hc
      cases e with
      | lit | ident | lambda => cases h
      | unary n op e | cast n e target =>
          rw [candidates, List.mem_append] at h
          have := count_substituted hc e (h.resolve_left (hself rfl))
          simp only [Expr.labels, List.count_append]
          omega
      | binary n op a b =>
          have ha := count_substitute x labels name symbol a
          have hb := count_substitute x labels name symbol b
          rw [candidates] at h
          simp only [Expr.labels, List.count_append]
          split at h
          · have := count_substituted hc a h
            omega
          · rw [List.append_assoc, List.mem_append, List.mem_append] at h
            rcases h.resolve_left (hself rfl) with h | h
            · have := count_substituted hc a h
              omega
            · have := count_substituted hc b h
              omega
      | assign n a b | index n a b =>
          have ha := count_substitute x labels name symbol a
          have hb := count_substitute x labels name symbol b
          rw [candidates, List.mem_append] at h
          simp only [Expr.labels, List.count_append]
          rcases h with h | h
          · have := count_substituted hc a h
            omega
          · have := count_substituted hc b h
            omega
      | call n f args =>
          have hf := count_substitute x labels name symbol f
          have ha := count_substituteAll x labels name symbol args
          rw [candidates, List.mem_append] at h
          simp only [Expr.labels, List.count_append]
          rcases h with h | h
          · have := count_substituted hc f h
            omega
          · have := count_substitutedAll hc args h
            omega
      | list n items =>
          have := count_substitutedAll hc items h
          simp only [Expr.labels, List.count_append]
          omega

/-- If a candidate of the expressions is replaced, the labels in it are gone from them. They are
free for the variable that holds its value. -/
theorem count_substitutedAll {c : Candidate} (hc : labels.contains c.expr.note.id = true)
    (es : List Expr) (h : c ∈ candidatesOf es) :
    (Expr.labelsOf (substituteAll labels name symbol es)).count x + c.expr.innerLabels.count x ≤
      (Expr.labelsOf es).count x := by
  cases es with
  | nil => cases h
  | cons e es =>
      have he := count_substitute x labels name symbol e
      have hes := count_substituteAll x labels name symbol es
      rw [candidatesOf, List.mem_append] at h
      simp only [substituteAll, Expr.labelsOf, List.count_append]
      rcases h with h | h
      · have := count_substituted hc e h
        omega
      · have := count_substitutedAll hc es h
        omega

end

end Substitute

/-- A repeated subexpression is a candidate, and its label is among those that are replaced. -/
theorem repeated?_eq_some {e first : Expr} {occurrences : List Nat}
    (h : repeated? e = some (first, occurrences)) :
    ∃ c ∈ candidates e, c.expr = first ∧ occurrences.contains c.expr.note.id = true := by
  obtain ⟨c, hc, heq⟩ := Option.map_eq_some_iff.mp h
  cases heq
  have hmem := List.mem_of_find?_eq_some hc
  refine ⟨c, hmem, rfl, ?_⟩
  rw [List.contains_iff_mem]
  exact List.mem_map_of_mem (List.mem_filter.mpr ⟨hmem, beq_self_eq_true _⟩)

/-! ### New labels -/

variable {α β : Type} {lo : Nat}

/-- A sharing that starts with the next label `lo` never takes labels back, and what it gives is
related to the next label after it. It adds as many types as labels. -/
def From (lo : Nat) (m : Sharing α) (P : Nat → α → Prop) : Prop :=
  ∀ s : Supply, s.labels = lo → lo ≤ (m.run s).2.labels ∧
    (m.run s).2.types.size + lo = s.types.size + (m.run s).2.labels ∧
    P (m.run s).2.labels (m.run s).1

/-- A result that is there already hands out no labels. -/
theorem From.pure {a : α} {P : Nat → α → Prop} (h : P lo a) : From lo (Pure.pure a) P := by
  rintro s rfl
  exact ⟨Nat.le_refl _, rfl, h⟩

/-- Two sharings in a row. The second one starts with the next label after the first. -/
theorem From.bind {m : Sharing α} {f : α → Sharing β} {P : Nat → α → Prop}
    {Q : Nat → β → Prop} (hm : From lo m P)
    (hf : ∀ mid a, lo ≤ mid → P mid a → From mid (f a) Q) : From lo (m >>= f) Q := by
  intro s hs
  obtain ⟨hle, htypes, hp⟩ := hm s hs
  obtain ⟨hle', htypes', hq⟩ := hf _ _ hle hp _ rfl
  refine ⟨Nat.le_trans hle hle', ?_, hq⟩
  change ((f (m.run s).1).run (m.run s).2).2.types.size + lo =
    s.types.size + ((f (m.run s).1).run (m.run s).2).2.labels
  omega

/-- A temporary variable is a symbol, and takes no label. -/
theorem from_temporary (ty : Ty) (function : Nat) :
    From lo (temporary ty function) fun hi _ => lo = hi := by
  rintro s rfl
  exact ⟨Nat.le_refl _, rfl, rfl⟩

/-- A new label comes with its entry in the table of types. -/
theorem from_label (ty : Ty) : From lo (label ty) fun hi k => hi = lo + 1 ∧ lo = k := by
  rintro s rfl
  refine ⟨Nat.le_succ _, ?_, rfl, rfl⟩
  change (s.types.push ty).size + s.labels = s.types.size + (s.labels + 1)
  rw [Array.size_push]
  omega

/-- Labels handed out in two steps are those handed out in both. -/
theorem fresh_add {lo mid hi : Nat} (h : lo ≤ mid) (h' : mid ≤ hi) :
    fresh lo mid x + fresh mid hi x = fresh lo hi x := by
  unfold fresh
  split <;> split <;> split <;> omega

/-- Declarations and the expression that reads them have the labels of the expression before and
new ones. -/
theorem from_expr (function : Nat) : ∀ (fuel lo : Nat) (e : Expr),
    From lo (expr function fuel e) fun hi r =>
      (Stmt.labelsOf r.1).count x + r.2.labels.count x ≤ e.labels.count x + fresh lo hi x
  | 0, lo, e => .pure (by simp [Stmt.labelsOf])
  | fuel + 1, lo, e => by
      rw [expr]
      split
      · exact .pure (by simp [Stmt.labelsOf])
      · split
        · exact .pure (by simp [Stmt.labelsOf])
        · next first occurrences h =>
            obtain ⟨c, hc, rfl, hlabel⟩ := repeated?_eq_some h
            refine (from_temporary _ _).bind ?_
            rintro _ ⟨name, symbol⟩ - rfl
            refine (from_label _).bind ?_
            rintro _ _ - ⟨rfl, rfl⟩
            refine (from_label _).bind ?_
            rintro _ _ - ⟨rfl, rfl⟩
            refine (from_expr function fuel _ _).bind ?_
            rintro mid ⟨inner, init⟩ hmid hinit
            refine (from_expr function fuel _ _).bind ?_
            rintro hi ⟨rest, e'⟩ hhi hrest
            have hsub := count_substituted x occurrences name symbol hlabel e hc
            refine .pure ?_
            rw [Expr.labels_withNote] at hinit
            simp only [Stmt.labelsOf_append, Stmt.labelsOf, Stmt.labels, List.count_append,
              List.count_singleton] at hinit hrest ⊢
            have h0 : fresh lo hi x = (if lo == x then 1 else 0) + (if lo + 1 == x then 1 else 0) +
                fresh (lo + 1 + 1) mid x + fresh mid hi x := by
              rw [Nat.add_assoc, fresh_add x hmid hhi]
              simp only [fresh, beq_iff_eq]
              split <;> split <;> split <;> split <;> omega
            omega

/-- **Hoisting.** What is hoisted out of an expression and what is left of it have the labels of the
expression and the new ones, none more often than there. -/
theorem from_root (function lo : Nat) (e : Expr) :
    From lo (root function e) fun hi r =>
      (Stmt.labelsOf r.1).count x + r.2.labels.count x ≤ e.labels.count x + fresh lo hi x :=
  from_expr x function _ lo e

/-- Sharing in a statement gives only its own labels and new ones. The counts of a statement and its
declarations together are bounded, so no label of theirs is in both. -/
theorem from_stmt (function lo : Nat) (s : Stmt) :
    From lo (stmt function s) fun hi r =>
      (Stmt.labelsOf r.1).count x + r.2.labels.count x ≤ s.labels.count x + fresh lo hi x := by
  have hsame : From lo (Pure.pure ([], s) : Sharing (List Stmt × Stmt)) fun hi r =>
      (Stmt.labelsOf r.1).count x + r.2.labels.count x ≤ s.labels.count x + fresh lo hi x :=
    .pure (by simp [Stmt.labelsOf])
  cases s with
  | letVar n name t e | expr n e =>
      rw [stmt]
      refine (from_root x function lo e).bind ?_
      rintro hi ⟨lets, e'⟩ - h
      refine .pure ?_
      simp only [Stmt.labels, List.count_append] at h ⊢
      omega
  | ret n value =>
      cases value with
      | none => exact hsame
      | some e =>
          rw [stmt]
          refine (from_root x function lo e).bind ?_
          rintro hi ⟨lets, e'⟩ - h
          refine .pure ?_
          simp only [Stmt.labels, List.count_append] at h ⊢
          omega
  | cond n test yes no =>
      rw [stmt]
      refine (from_root x function lo test).bind ?_
      rintro hi ⟨lets, e'⟩ - h
      refine .pure ?_
      cases no with
      | none =>
          simp only [Stmt.labels, List.count_append] at h ⊢
          omega
      | some no =>
          simp only [Stmt.labels, List.count_append] at h ⊢
          omega
  | _ => exact hsame

/-- Sharing in statements gives only their own labels and new ones. -/
theorem from_stmts (function : Nat) : ∀ (lo : Nat) (ss : List Stmt),
    From lo (stmts function ss) fun hi r =>
      (Stmt.labelsOf r.1).count x ≤ (Stmt.labelsOf ss).count x + fresh lo hi x
  | lo, [] => .pure (Nat.le_add_right _ _)
  | lo, s :: ss => by
      rw [stmts]
      refine (from_stmt x function lo s).bind ?_
      rintro mid ⟨lets, s'⟩ hmid hs
      refine (from_stmts function mid ss).bind ?_
      rintro hi ⟨ss', count⟩ hhi hss
      have := fresh_add x hmid hhi
      refine .pure ?_
      simp only [Stmt.labelsOf_append, Stmt.labelsOf, List.count_append] at hs hss ⊢
      omega

/-- **Sharing.** A block that shares subexpressions has its old labels and new ones. The new ones
are those that the supply gave out meanwhile, and each is used once. -/
theorem from_block (function lo : Nat) (b : Block) :
    From lo (block function b) fun hi r => r.1.labels.count x ≤ b.labels.count x + fresh lo hi x := by
  obtain ⟨n, ss, tail⟩ := b
  cases tail with
  | none =>
      rw [block]
      refine (from_stmts x function lo ss).bind ?_
      rintro hi ⟨ss', count⟩ - h
      refine .pure ?_
      simp only [Block.labels, List.count_append] at h ⊢
      omega
  | some e =>
      rw [block]
      refine (from_stmts x function lo ss).bind ?_
      rintro mid ⟨ss', count⟩ hmid hs
      refine (from_root x function mid e).bind ?_
      rintro hi ⟨lets, e'⟩ hhi he
      have := fresh_add x hmid hhi
      refine .pure ?_
      simp only [Block.labels, Stmt.labelsOf_append, List.count_append] at hs he ⊢
      omega

end Share

/-! ### Blocks inside trees -/

section Update

variable (label : Nat) (new : Block) (added : Nat)

/-- The block with a label is replaced by one that has at most `added` more of the label `x`. -/
def Adds (blocks : List OwnedBlock) : Prop :=
  ∀ b ∈ blocks, b.1.note.id = label → new.labels.count x ≤ b.1.labels.count x + added

/-- Where blocks are replaced in a row, the replacement adds to both parts. -/
theorem adds_append {as bs : List OwnedBlock} :
    Adds x label new added (as ++ bs) ↔ Adds x label new added as ∧ Adds x label new added bs := by
  simp only [Adds, List.mem_append, or_imp, forall_and]

mutual

/-- Replacing a block inside an expression adds at most what the new block adds, as often as the old
one occurs. In a labelled tree that is once. -/
theorem Expr.count_update (function : Nat) : ∀ e : Expr,
    Adds x label new added (e.blocks function) →
      (e.update label fun _ => new).labels.count x ≤
        e.labels.count x + e.labels.count label * added
  | .lit _ _, _ | .ident _ _, _ => Nat.le_add_right _ _
  | .unary n op e, h | .cast n e t, h => by
      have := e.count_update function h
      simp only [Expr.update, Expr.labels, List.count_append, Nat.add_mul]
      omega
  | .binary n op a b, h | .assign n a b, h | .index n a b, h => by
      rw [Expr.blocks, adds_append] at h
      have := a.count_update function h.1
      have := b.count_update function h.2
      simp only [Expr.update, Expr.labels, List.count_append, Nat.add_mul]
      omega
  | .call n f args, h => by
      rw [Expr.blocks, adds_append] at h
      have := f.count_update function h.1
      have := Expr.count_updateAll function args h.2
      simp only [Expr.update, Expr.labels, List.count_append, Nat.add_mul]
      omega
  | .list n items, h => by
      have := Expr.count_updateAll function items h
      simp only [Expr.update, Expr.labels, List.count_append, Nat.add_mul]
      omega
  | .lambda n s b, h => by
      have := b.count_update _ h
      simp only [Expr.update, Expr.labels, List.count_append, Nat.add_mul]
      omega

/-- Replacing a block inside expressions adds at most what the new block adds. -/
theorem Expr.count_updateAll (function : Nat) : ∀ es : List Expr,
    Adds x label new added (Expr.blocksOf function es) →
      (Expr.labelsOf (Expr.updateAll label (fun _ => new) es)).count x ≤
        (Expr.labelsOf es).count x + (Expr.labelsOf es).count label * added
  | [], _ => Nat.le_add_right _ _
  | e :: es, h => by
      rw [Expr.blocksOf, adds_append] at h
      have := e.count_update function h.1
      have := Expr.count_updateAll function es h.2
      simp only [Expr.updateAll, Expr.labelsOf, List.count_append, Nat.add_mul]
      omega

/-- Replacing a block inside a statement adds at most what the new block adds, once for each time
that the label of the old block occurs. -/
theorem Stmt.count_update (function : Nat) : ∀ s : Stmt,
    Adds x label new added (s.blocks function) →
      (s.update label fun _ => new).labels.count x ≤
        s.labels.count x + s.labels.count label * added
  | .block b, h => b.count_update function h
  | .loop n b, h => by
      have := b.count_update function h
      simp only [Stmt.update, Stmt.labels, List.count_append, Nat.add_mul]
      omega
  | .letVar n _ _ e, h | .expr n e, h | .ret n (some e), h => by
      have := e.count_update function h
      simp only [Stmt.update, Stmt.labels, List.count_append, Nat.add_mul]
      omega
  | .fnDecl n _ _ b, h => by
      have := b.count_update _ h
      simp only [Stmt.update, Stmt.labels, List.count_append, Nat.add_mul]
      omega
  | .ret _ none, _ | .breakLoop _, _ | .continueLoop _, _ => Nat.le_add_right _ _
  | .cond n test yes none, h => by
      rw [Stmt.blocks, adds_append] at h
      have := test.count_update function h.1
      have := yes.count_update function h.2
      simp only [Stmt.update, Stmt.labels, List.count_append, Nat.add_mul]
      omega
  | .cond n test yes (some no), h => by
      rw [Stmt.blocks, adds_append, adds_append] at h
      have := test.count_update function h.1.1
      have := yes.count_update function h.1.2
      have := no.count_update function h.2
      simp only [Stmt.update, Stmt.labels, List.count_append, Nat.add_mul]
      omega
  | .whileLoop n test b, h => by
      rw [Stmt.blocks, adds_append] at h
      have := test.count_update function h.1
      have := b.count_update function h.2
      simp only [Stmt.update, Stmt.labels, List.count_append, Nat.add_mul]
      omega

/-- Replacing a block inside statements adds at most what the new block adds. -/
theorem Stmt.count_updateAll (function : Nat) : ∀ ss : List Stmt,
    Adds x label new added (Stmt.blocksOf function ss) →
      (Stmt.labelsOf (Stmt.updateAll label (fun _ => new) ss)).count x ≤
        (Stmt.labelsOf ss).count x + (Stmt.labelsOf ss).count label * added
  | [], _ => Nat.le_add_right _ _
  | s :: ss, h => by
      rw [Stmt.blocksOf, adds_append] at h
      have := s.count_update function h.1
      have := Stmt.count_updateAll function ss h.2
      simp only [Stmt.updateAll, Stmt.labelsOf, List.count_append, Nat.add_mul]
      omega

/-- **A change in a tree.** Each block that is replaced adds what its replacement adds. A block that
is not replaced itself may have such blocks inside. -/
theorem Block.count_update (function : Nat) : ∀ b : Block,
    Adds x label new added (b.blocks function) →
      (b.update label fun _ => new).labels.count x ≤
        b.labels.count x + b.labels.count label * added
  | .mk n ss none, h => by
      rw [Block.update, Block.labels, List.count_append, List.count_append]
      split
      · next hn =>
          have hnew := h _ List.mem_cons_self hn
          simp only [Block.labels, List.count_append] at hnew
          simp only [hn, List.count_singleton_self, Nat.add_mul, Nat.one_mul] at hnew ⊢
          omega
      · have := Stmt.count_updateAll function ss fun b hb => h b (List.mem_cons_of_mem _ hb)
        simp only [Block.labels, List.count_append, Nat.add_mul]
        omega
  | .mk n ss (some e), h => by
      rw [Block.update, Block.labels, List.count_append, List.count_append]
      split
      · next hn =>
          have hnew := h _ List.mem_cons_self hn
          simp only [Block.labels, List.count_append] at hnew
          simp only [hn, List.count_append, List.count_singleton_self, Nat.add_mul, Nat.one_mul]
            at hnew ⊢
          omega
      · have hparts := (adds_append x label new added).mp fun b hb =>
          h b (List.mem_cons_of_mem _ hb)
        have := Stmt.count_updateAll function ss hparts.1
        have := e.count_update function hparts.2
        simp only [Block.labels, List.count_append, Nat.add_mul]
        omega

end

end Update

end Counts

/-! ### Sweeps -/

namespace Analyzed

variable {a : Analyzed} {label : Nat}

/-- Blocks of a program with distinct labels are told apart by their labels. -/
theorem eq_of_note_eq (h : a.program.Labelled) {b b' : OwnedBlock}
    (hb : b ∈ a.program.root.blocks 0) (hb' : b' ∈ a.program.root.blocks 0)
    (hid : b.1.note.id = b'.1.note.id) : b = b' :=
  List.inj_on_of_nodup_map h.isTree.lists_listed hb hb' hid

/-- A block of the program with a label is the one that is found with it. -/
theorem eq_of_find? (h : a.program.Labelled) {b b' : OwnedBlock}
    (hfind : (a.allBlocks.find? fun b => b.1.note.id == label) = some b)
    (hb' : b' ∈ a.program.root.blocks 0) (hid' : b'.1.note.id = label) : b' = b := by
  have hroot : ∃ c, (a.program.root.blocks 0).find? (fun b => b.1.note.id == label) = some c := by
    rw [← Option.isSome_iff_exists, List.find?_isSome]
    exact ⟨b', hb', by simpa using hid'⟩
  obtain ⟨c, hc⟩ := hroot
  rw [allBlocks, List.find?_append, hc, Option.some_or, Option.some.injEq] at hfind
  subst hfind
  have hid : c.1.note.id = label := by simpa using List.find?_some hc
  exact eq_of_note_eq h hb' (List.mem_of_find?_eq_some hc) (hid'.trans hid.symm)

/-- Replacing the block that was found with a label, by one with its labels and new ones. -/
theorem count_setBlock (h : a.program.Labelled) {b : OwnedBlock} {new : Block} {hi x : Nat}
    (hfind : (a.allBlocks.find? fun b => b.1.note.id == label) = some b)
    (hnew : new.labels.count x ≤ b.1.labels.count x + fresh a.program.labels hi x)
    (hle : a.program.labels ≤ hi) :
    (a.setBlock label b.1 new).program.root.labels.count x ≤ fresh 0 hi x := by
  have hadds : Adds x label new (fresh a.program.labels hi x) (a.program.root.blocks 0) := by
    intro b' hb' hid'
    rw [eq_of_find? h hfind hb' hid']
    exact hnew
  have hcount := Block.count_update x label new _ 0 a.program.root hadds
  have hone : a.program.root.labels.count label ≤ 1 := by
    have := h label
    unfold fresh at this
    split at this <;> omega
  have hadded := Nat.mul_le_mul_right (fresh a.program.labels hi x) hone
  have hsplit := Share.fresh_add x (Nat.zero_le _) hle
  have := h x
  change (a.program.root.update label fun _ => new).labels.count x ≤ _
  omega

/-- A sweep for dead code leaves all labels different. -/
theorem labelled_sweepDeadCode (h : a.program.Labelled) :
    (a.sweepDeadCode label).1.program.Labelled := by
  rw [sweepDeadCode]
  split
  · exact h
  · next b f hfind =>
      dsimp only
      split
      · exact h
      · intro x
        refine count_setBlock h hfind ?_ (Nat.le_refl _)
        exact Nat.le_trans (DeadCode.count_block x a.facts b) (Nat.le_add_right _ _)

/-- A sweep for repeated subexpressions leaves all labels different, as its new nodes take new
labels. -/
theorem labelled_sweepRepeated (h : a.program.Labelled) :
    (a.sweepRepeated label).1.program.Labelled := by
  rw [sweepRepeated]
  split
  · exact h
  · next b function hfind =>
      have hshare := fun x => Share.from_block x function _ b a.supply rfl
      split
      next new count supply heq =>
        rw [heq] at hshare
        split
        · exact h
        · intro x
          obtain ⟨hle, -, hcount⟩ := hshare x
          exact count_setBlock h hfind hcount hle

/-- A sweep over all blocks keeps what the sweep of one block keeps. -/
theorem sweepBlocks_keeps {P : Analyzed → Prop} {sweep : Analyzed → Nat → Analyzed × Nat}
    (hsweep : ∀ (b : Analyzed) (label : Nat), P b → P (sweep b label).1) (h : P a) :
    P (a.sweepBlocks sweep).1 := by
  rw [sweepBlocks]
  generalize a.program.root.blocks 0 = blocks
  generalize 0 = count
  induction blocks generalizing a count with
  | nil => exact h
  | cons b blocks ih =>
      rw [List.foldl_cons]
      exact ih (hsweep a _ h) _

end Analyzed

/-! ### The table of types -/

namespace Analyzed

variable {a : Analyzed} {label : Nat}

/-- The table of types keeps step with the labels. -/
def Tabled (a : Analyzed) : Prop :=
  a.program.types.size = a.program.labels

/-- A sweep for dead code adds no label and no type. -/
theorem tabled_sweepDeadCode (h : a.Tabled) : (a.sweepDeadCode label).1.Tabled := by
  rw [sweepDeadCode]
  split
  · exact h
  · dsimp only
    split <;> exact h

/-- A sweep for repeated subexpressions adds a type with every label, so the table keeps step. -/
theorem tabled_sweepRepeated (h : a.Tabled) : (a.sweepRepeated label).1.Tabled := by
  rw [sweepRepeated]
  split
  · exact h
  · next b function hfind =>
      have hshare := Share.from_block 0 function _ b a.supply rfl
      split
      next new count supply heq =>
        rw [heq] at hshare
        split
        · exact h
        · -- sharing adds as many types as labels, and there were as many before
          have hsize : supply.types.size + a.program.labels =
              a.program.types.size + supply.labels := hshare.2.1
          rw [h, Nat.add_comm a.program.labels] at hsize
          exact Nat.add_right_cancel hsize

end Analyzed

/-- **One sweep.** A sweep of a pass adds an entry to the table of types for each label that it
hands out. -/
theorem Pass.tabled_sweep (p : Pass) {a : Analyzed} (h : a.Tabled) : (p.sweep a).1.Tabled := by
  cases p with
  | constantFolding => exact h
  | deadCode => exact Analyzed.sweepBlocks_keeps (fun _ _ => Analyzed.tabled_sweepDeadCode) h
  | commonSubexpr => exact Analyzed.sweepBlocks_keeps (fun _ _ => Analyzed.tabled_sweepRepeated) h

/-- A sweep of folding leaves all labels different. -/
theorem labelled_foldSweep {a : Analyzed} (h : a.program.Labelled) :
    (foldSweep a).1.program.Labelled :=
  fun x => Nat.le_trans (Fold.count_block x a.program.root {}) (h x)

/-- **One sweep.** A sweep of a pass keeps the labels distinct. -/
theorem Pass.labelled_sweep (p : Pass) {a : Analyzed} (h : a.program.Labelled) :
    (p.sweep a).1.program.Labelled := by
  cases p with
  | constantFolding => exact labelled_foldSweep h
  | deadCode =>
      exact Analyzed.sweepBlocks_keeps (P := fun b => b.program.Labelled)
        (fun _ _ => Analyzed.labelled_sweepDeadCode) h
  | commonSubexpr =>
      exact Analyzed.sweepBlocks_keeps (P := fun b => b.program.Labelled)
        (fun _ _ => Analyzed.labelled_sweepRepeated) h

/-! ### Sequences of sweeps -/

namespace Analyzed

/-- A program comes from another one by any sweeps of any passes, one after the other. -/
inductive Sweeps (a : Analyzed) : Analyzed → Prop
  | refl : Sweeps a a
  | sweep {b : Analyzed} (p : Pass) : Sweeps a b → Sweeps a (p.sweep b).1

variable {a b : Analyzed}

/-- **Sweeps.** Any sweeps keep the labels distinct. -/
theorem Sweeps.labelled (hs : a.Sweeps b) (h : a.program.Labelled) : b.program.Labelled := by
  induction hs with
  | refl => exact h
  | sweep p _ ih => exact p.labelled_sweep ih

/-- **Sweeps.** Through any sweeps the table of types keeps step with the labels. -/
theorem Sweeps.tabled (hs : a.Sweeps b) (h : a.Tabled) : b.Tabled := by
  induction hs with
  | refl => exact h
  | sweep p _ ih => exact p.tabled_sweep ih

/-- The rounds of one pass are sweeps one after the other. -/
theorem Sweeps.repeatSweep (hs : a.Sweeps b) (p : Pass) (rounds : Nat) (changed : Bool) :
    a.Sweeps (repeatSweep p.sweep rounds changed b).1 := by
  induction rounds generalizing b changed with
  | zero => exact hs
  | succ rounds ih =>
      rw [Parlance.repeatSweep]
      have hnext := hs.sweep p
      split
      · next h =>
          rw [h] at hnext
          exact hnext
      · next h =>
          rw [h] at hnext
          exact ih hnext true

/-- A pass only sweeps, also if it gives up. -/
theorem Sweeps.runPass (hs : a.Sweeps b) (p : Pass) : a.Sweeps (b.runPass p).1 := by
  have h := hs.repeatSweep p maxRounds false
  rw [Analyzed.runPass]
  split
  · next heq =>
      rw [heq] at h
      exact h
  · next heq =>
      rw [heq] at h
      exact h

/-- Passes one after the other are sweeps one after the other. -/
theorem Sweeps.runPasses (hs : a.Sweeps b) (ps : List Pass) (changed : Bool) :
    a.Sweeps (Analyzed.runPasses ps changed b).1 := by
  induction ps generalizing b changed with
  | nil => exact hs
  | cons p ps ih =>
      have h := hs.runPass p
      rw [Analyzed.runPasses]
      split
      · next heq =>
          rw [heq] at h
          exact ih h _
      · next heq =>
          rw [heq] at h
          exact h

/-- The rounds of the optimizer are sweeps one after the other. -/
theorem Sweeps.optimizeRounds (hs : a.Sweeps b) (rounds round : Nat) :
    a.Sweeps (Analyzed.optimizeRounds rounds round b).1 := by
  induction rounds generalizing b round with
  | zero => exact hs
  | succ rounds ih =>
      have h := hs.runPasses Pass.all false
      rw [Analyzed.optimizeRounds]
      split
      · next heq =>
          rw [heq] at h
          exact h
      · next heq =>
          rw [heq] at h
          exact ih h _
      · next heq =>
          rw [heq] at h
          exact h

/-- Optimizing only sweeps, also if it gives up. -/
theorem Sweeps.optimize (hs : a.Sweeps b) : a.Sweeps b.optimize.1 :=
  hs.optimizeRounds maxRounds 1

end Analyzed

/-- **Programs stay trees.** What is parsed from any tokens is a tree, also if there are syntax
errors. If analysis finds no errors in it, it is still a tree after any sweeps of the optimizer,
after any pass and after optimizing, whether or not these give up. The table of the types of its
nodes has an entry for each label then, and as analysis leaves it, the entry of each node is the
type of the node. -/
theorem sweeps_isTree (g : Grammar) (size : Nat) (tokens : List Token) :
    (parseTokens g size tokens).1.IsTree ∧
      ((analyze (parseTokens g size tokens).1).2 = [] →
        (∀ o ∈ (analyze (parseTokens g size tokens).1).1.program.nodes,
          (analyze (parseTokens g size tokens).1).1.program.types[o.note.id]? = some o.note.ty) ∧
        ∀ b, (analyze (parseTokens g size tokens).1).1.Sweeps b → b.program.IsTypedTree ∧
          (∀ p, (b.runPass p).1.program.IsTypedTree) ∧ b.optimize.1.program.IsTypedTree) := by
  have hparsed := parseTokens_labelled g size tokens
  refine ⟨hparsed.isTree, fun h => ?_⟩
  have hlabels := (analyze_accepted parseTokens_regular h).2
  have hanalyzed : (analyze (parseTokens g size tokens).1).1.program.Labelled := by
    intro x
    rw [hlabels]
    exact hparsed x
  have htabled : (analyze (parseTokens g size tokens).1).1.Tabled := Program.size_typeTable _
  have hall : ∀ {c : Analyzed}, (analyze (parseTokens g size tokens).1).1.Sweeps c →
      c.program.IsTypedTree := fun hc => ⟨(hc.labelled hanalyzed).isTree, hc.tabled htabled⟩
  exact ⟨fun o ho => hanalyzed.typeTable_getElem? ho,
    fun b hs => ⟨hall hs, fun p => hall (hs.runPass p), hall hs.optimize⟩⟩

/-- A text with a repeated subexpression. -/
def addsSquares : List Char :=
  "let x = 3; x * x + x * x".toList

/-- Parsing hands out labels for this text, all of them different. -/
theorem labels_addsSquares :
    (CompileOptions.lex {} addsSquares).toOption.map (fun tokens =>
      let p := (parseTokens .standard 24 tokens).1
      ((analyze p).2.isEmpty, p.labels, ((analyze p).1.optimize.1.program.labels))) =
    some (true, 10, 12) := by
  rw [Grammar.standard_eq]
  decide +kernel

/-- Optimizing `addsSquares` takes two labels for a temporary variable, and leaves a tree with two
more types. -/
theorem addsSquares_isTree :
    ∃ tokens, CompileOptions.lex {} addsSquares = .ok tokens ∧
      (analyze (parseTokens .standard 24 tokens).1).2 = [] ∧
      (analyze (parseTokens .standard 24 tokens).1).1.optimize.1.program.labels =
        (parseTokens .standard 24 tokens).1.labels + 2 ∧
      (analyze (parseTokens .standard 24 tokens).1).1.optimize.1.program.IsTypedTree := by
  have h := labels_addsSquares
  cases hl : CompileOptions.lex {} addsSquares with
  | error e => simp [hl, Except.toOption] at h
  | ok tokens =>
      simp only [hl, Except.toOption, Option.map_some, Option.some.injEq, Prod.mk.injEq,
        List.isEmpty_iff] at h
      obtain ⟨herrors, hbefore, hafter⟩ := h
      refine ⟨tokens, rfl, herrors, by rw [hbefore, hafter], ?_⟩
      exact (((sweeps_isTree .standard 24 tokens).2 herrors).2 _ .refl).2.2

end Parlance
