import Parlance.Proofs.Optimizer.Convergence
import Parlance.Proofs.Optimizer.Replacement

/-!
# Folding and sharing settle in one sweep

A sweep of constant folding goes from the leaves up, so what it leaves has no node to fold: a node
is looked at after its parts, and what takes its place is a literal or an operand that is folded
already. A sweep of sharing looks at the blocks that the program has at the start, one after the
other. It leaves nothing to share in a block, also not in the declarations of the temporaries, and
changes no other block in a way that sharing would see. So a second sweep finds nothing.

## Main definitions

* `Block.Folded`: no node of a tree can be folded.
* `Block.Settled`: nothing in the statements and the result of a block can be shared.
* `Fold.Settles`: a folding leaves what is folded, and counts what it changes.
* `Traced`: where a block of a changed tree comes from.

## Main results

* `Fold.settles_block`, `Share.settled_block`: the passes on one block.
* `Analyzed.settled_sweepBlocks`: a sweep of sharing over a program.
* `fold_and_share_settle`: a second sweep finds nothing, so both passes end.
-/

namespace Parlance

/-! ### Folded trees -/

mutual

/-- No node of an expression can be folded. -/
def Expr.Folded : Expr → Prop
  | .lit _ _ | .ident _ _ => True
  | .unary n op e => e.Folded ∧ Fold.node? (.unary n op e) = none
  | .binary n op l r => l.Folded ∧ r.Folded ∧ Fold.node? (.binary n op l r) = none
  | .assign _ t v => t.Folded ∧ v.Folded
  | .call _ f args => f.Folded ∧ Expr.AllFolded args
  | .index n t i => t.Folded ∧ i.Folded ∧ Fold.node? (.index n t i) = none
  | .list _ items => Expr.AllFolded items
  | .cast n e target => e.Folded ∧ Fold.node? (.cast n e target) = none
  | .lambda _ _ b => b.Folded

def Expr.AllFolded : List Expr → Prop
  | [] => True
  | e :: es => e.Folded ∧ Expr.AllFolded es

def Stmt.Folded : Stmt → Prop
  | .block b | .loop _ b | .fnDecl _ _ _ b => b.Folded
  | .letVar _ _ _ e | .expr _ e | .ret _ (some e) => e.Folded
  | .ret _ none | .breakLoop _ | .continueLoop _ => True
  | .cond _ test yes none => test.Folded ∧ yes.Folded
  | .cond _ test yes (some no) => test.Folded ∧ yes.Folded ∧ no.Folded
  | .whileLoop _ test b => test.Folded ∧ b.Folded

def Stmt.AllFolded : List Stmt → Prop
  | [] => True
  | s :: ss => s.Folded ∧ Stmt.AllFolded ss

def Block.Folded : Block → Prop
  | .mk _ ss none => Stmt.AllFolded ss
  | .mk _ ss (some e) => Stmt.AllFolded ss ∧ e.Folded

end

namespace Fold

variable {α β : Type}

/-- A literal in the place of a node does not depend on the note in whether it exists. -/
theorem literal?_eq_none (n m : Note) {result : Except Fault Value} :
    literal? n result = none ↔ literal? m result = none := by
  rcases result with fault | v
  · exact Iff.rfl
  · simp only [literal?, Option.map_eq_none_iff]

/-- Whether a node can be folded does not depend on its note. -/
theorem node?_withNote (n : Note) (e : Expr) : node? (e.withNote n) = none ↔ node? e = none := by
  cases e with
  | unary m op e | cast m e target =>
      cases e with
      | lit k v => exact literal?_eq_none n m
      | _ => exact Iff.rfl
  | index m t i =>
      cases t with
      | lit k v =>
          cases i with
          | lit k' w => exact literal?_eq_none n m
          | _ => exact Iff.rfl
      | _ => exact Iff.rfl
  | binary m op l r =>
      cases l with
      | lit k v =>
          simp only [Expr.withNote, node?]
          split
          · simp only [reduceCtorEq]
          · exact literal?_eq_none n m
          · exact Iff.rfl
      | _ => exact Iff.rfl
  | _ => exact Iff.rfl

/-- The right operand of a logical operator stays folded in the place of the operator. -/
theorem folded_withNote {e : Expr} (n : Note) (h : e.Folded) : (e.withNote n).Folded := by
  cases e with
  | unary m op e | cast m e target => exact ⟨h.1, (node?_withNote n _).mpr h.2⟩
  | binary m op l r | index m l r => exact ⟨h.1, h.2.1, (node?_withNote n _).mpr h.2.2⟩
  | _ => exact h

/-- A folding gives folded things, counts what it changes, and leaves what is folded. -/
structure Settles (m : Folding α) (P : α → Prop) (a : α) : Prop where
  folded : ∀ log, P (m.run log).1
  same : P a → ∀ log, m.run log = (a, log)
  counts : ¬ P a → ∀ log, log.count < (m.run log).2.count

/-- A folding takes no change back, so its count only goes up. -/
theorem Settles.count_le {m : Folding α} {P : α → Prop} {a : α} (h : Settles m P a) (log : Log) :
    log.count ≤ (m.run log).2.count := by
  by_cases ha : P a
  · rw [h.same ha]
  · exact Nat.le_of_lt (h.counts ha log)

/-- A result that is folded already settles at once. -/
theorem Settles.pure {P : α → Prop} {a : α} (h : P a) : Settles (Pure.pure a) P a :=
  ⟨fun _ => h, fun _ _ => rfl, fun hn => absurd h hn⟩

/-- A part is folded first, and then what is built around it. -/
theorem Settles.bind {m : Folding α} {f : α → Folding β} {P : α → Prop} {Q : β → Prop} {a : α}
    (c : α → β) (hm : Settles m P a) (hpart : Q (c a) → P a)
    (hf : ∀ x, P x → Settles (f x) Q (c x)) : Settles (m >>= f) Q (c a) where
  folded log := (hf _ (hm.folded log)).folded _
  same hq log := by
    have hp := hpart hq
    change (f (m.run log).1).run (m.run log).2 = _
    rw [hm.same hp]
    exact (hf a hp).same hq log
  counts hq log := by
    change _ < ((f (m.run log).1).run (m.run log).2).2.count
    by_cases hp : P a
    · rw [hm.same hp]
      exact (hf a hp).counts hq log
    · exact Nat.lt_of_lt_of_le (hm.counts hp log) ((hf _ (hm.folded log)).count_le _)

/-- What takes the place of a node is a literal, or an operand of the node. Operands were folded
first, and so there is nothing left to fold. -/
theorem folded_node? {e e' : Expr} (h : node? e = some e')
    (hright : ∀ n op l r, e = .binary n op l r → r.Folded) : e'.Folded := by
  have hlit : ∀ {n : Note} {result : Except Fault Value},
      literal? n result = some e' → e'.Folded := by
    intro n result h
    rcases result with fault | v
    · cases h
    · obtain ⟨w, -, rfl⟩ := Option.map_eq_some_iff.mp h
      trivial
  rw [node?.eq_def] at h
  split at h
  · exact hlit h
  · split at h
    · cases h
      split
      · trivial
      · exact folded_withNote _ (hright _ _ _ _ rfl)
    · exact hlit h
    · cases h
  · exact hlit h
  · exact hlit h
  · cases h

/-- A node whose parts are folded settles: it is left as it is, or becomes something folded with one
more change counted. -/
theorem settles_node {e : Expr} (hparts : e.Folded ↔ node? e = none)
    (hright : ∀ n op l r, e = .binary n op l r → r.Folded) :
    Settles (node e) Expr.Folded e := by
  rw [node]
  cases hnode : node? e with
  | none => exact .pure (hparts.mpr hnode)
  | some e' =>
      refine ⟨fun _ => folded_node? hnode hright, fun hfolded => ?_, fun _ log => ?_⟩
      · rw [hparts.mp hfolded] at hnode
        cases hnode
      · exact Nat.lt_succ_self _

mutual

/-- **Expressions.** Folding leaves nothing to fold, and where it counts nothing there was nothing
to fold before. -/
theorem settles_expr : ∀ e : Expr, Settles (expr e) Expr.Folded e
  | .lit _ _ | .ident _ _ => .pure trivial
  | .unary n op e => by
      rw [expr]
      refine (settles_expr e).bind (Expr.unary n op) (fun h => h.1) fun e he => settles_node ?_ ?_
      · exact and_iff_right he
      · exact fun _ _ _ _ h => by cases h
  | .cast n e target => by
      rw [expr]
      refine (settles_expr e).bind (Expr.cast n · target) (fun h => h.1) fun e he => settles_node ?_ ?_
      · exact and_iff_right he
      · exact fun _ _ _ _ h => by cases h
  | .binary n op l r => by
      rw [expr]
      refine (settles_expr l).bind (Expr.binary n op · r) (fun h => h.1) fun l hl =>
        (settles_expr r).bind (Expr.binary n op l) (fun h => h.2.1) fun r hr => settles_node ?_ ?_
      · rw [Expr.Folded, and_iff_right hl, and_iff_right hr]
      · intro _ _ _ _ h
        cases h
        exact hr
  | .index n t i => by
      rw [expr]
      refine (settles_expr t).bind (Expr.index n · i) (fun h => h.1) fun t ht =>
        (settles_expr i).bind (Expr.index n t) (fun h => h.2.1) fun i hi => settles_node ?_ ?_
      · rw [Expr.Folded, and_iff_right ht, and_iff_right hi]
      · exact fun _ _ _ _ h => by cases h
  | .assign n t v => by
      rw [expr]
      exact (settles_expr t).bind (Expr.assign n · v) (fun h => h.1) fun t ht =>
        (settles_expr v).bind (Expr.assign n t) (fun h => h.2) fun v hv => .pure ⟨ht, hv⟩
  | .call n f args => by
      rw [expr]
      exact (settles_expr f).bind (Expr.call n · args) (fun h => h.1) fun f hf =>
        (settles_exprs args).bind (Expr.call n f) (fun h => h.2) fun args ha => .pure ⟨hf, ha⟩
  | .list n items => by
      rw [expr]
      exact (settles_exprs items).bind (Expr.list n) (fun h => h) fun _ h => .pure h
  | .lambda n s b => by
      rw [expr]
      exact (settles_block b).bind (Expr.lambda n s) (fun h => h) fun _ h => .pure h

/-- Folding expressions in a list leaves nothing to fold in them. -/
theorem settles_exprs : ∀ es : List Expr, Settles (exprs es) Expr.AllFolded es
  | [] => .pure trivial
  | e :: es => by
      rw [exprs]
      exact (settles_expr e).bind (· :: es) (fun h => h.1) fun e he =>
        (settles_exprs es).bind (e :: ·) (fun h => h.2) fun es hes => .pure ⟨he, hes⟩

/-- Folding a statement leaves nothing to fold in it, and if nothing was folded, the statement is
the one it was. -/
theorem settles_stmt : ∀ s : Stmt, Settles (stmt s) Stmt.Folded s
  | .block b => by
      rw [stmt]
      exact (settles_block b).bind Stmt.block (fun h => h) fun _ h => .pure h
  | .letVar n name t e => by
      rw [stmt]
      exact (settles_expr e).bind (Stmt.letVar n name t) (fun h => h) fun _ h => .pure h
  | .fnDecl n name s b => by
      rw [stmt]
      exact (settles_block b).bind (Stmt.fnDecl n name s) (fun h => h) fun _ h => .pure h
  | .ret n none | .breakLoop n | .continueLoop n => .pure trivial
  | .ret n (some e) => by
      rw [stmt]
      exact (settles_expr e).bind (Stmt.ret n <| some ·) (fun h => h) fun _ h => .pure h
  | .cond n test yes none => by
      rw [stmt]
      exact (settles_expr test).bind (Stmt.cond n · yes none) (fun h => h.1) fun test ht =>
        (settles_block yes).bind (Stmt.cond n test · none) (fun h => h.2) fun yes hy => .pure ⟨ht, hy⟩
  | .cond n test yes (some no) => by
      rw [stmt]
      exact (settles_expr test).bind (Stmt.cond n · yes (some no)) (fun h => h.1) fun test ht =>
        (settles_block yes).bind (Stmt.cond n test · (some no)) (fun h => h.2.1) fun yes hy =>
          (settles_stmt no).bind (Stmt.cond n test yes <| some ·) (fun h => h.2.2) fun no hn =>
            .pure ⟨ht, hy, hn⟩
  | .whileLoop n test b => by
      rw [stmt]
      exact (settles_expr test).bind (Stmt.whileLoop n · b) (fun h => h.1) fun test ht =>
        (settles_block b).bind (Stmt.whileLoop n test) (fun h => h.2) fun b hb => .pure ⟨ht, hb⟩
  | .loop n b => by
      rw [stmt]
      exact (settles_block b).bind (Stmt.loop n) (fun h => h) fun _ h => .pure h
  | .expr n e => by
      rw [stmt]
      exact (settles_expr e).bind (Stmt.expr n) (fun h => h) fun _ h => .pure h

/-- Folding statements leaves nothing to fold in them. -/
theorem settles_stmts : ∀ ss : List Stmt, Settles (stmts ss) Stmt.AllFolded ss
  | [] => .pure trivial
  | s :: ss => by
      rw [stmts]
      exact (settles_stmt s).bind (· :: ss) (fun h => h.1) fun s hs =>
        (settles_stmts ss).bind (s :: ·) (fun h => h.2) fun ss hss => .pure ⟨hs, hss⟩

/-- **One folding.** A folded block has nothing left to fold, since parts are folded before the
nodes around them. -/
theorem settles_block : ∀ b : Block, Settles (block b) Block.Folded b
  | .mk n ss none => by
      rw [block]
      exact (settles_stmts ss).bind (Block.mk n · none) (fun h => h) fun _ h => .pure h
  | .mk n ss (some e) => by
      rw [block]
      exact (settles_stmts ss).bind (Block.mk n · (some e)) (fun h => h.1) fun ss hss =>
        (settles_expr e).bind (Block.mk n ss <| some ·) (fun h => h.2) fun e he => .pure ⟨hss, he⟩

end

end Fold

/-- Folding once is enough. -/
theorem foldSweep_foldSweep (a : Analyzed) :
    foldSweep (foldSweep a).1 = ((foldSweep a).1, 0) := by
  have h := (Fold.settles_block _).same ((Fold.settles_block a.program.root).folded {}) {}
  change (Fold.block (foldSweep a).1.program.root).run {} = _ at h
  rw [foldSweep, h]
  simp only [List.append_nil]
  rfl

/-- A folding without changes leaves the program. -/
theorem foldSweep_eq_of_count {a : Analyzed} (h : (foldSweep a).2 = 0) : foldSweep a = (a, 0) := by
  have hsettles := Fold.settles_block a.program.root
  by_cases hfolded : a.program.root.Folded
  · rw [foldSweep, hsettles.same hfolded]
    simp only [List.append_nil]
  · have hlt : 0 < (foldSweep a).2 := hsettles.counts hfolded {}
    omega


/-! ### Shared trees -/

/-- Sharing finds nothing in an expression: it may write a variable, or no subexpression of it is
repeated. -/
def Expr.Settled (e : Expr) : Prop :=
  e.mayWrite = true ∨ Share.repeated? e = none

/-- Sharing finds nothing in the expression that a statement evaluates first. -/
def Stmt.Settled : Stmt → Prop
  | .letVar _ _ _ e | .expr _ e | .ret _ (some e) | .cond _ e _ _ => e.Settled
  | _ => True

/-- Sharing finds nothing in the statements of a block and in its result. -/
def Block.Settled : Block → Prop
  | .mk _ ss tail => (∀ s ∈ ss, s.Settled) ∧ ∀ e ∈ tail, e.Settled

namespace Share

variable {function : Nat} {s s' : Supply} {e : Expr} {r : List Stmt × Expr}

/-- After hoisting nothing is repeated, neither in what was hoisted nor in what is left. -/
theorem Hoists.settled (h : Hoists function s e r s') :
    (∀ a ∈ r.1, a.Settled) ∧ r.2.Settled := by
  induction h with
  | writes hw => exact ⟨List.forall_mem_nil _, .inl hw⟩
  | distinct _ hr => exact ⟨List.forall_mem_nil _, .inr hr⟩
  | hoist _ _ _ _ _ ihinit ihrest =>
      refine ⟨?_, ihrest.2⟩
      rw [List.forall_mem_append, List.forall_mem_cons]
      exact ⟨ihinit.1, ihinit.2, ihrest.1⟩

/-- Without a temporary there was nothing to share. -/
theorem Hoists.settled_of_nil (h : Hoists function s e r s') (hr : r.1 = []) : e.Settled := by
  cases h with
  | writes hw => exact .inl hw
  | distinct _ h => exact .inr h
  | hoist => simp only [List.append_eq_nil_iff, reduceCtorEq, and_false] at hr

/-- Out of a settled expression nothing is hoisted. -/
theorem Hoists.of_settled (function : Nat) (s : Supply) (h : e.Settled) :
    Hoists function s e ([], e) s := by
  cases hw : e.mayWrite with
  | true => exact .writes hw
  | false => exact .distinct hw (h.resolve_left (by rw [hw]; exact Bool.false_ne_true))

/-- Sharing in an expression leaves it settled. If it hoists nothing, the expression was settled
before. -/
theorem settled_root (e : Expr) : Gives (root function e) fun r =>
    (∀ a ∈ r.1, a.Settled) ∧ r.2.Settled ∧ (r.1 = [] → e.Settled) := by
  intro s
  have h : Hoists function s e ((root function e).run s).1 ((root function e).run s).2 :=
    hoists_iff.mpr rfl
  exact ⟨h.settled.1, h.settled.2, h.settled_of_nil⟩

/-- Sharing leaves a settled expression as it is, with no label used. -/
theorem root_of_settled (h : e.Settled) : (root function e).run s = (([], e), s) :=
  hoists_iff.mp (.of_settled function s h)

/-- Sharing in a statement leaves it settled, together with the statements that hold what was
hoisted. -/
theorem settled_stmt (a : Stmt) : Gives (stmt function a) fun r =>
    (∀ b ∈ r.1, b.Settled) ∧ r.2.Settled ∧ (r.1 = [] → a.Settled) := by
  have hnone : a.Settled → Gives (Pure.pure ([], a) : Sharing (List Stmt × Stmt)) fun r =>
      (∀ b ∈ r.1, b.Settled) ∧ r.2.Settled ∧ (r.1 = [] → a.Settled) :=
    fun h => .pure ⟨List.forall_mem_nil _, h, fun _ => h⟩
  cases a with
  | letVar n name t e | expr n e | cond n e yes no =>
      rw [stmt]
      exact (settled_root e).bind fun _ h => .pure h
  | ret n value =>
      cases value with
      | none => exact hnone trivial
      | some e =>
          rw [stmt]
          exact (settled_root e).bind fun _ h => .pure h
  | _ => exact hnone trivial

/-- Sharing leaves a settled statement as it is. -/
theorem stmt_of_settled {a : Stmt} (h : a.Settled) :
    (stmt function a).run s = (([], a), s) := by
  have hroot : ∀ {e : Expr} (f : Expr → Stmt), e.Settled →
      ((root function e).run s).map (fun r => (r.1, f r.2)) id = (([], f e), s) :=
    fun f he => by rw [root_of_settled he]; rfl
  cases a with
  | letVar n name t e => exact hroot (.letVar n name t) h
  | expr n e => exact hroot (.expr n) h
  | cond n test yes no => exact hroot (.cond n · yes no) h
  | ret n value =>
      cases value with
      | none => rfl
      | some e => exact hroot (.ret n <| some ·) h
  | _ => rfl

/-- Sharing in statements leaves them settled. If it counts nothing, they were settled before. -/
theorem settled_stmts : ∀ ss : List Stmt, Gives (stmts function ss) fun r =>
    (∀ a ∈ r.1, a.Settled) ∧ (r.2 = 0 → ∀ a ∈ ss, a.Settled)
  | [] => .pure ⟨List.forall_mem_nil _, fun _ => List.forall_mem_nil _⟩
  | a :: ss => by
      rw [stmts]
      refine (settled_stmt a).bind fun r ha =>
        (settled_stmts ss).bind fun rest hss => .pure ⟨?_, fun hcount => ?_⟩
      · rw [List.forall_mem_append, List.forall_mem_cons]
        exact ⟨ha.1, ha.2.1, hss.1⟩
      · obtain ⟨hlets, hrest⟩ := Nat.add_eq_zero_iff.mp hcount
        rw [List.forall_mem_cons]
        exact ⟨ha.2.2 (List.eq_nil_of_length_eq_zero hlets), hss.2 hrest⟩

/-- Sharing leaves settled statements as they are and counts nothing. -/
theorem stmts_of_settled : ∀ {ss : List Stmt}, (∀ a ∈ ss, a.Settled) →
    (stmts function ss).run s = ((ss, 0), s)
  | [], _ => rfl
  | a :: ss, h => by
      rw [List.forall_mem_cons] at h
      have hstmt : stmt function a s = (([], a), s) := stmt_of_settled h.1
      have hrest : stmts function ss s = ((ss, 0), s) := stmts_of_settled h.2
      simp only [stmts, StateT.run, bind, StateT.bind, hstmt, hrest]
      rfl

/-- **One block.** Sharing leaves nothing to share in a block, and counts no temporary only if
there was nothing. -/
theorem settled_block (function : Nat) (b : Block) : Gives (block function b) fun r =>
    r.1.Settled ∧ (r.2 = 0 → b.Settled) := by
  obtain ⟨n, ss, tail⟩ := b
  cases tail with
  | none =>
      rw [block]
      have hnone : ∀ e ∈ (none : Option Expr), e.Settled := fun _ h => by cases h
      exact (settled_stmts ss).bind fun r h => .pure ⟨⟨h.1, hnone⟩, fun hc => ⟨h.2 hc, hnone⟩⟩
  | some e =>
      rw [block]
      refine (settled_stmts ss).bind fun rest hs =>
        (settled_root e).bind fun r he => .pure ⟨⟨?_, ?_⟩, fun hcount => ?_⟩
      · rw [List.forall_mem_append]
        exact ⟨hs.1, he.1⟩
      · rintro _ ⟨⟩
        exact he.2.1
      · obtain ⟨hc, hlets⟩ := Nat.add_eq_zero_iff.mp hcount
        refine ⟨hs.2 hc, ?_⟩
        rintro _ ⟨⟩
        exact he.2.2 (List.eq_nil_of_length_eq_zero hlets)

/-- Sharing leaves a settled block as it is and counts nothing. -/
theorem block_of_settled {b : Block} (h : b.Settled) :
    (block function b).run s = ((b, 0), s) := by
  obtain ⟨n, ss, tail⟩ := b
  have hstmts : stmts function ss s = ((ss, 0), s) := stmts_of_settled h.1
  cases tail with
  | none =>
      simp only [block, StateT.run, bind, StateT.bind, hstmts]
      rfl
  | some e =>
      have hroot : root function e s = (([], e), s) := root_of_settled (h.2 e rfl)
      simp only [block, StateT.run, bind, StateT.bind, hstmts, hroot]
      simp only [List.append_nil]
      rfl

/-! ### The blocks inside a shared block -/

/-- An expression that may be shared has no blocks inside, as lambdas have no key. -/
theorem blocks_of_key (f : Nat) : ∀ (e : Expr) {key : ExprKey}, e.key? = some key → e.blocks f = []
  | .lit _ _, _, _ | .ident _ _, _, _ => rfl
  | .unary _ _ e, _, h | .cast _ e _, _, h => by
      obtain ⟨key, hkey, -⟩ := Option.map_eq_some_iff.mp h
      exact blocks_of_key f e hkey
  | .binary _ op l r, _, h => by
      cases hop : op.split with
      | inr logical => simp only [Expr.key?, hop, reduceCtorEq] at h
      | inl strict =>
          simp only [Expr.key?, hop] at h
          obtain ⟨left, hl, h⟩ := Option.bind_eq_some_iff.mp h
          obtain ⟨right, hr, -⟩ := Option.bind_eq_some_iff.mp h
          rw [Expr.blocks, blocks_of_key f l hl, blocks_of_key f r hr]
          rfl

mutual

/-- Replacing repetitions makes no new blocks. -/
theorem blocks_substitute (labels : List Nat) (name : String) (symbol f : Nat) (e : Expr) :
    (substitute labels name symbol e).blocks f ⊆ e.blocks f := by
  rw [substitute.eq_def]
  split
  · exact List.nil_subset _
  · cases e with
    | lit | ident | lambda => exact fun _ h => h
    | unary n op e | cast n e target => exact blocks_substitute labels name symbol f e
    | binary n op a b | assign n a b | index n a b =>
        exact List.append_subset.mpr
          ⟨List.subset_append_of_subset_left _ (blocks_substitute labels name symbol f a),
            List.subset_append_of_subset_right _ (blocks_substitute labels name symbol f b)⟩
    | call n g args =>
        exact List.append_subset.mpr
          ⟨List.subset_append_of_subset_left _ (blocks_substitute labels name symbol f g),
            List.subset_append_of_subset_right _ (blocks_substituteAll labels name symbol f args)⟩
    | list n items => exact blocks_substituteAll labels name symbol f items

/-- Replacing repetitions in expressions makes no new blocks. -/
theorem blocks_substituteAll (labels : List Nat) (name : String) (symbol f : Nat)
    (es : List Expr) :
    Expr.blocksOf f (substituteAll labels name symbol es) ⊆ Expr.blocksOf f es := by
  cases es with
  | nil => exact fun _ h => h
  | cons e es =>
      exact List.append_subset.mpr
        ⟨List.subset_append_of_subset_left _ (blocks_substitute labels name symbol f e),
          List.subset_append_of_subset_right _ (blocks_substituteAll labels name symbol f es)⟩

end

end Share

/-- The blocks of statements in a row are those of both parts. -/
theorem Stmt.blocksOf_append (f : Nat) (ss ts : List Stmt) :
    Stmt.blocksOf f (ss ++ ts) = Stmt.blocksOf f ss ++ Stmt.blocksOf f ts := by
  induction ss with
  | nil => rfl
  | cons s ss ih => rw [List.cons_append, Stmt.blocksOf, Stmt.blocksOf, ih, List.append_assoc]

namespace Share

/-- There are no blocks in a repeated subexpression. -/
theorem blocks_of_repeated? {e first : Expr} {labels : List Nat}
    (h : repeated? e = some (first, labels)) (f : Nat) (n : Note) :
    (first.withNote n).blocks f = [] := by
  obtain ⟨c, hc, rfl, -⟩ := repeated?_keys h
  have hcand := isCandidate e hc
  have hkey : (c.expr.withNote n).key? = some c.key := by
    rw [hcand.operation.key?_withNote, hcand.key]
  exact blocks_of_key f _ hkey

/-- Declarations of temporaries have no blocks, and what is left of an expression has no others. -/
theorem Hoists.blocks {function : Nat} {s s' : Supply} {e : Expr} {r : List Stmt × Expr}
    (h : Hoists function s e r s') (f : Nat) :
    Stmt.blocksOf f r.1 = [] ∧ r.2.blocks f ⊆ e.blocks f := by
  induction h with
  | writes | distinct => exact ⟨rfl, fun _ h => h⟩
  | @hoist _ _ _ _ _ init _ _ _ _ _ _ _ hr _ _ _ _ ihinit ihrest =>
      have hinit : init.blocks f = [] := by
        have := ihinit.2
        rw [blocks_of_repeated? hr] at this
        exact List.subset_nil.mp this
      refine ⟨?_, List.Subset.trans ihrest.2 (blocks_substitute _ _ _ f _)⟩
      rw [Stmt.blocksOf_append, ihinit.1, Stmt.blocksOf, ihrest.1, Stmt.blocks, hinit]
      rfl

/-- What is hoisted out of an expression has no blocks, and those of the rest were there before. -/
theorem blocks_root {function : Nat} (f : Nat) (e : Expr) : Gives (root function e) fun r =>
    Stmt.blocksOf f r.1 = [] ∧ r.2.blocks f ⊆ e.blocks f :=
  fun _ => (hoists_iff.mpr rfl).blocks f

/-- What is hoisted out of a statement has no blocks, and those of the rest were there before. -/
theorem blocks_stmt {function : Nat} (f : Nat) (a : Stmt) : Gives (stmt function a) fun r =>
    Stmt.blocksOf f r.1 = [] ∧ r.2.blocks f ⊆ a.blocks f := by
  have hnone : Gives (Pure.pure ([], a) : Sharing (List Stmt × Stmt)) fun r =>
      Stmt.blocksOf f r.1 = [] ∧ r.2.blocks f ⊆ a.blocks f :=
    .pure ⟨rfl, fun _ h => h⟩
  cases a with
  | letVar n name t e | expr n e =>
      rw [stmt]
      exact (blocks_root f e).bind fun _ h => .pure h
  | ret n value =>
      cases value with
      | none => exact hnone
      | some e =>
          rw [stmt]
          exact (blocks_root f e).bind fun _ h => .pure h
  | cond n test yes no =>
      rw [stmt]
      refine (blocks_root f test).bind fun r h => .pure ⟨h.1, ?_⟩
      have happend : ∀ more, r.2.blocks f ++ more ⊆ test.blocks f ++ more := fun more =>
        List.append_subset.mpr
          ⟨List.subset_append_of_subset_left _ h.2, List.subset_append_right _ _⟩
      cases no with
      | none => exact happend _
      | some no =>
          simp only [Stmt.blocks, List.append_assoc]
          exact happend _
  | _ => exact hnone

/-- Sharing in statements makes no new blocks. -/
theorem blocks_stmts {function : Nat} (f : Nat) : ∀ ss : List Stmt,
    Gives (stmts function ss) fun r => Stmt.blocksOf f r.1 ⊆ Stmt.blocksOf f ss
  | [] => .pure fun _ h => h
  | a :: ss => by
      rw [stmts]
      refine (blocks_stmt f a).bind fun r ha => (blocks_stmts f ss).bind fun rest hss => .pure ?_
      rw [Stmt.blocksOf_append, ha.1, Stmt.blocksOf, Stmt.blocksOf, List.nil_append]
      exact List.append_subset.mpr ⟨List.subset_append_of_subset_left _ ha.2,
        List.subset_append_of_subset_right _ hss⟩

/-- The blocks inside a shared block were inside it before. -/
theorem blocks_block (function f : Nat) (b : Block) : Gives (block function b) fun r =>
    r.1.note = b.note ∧ (r.1.blocks f).tail ⊆ (b.blocks f).tail := by
  obtain ⟨n, ss, tail⟩ := b
  cases tail with
  | none =>
      rw [block]
      exact (blocks_stmts f ss).bind fun _ h => .pure ⟨rfl, h⟩
  | some e =>
      rw [block]
      refine (blocks_stmts f ss).bind fun rest hs =>
        (blocks_root f e).bind fun r he => .pure ⟨rfl, ?_⟩
      simp only [Block.blocks, List.tail_cons, Stmt.blocksOf_append, he.1, List.append_nil]
      exact List.append_subset.mpr ⟨List.subset_append_of_subset_left _ hs,
        List.subset_append_of_subset_right _ he.2⟩

end Share

/-! ### Changes elsewhere in a tree -/

section Update

variable (label : Nat) (change : Block → Block)

/-- Whether an operator is safe is seen from its operand alone, and not from blocks inside it. -/
theorem Expr.safeOperator_update (op : BinaryOp) (e : Expr) :
    Expr.safeOperator op (e.update label change) = Expr.safeOperator op e := by
  have hnonzero : (e.update label change).isNonzeroLit = e.isNonzeroLit := by cases e <;> rfl
  have hnatural : (e.update label change).isNaturalLit = e.isNaturalLit := by cases e <;> rfl
  have hty : (e.update label change).ty = e.ty := by rw [Expr.ty, Expr.ty, Expr.note_update]
  cases op <;> simp only [Expr.safeOperator, hnonzero, hnatural, hty]

mutual

/-- A changed block sits inside a lambda, which is pure whatever its body. So an expression stays as
pure as it was. -/
theorem Expr.isPure_update : ∀ e : Expr, (e.update label change).isPure = e.isPure
  | .lit _ _ | .ident _ _ | .lambda _ _ _ | .assign _ _ _ | .call _ _ _ | .index _ _ _ => rfl
  | .list _ items => Expr.allPure_update items
  | .unary _ _ e => e.isPure_update
  | .binary _ op l r => by
      simp only [Expr.update, Expr.isPure, r.safeOperator_update, l.isPure_update, r.isPure_update]
  | .cast _ e target => by
      simp only [Expr.update, Expr.isPure, Expr.ty, Expr.note_update, e.isPure_update]

/-- Expressions stay as pure as they were when a block inside them changes. -/
theorem Expr.allPure_update : ∀ es : List Expr,
    Expr.allPure (Expr.updateAll label change es) = Expr.allPure es
  | [] => rfl
  | e :: es => by
      simp only [Expr.updateAll, Expr.allPure, e.isPure_update, Expr.allPure_update es]

end

mutual

/-- Whether an expression may write a variable does not depend on the blocks inside it. -/
theorem Expr.mayWrite_update : ∀ e : Expr, (e.update label change).mayWrite = e.mayWrite
  | .lit _ _ | .ident _ _ | .lambda _ _ _ | .assign _ _ _ | .call _ _ _ => rfl
  | .list _ items => Expr.anyMayWrite_update items
  | .unary _ _ e | .cast _ e _ => e.mayWrite_update
  | .binary _ _ l r | .index _ l r => by
      simp only [Expr.update, Expr.mayWrite, l.mayWrite_update, r.mayWrite_update]

/-- Whether one of several expressions may write does not depend on the blocks inside them. -/
theorem Expr.anyMayWrite_update : ∀ es : List Expr,
    Expr.anyMayWrite (Expr.updateAll label change es) = Expr.anyMayWrite es
  | [] => rfl
  | e :: es => by
      simp only [Expr.updateAll, Expr.anyMayWrite, e.mayWrite_update, Expr.anyMayWrite_update es]

end

/-- The key of an expression does not depend on blocks, since an expression with blocks has no key.
-/
theorem Expr.key?_update : ∀ e : Expr, (e.update label change).key? = e.key?
  | .lit _ _ | .ident _ _ | .lambda _ _ _ | .assign _ _ _ | .call _ _ _ | .index _ _ _
  | .list _ _ => rfl
  | .unary _ _ e | .cast _ e _ => by simp only [Expr.update, Expr.key?, e.key?_update]
  | .binary _ _ l r => by simp only [Expr.update, Expr.key?, l.key?_update, r.key?_update]

namespace Share

/-- Nothing is repeated if no key occurs twice. -/
theorem repeated?_eq_none_iff {e : Expr} :
    repeated? e = none ↔ ∀ key, occurrences key (candidates e) ≤ 1 := by
  simp only [repeated?, Option.map_eq_none_iff, List.find?_eq_none, decide_eq_true_eq, Nat.not_lt,
    ← List.countP_eq_length_filter]
  refine ⟨fun h key => ?_, fun h c _ => h c.key⟩
  by_cases hpos : 0 < occurrences key (candidates e)
  · obtain ⟨c, hc, hkey⟩ := List.countP_pos_iff.mp hpos
    rw [← beq_iff_eq.mp hkey]
    exact h c hc
  · omega

/-- A node is counted under a key whether or not a block inside it changes. -/
theorem occurrences_candidate?_update (key : ExprKey) (e : Expr) :
    occurrences key (candidate? (e.update label change)).toList =
      occurrences key (candidate? e).toList := by
  rw [candidate?, candidate?, e.isPure_update, e.key?_update]
  split
  · cases e.key? <;> rfl
  · rfl

mutual

/-- A key occurs as often when a block changes, by induction on the expression. -/
theorem occurrences_update (key : ExprKey) : ∀ e : Expr,
    occurrences key (candidates (e.update label change)) = occurrences key (candidates e)
  | .lit _ _ | .ident _ _ | .lambda _ _ _ => rfl
  | .unary n op e => by
      have hself := occurrences_candidate?_update label change key (.unary n op e)
      rw [Expr.update] at hself ⊢
      rw [candidates, candidates, occurrences_append, occurrences_append, hself,
        occurrences_update key e]
  | .cast n e target => by
      have hself := occurrences_candidate?_update label change key (.cast n e target)
      rw [Expr.update] at hself ⊢
      rw [candidates, candidates, occurrences_append, occurrences_append, hself,
        occurrences_update key e]
  | .binary n op l r => by
      have hself := occurrences_candidate?_update label change key (.binary n op l r)
      rw [Expr.update] at hself ⊢
      rw [candidates, candidates]
      split
      · exact occurrences_update key l
      · simp only [occurrences_append, hself, occurrences_update key l, occurrences_update key r]
  | .assign _ a b | .index _ a b => by
      simp only [Expr.update, candidates, occurrences_append, occurrences_update key a,
        occurrences_update key b]
  | .call _ f args => by
      simp only [Expr.update, candidates, occurrences_append, occurrences_update key f,
        occurrencesOf_update key args]
  | .list _ items => occurrencesOf_update key items

/-- A key occurs as often in expressions when a block inside them changes. -/
theorem occurrencesOf_update (key : ExprKey) : ∀ es : List Expr,
    occurrences key (candidatesOf (Expr.updateAll label change es)) =
      occurrences key (candidatesOf es)
  | [] => rfl
  | e :: es => by
      simp only [Expr.updateAll, candidatesOf, occurrences_append, occurrences_update key e,
        occurrencesOf_update key es]

end

end Share

/-- An expression is settled whether or not a block inside it changes. So the blocks of a program
can be swept one by one. -/
theorem Expr.settled_update (e : Expr) : (e.update label change).Settled ↔ e.Settled := by
  simp only [Expr.Settled, e.mayWrite_update, Share.repeated?_eq_none_iff,
    Share.occurrences_update]

/-- A statement is settled whether or not a block inside it changes. -/
theorem Stmt.settled_update (s : Stmt) : (s.update label change).Settled ↔ s.Settled := by
  cases s with
  | letVar n name t e | expr n e => exact e.settled_update label change
  | ret n value =>
      cases value with
      | none => exact Iff.rfl
      | some e => exact e.settled_update label change
  | cond n test yes no => cases no <;> exact test.settled_update label change
  | _ => exact Iff.rfl

/-- Statements are settled whether or not a block inside them changes. -/
theorem Stmt.all_settled_update (ss : List Stmt) :
    (∀ s ∈ Stmt.updateAll label change ss, s.Settled) ↔ ∀ s ∈ ss, s.Settled := by
  induction ss with
  | nil => exact Iff.rfl
  | cons s ss ih =>
      rw [Stmt.updateAll, List.forall_mem_cons, List.forall_mem_cons, s.settled_update, ih]

/-- A change of another block changes nothing for sharing. -/
theorem Block.settled_update {b : Block} (h : b.note.id ≠ label) :
    (b.update label change).note = b.note ∧ ((b.update label change).Settled ↔ b.Settled) := by
  obtain ⟨n, ss, tail⟩ := b
  have hn : n.id ≠ label := h
  cases tail with
  | none =>
      rw [Block.update, if_neg hn]
      refine ⟨rfl, ?_⟩
      simp only [Block.Settled, Stmt.all_settled_update, Option.mem_def, reduceCtorEq]
  | some e =>
      rw [Block.update, if_neg hn]
      refine ⟨rfl, ?_⟩
      simp only [Block.Settled, Stmt.all_settled_update, Option.mem_def, Option.some.injEq,
        forall_eq', e.settled_update]

end Update

/-! ### The blocks of a changed tree -/

section Trace

variable (label : Nat) (new : Block)

/-- A block of a changed tree: a block that was there, itself unchanged up to the blocks inside
it, or one of the new block. -/
def Traced (blocks : List OwnedBlock) (c : OwnedBlock) : Prop :=
  ∃ d ∈ blocks, (d.1.note.id ≠ label ∧ c = (d.1.update label fun _ => new, d.2)) ∨
    (d.1.note.id = label ∧ c ∈ new.blocks d.2)

variable {label new} in
/-- A block that comes from some blocks comes from more of them. -/
theorem Traced.mono {as bs : List OwnedBlock} {c : OwnedBlock} (h : Traced label new as c)
    (hsub : as ⊆ bs) : Traced label new bs c := by
  obtain ⟨d, hd, h⟩ := h
  exact ⟨d, hsub hd, h⟩

variable {label new} in
/-- Where blocks in a row change, each of the new ones comes from the part it is in. -/
theorem traced_append {as bs as' bs' : List OwnedBlock} (ha : ∀ c ∈ as', Traced label new as c)
    (hb : ∀ c ∈ bs', Traced label new bs c) : ∀ c ∈ as' ++ bs', Traced label new (as ++ bs) c := by
  intro c hc
  rcases List.mem_append.mp hc with hc | hc
  · exact (ha c hc).mono (List.subset_append_left _ _)
  · exact (hb c hc).mono (List.subset_append_right _ _)

mutual

/-- Every block of a changed expression was there before or belongs to the new block. -/
theorem Expr.traced_update : ∀ (e : Expr) {f : Nat},
    ∀ c ∈ (e.update label fun _ => new).blocks f, Traced label new (e.blocks f) c
  | .lit _ _, _, _, h | .ident _ _, _, _, h => by cases h
  | .unary _ _ e, _, c, h | .cast _ e _, _, c, h => e.traced_update c h
  | .binary _ _ a b, _, c, h | .assign _ a b, _, c, h | .index _ a b, _, c, h =>
      traced_append a.traced_update b.traced_update c h
  | .call _ g args, _, c, h => traced_append g.traced_update (Expr.traced_updateAll args) c h
  | .list _ items, _, c, h => Expr.traced_updateAll items c h
  | .lambda _ _ b, _, c, h => b.traced_update c h

/-- Every block of changed expressions was there before or belongs to the new block. -/
theorem Expr.traced_updateAll : ∀ (es : List Expr) {f : Nat},
    ∀ c ∈ Expr.blocksOf f (Expr.updateAll label (fun _ => new) es),
      Traced label new (Expr.blocksOf f es) c
  | [], _, _, h => by cases h
  | e :: es, _, c, h => traced_append e.traced_update (Expr.traced_updateAll es) c h

/-- Every block of a changed statement was there before or belongs to the new block. -/
theorem Stmt.traced_update : ∀ (s : Stmt) {f : Nat},
    ∀ c ∈ (s.update label fun _ => new).blocks f, Traced label new (s.blocks f) c
  | .block b, _, c, h | .loop _ b, _, c, h | .fnDecl _ _ _ b, _, c, h => b.traced_update c h
  | .letVar _ _ _ e, _, c, h | .expr _ e, _, c, h | .ret _ (some e), _, c, h =>
      e.traced_update c h
  | .ret _ none, _, _, h | .breakLoop _, _, _, h | .continueLoop _, _, _, h => by cases h
  | .cond _ test yes none, _, c, h => traced_append test.traced_update yes.traced_update c h
  | .cond _ test yes (some no), _, c, h =>
      traced_append (traced_append test.traced_update yes.traced_update) no.traced_update c h
  | .whileLoop _ test b, _, c, h => traced_append test.traced_update b.traced_update c h

/-- Every block of changed statements was there before or belongs to the new block. -/
theorem Stmt.traced_updateAll : ∀ (ss : List Stmt) {f : Nat},
    ∀ c ∈ Stmt.blocksOf f (Stmt.updateAll label (fun _ => new) ss),
      Traced label new (Stmt.blocksOf f ss) c
  | [], _, _, h => by cases h
  | s :: ss, _, c, h => traced_append s.traced_update (Stmt.traced_updateAll ss) c h

/-- Every block of a changed block was there before or belongs to the new block. -/
theorem Block.traced_update : ∀ (b : Block) {f : Nat},
    ∀ c ∈ (b.update label fun _ => new).blocks f, Traced label new (b.blocks f) c
  | .mk n ss none, f, c, h => by
      by_cases hn : n.id = label
      · rw [Block.update, if_pos hn] at h
        exact ⟨_, List.mem_cons_self, .inr ⟨hn, h⟩⟩
      · have hself : (Block.mk n ss none).update label (fun _ => new) =
            .mk n (Stmt.updateAll label (fun _ => new) ss) none := by rw [Block.update, if_neg hn]
        rw [hself] at h
        rcases List.mem_cons.mp h with rfl | h
        · exact ⟨_, List.mem_cons_self, .inl ⟨hn, by rw [hself]⟩⟩
        · exact (Stmt.traced_updateAll ss c h).mono (List.subset_cons_self _ _)
  | .mk n ss (some e), f, c, h => by
      by_cases hn : n.id = label
      · rw [Block.update, if_pos hn] at h
        exact ⟨_, List.mem_cons_self, .inr ⟨hn, h⟩⟩
      · have hself : (Block.mk n ss (some e)).update label (fun _ => new) =
            .mk n (Stmt.updateAll label (fun _ => new) ss) (some (e.update label fun _ => new)) := by
          rw [Block.update, if_neg hn]
        rw [hself] at h
        rcases List.mem_cons.mp h with rfl | h
        · exact ⟨_, List.mem_cons_self, .inl ⟨hn, by rw [hself]⟩⟩
        · exact (traced_append (Stmt.traced_updateAll ss) e.traced_update c h).mono
            (List.subset_cons_self _ _)

end

end Trace

mutual

/-- The blocks inside a block of an expression are blocks of the expression, in the same order. -/
theorem Expr.sublist_blocks : ∀ (e : Expr) {f : Nat},
    ∀ c ∈ e.blocks f, (c.1.blocks c.2).Sublist (e.blocks f)
  | .lit _ _, _, _, h | .ident _ _, _, _, h => by cases h
  | .unary _ _ e, _, c, h | .cast _ e _, _, c, h => e.sublist_blocks c h
  | .binary _ _ a b, _, c, h | .assign _ a b, _, c, h | .index _ a b, _, c, h => by
      rcases List.mem_append.mp h with h | h
      · exact (a.sublist_blocks c h).trans (List.sublist_append_left _ _)
      · exact (b.sublist_blocks c h).trans (List.sublist_append_right _ _)
  | .call _ g args, _, c, h => by
      rcases List.mem_append.mp h with h | h
      · exact (g.sublist_blocks c h).trans (List.sublist_append_left _ _)
      · exact (Expr.sublist_blocksOf args c h).trans (List.sublist_append_right _ _)
  | .list _ items, _, c, h => Expr.sublist_blocksOf items c h
  | .lambda _ _ b, _, c, h => b.sublist_blocks c h

/-- The blocks inside a block of some expressions are blocks of these. -/
theorem Expr.sublist_blocksOf : ∀ (es : List Expr) {f : Nat},
    ∀ c ∈ Expr.blocksOf f es, (c.1.blocks c.2).Sublist (Expr.blocksOf f es)
  | [], _, _, h => by cases h
  | e :: es, _, c, h => by
      rcases List.mem_append.mp h with h | h
      · exact (e.sublist_blocks c h).trans (List.sublist_append_left _ _)
      · exact (Expr.sublist_blocksOf es c h).trans (List.sublist_append_right _ _)

/-- The blocks inside a block of a statement are blocks of the statement. -/
theorem Stmt.sublist_blocks : ∀ (s : Stmt) {f : Nat},
    ∀ c ∈ s.blocks f, (c.1.blocks c.2).Sublist (s.blocks f)
  | .block b, _, c, h | .loop _ b, _, c, h | .fnDecl _ _ _ b, _, c, h => b.sublist_blocks c h
  | .letVar _ _ _ e, _, c, h | .expr _ e, _, c, h | .ret _ (some e), _, c, h =>
      e.sublist_blocks c h
  | .ret _ none, _, _, h | .breakLoop _, _, _, h | .continueLoop _, _, _, h => by cases h
  | .cond _ test b none, _, c, h | .whileLoop _ test b, _, c, h => by
      rcases List.mem_append.mp h with h | h
      · exact (test.sublist_blocks c h).trans (List.sublist_append_left _ _)
      · exact (b.sublist_blocks c h).trans (List.sublist_append_right _ _)
  | .cond _ test yes (some no), _, c, h => by
      rcases List.mem_append.mp h with h | h
      · refine List.Sublist.trans ?_ (List.sublist_append_left _ _)
        rcases List.mem_append.mp h with h | h
        · exact (test.sublist_blocks c h).trans (List.sublist_append_left _ _)
        · exact (yes.sublist_blocks c h).trans (List.sublist_append_right _ _)
      · exact (no.sublist_blocks c h).trans (List.sublist_append_right _ _)

/-- The blocks inside a block of some statements are blocks of these. -/
theorem Stmt.sublist_blocksOf : ∀ (ss : List Stmt) {f : Nat},
    ∀ c ∈ Stmt.blocksOf f ss, (c.1.blocks c.2).Sublist (Stmt.blocksOf f ss)
  | [], _, _, h => by cases h
  | s :: ss, _, c, h => by
      rcases List.mem_append.mp h with h | h
      · exact (s.sublist_blocks c h).trans (List.sublist_append_left _ _)
      · exact (Stmt.sublist_blocksOf ss c h).trans (List.sublist_append_right _ _)

/-- The blocks of a block of a tree are among those of the tree, in their order. -/
theorem Block.sublist_blocks : ∀ (b : Block) {f : Nat},
    ∀ c ∈ b.blocks f, (c.1.blocks c.2).Sublist (b.blocks f)
  | .mk n ss none, f, c, h => by
      rcases List.mem_cons.mp h with rfl | h
      · exact List.Sublist.refl _
      · exact (Stmt.sublist_blocksOf ss c h).trans (List.sublist_cons_self _ _)
  | .mk n ss (some e), f, c, h => by
      rcases List.mem_cons.mp h with rfl | h
      · exact List.Sublist.refl _
      · refine List.Sublist.trans ?_ (List.sublist_cons_self _ _)
        rcases List.mem_append.mp h with h | h
        · exact (Stmt.sublist_blocksOf ss c h).trans (List.sublist_append_left _ _)
        · exact (e.sublist_blocks c h).trans (List.sublist_append_right _ _)

end

/-- A block comes first among its blocks. -/
theorem Block.blocks_eq_cons (b : Block) (f : Nat) : b.blocks f = (b, f) :: (b.blocks f).tail := by
  obtain ⟨n, ss, tail⟩ := b
  cases tail <;> rfl

/-! ### Sweeps -/

namespace Analyzed

variable {a : Analyzed} {label : Nat}

/-- Sharing finds nothing in the blocks of the program with these labels. -/
def SettledAt (a : Analyzed) (done : List Nat) : Prop :=
  ∀ b ∈ a.program.root.blocks 0, b.1.note.id ∈ done → b.1.Settled

/-- The blocks inside a block of the program stand in the program under other labels. -/
theorem inner_of_mem (h : a.program.Labelled) {b c : OwnedBlock} (hb : b ∈ a.program.root.blocks 0)
    (hc : c ∈ (b.1.blocks b.2).tail) :
    c ∈ a.program.root.blocks 0 ∧ c.1.note.id ≠ b.1.note.id := by
  have hsub := a.program.root.sublist_blocks b hb
  have hnodup : (blockIds (b.1.blocks b.2)).Nodup := h.lists_nodup.sublist (hsub.map _)
  refine ⟨hsub.subset (List.mem_of_mem_tail hc), fun hid => ?_⟩
  rw [Block.blocks_eq_cons, blockIds, List.map_cons, List.nodup_cons] at hnodup
  refine hnodup.1 ?_
  rw [← hid]
  exact List.mem_map_of_mem hc

/-- What the sweep of one block does to the blocks of the program: the block itself is settled,
all others keep their labels and what sharing finds in them. -/
theorem settledAt_setBlock (h : a.program.Labelled) {b : OwnedBlock} {new : Block}
    (hfind : (a.allBlocks.find? fun b => b.1.note.id == label) = some b)
    (hnote : new.note = b.1.note) (hnew : new.Settled)
    (hinner : (new.blocks b.2).tail ⊆ (b.1.blocks b.2).tail) {done : List Nat}
    (hdone : a.SettledAt done) :
    (a.setBlock label b.1 new).SettledAt (label :: done) ∧
      blockIds ((a.setBlock label b.1 new).program.root.blocks 0) ⊆
        blockIds (a.program.root.blocks 0) := by
  have hcase : ∀ c ∈ (a.setBlock label b.1 new).program.root.blocks 0,
      c.1.note.id ∈ blockIds (a.program.root.blocks 0) ∧
        (c.1.note.id ∈ label :: done → c.1.Settled) := by
    intro c hc
    obtain ⟨d, hd, ⟨hne, rfl⟩ | ⟨heq, hin⟩⟩ := Block.traced_update label new _ c hc
    · obtain ⟨hnote, hsettled⟩ := d.1.settled_update label (fun _ => new) hne
      dsimp only
      rw [hnote, hsettled]
      refine ⟨List.mem_map_of_mem hd, fun hmem => hdone d hd ?_⟩
      exact (List.mem_cons.mp hmem).resolve_left hne
    · obtain rfl := eq_of_find? h hfind hd heq
      rw [Block.blocks_eq_cons] at hin
      rcases List.mem_cons.mp hin with rfl | hin
      · dsimp only
        rw [hnote]
        exact ⟨List.mem_map_of_mem hd, fun _ => hnew⟩
      · obtain ⟨hmem, hne⟩ := inner_of_mem h hd (hinner hin)
        refine ⟨List.mem_map_of_mem hmem, fun hlisted => hdone c hmem ?_⟩
        exact (List.mem_cons.mp hlisted).resolve_left fun h => hne (h.trans heq.symm)
  refine ⟨fun c hc => (hcase c hc).2, fun x hx => ?_⟩
  obtain ⟨c, hc, rfl⟩ := List.mem_map.mp hx
  exact (hcase c hc).1

/-- **One block of a sweep.** A block that was swept stays settled while others are, since sharing
in another block changes no expression of this one. -/
theorem settledAt_sweepRepeated (h : a.program.Labelled) {done : List Nat}
    (hdone : a.SettledAt done) :
    (a.sweepRepeated label).1.SettledAt (label :: done) ∧
      blockIds ((a.sweepRepeated label).1.program.root.blocks 0) ⊆
        blockIds (a.program.root.blocks 0) := by
  have hsame : (∀ b ∈ a.program.root.blocks 0, b.1.note.id = label → b.1.Settled) →
      a.SettledAt (label :: done) := by
    intro hlabel b hb hmem
    rcases List.mem_cons.mp hmem with hid | hmem
    · exact hlabel b hb hid
    · exact hdone b hb hmem
  rw [sweepRepeated]
  split
  · next hfind =>
      refine ⟨hsame fun b hb hid => ?_, fun _ h => h⟩
      refine absurd ?_ (List.find?_eq_none.mp hfind b (List.mem_append_left _ hb))
      simpa using hid
  · next b function hfind =>
      have hsettled := Share.settled_block function b a.supply
      have hblocks := Share.blocks_block function function b a.supply
      split
      next new count supply heq =>
        rw [heq] at hsettled hblocks
        split
        · next hzero =>
            refine ⟨hsame fun c hc hid => ?_, fun _ h => h⟩
            rw [eq_of_find? h hfind hc hid]
            exact hsettled.2 hzero
        · exact settledAt_setBlock h hfind hblocks.1 hsettled.1 hblocks.2 hdone

/-- The sweep of a settled block changes nothing. -/
theorem sweepRepeated_of_settled (h : a.program.Labelled) {b : OwnedBlock}
    (hb : b ∈ a.program.root.blocks 0) (hsettled : b.1.Settled) :
    a.sweepRepeated b.1.note.id = (a, 0) := by
  rw [sweepRepeated]
  split
  · rfl
  · next c function hfind =>
      obtain rfl := eq_of_find? h hfind hb rfl
      rw [Share.block_of_settled hsettled]
      rfl

/-- **One sweep.** Sharing over the blocks that the program has at the start leaves nothing to
share in any block of the program. -/
theorem settled_sweepBlocks (h : a.program.Labelled) :
    ∀ b ∈ (a.sweepBlocks sweepRepeated).1.program.root.blocks 0, b.1.Settled := by
  have hfold : ∀ (blocks : List OwnedBlock) (a : Analyzed) (count : Nat) (done : List Nat),
      a.program.Labelled → a.SettledAt done →
      (∀ x ∈ blockIds (a.program.root.blocks 0), x ∈ done ∨ x ∈ blockIds blocks) →
      ∀ b ∈ (blocks.foldl (sweepStep sweepRepeated) (a, count)).1.program.root.blocks 0,
        b.1.Settled := by
    intro blocks
    induction blocks with
    | nil =>
        intro a count done _ hdone hids b hb
        exact hdone b hb ((hids _ (List.mem_map_of_mem hb)).resolve_right List.not_mem_nil)
    | cons c blocks ih =>
        intro a count done h hdone hids
        obtain ⟨hsettled, hkept⟩ := @settledAt_sweepRepeated a c.1.note.id h done hdone
        refine ih _ _ (c.1.note.id :: done) (labelled_sweepRepeated h) hsettled fun x hx => ?_
        rcases hids x (hkept hx) with hx | hx
        · exact .inl (List.mem_cons_of_mem _ hx)
        · rcases List.mem_cons.mp hx with rfl | hx
          · exact .inl List.mem_cons_self
          · exact .inr hx
  rw [sweepBlocks_eq_foldl]
  refine hfold _ a 0 [] h (fun _ _ hmem => ?_) fun x hx => .inr hx
  cases hmem

/-- A sweep over settled blocks changes nothing. -/
theorem sweepBlocks_of_settled (h : a.program.Labelled)
    (hsettled : ∀ b ∈ a.program.root.blocks 0, b.1.Settled) :
    a.sweepBlocks sweepRepeated = (a, 0) := by
  have hfold : ∀ blocks : List OwnedBlock, blocks ⊆ a.program.root.blocks 0 →
      blocks.foldl (sweepStep sweepRepeated) (a, 0) = (a, 0) := by
    intro blocks
    induction blocks with
    | nil => exact fun _ => rfl
    | cons c blocks ih =>
        intro hsub
        have hc : c ∈ a.program.root.blocks 0 := hsub List.mem_cons_self
        rw [List.foldl_cons, sweepStep, sweepRepeated_of_settled h hc (hsettled c hc)]
        exact ih fun x hx => hsub (List.mem_cons_of_mem _ hx)
  rw [sweepBlocks_eq_foldl]
  exact hfold _ fun _ hx => hx

end Analyzed

/-- A pass that settles in one sweep ends with the second one. -/
theorem Analyzed.runPass_of_sweep_sweep {p : Pass} {a : Analyzed}
    (h : p.sweep (p.sweep a).1 = ((p.sweep a).1, 0)) :
    a.runPass p = ((p.sweep a).1, .ok (decide ((p.sweep a).2 ≠ 0))) := by
  rcases hsweep : p.sweep a with ⟨b, changes⟩
  rw [hsweep] at h
  cases changes with
  | zero => simp [runPass, maxRounds, repeatSweep, hsweep]
  | succ changes => simp [runPass, maxRounds, repeatSweep, hsweep, h]

/-- **Folding and sharing settle at once.** If analysis finds no errors in a program, then after
any sweeps of any passes, one sweep of constant folding or of sharing leaves nothing to do for a
second one. So both passes end without an error in any program, and answer whether their first
sweep changed something. -/
theorem fold_and_share_settle (g : Grammar) (size : Nat) (tokens : List Token)
    (h : (analyze (parseTokens g size tokens).1).2 = []) :
    let a := (analyze (parseTokens g size tokens).1).1
    ∀ b, a.Sweeps b → ∀ p : Pass, p = .constantFolding ∨ p = .commonSubexpr →
      p.sweep (p.sweep b).1 = ((p.sweep b).1, 0) ∧
        b.runPass p = ((p.sweep b).1, .ok (decide ((p.sweep b).2 ≠ 0))) := by
  intro a b hb p hp
  have hlabelled : b.program.Labelled := by
    refine hb.labelled fun x => ?_
    rw [(analyze_accepted parseTokens_regular h).2]
    exact parseTokens_labelled g size tokens x
  have hsettled : p.sweep (p.sweep b).1 = ((p.sweep b).1, 0) := by
    rcases hp with rfl | rfl
    · exact foldSweep_foldSweep b
    · exact Analyzed.sweepBlocks_of_settled (Pass.commonSubexpr.labelled_sweep hlabelled)
        (Analyzed.settled_sweepBlocks hlabelled)
  exact ⟨hsettled, Analyzed.runPass_of_sweep_sweep hsettled⟩

/-- Sharing changes `addsSquares` in its first sweep, and ends. -/
theorem addsSquares_settles :
    ∃ tokens, CompileOptions.lex {} addsSquares = .ok tokens ∧
      (analyze (parseTokens .standard 24 tokens).1).2 = [] ∧
      ((analyze (parseTokens .standard 24 tokens).1).1.runPass .commonSubexpr).2 = .ok true := by
  have h := sweep_addsSquares
  cases hl : CompileOptions.lex {} addsSquares with
  | error e => simp [hl, Except.toOption] at h
  | ok tokens =>
      simp only [hl, Except.toOption, Option.map_some, Option.some.injEq, Prod.mk.injEq,
        List.isEmpty_iff] at h
      obtain ⟨herrors, hchange⟩ := h
      refine ⟨tokens, rfl, herrors, ?_⟩
      rw [(fold_and_share_settle .standard 24 tokens herrors _ .refl .commonSubexpr (.inr rfl)).2,
        hchange]
      rfl

end Parlance
