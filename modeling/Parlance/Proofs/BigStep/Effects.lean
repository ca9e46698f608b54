import Parlance.Proofs.BigStep.Refinement
import Parlance.Tree.Effects

/-!
# What evaluation does not do

The answers that the tree gives about an expression or a statement hold of its evaluation: an
expression that may not write leaves the store alone, but for identities it gives out; control
does not reach the end of a statement that diverges, and leaves no loop by a `break` that is not
there.

## Main results

* `BigStep.expr_still`: expressions without calls and assignments.
* `BigStep.stmt_not_broke`: statements without `break`.
* `BigStep.stmt_diverges`: statements that diverge.
-/

namespace Parlance

mutual

/-- Pure expressions do not write. -/
theorem Expr.mayWrite_of_isPure : ∀ e : Expr, e.isPure = true → e.mayWrite = false
  | .lit _ _, _ | .ident _ _, _ | .lambda _ _ _, _ => rfl
  | .list _ items, h => Expr.anyMayWrite_of_allPure items h
  | .unary _ _ e, h => e.mayWrite_of_isPure h
  | .cast _ e _, h => by
      simp only [Expr.isPure, Bool.and_eq_true] at h
      exact e.mayWrite_of_isPure h.2
  | .binary _ _ l r, h => by
      simp only [Expr.isPure, Bool.and_eq_true] at h
      simp only [Expr.mayWrite, l.mayWrite_of_isPure h.1.2, r.mayWrite_of_isPure h.2, Bool.or_self]
  | .assign _ _ _, h | .call _ _ _, h | .index _ _ _, h => by cases h

/-- Pure expressions write no variable. -/
theorem Expr.anyMayWrite_of_allPure : ∀ es : List Expr, Expr.allPure es = true →
    Expr.anyMayWrite es = false
  | [], _ => rfl
  | e :: es, h => by
      simp only [Expr.allPure, Bool.and_eq_true] at h
      simp only [Expr.anyMayWrite, e.mayWrite_of_isPure h.1, Expr.anyMayWrite_of_allPure es h.2,
        Bool.or_self]

end

namespace BigStep

open Eval

/-! ### Stores that stay -/

/-- Only identities have been given out. -/
structure Store.Stays (s s' : Store) : Prop where
  eq : s' = { s with fresh := s'.fresh }
  fresh : s.fresh ≤ s'.fresh

/-- Where nothing happens the store stays. -/
theorem Store.Stays.refl (s : Store) : s.Stays s :=
  ⟨rfl, Nat.le_refl _⟩

/-- The store stays step after step. -/
theorem Store.Stays.trans {s t u : Store} (h : s.Stays t) (h' : t.Stays u) : s.Stays u :=
  ⟨by rw [h'.eq, h.eq], Nat.le_trans h.fresh h'.fresh⟩

/-- Whatever value an evaluation gives, the store stays. -/
def Still {α : Type} (m : Eval α) : Prop :=
  ∀ s a s', m s (.ok a s') → s.Stays s'

section

variable {α β : Type}

/-- A value that is there already leaves the store. -/
theorem Still.pure (a : α) : Still (Pure.pure a : Eval α) := by
  rintro s _ _ ⟨⟩
  exact .refl s

/-- Two evaluations in a row leave the store if both do. -/
theorem Still.bind {m : Eval α} {f : α → Eval β} (h : Still m) (hf : ∀ a, Still (f a)) :
    Still (m >>= f) := by
  intro s b s' hm
  obtain ⟨a, t, ht, hb⟩ := bind_ok.mp hm
  exact (h s a t ht).trans (hf a t b s' hb)

/-- A failure gives no value. -/
theorem still_fail {k : Fault} : Still (fail k : Eval α) := by
  rintro s a s' ⟨⟩

/-- An operation on values does not touch the store. -/
theorem still_lift (r : Except Fault α) : Still (lift r) := by
  cases r with
  | ok a => exact .pure a
  | error k => exact still_fail

/-- Looking at the store leaves it. -/
theorem still_store : Still store := by
  rintro s _ _ ⟨⟩
  exact .refl s

/-- Giving out an identity changes nothing else. -/
theorem still_identity : Still identity := by
  rintro s k s' ⟨k', hk, he⟩
  cases he
  exact ⟨rfl, Nat.le_succ_of_le hk⟩

variable {x : Activation}

/-- Reading a variable leaves the store. -/
theorem readVariable_still {symbol slot owner : Nat} :
    Still (readVariable x symbol slot owner) := by
  unfold readVariable
  split
  · exact still_store.bind fun _ => .pure _
  · split
    · unfold captured
      split
      · exact .pure _
      · exact still_fail
    · exact still_fail

/-- Reading a name leaves the store. -/
theorem read_still (n : Note) : Still (read x n) := by
  unfold read
  split
  · rintro s v s' ⟨w, hw⟩
    cases hw
    exact .refl s
  · split
    · exact still_store.bind fun _ => .pure _
    · exact readVariable_still
    · exact .pure _
    · exact .pure _

/-- Reading captured variables leaves the store. -/
theorem readAllCaptured_still (captures : List Nat) : Still (readAllCaptured x captures) := by
  induction captures with
  | nil => exact .pure _
  | cons y rest ih =>
      rw [readAllCaptured]
      refine Still.bind ?_ fun v => ih.bind fun _ => .pure _
      unfold readCaptured
      split
      · exact readVariable_still
      · exact still_fail

/-- Making a function reads variables and gives out an identity. -/
theorem lambda_still (n : Note) : Still (lambda x n) := by
  unfold lambda
  split
  · exact still_fail
  · split
    · exact .pure _
    · exact (readAllCaptured_still _).bind fun _ => still_identity.bind fun _ => .pure _

/-- Looking at a truth value leaves the store. -/
theorem truth_still (v : Value) : Still (truth v) := by
  unfold truth
  split
  · exact .pure _
  · exact still_fail

mutual

/-- **Expressions.** An expression that may not write leaves the store alone, whatever its value.
What may write are assignments and calls, and neither is in it. -/
theorem expr_still : ∀ e : Expr, e.mayWrite = false → Still (expr x e)
  | .lit _ _, _ => by
      rw [expr]
      exact .pure _
  | .ident n _, _ => by
      rw [expr]
      exact read_still n
  | .unary _ _ e, h => by
      rw [expr]
      exact (expr_still e h).bind fun _ => still_lift _
  | .cast _ e _, h => by
      rw [expr]
      exact (expr_still e h).bind fun _ => still_lift _
  | .binary _ op l r, h => by
      simp only [Expr.mayWrite, Bool.or_eq_false_iff] at h
      rw [expr]
      refine (expr_still l h.1).bind fun v => ?_
      split
      · exact (expr_still r h.2).bind fun _ => still_lift _
      · refine (truth_still v).bind fun b => ?_
        split
        · exact .pure _
        · exact expr_still r h.2
  | .index _ t i, h => by
      simp only [Expr.mayWrite, Bool.or_eq_false_iff] at h
      rw [expr]
      exact (expr_still t h.1).bind fun _ => (expr_still i h.2).bind fun _ => still_lift _
  | .list _ items, h => by
      rw [expr]
      exact (exprs_still items h).bind fun _ => .pure _
  | .lambda n _ _, _ => by
      rw [expr]
      exact lambda_still n
  | .assign _ _ _, h | .call _ _ _, h => by cases h

/-- Expressions that write nothing leave the store, by induction with the other expressions. -/
theorem exprs_still : ∀ es : List Expr, Expr.anyMayWrite es = false → Still (exprs x es)
  | [], _ => by
      rw [exprs]
      exact .pure _
  | e :: es, h => by
      simp only [Expr.anyMayWrite, Bool.or_eq_false_iff] at h
      rw [exprs]
      exact (expr_still e h.1).bind fun _ => (exprs_still es h.2).bind fun _ => .pure _

end

end

/-! ### Control -/

/-- Control never leaves an evaluation in this way. -/
def Never (signal : Signal) (m : Eval Signal) : Prop :=
  ∀ s s', ¬ m s (.ok signal s')

section

variable {x : Activation} {signal : Signal}

/-- What comes first does not matter if what follows never leaves in this way. -/
theorem Never.bind {α : Type} {m : Eval α} {f : α → Eval Signal} (h : ∀ a, Never signal (f a)) :
    Never signal (m >>= f) := by
  intro s s' hm
  obtain ⟨a, t, -, hf⟩ := bind_ok.mp hm
  exact h a t s' hf

/-- A way to leave that is given is the only one. -/
theorem Never.pure {signal' : Signal} (h : signal' ≠ signal) :
    Never signal (Pure.pure signal') := by
  rintro s s' ⟨⟩
  exact h rfl

/-- Two parts in a row never leave in a way that neither of them does. -/
theorem Never.next {m m' : Eval Signal} (h : Never signal m) (h' : Never signal m') :
    Never signal (m >>= fun r => r.next m') := by
  intro s s' hm
  obtain ⟨r, t, ht, hr⟩ := bind_ok.mp hm
  cases r with
  | normal => exact h' t s' hr
  | _ => cases hr; exact h s _ ht

/-- A loop is left by the `break`s of its body only. -/
theorem iterate_never_broke (m : Eval Signal) (fuel : Nat) : Never .broke (iterate fuel m) := by
  induction fuel with
  | zero => rintro s s' ⟨⟩
  | succ fuel ih =>
      rw [iterate]
      refine Never.bind fun signal => ?_
      cases signal with
      | normal => exact ih
      | continued => exact ih
      | broke => exact .pure fun h => by cases h
      | returned v => exact .pure fun h => by cases h

/-- A loop without `break` never comes to its end by itself. -/
theorem iterate_never_normal {m : Eval Signal} (h : Never .broke m) (fuel : Nat) :
    Never .normal (iterate fuel m) := by
  induction fuel with
  | zero => rintro s s' ⟨⟩
  | succ fuel ih =>
      intro s s' hm
      rw [iterate] at hm
      obtain ⟨signal, t, ht, hr⟩ := bind_ok.mp hm
      cases signal with
      | normal => exact ih t s' hr
      | continued => exact ih t s' hr
      | broke => exact h s t ht
      | returned v => cases hr

mutual

/-- Without a `break`, a statement does not end by one. Loops inside end their own breaks, so
nothing is asked of their bodies. -/
theorem stmt_not_broke : ∀ a : Stmt, a.breaks = false → Never .broke (stmt x a)
  | .block b, h => by
      rw [stmt]
      exact block_not_broke b h
  | .letVar _ _ _ _, _ | .expr _ _, _ | .ret _ (some _), _ => by
      rw [stmt]
      refine Never.bind fun _ => ?_
      first
        | exact .pure nofun
        | exact Never.bind fun _ => .pure nofun
  | .fnDecl _ _ _ _, _ | .ret _ none, _ | .continueLoop _, _ => by
      rw [stmt]
      exact .pure nofun
  | .breakLoop _, h => by cases h
  | .cond _ _ yes none, h => by
      rw [stmt]
      refine Never.bind fun _ => Never.bind fun _ => ?_
      split
      · exact block_not_broke yes h
      · exact .pure nofun
  | .cond _ _ yes (some no), h => by
      simp only [Stmt.breaks, Bool.or_eq_false_iff] at h
      rw [stmt]
      refine Never.bind fun _ => Never.bind fun _ => ?_
      split
      · exact block_not_broke yes h.1
      · exact stmt_not_broke no h.2
  | .whileLoop _ _ _, _ => by
      rw [stmt]
      exact iterate_never_broke _ _
  | .loop _ _, _ => by
      rw [stmt]
      exact iterate_never_broke _ _

/-- Statements without `break` are never left by one. -/
theorem stmts_not_broke : ∀ ss : List Stmt, Stmt.anyBreaks ss = false → Never .broke (stmts x ss)
  | [], _ => by
      rw [stmts]
      exact .pure nofun
  | a :: ss, h => by
      simp only [Stmt.anyBreaks, Bool.or_eq_false_iff] at h
      rw [stmts]
      exact (stmt_not_broke a h.1).next (stmts_not_broke ss h.2)

/-- A block without `break` is never left by one. -/
theorem block_not_broke : ∀ b : Block, b.breaks = false → Never .broke (block x b)
  | .mk _ ss none, h => by
      rw [block]
      exact stmts_not_broke ss h
  | .mk _ ss (some _), h => by
      rw [block]
      exact (stmts_not_broke ss h).next (Never.bind fun _ => .pure nofun)

end

mutual

/-- **Divergence.** Control does not reach the end of a statement that diverges. The check looks at
the statement alone, and so does the proof, by induction on it. -/
theorem stmt_diverges : ∀ a : Stmt, a.diverges = true → Never .normal (stmt x a)
  | .block b, h => by
      rw [stmt]
      exact block_diverges b h
  | .ret _ none, _ | .breakLoop _, _ | .continueLoop _, _ => by
      rw [stmt]
      exact .pure nofun
  | .ret _ (some _), _ => by
      rw [stmt]
      exact Never.bind fun _ => .pure nofun
  | .cond _ _ yes (some no), h => by
      simp only [Stmt.diverges, Bool.and_eq_true] at h
      rw [stmt]
      refine Never.bind fun _ => Never.bind fun _ => ?_
      split
      · exact block_diverges yes h.1
      · exact stmt_diverges no h.2
  | .loop _ b, h => by
      rw [stmt]
      exact iterate_never_normal (block_not_broke b (by simpa [Stmt.diverges] using h)) _
  | .letVar _ _ _ _, h | .fnDecl _ _ _ _, h | .cond _ _ _ none, h | .whileLoop _ _ _, h
  | .expr _ _, h => by cases h

/-- Control does not come to the end of statements of which one diverges. -/
theorem stmts_diverge : ∀ ss : List Stmt, Stmt.anyDiverges ss = true → Never .normal (stmts x ss)
  | [], h => by cases h
  | a :: ss, h => by
      simp only [Stmt.anyDiverges, Bool.or_eq_true] at h
      rw [stmts]
      intro s s' hm
      obtain ⟨signal, t, ht, hr⟩ := bind_ok.mp hm
      cases signal with
      | normal =>
          rcases h with h | h
          · exact stmt_diverges a h s t ht
          · exact stmts_diverge ss h t s' hr
      | _ => cases hr

/-- Control does not come to the end of a block that diverges. -/
theorem block_diverges : ∀ b : Block, b.diverges = true → Never .normal (block x b)
  | .mk _ ss none, h => by
      rw [block]
      exact stmts_diverge ss h
  | .mk _ ss (some _), h => by
      rw [block]
      intro s s' hm
      obtain ⟨signal, t, ht, hr⟩ := bind_ok.mp hm
      cases signal with
      | normal => exact stmts_diverge ss h s t ht
      | _ => cases hr

end

end

end BigStep

end Parlance
