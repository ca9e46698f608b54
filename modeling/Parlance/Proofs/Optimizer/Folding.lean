import Parlance.Proofs.BigStep.Inclusion
import Parlance.Proofs.BigStep.Programs
import Parlance.Proofs.Optimizer.Labels
import Parlance.Proofs.Tree.Bodies
import Parlance.Proofs.Value.Canonical

/-!
# Folding keeps results

A folded tree has the results of the tree it comes from: the same values, the same faults at the
same places, and the same loops. Operands are folded first, so it is enough to look at one node
whose operands are folded.

There is one place where less is known about the folded tree. If the left operand of a logical
operator does not decide, then the right one takes the place of the operator, with the note of the
operator. If it is a name, this note does not say any more what the name refers to.

## Main definitions

* `Expr.folded`, `Stmt.folded`, `Block.folded`: what folding gives.

## Main results

* `Block.scoped_folded`, `Block.noted_folded`: folding keeps scopes and notes.
* `Block.bodyCarries_folded`: the results of a body carry over to the folded one.
* `Fold.runs_block`: a fold gives the folded block. Functions are in the block or were dropped.
-/

namespace Parlance

open BigStep BigStep.Eval

/-! ### Folded trees -/

/-- What takes the place of a node whose parts are folded. -/
def Fold.reduce (e : Expr) : Expr :=
  (node? e).getD e

mutual

def Expr.folded : Expr → Expr
  | .lit n v => .lit n v
  | .ident n name => .ident n name
  | .unary n op e => Fold.reduce (.unary n op e.folded)
  | .binary n op l r => Fold.reduce (.binary n op l.folded r.folded)
  | .assign n t v => .assign n t.folded v.folded
  | .call n f args => .call n f.folded (Expr.foldedAll args)
  | .index n t i => Fold.reduce (.index n t.folded i.folded)
  | .list n items => .list n (Expr.foldedAll items)
  | .cast n e target => Fold.reduce (.cast n e.folded target)
  | .lambda n s b => .lambda n s b.folded

def Expr.foldedAll : List Expr → List Expr
  | [] => []
  | e :: es => e.folded :: Expr.foldedAll es

def Stmt.folded : Stmt → Stmt
  | .block b => .block b.folded
  | .letVar n name t e => .letVar n name t e.folded
  | .fnDecl n name s b => .fnDecl n name s b.folded
  | .ret n none => .ret n none
  | .ret n (some e) => .ret n (some e.folded)
  | .cond n test yes none => .cond n test.folded yes.folded none
  | .cond n test yes (some no) => .cond n test.folded yes.folded (some no.folded)
  | .whileLoop n test b => .whileLoop n test.folded b.folded
  | .loop n b => .loop n b.folded
  | .breakLoop n => .breakLoop n
  | .continueLoop n => .continueLoop n
  | .expr n e => .expr n e.folded

def Stmt.foldedAll : List Stmt → List Stmt
  | [] => []
  | s :: ss => s.folded :: Stmt.foldedAll ss

def Block.folded : Block → Block
  | .mk n ss none => .mk n (Stmt.foldedAll ss) none
  | .mk n ss (some e) => .mk n (Stmt.foldedAll ss) (some e.folded)

end

/-! ### One node -/

namespace Fold

/-- What may take the place of a node whose parts are folded. -/
inductive Reduces : Expr → Expr → Prop
  | same (e : Expr) : Reduces e e
  /-- The value of an operation on literals. -/
  | value {e : Expr} {n : Note} {w : Lit} (hvalue : ∀ x, BigStep.expr x e = pure w.toValue)
      (hfunctions : ∀ nested, e.functions nested = []) (hdropped : droppedBy e (.lit n w) = []) :
      Reduces e (.lit n w)
  /-- The left operand of a logical operator decides. -/
  | decided {n m : Note} {op : BinaryOp} {logical : LogicalOp} {r : Expr}
      (hop : op.split = .inr logical) :
      Reduces (.binary n op (.lit m (.bool (decisive logical))) r) (.lit n (.bool (decisive logical)))
  /-- The left operand of a logical operator does not decide. -/
  | operand {n m : Note} {op : BinaryOp} {logical : LogicalOp} {b : Bool} {r : Expr}
      (hop : op.split = .inr logical) (hb : b ≠ decisive logical) :
      Reduces (.binary n op (.lit m (.bool b)) r) (r.withNote n)

/-- A literal that takes the place of a node has the value of the node. The value is canonical, so
it can be written as a literal. -/
theorem literal?_eq_some {n : Note} {result : Except Fault Value} {e' : Expr}
    (h : literal? n result = some e') (hc : ∀ v, result = .ok v → v.IsCanonical) :
    ∃ w : Lit, e' = .lit n w ∧ result = .ok w.toValue := by
  cases result with
  | error k => cases h
  | ok v =>
      obtain ⟨w, hw, rfl⟩ := Option.map_eq_some_iff.mp h
      exact ⟨w, rfl, by rw [Value.toValue_of_toLit? hw (hc v rfl)]⟩

/-- What folding puts in the place of a node is one of the reductions listed: the value that the
operator has, one operand of a logical operator, or the node itself. -/
theorem reduces_reduce (e : Expr) : Reduces e (reduce e) := by
  unfold reduce node?
  split
  · next n op m v =>
      cases h : literal? n (v.toValue.unary op) with
      | none => exact .same _
      | some e' =>
          obtain ⟨w, rfl, hw⟩ :=
            literal?_eq_some h fun _ hu => (Value.isCanonical_toValue v).unary hu
          refine .value (fun x => ?_) (fun _ => rfl) rfl
          rw [BigStep.expr, BigStep.expr, pure_bind_eq, hw]
          rfl
  · next n op m v r =>
      cases hop : op.split with
      | inl strict =>
          cases r with
          | lit k w =>
              cases h : literal? n (Value.binary strict.toBinary v.toValue w.toValue) with
              | none =>
                  simp only [h]
                  exact .same _
              | some e' =>
                  obtain ⟨u, rfl, hu⟩ :=
                    literal?_eq_some h fun _ hu => (Value.isCanonical_toValue v).binary hu
                  simp only [h]
                  refine .value (fun x => ?_) (fun _ => rfl) rfl
                  simp only [BigStep.expr, hop, pure_bind_eq, hu]
                  rfl
          | _ => exact .same _
      | inr logical =>
          cases v with
          | bool b =>
              simp only [Option.getD_some]
              split
              · next hb =>
                  subst hb
                  exact .decided hop
              · next hb => exact .operand hop hb
          | _ => exact .same _
  · next n m v target =>
      cases h : literal? n (v.toValue.cast target) with
      | none => exact .same _
      | some e' =>
          obtain ⟨w, rfl, hw⟩ :=
            literal?_eq_some h fun _ hu => (Value.isCanonical_toValue v).cast hu
          refine .value (fun x => ?_) (fun _ => rfl) rfl
          rw [BigStep.expr, BigStep.expr, pure_bind_eq, hw]
          rfl
  · next n m v k i =>
      cases h : literal? n (v.toValue.getItem i.toValue) with
      | none => exact .same _
      | some e' =>
          obtain ⟨w, rfl, hw⟩ := literal?_eq_some h fun _ hu => Value.isCanonical_of_getItem hu
          refine .value (fun x => ?_) (fun _ => rfl) rfl
          simp only [BigStep.expr, pure_bind_eq, hw]
          rfl
  · exact .same _

end Fold

section

variable {owner : Nat → Nat} {function : Nat} {e e' : Expr} {n : Note}

/-! ### Other notes -/

/-- Another note makes no lambda of an expression. -/
theorem Expr.isLambda_withNote (e : Expr) (n : Note) : (e.withNote n).isLambda = e.isLambda := by
  cases e <;> rfl

/-- Another note leaves the functions in an expression alone, unless it is a lambda, whose number is
in its note. -/
theorem Expr.functions_withNote (h : e.isLambda = false) (nested : Bool) :
    (e.withNote n).functions nested = e.functions nested := by
  cases e with
  | lambda => cases h
  | _ => rfl

/-- An expression that is no lambda may get a note without a symbol. -/
theorem Expr.Noted.withNote (h : e.Noted owner function) (hs : n.symbol = none)
    (hl : e.isLambda = false) : (e.withNote n).Noted owner function := by
  cases e with
  | binary m op a b => exact ⟨fun hop => ⟨hs, (h.1 hop).2⟩, h.2⟩
  | lambda => cases hl
  | _ => exact h

/-- An expression that is no lambda stays in scope with a note without a symbol. -/
theorem Expr.Scoped.withNote {F : Facts} {live : List Nat} (h : e.Scoped F function live)
    (hs : n.symbol = none) (hl : e.isLambda = false) : (e.withNote n).Scoped F function live := by
  cases e with
  | ident m name =>
      intro y hy
      rw [hs] at hy
      cases hy
  | lambda => cases hl
  | assign m t v =>
      cases t with
      | index k base i => cases base <;> exact h
      | _ => exact h
  | _ => exact h

/-- Only names and lambdas have values that depend on their notes. -/
theorem expr_withNote_carries (x : Activation) (hs : n.symbol = none) (hl : e.isLambda = false) :
    Carries (expr x e) (expr x (e.withNote n)) := by
  cases e with
  | ident m name =>
      rw [Expr.withNote, expr, expr]
      exact read_carries_unresolved hs
  | lambda => cases hl
  | assign m t v => cases t <;> simp only [Expr.withNote, expr] <;> exact .refl _
  | _ =>
      simp only [Expr.withNote, expr]
      exact .refl _

/-! ### Folded nodes -/

namespace Fold

/-- A reduction keeps the notes right. -/
theorem Reduces.noted (h : Reduces e e') (hn : e.Noted owner function) :
    e'.Noted owner function := by
  cases h with
  | same => exact hn
  | value => trivial
  | decided => trivial
  | operand hop =>
      obtain ⟨hs, hl⟩ := hn.1 (BinaryOp.isLogical_of_split hop)
      exact hn.2.2.withNote hs hl

/-- A reduction makes no lambda of another expression. -/
theorem Reduces.isLambda (h : Reduces e e') (hn : e.Noted owner function)
    (hl : e.isLambda = false) : e'.isLambda = false := by
  cases h with
  | same => exact hl
  | value => rfl
  | decided => rfl
  | operand hop =>
      rw [Expr.isLambda_withNote]
      exact (hn.1 (BinaryOp.isLogical_of_split hop)).2

/-- A reduction mentions no variable that was not in scope. -/
theorem Reduces.scoped {F : Facts} {live : List Nat} {f : Nat} (h : Reduces e e')
    (hn : e.Noted owner function) (hs : e.Scoped F f live) : e'.Scoped F f live := by
  cases h with
  | same => exact hs
  | value => trivial
  | decided => trivial
  | operand hop =>
      obtain ⟨hsym, hl⟩ := hn.1 (BinaryOp.isLogical_of_split hop)
      exact hs.2.withNote hsym hl

/-- A logical operator is decided by one truth value, which is its result then. -/
theorem decides_decisive (op : LogicalOp) (b : Bool) :
    decides op b = true ↔ b = decisive op := by
  cases op <;> cases b <;> decide

/-- **One node.** The results of a node carry over to what takes its place. -/
theorem Reduces.carries (h : Reduces e e') (hn : e.Noted owner function) (x : Activation) :
    Carries (BigStep.expr x e) (BigStep.expr x e') := by
  cases h with
  | same => exact .refl _
  | value hvalue =>
      rw [hvalue, BigStep.expr]
      exact .refl _
  | @decided n m op logical r hop =>
      have hd := (decides_decisive logical _).mpr rfl
      simp only [BigStep.expr, hop, pure_bind_eq, Lit.toValue, shortCircuit, truth, hd, if_true]
      exact .refl _
  | @operand n m op logical b r hop hb =>
      obtain ⟨hs, hl⟩ := hn.1 (BinaryOp.isLogical_of_split hop)
      have hd := (decides_decisive logical b).not.mpr hb
      simp only [BigStep.expr, hop, pure_bind_eq, Lit.toValue, shortCircuit, truth, hd]
      exact expr_withNote_carries x hs hl

/-- A node that stays drops no functions. -/
theorem droppedBy_self (e : Expr) : droppedBy e e = [] := by
  cases e <;> rfl

/-- Functions of a node are in its place or were dropped. -/
theorem Reduces.functions (h : Reduces e e') (hn : e.Noted owner function) :
    (e'.functions true : Multiset FunctionBody) + ((droppedBy e e').flatMap FunctionBody.all) =
      (e.functions true : Multiset FunctionBody) := by
  cases h with
  | same => simp [droppedBy_self]
  | value _ hfunctions hdropped =>
      rw [hfunctions, hdropped]
      rfl
  | @decided n m op logical r hop =>
      simp [droppedBy, Expr.functions, r.functions_nested hn.2.2]
  | @operand n m op logical b r hop =>
      obtain ⟨-, hl⟩ := hn.1 (BinaryOp.isLogical_of_split hop)
      have hd : droppedBy (.binary n op (.lit m (.bool b)) r) (r.withNote n) = [] := by
        cases r <;> rfl
      rw [hd, Expr.functions_withNote hl]
      simp [Expr.functions]

end Fold

end

/-! ### Notes -/

/-- Folding a statement leaves what it declares. -/
@[simp] theorem Stmt.declared_folded (s : Stmt) : s.folded.declared = s.declared := by
  cases s with
  | ret n value => cases value <;> rfl
  | cond n test yes no => cases no <;> rfl
  | _ => rfl

section

variable {owner : Nat → Nat}

mutual

/-- **Expressions.** Folding keeps the notes right, and makes no lambda of another expression, so
that lambdas stay with the functions that they are numbered by. -/
theorem Expr.noted_folded : ∀ (e : Expr) {f : Nat}, e.Noted owner f →
    e.folded.Noted owner f ∧ (e.isLambda = false → e.folded.isLambda = false)
  | .lit _ _, _, _ | .ident _ _, _, _ => ⟨trivial, fun h => h⟩
  | .unary n op e, f, h => by
      have he : (Expr.unary n op e.folded).Noted owner f := (e.noted_folded h).1
      exact ⟨(Fold.reduces_reduce _).noted he, (Fold.reduces_reduce _).isLambda he⟩
  | .cast n e target, f, h => by
      have he : (Expr.cast n e.folded target).Noted owner f := (e.noted_folded h).1
      exact ⟨(Fold.reduces_reduce _).noted he, (Fold.reduces_reduce _).isLambda he⟩
  | .binary n op a b, f, h => by
      obtain ⟨ha, -⟩ := a.noted_folded h.2.1
      obtain ⟨hb, hl⟩ := b.noted_folded h.2.2
      have he : (Expr.binary n op a.folded b.folded).Noted owner f :=
        ⟨fun hop => ⟨(h.1 hop).1, hl (h.1 hop).2⟩, ha, hb⟩
      exact ⟨(Fold.reduces_reduce _).noted he, (Fold.reduces_reduce _).isLambda he⟩
  | .index n a b, f, h => by
      have he : (Expr.index n a.folded b.folded).Noted owner f :=
        ⟨(a.noted_folded h.1).1, (b.noted_folded h.2).1⟩
      exact ⟨(Fold.reduces_reduce _).noted he, (Fold.reduces_reduce _).isLambda he⟩
  | .assign _ a b, _, h => ⟨⟨(a.noted_folded h.1).1, (b.noted_folded h.2).1⟩, fun _ => rfl⟩
  | .call _ g args, _, h => ⟨⟨(g.noted_folded h.1).1, Expr.allNoted_folded args h.2⟩, fun _ => rfl⟩
  | .list _ items, _, h => ⟨Expr.allNoted_folded items h, fun _ => rfl⟩
  | .lambda _ _ b, _, ⟨g, hg, hb⟩ => ⟨⟨g, hg, b.noted_folded hb⟩, fun h => h⟩

/-- Folding keeps the notes of expressions right. -/
theorem Expr.allNoted_folded : ∀ (es : List Expr) {f : Nat}, Expr.AllNoted owner f es →
    Expr.AllNoted owner f (Expr.foldedAll es)
  | [], _, _ => trivial
  | e :: es, _, h => ⟨(e.noted_folded h.1).1, Expr.allNoted_folded es h.2⟩

/-- Folding keeps the notes of a statement right. -/
theorem Stmt.noted_folded : ∀ (s : Stmt) {f : Nat}, s.Noted owner f → s.folded.Noted owner f
  | .block b, _, h | .loop _ b, _, h => b.noted_folded h
  | .letVar _ _ _ e, _, h | .expr _ e, _, h | .ret _ (some e), _, h => (e.noted_folded h).1
  | .fnDecl _ _ _ b, _, ⟨g, hg, hb⟩ => ⟨g, hg, b.noted_folded hb⟩
  | .ret _ none, _, _ | .breakLoop _, _, _ | .continueLoop _, _, _ => trivial
  | .cond _ test yes none, _, h => ⟨(test.noted_folded h.1).1, yes.noted_folded h.2⟩
  | .cond _ test yes (some no), _, h =>
      ⟨(test.noted_folded h.1).1, yes.noted_folded h.2.1, no.declared_folded.trans h.2.2.1,
        no.noted_folded h.2.2.2⟩
  | .whileLoop _ test b, _, h => ⟨(test.noted_folded h.1).1, b.noted_folded h.2⟩

/-- Folding keeps the notes of statements right. -/
theorem Stmt.allNoted_folded : ∀ (ss : List Stmt) {f : Nat}, Stmt.AllNoted owner f ss →
    Stmt.AllNoted owner f (Stmt.foldedAll ss)
  | [], _, _ => trivial
  | s :: ss, _, h => ⟨s.noted_folded h.1, Stmt.allNoted_folded ss h.2⟩

/-- Folding keeps notes as they should be. -/
theorem Block.noted_folded : ∀ (b : Block) {f : Nat}, b.Noted owner f → b.folded.Noted owner f
  | .mk _ ss none, _, h => ⟨h.1, Stmt.allNoted_folded ss h.2⟩
  | .mk _ ss (some e), _, h => ⟨h.1, Stmt.allNoted_folded ss h.2.1, (e.noted_folded h.2.2).1⟩

end

/-- The operands of a logical operator, folded. -/
theorem Expr.noted_binary_folded {n : Note} {op : BinaryOp} {a b : Expr} {f : Nat}
    (h : (Expr.binary n op a b).Noted owner f) :
    (Expr.binary n op a.folded b.folded).Noted owner f :=
  ⟨fun hop => ⟨(h.1 hop).1, (b.noted_folded h.2.2).2 (h.1 hop).2⟩, (a.noted_folded h.2.1).1,
    (b.noted_folded h.2.2).1⟩

/-! ### Scopes -/

section

variable {F : Facts} {g : Nat}

mutual

/-- A folded expression mentions only variables in scope. What takes the place of a node was an
operand of it or is a literal, which mentions none. -/
theorem Expr.scoped_folded : ∀ (e : Expr) {f : Nat} {live : List Nat}, e.Noted owner f →
    e.Scoped F g live → e.folded.Scoped F g live
  | .lit _ _, _, _, _, _ => trivial
  | .ident _ _, _, _, _, h => h
  | .unary n op e, f, live, hn, h => by
      have hn' : (Expr.unary n op e.folded).Noted owner f := (e.noted_folded hn).1
      exact (Fold.reduces_reduce _).scoped hn' (e.scoped_folded hn h)
  | .cast n e target, f, live, hn, h => by
      have hn' : (Expr.cast n e.folded target).Noted owner f := (e.noted_folded hn).1
      exact (Fold.reduces_reduce _).scoped hn' (e.scoped_folded hn h)
  | .binary n op a b, f, live, hn, h =>
      (Fold.reduces_reduce _).scoped (Expr.noted_binary_folded hn)
        ⟨a.scoped_folded hn.2.1 h.1, b.scoped_folded hn.2.2 h.2⟩
  | .index n a b, f, live, hn, h => by
      have hn' : (Expr.index n a.folded b.folded).Noted owner f :=
        ⟨(a.noted_folded hn.1).1, (b.noted_folded hn.2).1⟩
      exact (Fold.reduces_reduce _).scoped hn'
        ⟨a.scoped_folded hn.1 h.1, b.scoped_folded hn.2 h.2⟩
  -- The target of an assignment is no operation on literals, so it stays.
  | .assign _ (.ident _ _) v, _, _, hn, h => ⟨v.scoped_folded hn.2 h.1, h.2⟩
  | .assign _ (.index _ (.ident _ _) i) v, _, _, hn, h =>
      ⟨i.scoped_folded hn.1.2 h.1, v.scoped_folded hn.2 h.2.1, h.2.2⟩
  | .call _ k args, _, _, hn, h => ⟨k.scoped_folded hn.1 h.1, Expr.allScoped_folded args hn.2 h.2⟩
  | .list _ items, _, _, hn, h => Expr.allScoped_folded items hn h
  | .lambda _ _ _, _, _, _, h => h

/-- Folded expressions mention only variables in scope. -/
theorem Expr.allScoped_folded : ∀ (es : List Expr) {f : Nat} {live : List Nat},
    Expr.AllNoted owner f es → Expr.AllScoped F g live es →
    Expr.AllScoped F g live (Expr.foldedAll es)
  | [], _, _, _, _ => trivial
  | e :: es, _, _, hn, h => ⟨e.scoped_folded hn.1 h.1, Expr.allScoped_folded es hn.2 h.2⟩

end

/-- Folding statements leaves the variables that are visible behind them. -/
theorem Stmt.liveAfter_foldedAll (ss : List Stmt) (live : List Nat) :
    Stmt.liveAfter live (Stmt.foldedAll ss) = Stmt.liveAfter live ss := by
  induction ss generalizing live with
  | nil => rfl
  | cons s ss ih => rw [Stmt.foldedAll, Stmt.liveAfter, Stmt.liveAfter, s.declared_folded, ih]

mutual

/-- A folded statement mentions only variables in scope. -/
theorem Stmt.scoped_folded : ∀ (s : Stmt) {f : Nat} {live : List Nat}, s.Noted owner f →
    s.Scoped F g live → s.folded.Scoped F g live
  | .block b, _, _, hn, h | .loop _ b, _, _, hn, h => b.scoped_folded hn h
  | .letVar _ _ _ e, _, _, hn, h => ⟨e.scoped_folded hn h.1, h.2⟩
  | .expr _ e, _, _, hn, h | .ret _ (some e), _, _, hn, h => e.scoped_folded hn h
  | .fnDecl _ _ _ _, _, _, _, _ | .ret _ none, _, _, _, _ | .breakLoop _, _, _, _, _
  | .continueLoop _, _, _, _, _ => trivial
  | .cond _ test yes none, _, _, hn, h => ⟨test.scoped_folded hn.1 h.1, yes.scoped_folded hn.2 h.2⟩
  | .cond _ test yes (some no), _, _, hn, h =>
      ⟨test.scoped_folded hn.1 h.1, yes.scoped_folded hn.2.1 h.2.1,
        no.scoped_folded hn.2.2.2 h.2.2⟩
  | .whileLoop _ test b, _, _, hn, h => ⟨test.scoped_folded hn.1 h.1, b.scoped_folded hn.2 h.2⟩

/-- Folded statements mention only variables in scope. -/
theorem Stmt.allScoped_folded : ∀ (ss : List Stmt) {f : Nat} {live : List Nat},
    Stmt.AllNoted owner f ss → Stmt.AllScoped F g live ss →
    Stmt.AllScoped F g live (Stmt.foldedAll ss)
  | [], _, _, _, _ => trivial
  | s :: ss, _, _, hn, h => by
      refine ⟨s.scoped_folded hn.1 h.1, ?_⟩
      rw [s.declared_folded]
      exact Stmt.allScoped_folded ss hn.2 h.2

/-- Folding keeps scopes. -/
theorem Block.scoped_folded : ∀ (b : Block) {f : Nat} {live : List Nat}, b.Noted owner f →
    b.Scoped F g live → b.folded.Scoped F g live
  | .mk _ ss none, _, _, hn, h => Stmt.allScoped_folded ss hn.2 h
  | .mk _ ss (some e), _, _, hn, h => by
      refine ⟨Stmt.allScoped_folded ss hn.2.1 h.1, ?_⟩
      rw [Stmt.liveAfter_foldedAll]
      exact e.scoped_folded hn.2.2 h.2

end

/-! ### Results -/

variable {x : Activation}

mutual

/-- **Expressions.** A folded expression has every result of the expression: values, faults and what
was printed before. -/
theorem Expr.folded_carries : ∀ (e : Expr) {f : Nat} {live : List Nat},
    e.Noted owner f → e.Scoped F g live → Carries (expr x e) (expr x e.folded)
  | .lit _ _, _, _, _, _ | .ident _ _, _, _, _, _ | .lambda _ _ _, _, _, _, _ => .refl _
  | .unary n op e, f, live, hn, h => by
      have hn' : (Expr.unary n op e.folded).Noted owner f := (e.noted_folded hn).1
      refine Carries.trans ?_ ((Fold.reduces_reduce _).carries hn' _)
      rw [expr, expr]
      exact (e.folded_carries hn h).bind fun _ => .refl _
  | .cast n e target, f, live, hn, h => by
      have hn' : (Expr.cast n e.folded target).Noted owner f := (e.noted_folded hn).1
      refine Carries.trans ?_ ((Fold.reduces_reduce _).carries hn' _)
      rw [expr, expr]
      exact (e.folded_carries hn h).bind fun _ => .refl _
  | .binary n op a b, f, live, hn, h => by
      refine Carries.trans ?_ ((Fold.reduces_reduce _).carries (Expr.noted_binary_folded hn) _)
      rw [expr, expr]
      refine (a.folded_carries hn.2.1 h.1).bind fun v => ?_
      have hb := b.folded_carries hn.2.2 h.2
      split
      · exact hb.bind fun _ => .refl _
      · exact shortCircuit_carries hb
  | .index n a b, f, live, hn, h => by
      have hn' : (Expr.index n a.folded b.folded).Noted owner f :=
        ⟨(a.noted_folded hn.1).1, (b.noted_folded hn.2).1⟩
      refine Carries.trans ?_ ((Fold.reduces_reduce _).carries hn' _)
      rw [expr, expr]
      exact (a.folded_carries hn.1 h.1).bind fun _ =>
        (b.folded_carries hn.2 h.2).bind fun _ => .refl _
  | .assign _ (.ident _ _) v, _, _, hn, h => by
      simp only [Expr.folded, expr]
      exact (v.folded_carries hn.2 h.1).bind fun _ => .refl _
  | .assign n (.index m (.ident t name) i) v, _, _, hn, h => by
      have hfold : (Expr.assign n (.index m (.ident t name) i) v).folded =
          .assign n (.index m (.ident t name) i.folded) v.folded := rfl
      rw [hfold, expr, expr]
      exact (Carries.refl _).bind fun _ => (i.folded_carries hn.1.2 h.1).bind fun _ =>
        (v.folded_carries hn.2 h.2.1).bind fun _ => .refl _
  | .call _ k args, _, _, hn, h => by
      rw [Expr.folded, expr, expr]
      exact (k.folded_carries hn.1 h.1).bind fun _ =>
        (Expr.foldedAll_carries args hn.2 h.2).bind fun _ => .refl _
  | .list _ items, _, _, hn, h => by
      rw [Expr.folded, expr, expr]
      exact (Expr.foldedAll_carries items hn h).bind fun _ => .refl _

/-- Folded expressions have every result of the expressions. -/
theorem Expr.foldedAll_carries : ∀ (es : List Expr) {f : Nat} {live : List Nat},
    Expr.AllNoted owner f es → Expr.AllScoped F g live es →
    Carries (exprs x es) (exprs x (Expr.foldedAll es))
  | [], _, _, _, _ => .refl _
  | e :: es, _, _, hn, h => by
      rw [Expr.foldedAll, exprs, exprs]
      exact (e.folded_carries hn.1 h.1).bind fun _ =>
        (Expr.foldedAll_carries es hn.2 h.2).bind fun _ => .refl _

end

mutual

/-- A folded statement has every result of the statement. The induction is on the tree; a loop stays
a loop, with a body that carries over. -/
theorem Stmt.folded_carries : ∀ (s : Stmt) {f : Nat} {live : List Nat},
    s.Noted owner f → s.Scoped F g live → Carries (stmt x s) (stmt x s.folded)
  | .block b, _, _, hn, h => by
      rw [Stmt.folded, stmt, stmt]
      exact b.folded_carries hn h
  | .loop _ b, _, _, hn, h => by
      rw [Stmt.folded, stmt, stmt]
      exact iterate_carries (b.folded_carries hn h) _
  | .letVar _ _ _ e, _, _, hn, h => by
      rw [Stmt.folded, stmt, stmt]
      exact (e.folded_carries hn h.1).bind fun _ => .refl _
  | .expr _ e, _, _, hn, h | .ret _ (some e), _, _, hn, h => by
      rw [Stmt.folded, stmt, stmt]
      exact (e.folded_carries hn h).bind fun _ => .refl _
  | .fnDecl _ _ _ _, _, _, _, _ | .ret _ none, _, _, _, _ | .breakLoop _, _, _, _, _
  | .continueLoop _, _, _, _, _ => .refl _
  | .cond _ test yes none, _, _, hn, h => by
      rw [Stmt.folded, stmt, stmt]
      exact (test.folded_carries hn.1 h.1).bind fun _ => (Carries.refl _).bind fun _ =>
        carries_ite (yes.folded_carries hn.2 h.2) (.refl _)
  | .cond _ test yes (some no), _, _, hn, h => by
      rw [Stmt.folded, stmt, stmt]
      exact (test.folded_carries hn.1 h.1).bind fun _ => (Carries.refl _).bind fun _ =>
        carries_ite (yes.folded_carries hn.2.1 h.2.1) (no.folded_carries hn.2.2.2 h.2.2)
  | .whileLoop _ test b, _, _, hn, h => by
      rw [Stmt.folded, stmt, stmt]
      exact iterate_carries ((test.folded_carries hn.1 h.1).bind fun _ =>
        (Carries.refl _).bind fun _ => carries_ite (b.folded_carries hn.2 h.2) (.refl _)) _

/-- Folded statements have every result of the statements. -/
theorem Stmt.foldedAll_carries : ∀ (ss : List Stmt) {f : Nat} {live : List Nat},
    Stmt.AllNoted owner f ss → Stmt.AllScoped F g live ss →
    Carries (stmts x ss) (stmts x (Stmt.foldedAll ss))
  | [], _, _, _, _ => .refl _
  | s :: ss, _, _, hn, h => by
      rw [Stmt.foldedAll, stmts, stmts]
      exact (s.folded_carries hn.1 h.1).bind fun signal =>
        signal.next_carries (Stmt.foldedAll_carries ss hn.2 h.2)

/-- A folded block has every result of the block. -/
theorem Block.folded_carries : ∀ (b : Block) {f : Nat} {live : List Nat},
    b.Noted owner f → b.Scoped F g live → Carries (block x b) (block x b.folded)
  | .mk _ ss none, _, _, hn, h => by
      rw [Block.folded, block, block]
      exact Stmt.foldedAll_carries ss hn.2 h
  | .mk _ ss (some e), _, _, hn, h => by
      rw [Block.folded, block, block]
      exact (Stmt.foldedAll_carries ss hn.2.1 h.1).bind fun signal =>
        signal.next_carries ((e.folded_carries hn.2.2 h.2).bind fun _ => .refl _)

end

/-- **Bodies.** The results of a body carry over to the folded one. -/
theorem Block.bodyCarries_folded {b : Block} {f : Nat} {live : List Nat} (hn : b.Noted owner f)
    (hs : b.Scoped F g live) : BodyCarries b b.folded := by
  intro x
  obtain ⟨n, ss, tail⟩ := b
  cases tail with
  | none =>
      refine (Stmt.foldedAll_carries ss hn.2 hs).bind fun signal => ?_
      cases signal <;> exact .refl _
  | some e =>
      refine (Stmt.foldedAll_carries ss hn.2.1 hs.1).bind fun signal => ?_
      cases signal with
      | normal => exact e.folded_carries hn.2.2 hs.2
      | _ => exact .refl _

end

end

/-! ### What a fold drops -/

/-- A function with its body folded. -/
def FunctionBody.folded (p : FunctionBody) : FunctionBody :=
  (p.1, p.2.folded)

namespace Fold

section

variable {α β : Type} {a : α} {b : β} {d d' before before' after after' : List FunctionBody}

/-- A folding that always gives `a` and drops the functions `d`. -/
def Runs (m : Folding α) (a : α) (d : List FunctionBody) : Prop :=
  ∀ log, ∃ k, m.run log = (a, { count := log.count + k, dropped := log.dropped ++ d })

/-- A result that is there already drops no function. -/
theorem Runs.pure (a : α) : Runs (Pure.pure a) a [] := by
  intro log
  refine ⟨0, ?_⟩
  rw [List.append_nil]
  rfl

/-- Of two foldings in a row the functions dropped by both are dropped. -/
theorem Runs.bind {m : Folding α} {f : α → Folding β} (h : Runs m a d) (hf : Runs (f a) b d') :
    Runs (m >>= f) b (d ++ d') := by
  intro log
  obtain ⟨k, hk⟩ := h log
  obtain ⟨k', hk'⟩ := hf { count := log.count + k, dropped := log.dropped ++ d }
  refine ⟨k + k', ?_⟩
  rw [StateT.run_bind, hk]
  refine hk'.trans ?_
  rw [Nat.add_assoc, List.append_assoc]

/-- What is done to the result of a folding drops no function. -/
theorem Runs.map {m : Folding α} (h : Runs m a d) (f : α → β) :
    Runs (m >>= fun a => Pure.pure (f a)) (f a) d := by
  have hbind : Runs (m >>= fun a => Pure.pure (f a)) (f a) (d ++ []) := h.bind (.pure _)
  rwa [List.append_nil] at hbind

/-- Folding a node gives its reduction, and drops the functions that the reduction leaves out. -/
theorem runs_node (e : Expr) : Runs (node e) (reduce e) (droppedBy e (reduce e)) := by
  unfold node reduce
  cases h : node? e with
  | none =>
      rw [Option.getD_none, droppedBy_self]
      exact .pure e
  | some e' => exact fun log => ⟨1, rfl⟩

/-- All functions are folded, and they are kept or dropped. -/
def Keeps (before after dropped : List FunctionBody) : Prop :=
  (after : Multiset FunctionBody) + (dropped.flatMap FunctionBody.all : List FunctionBody) =
    (before : Multiset FunctionBody).map FunctionBody.folded

/-- Functions in a row are kept or dropped part by part. -/
theorem Keeps.append (h : Keeps before after d) (h' : Keeps before' after' d') :
    Keeps (before ++ before') (after ++ after') (d ++ d') := by
  unfold Keeps at h h' ⊢
  rw [← Multiset.coe_add, ← Multiset.coe_add, List.flatMap_append, ← Multiset.coe_add,
    Multiset.map_add, ← h, ← h']
  abel

/-- A function and those inside it. -/
theorem Keeps.made {b : Block} (made : Option Nat)
    (h : Keeps (b.functions true) (b.folded.functions true) d) :
    Keeps ((made.map fun f => (f, b)).toList ++ if true then b.functions true else [])
      ((made.map fun f => (f, b.folded)).toList ++ if true then b.folded.functions true else []) d := by
  have hself : Keeps (made.map fun f => (f, b)).toList (made.map fun f => (f, b.folded)).toList [] := by
    cases made <;> rfl
  exact hself.append h

end

section

variable {owner : Nat → Nat}

/-- A folded expression, and what folding it drops. -/
theorem Keeps.reduce {before d : List FunctionBody} {e : Expr} {f : Nat} (hn : e.Noted owner f)
    (h : Keeps before (e.functions true) d) :
    Keeps before ((Fold.reduce e).functions true) (d ++ droppedBy e (Fold.reduce e)) := by
  unfold Keeps at h ⊢
  rw [← h, ← (reduces_reduce e).functions hn, List.flatMap_append, ← Multiset.coe_add]
  abel

mutual

/-- **Expressions.** Folding gives the folded expression, and its functions are those of the
expression less the dropped ones. -/
theorem runs_expr : ∀ (e : Expr) {f : Nat}, e.Noted owner f →
    ∃ d, Runs (expr e) e.folded d ∧ Keeps (e.functions true) (e.folded.functions true) d
  | .lit _ _, _, _ | .ident _ _, _, _ => ⟨[], .pure _, rfl⟩
  | .unary n op e, f, hn => by
      obtain ⟨d, hd, hk⟩ := runs_expr e hn
      have hn' : (Expr.unary n op e.folded).Noted owner f := (e.noted_folded hn).1
      exact ⟨_, hd.bind (runs_node _), Keeps.reduce hn' hk⟩
  | .cast n e target, f, hn => by
      obtain ⟨d, hd, hk⟩ := runs_expr e hn
      have hn' : (Expr.cast n e.folded target).Noted owner f := (e.noted_folded hn).1
      exact ⟨_, hd.bind (runs_node _), Keeps.reduce hn' hk⟩
  | .binary n op l r, f, hn => by
      obtain ⟨d, hd, hk⟩ := runs_expr l hn.2.1
      obtain ⟨d', hd', hk'⟩ := runs_expr r hn.2.2
      refine ⟨_, hd.bind (hd'.bind (runs_node _)), ?_⟩
      rw [← List.append_assoc]
      exact Keeps.reduce (Expr.noted_binary_folded hn) (hk.append hk')
  | .index n t i, f, hn => by
      obtain ⟨d, hd, hk⟩ := runs_expr t hn.1
      obtain ⟨d', hd', hk'⟩ := runs_expr i hn.2
      have hn' : (Expr.index n t.folded i.folded).Noted owner f :=
        ⟨(t.noted_folded hn.1).1, (i.noted_folded hn.2).1⟩
      refine ⟨_, hd.bind (hd'.bind (runs_node _)), ?_⟩
      rw [← List.append_assoc]
      exact Keeps.reduce hn' (hk.append hk')
  | .assign _ t v, _, hn => by
      obtain ⟨d, hd, hk⟩ := runs_expr t hn.1
      obtain ⟨d', hd', hk'⟩ := runs_expr v hn.2
      exact ⟨_, hd.bind (hd'.map _), hk.append hk'⟩
  | .call _ g args, _, hn => by
      obtain ⟨d, hd, hk⟩ := runs_expr g hn.1
      obtain ⟨d', hd', hk'⟩ := runs_exprs args hn.2
      exact ⟨_, hd.bind (hd'.map _), hk.append hk'⟩
  | .list _ items, _, hn => by
      obtain ⟨d, hd, hk⟩ := runs_exprs items hn
      exact ⟨_, hd.map _, hk⟩
  | .lambda n _ b, _, ⟨_, _, hb⟩ => by
      obtain ⟨d, hd, hk⟩ := runs_block b hb
      exact ⟨_, hd.map _, hk.made n.function⟩

/-- Folding expressions gives the folded ones, with their functions kept or dropped. -/
theorem runs_exprs : ∀ (es : List Expr) {f : Nat}, Expr.AllNoted owner f es →
    ∃ d, Runs (exprs es) (Expr.foldedAll es) d ∧
      Keeps (Expr.functionsOf true es) (Expr.functionsOf true (Expr.foldedAll es)) d
  | [], _, _ => ⟨[], .pure _, rfl⟩
  | e :: es, _, hn => by
      obtain ⟨d, hd, hk⟩ := runs_expr e hn.1
      obtain ⟨d', hd', hk'⟩ := runs_exprs es hn.2
      exact ⟨_, hd.bind (hd'.map _), hk.append hk'⟩

/-- Folding a statement gives the folded one, with its functions kept or dropped. A function is
dropped with an operand that folding has dropped. -/
theorem runs_stmt : ∀ (s : Stmt) {f : Nat}, s.Noted owner f →
    ∃ d, Runs (stmt s) s.folded d ∧ Keeps (s.functions true) (s.folded.functions true) d
  | .block b, _, hn | .loop _ b, _, hn => by
      obtain ⟨d, hd, hk⟩ := runs_block b hn
      exact ⟨_, hd.map _, hk⟩
  | .letVar _ _ _ e, _, hn | .expr _ e, _, hn | .ret _ (some e), _, hn => by
      obtain ⟨d, hd, hk⟩ := runs_expr e hn
      exact ⟨_, hd.map _, hk⟩
  | .fnDecl n _ _ b, _, ⟨_, _, hb⟩ => by
      obtain ⟨d, hd, hk⟩ := runs_block b hb
      exact ⟨_, hd.map _, hk.made n.function⟩
  | .ret _ none, _, _ | .breakLoop _, _, _ | .continueLoop _, _, _ => ⟨[], .pure _, rfl⟩
  | .cond _ test yes none, _, hn => by
      obtain ⟨d, hd, hk⟩ := runs_expr test hn.1
      obtain ⟨d', hd', hk'⟩ := runs_block yes hn.2
      exact ⟨_, hd.bind (hd'.map _), hk.append hk'⟩
  | .cond _ test yes (some no), _, hn => by
      obtain ⟨d, hd, hk⟩ := runs_expr test hn.1
      obtain ⟨d', hd', hk'⟩ := runs_block yes hn.2.1
      obtain ⟨d'', hd'', hk''⟩ := runs_stmt no hn.2.2.2
      refine ⟨_, hd.bind (hd'.bind (hd''.map _)), ?_⟩
      rw [← List.append_assoc]
      exact (hk.append hk').append hk''
  | .whileLoop _ test b, _, hn => by
      obtain ⟨d, hd, hk⟩ := runs_expr test hn.1
      obtain ⟨d', hd', hk'⟩ := runs_block b hn.2
      exact ⟨_, hd.bind (hd'.map _), hk.append hk'⟩

/-- Folding statements gives the folded ones, with their functions kept or dropped. -/
theorem runs_stmts : ∀ (ss : List Stmt) {f : Nat}, Stmt.AllNoted owner f ss →
    ∃ d, Runs (stmts ss) (Stmt.foldedAll ss) d ∧
      Keeps (Stmt.functionsOf true ss) (Stmt.functionsOf true (Stmt.foldedAll ss)) d
  | [], _, _ => ⟨[], .pure _, rfl⟩
  | s :: ss, _, hn => by
      obtain ⟨d, hd, hk⟩ := runs_stmt s hn.1
      obtain ⟨d', hd', hk'⟩ := runs_stmts ss hn.2
      exact ⟨_, hd.bind (hd'.map _), hk.append hk'⟩

/-- **Folding.** A fold gives the folded block, and its functions are in it or were dropped. -/
theorem runs_block : ∀ (b : Block) {f : Nat}, b.Noted owner f →
    ∃ d, Runs (block b) b.folded d ∧ Keeps (b.functions true) (b.folded.functions true) d
  | .mk _ ss none, _, hn => by
      obtain ⟨d, hd, hk⟩ := runs_stmts ss hn.2
      exact ⟨_, hd.map _, hk⟩
  | .mk _ ss (some e), _, hn => by
      obtain ⟨d, hd, hk⟩ := runs_stmts ss hn.2.1
      obtain ⟨d', hd', hk'⟩ := runs_expr e hn.2.2
      exact ⟨_, hd.bind (hd'.map _), hk.append hk'⟩

end

end

end Fold

end Parlance
