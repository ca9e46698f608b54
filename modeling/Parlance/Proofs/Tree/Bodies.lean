import Mathlib.Algebra.Order.Group.Multiset
import Mathlib.Tactic.Abel
import Parlance.Proofs.Tree.Arena
import Parlance.Proofs.Tree.Noted

/-!
# Function bodies in trees

The body of a function is a block of the tree in which the function is made. What is true of the
whole tree is true of all blocks in it, and a change of one block changes the bodies around it.

## Main definitions

* `FunctionBody.all`: a function and the functions inside it.
* `Block.roots`: the expressions that the statements of a block evaluate.
* `Inside`: what a tree says about the blocks in it.

## Main results

* `Block.inside`: every block of a tree is inside it.
* `Block.functions_update`: the functions after a change of one block.
-/

namespace Parlance

/-- A function and the functions inside it. -/
def FunctionBody.all (p : FunctionBody) : List FunctionBody :=
  p :: p.2.functions true

/-! ### Roots -/

mutual

/-- The expressions that a statement evaluates, also in blocks inside it. -/
def Stmt.roots : Stmt → List Expr
  | .block b | .loop _ b => b.roots
  | .letVar _ _ _ e | .expr _ e | .ret _ (some e) => [e]
  | .fnDecl _ _ _ _ | .ret _ none | .breakLoop _ | .continueLoop _ => []
  | .cond _ test yes none => test :: yes.roots
  | .cond _ test yes (some no) => test :: (yes.roots ++ no.roots)
  | .whileLoop _ test b => test :: b.roots

def Stmt.rootsOf : List Stmt → List Expr
  | [] => []
  | s :: ss => s.roots ++ Stmt.rootsOf ss

/-- The expressions that the statements of a block evaluate, and its result. -/
def Block.roots : Block → List Expr
  | .mk _ ss none => Stmt.rootsOf ss
  | .mk _ ss (some e) => Stmt.rootsOf ss ++ [e]

end

/-- The expressions of statements in a row are those of both parts. -/
theorem Stmt.rootsOf_append (ss ts : List Stmt) :
    Stmt.rootsOf (ss ++ ts) = Stmt.rootsOf ss ++ Stmt.rootsOf ts := by
  induction ss with
  | nil => rfl
  | cons s ss ih => rw [List.cons_append, Stmt.rootsOf, Stmt.rootsOf, ih, List.append_assoc]

/-- The expressions of a block are those of its statements, and its result if it has one. -/
theorem Block.roots_mk (n : Note) (ss : List Stmt) (tail : Option Expr) :
    (Block.mk n ss tail).roots = Stmt.rootsOf ss ++ tail.toList := by
  cases tail with
  | none => exact (List.append_nil _).symm
  | some e => rfl

section

variable {owner : Nat → Nat}

/-! ### Nested functions -/

mutual

/-- All functions are those that are made outside of functions, and the functions inside those. The
induction is on the tree, through the statements of blocks. -/
theorem Expr.functions_nested : ∀ (e : Expr) {f : Nat}, e.Noted owner f →
    e.functions true = (e.functions false).flatMap FunctionBody.all
  | .lit _ _, _, _ | .ident _ _, _, _ => rfl
  | .unary _ _ e, _, h | .cast _ e _, _, h => by
      rw [Expr.functions, Expr.functions]
      exact e.functions_nested h
  | .binary _ _ a b, _, h => by
      rw [Expr.functions, Expr.functions, a.functions_nested h.2.1, b.functions_nested h.2.2,
        List.flatMap_append]
  | .assign _ a b, _, h | .index _ a b, _, h => by
      rw [Expr.functions, Expr.functions, a.functions_nested h.1, b.functions_nested h.2,
        List.flatMap_append]
  | .call _ f args, _, h => by
      rw [Expr.functions, Expr.functions, f.functions_nested h.1, Expr.functionsOf_nested args h.2,
        List.flatMap_append]
  | .list _ items, _, h => by
      rw [Expr.functions, Expr.functions]
      exact Expr.functionsOf_nested items h
  | .lambda n _ b, _, h => by
      obtain ⟨g, hg, -⟩ := h
      simp [Expr.functions, FunctionBody.all, hg]

/-- All functions in expressions are those right inside them, each with the functions inside it. -/
theorem Expr.functionsOf_nested : ∀ (es : List Expr) {f : Nat}, Expr.AllNoted owner f es →
    Expr.functionsOf true es = (Expr.functionsOf false es).flatMap FunctionBody.all
  | [], _, _ => rfl
  | e :: es, _, h => by
      rw [Expr.functionsOf, Expr.functionsOf, e.functions_nested h.1, Expr.functionsOf_nested es h.2,
        List.flatMap_append]

/-- All functions in a statement are those right inside it, each with the functions inside it. -/
theorem Stmt.functions_nested : ∀ (s : Stmt) {f : Nat}, s.Noted owner f →
    s.functions true = (s.functions false).flatMap FunctionBody.all
  | .block b, _, h | .loop _ b, _, h => by
      rw [Stmt.functions, Stmt.functions]
      exact b.functions_nested h
  | .letVar _ _ _ e, _, h | .expr _ e, _, h | .ret _ (some e), _, h => by
      rw [Stmt.functions, Stmt.functions]
      exact e.functions_nested h
  | .fnDecl n _ _ b, _, h => by
      obtain ⟨g, hg, -⟩ := h
      simp [Stmt.functions, FunctionBody.all, hg]
  | .ret _ none, _, _ | .breakLoop _, _, _ | .continueLoop _, _, _ => rfl
  | .cond _ test yes none, _, h => by
      rw [Stmt.functions, Stmt.functions, test.functions_nested h.1, yes.functions_nested h.2,
        List.flatMap_append]
  | .cond _ test yes (some no), _, h => by
      rw [Stmt.functions, Stmt.functions, test.functions_nested h.1, yes.functions_nested h.2.1,
        no.functions_nested h.2.2.2, List.flatMap_append, List.flatMap_append]
  | .whileLoop _ test b, _, h => by
      rw [Stmt.functions, Stmt.functions, test.functions_nested h.1, b.functions_nested h.2,
        List.flatMap_append]

/-- All functions in statements are those right inside them, each with the functions inside it. -/
theorem Stmt.functionsOf_nested : ∀ (ss : List Stmt) {f : Nat}, Stmt.AllNoted owner f ss →
    Stmt.functionsOf true ss = (Stmt.functionsOf false ss).flatMap FunctionBody.all
  | [], _, _ => rfl
  | s :: ss, _, h => by
      rw [Stmt.functionsOf, Stmt.functionsOf, s.functions_nested h.1, Stmt.functionsOf_nested ss h.2,
        List.flatMap_append]

/-- All functions in a block are those right inside it, each with the functions inside it. -/
theorem Block.functions_nested : ∀ (b : Block) {f : Nat}, b.Noted owner f →
    b.functions true = (b.functions false).flatMap FunctionBody.all
  | .mk _ ss none, _, h => by
      rw [Block.functions, Block.functions]
      exact Stmt.functionsOf_nested ss h.2
  | .mk _ ss (some e), _, h => by
      rw [Block.functions, Block.functions, Stmt.functionsOf_nested ss h.2.1,
        e.functions_nested h.2.2, List.flatMap_append]

end

/-! ### Blocks inside trees -/

/-- A block is one of the blocks that it lists. -/
theorem Block.mem_blocks_self (f : Nat) (b : Block) : (b, f) ∈ b.blocks f := by
  obtain ⟨n, ss, tail⟩ := b
  cases tail <;> exact List.mem_cons_self

mutual

/-- The body of a function is a block of the tree. -/
theorem Expr.mem_blocks : ∀ (e : Expr) {f : Nat} {p : FunctionBody}, p ∈ e.functions true →
    (p.2, p.1) ∈ e.blocks f
  | .lit _ _, _, _, h | .ident _ _, _, _, h => by cases h
  | .unary _ _ e, _, _, h | .cast _ e _, _, _, h => e.mem_blocks h
  | .binary _ _ a b, _, _, h | .assign _ a b, _, _, h | .index _ a b, _, _, h => by
      rcases List.mem_append.mp h with h | h
      · exact List.mem_append_left _ (a.mem_blocks h)
      · exact List.mem_append_right _ (b.mem_blocks h)
  | .call _ g args, _, _, h => by
      rcases List.mem_append.mp h with h | h
      · exact List.mem_append_left _ (g.mem_blocks h)
      · exact List.mem_append_right _ (Expr.mem_blocksOf args h)
  | .list _ items, _, _, h => Expr.mem_blocksOf items h
  | .lambda n _ b, f, p, h => by
      rw [Expr.functions, if_pos rfl] at h
      rw [Expr.blocks]
      rcases List.mem_append.mp h with h | h
      · obtain ⟨g, hg, rfl⟩ := Option.map_eq_some_iff.mp (Option.mem_toList.mp h)
        rw [hg]
        exact b.mem_blocks_self g
      · exact b.mem_blocks h

/-- The body of every function in expressions is one of their blocks, and belongs to this function.
-/
theorem Expr.mem_blocksOf : ∀ (es : List Expr) {f : Nat} {p : FunctionBody},
    p ∈ Expr.functionsOf true es → (p.2, p.1) ∈ Expr.blocksOf f es
  | [], _, _, h => by cases h
  | e :: es, _, _, h => by
      rcases List.mem_append.mp h with h | h
      · exact List.mem_append_left _ (e.mem_blocks h)
      · exact List.mem_append_right _ (Expr.mem_blocksOf es h)

/-- The body of every function in a statement is one of its blocks, and belongs to this function. -/
theorem Stmt.mem_blocks : ∀ (s : Stmt) {f : Nat} {p : FunctionBody}, p ∈ s.functions true →
    (p.2, p.1) ∈ s.blocks f
  | .block b, _, _, h | .loop _ b, _, _, h => b.mem_blocks h
  | .letVar _ _ _ e, _, _, h | .expr _ e, _, _, h | .ret _ (some e), _, _, h => e.mem_blocks h
  | .fnDecl n _ _ b, f, p, h => by
      rw [Stmt.functions, if_pos rfl] at h
      rw [Stmt.blocks]
      rcases List.mem_append.mp h with h | h
      · obtain ⟨g, hg, rfl⟩ := Option.map_eq_some_iff.mp (Option.mem_toList.mp h)
        rw [hg]
        exact b.mem_blocks_self g
      · exact b.mem_blocks h
  | .ret _ none, _, _, h | .breakLoop _, _, _, h | .continueLoop _, _, _, h => by cases h
  | .cond _ test yes none, _, _, h => by
      rcases List.mem_append.mp h with h | h
      · exact List.mem_append_left _ (test.mem_blocks h)
      · exact List.mem_append_right _ (yes.mem_blocks h)
  | .cond _ test yes (some no), _, _, h => by
      rcases List.mem_append.mp h with h | h
      · rcases List.mem_append.mp h with h | h
        · exact List.mem_append_left _ (List.mem_append_left _ (test.mem_blocks h))
        · exact List.mem_append_left _ (List.mem_append_right _ (yes.mem_blocks h))
      · exact List.mem_append_right _ (no.mem_blocks h)
  | .whileLoop _ test b, _, _, h => by
      rcases List.mem_append.mp h with h | h
      · exact List.mem_append_left _ (test.mem_blocks h)
      · exact List.mem_append_right _ (b.mem_blocks h)

/-- The body of every function in statements is one of their blocks, and belongs to this function.
-/
theorem Stmt.mem_blocksOf : ∀ (ss : List Stmt) {f : Nat} {p : FunctionBody},
    p ∈ Stmt.functionsOf true ss → (p.2, p.1) ∈ Stmt.blocksOf f ss
  | [], _, _, h => by cases h
  | s :: ss, _, _, h => by
      rcases List.mem_append.mp h with h | h
      · exact List.mem_append_left _ (s.mem_blocks h)
      · exact List.mem_append_right _ (Stmt.mem_blocksOf ss h)

/-- The body of every function in a block is one of its blocks, and belongs to this function. -/
theorem Block.mem_blocks : ∀ (b : Block) {f : Nat} {p : FunctionBody}, p ∈ b.functions true →
    (p.2, p.1) ∈ b.blocks f
  | .mk _ ss none, _, _, h => List.mem_cons_of_mem _ (Stmt.mem_blocksOf ss h)
  | .mk _ ss (some e), _, _, h => by
      rcases List.mem_append.mp h with h | h
      · exact List.mem_cons_of_mem _ (List.mem_append_left _ (Stmt.mem_blocksOf ss h))
      · exact List.mem_cons_of_mem _ (List.mem_append_right _ (e.mem_blocks h))

end

/-- What a tree of a function, with these functions and labels in it, says about a block in it. -/
structure Inside (owner : Nat → Nat) (function : Nat) (functions : List FunctionBody)
    (labels : List Nat) (b : OwnedBlock) : Prop where
  noted : b.1.Noted owner b.2
  /-- The block stands in the body of the function to which it belongs. -/
  home : b.2 = function ∨ ∃ body, (b.2, body) ∈ functions ∧ b ∈ body.blocks b.2
  functions : (b.1.functions true).Sublist functions
  labels : ∀ x, b.1.labels.count x ≤ labels.count x

/-- A block inside a part of a tree is inside the whole tree. -/
theorem Inside.mono {f : Nat} {functions functions' : List FunctionBody} {labels labels' : List Nat}
    {b : OwnedBlock} (h : Inside owner f functions labels b) (hf : functions.Sublist functions')
    (hl : ∀ x, labels.count x ≤ labels'.count x) : Inside owner f functions' labels' b where
  noted := h.noted
  home := h.home.imp_right fun ⟨body, hmem, hb⟩ => ⟨body, hf.subset hmem, hb⟩
  functions := h.functions.trans hf
  labels x := Nat.le_trans (h.labels x) (hl x)

/-- A block in the body of a function that is made in the tree. -/
theorem Inside.of_body {f g : Nat} {body : Block} {functions : List FunctionBody} {labels : List Nat}
    {b : OwnedBlock} (h : Inside owner g (body.functions true) body.labels b)
    (hb : b ∈ body.blocks g) (hf : ((g, body) :: body.functions true).Sublist functions)
    (hl : ∀ x, body.labels.count x ≤ labels.count x) : Inside owner f functions labels b where
  noted := h.noted
  home := by
    right
    rcases h.home with hg | ⟨body', hmem, hb'⟩
    · rw [hg]
      exact ⟨body, hf.subset List.mem_cons_self, hb⟩
    · exact ⟨body', hf.subset (List.mem_cons_of_mem _ hmem), hb'⟩
  functions := h.functions.trans ((List.sublist_cons_self _ _).trans hf)
  labels x := Nat.le_trans (h.labels x) (hl x)

mutual

/-- A block inside an expression has some of its functions and labels, and belongs to a function
whose notes are right. -/
theorem Expr.inside : ∀ (e : Expr) {f : Nat} {b : OwnedBlock}, e.Noted owner f →
    b ∈ e.blocks f → Inside owner f (e.functions true) e.labels b
  | .lit _ _, _, _, _, h | .ident _ _, _, _, _, h => by cases h
  | .unary _ _ e, _, _, hn, h | .cast _ e _, _, _, hn, h =>
      (e.inside hn h).mono (List.Sublist.refl _) fun x => by
        rw [Expr.labels, List.count_append]
        omega
  | .binary _ _ a b, _, _, hn, h => by
      simp only [Expr.functions, Expr.labels]
      rcases List.mem_append.mp h with h | h
      · exact (a.inside hn.2.1 h).mono (List.sublist_append_left _ _) fun x => by
          simp only [List.count_append]
          omega
      · exact (b.inside hn.2.2 h).mono (List.sublist_append_right _ _) fun x => by
          simp only [List.count_append]
          omega
  | .assign _ a b, _, _, hn, h | .index _ a b, _, _, hn, h => by
      simp only [Expr.functions, Expr.labels]
      rcases List.mem_append.mp h with h | h
      · exact (a.inside hn.1 h).mono (List.sublist_append_left _ _) fun x => by
          simp only [List.count_append]
          omega
      · exact (b.inside hn.2 h).mono (List.sublist_append_right _ _) fun x => by
          simp only [List.count_append]
          omega
  | .call _ g args, _, _, hn, h => by
      simp only [Expr.functions, Expr.labels]
      rcases List.mem_append.mp h with h | h
      · exact (g.inside hn.1 h).mono (List.sublist_append_left _ _) fun x => by
          simp only [List.count_append]
          omega
      · exact (Expr.insideOf args hn.2 h).mono (List.sublist_append_right _ _) fun x => by
          simp only [List.count_append]
          omega
  | .list _ items, _, _, hn, h =>
      (Expr.insideOf items hn h).mono (List.Sublist.refl _) fun x => by
        rw [Expr.labels, List.count_append]
        omega
  | .lambda n _ b, f, p, hn, h => by
      obtain ⟨g, hg, hb⟩ := hn
      rw [Expr.blocks, hg, Option.getD_some] at h
      refine (b.inside hb h).of_body h ?_ fun x => by
        simp only [Expr.labels, List.count_append]
        omega
      simp [Expr.functions, hg]

/-- A block inside expressions has some of their functions and labels. -/
theorem Expr.insideOf : ∀ (es : List Expr) {f : Nat} {b : OwnedBlock}, Expr.AllNoted owner f es →
    b ∈ Expr.blocksOf f es → Inside owner f (Expr.functionsOf true es) (Expr.labelsOf es) b
  | [], _, _, _, h => by cases h
  | e :: es, _, _, hn, h => by
      simp only [Expr.functionsOf, Expr.labelsOf]
      rcases List.mem_append.mp h with h | h
      · exact (e.inside hn.1 h).mono (List.sublist_append_left _ _) fun x => by
          simp only [List.count_append]
          omega
      · exact (Expr.insideOf es hn.2 h).mono (List.sublist_append_right _ _) fun x => by
          simp only [List.count_append]
          omega

/-- A block inside a statement has some of its functions and labels. A block in the body of a
function belongs to that function, and so do the functions in it. -/
theorem Stmt.inside : ∀ (s : Stmt) {f : Nat} {b : OwnedBlock}, s.Noted owner f →
    b ∈ s.blocks f → Inside owner f (s.functions true) s.labels b
  | .block b, _, _, hn, h => b.inside hn h
  | .loop _ b, _, _, hn, h =>
      (b.inside hn h).mono (List.Sublist.refl _) fun x => by
        rw [Stmt.labels, List.count_append]
        omega
  | .letVar _ _ _ e, _, _, hn, h | .expr _ e, _, _, hn, h | .ret _ (some e), _, _, hn, h =>
      (e.inside hn h).mono (List.Sublist.refl _) fun x => by
        rw [Stmt.labels, List.count_append]
        omega
  | .fnDecl n _ _ b, f, p, hn, h => by
      obtain ⟨g, hg, hb⟩ := hn
      rw [Stmt.blocks, hg, Option.getD_some] at h
      refine (b.inside hb h).of_body h ?_ fun x => by
        simp only [Stmt.labels, List.count_append]
        omega
      simp [Stmt.functions, hg]
  | .ret _ none, _, _, _, h | .breakLoop _, _, _, _, h | .continueLoop _, _, _, _, h => by cases h
  | .cond _ test yes none, _, _, hn, h => by
      simp only [Stmt.functions, Stmt.labels]
      rcases List.mem_append.mp h with h | h
      · exact (test.inside hn.1 h).mono (List.sublist_append_left _ _) fun x => by
          simp only [List.count_append]
          omega
      · exact (yes.inside hn.2 h).mono (List.sublist_append_right _ _) fun x => by
          simp only [List.count_append]
          omega
  | .cond _ test yes (some no), _, _, hn, h => by
      simp only [Stmt.functions, Stmt.labels]
      rcases List.mem_append.mp h with h | h
      · rcases List.mem_append.mp h with h | h
        · exact (test.inside hn.1 h).mono
            ((List.sublist_append_left _ _).trans (List.sublist_append_left _ _)) fun x => by
            simp only [List.count_append]
            omega
        · exact (yes.inside hn.2.1 h).mono
            ((List.sublist_append_right _ _).trans (List.sublist_append_left _ _)) fun x => by
            simp only [List.count_append]
            omega
      · exact (no.inside hn.2.2.2 h).mono (List.sublist_append_right _ _) fun x => by
          simp only [List.count_append]
          omega
  | .whileLoop _ test b, _, _, hn, h => by
      simp only [Stmt.functions, Stmt.labels]
      rcases List.mem_append.mp h with h | h
      · exact (test.inside hn.1 h).mono (List.sublist_append_left _ _) fun x => by
          simp only [List.count_append]
          omega
      · exact (b.inside hn.2 h).mono (List.sublist_append_right _ _) fun x => by
          simp only [List.count_append]
          omega

/-- A block inside statements has some of their functions and labels. -/
theorem Stmt.insideOf : ∀ (ss : List Stmt) {f : Nat} {b : OwnedBlock}, Stmt.AllNoted owner f ss →
    b ∈ Stmt.blocksOf f ss → Inside owner f (Stmt.functionsOf true ss) (Stmt.labelsOf ss) b
  | [], _, _, _, h => by cases h
  | s :: ss, _, _, hn, h => by
      simp only [Stmt.functionsOf, Stmt.labelsOf]
      rcases List.mem_append.mp h with h | h
      · exact (s.inside hn.1 h).mono (List.sublist_append_left _ _) fun x => by
          simp only [List.count_append]
          omega
      · exact (Stmt.insideOf ss hn.2 h).mono (List.sublist_append_right _ _) fun x => by
          simp only [List.count_append]
          omega

/-- **Blocks inside a tree.** -/
theorem Block.inside : ∀ (b : Block) {f : Nat} {p : OwnedBlock}, b.Noted owner f →
    p ∈ b.blocks f → Inside owner f (b.functions true) b.labels p
  | .mk n ss none, _, _, hn, h => by
      rcases List.mem_cons.mp h with rfl | h
      · exact ⟨hn, .inl rfl, List.Sublist.refl _, fun _ => Nat.le_refl _⟩
      · exact (Stmt.insideOf ss hn.2 h).mono (List.Sublist.refl _) fun x => by
          rw [Block.labels, List.count_append]
          omega
  | .mk n ss (some e), _, _, hn, h => by
      rcases List.mem_cons.mp h with rfl | h
      · exact ⟨hn, .inl rfl, List.Sublist.refl _, fun _ => Nat.le_refl _⟩
      · simp only [Block.functions, Block.labels]
        rcases List.mem_append.mp h with h | h
        · exact (Stmt.insideOf ss hn.2.1 h).mono (List.sublist_append_left _ _) fun x => by
            simp only [List.count_append]
            omega
        · exact (e.inside hn.2.2 h).mono (List.sublist_append_right _ _) fun x => by
            simp only [List.count_append]
            omega

end

mutual

/-- The blocks in an expression belong to functions that are made in it. -/
theorem Expr.mem_functions_of_block : ∀ (e : Expr) {f : Nat} {b : OwnedBlock}, e.Noted owner f →
    b ∈ e.blocks f → b.2 ∈ (e.functions true).map Prod.fst
  | .lit _ _, _, _, _, h | .ident _ _, _, _, _, h => by cases h
  | .unary _ _ e, _, _, hn, h | .cast _ e _, _, _, hn, h => e.mem_functions_of_block hn h
  | .binary _ _ a b, _, _, hn, h => by
      rw [Expr.functions, List.map_append, List.mem_append]
      exact (List.mem_append.mp h).imp (a.mem_functions_of_block hn.2.1)
        (b.mem_functions_of_block hn.2.2)
  | .assign _ a b, _, _, hn, h | .index _ a b, _, _, hn, h => by
      rw [Expr.functions, List.map_append, List.mem_append]
      exact (List.mem_append.mp h).imp (a.mem_functions_of_block hn.1)
        (b.mem_functions_of_block hn.2)
  | .call _ g args, _, _, hn, h => by
      rw [Expr.functions, List.map_append, List.mem_append]
      exact (List.mem_append.mp h).imp (g.mem_functions_of_block hn.1)
        (Expr.mem_functionsOf_of_block args hn.2)
  | .list _ items, _, _, hn, h => Expr.mem_functionsOf_of_block items hn h
  | .lambda n _ b, _, p, hn, h => by
      obtain ⟨g, hg, hb⟩ := hn
      rw [Expr.blocks, hg, Option.getD_some] at h
      rw [Expr.functions, hg]
      rcases (b.inside hb h).home with hp | ⟨body, hbody, -⟩
      · rw [hp]
        exact List.mem_cons_self
      · exact List.mem_cons_of_mem _ (List.mem_map_of_mem hbody)

/-- A block inside expressions belongs to a function there: without a lambda there is no block in an
expression. -/
theorem Expr.mem_functionsOf_of_block : ∀ (es : List Expr) {f : Nat} {b : OwnedBlock},
    Expr.AllNoted owner f es → b ∈ Expr.blocksOf f es → b.2 ∈ (Expr.functionsOf true es).map Prod.fst
  | [], _, _, _, h => by cases h
  | e :: es, _, _, hn, h => by
      rw [Expr.functionsOf, List.map_append, List.mem_append]
      exact (List.mem_append.mp h).imp (e.mem_functions_of_block hn.1)
        (Expr.mem_functionsOf_of_block es hn.2)

end

end

/-! ### Changes -/

section

variable {label : Nat} {change : Block → Block}

mutual

/-- A change of a block that is not there changes nothing. -/
theorem Expr.update_of_not_mem : ∀ (e : Expr) {f : Nat}, label ∉ blockIds (e.blocks f) →
    e.update label change = e
  | .lit _ _, _, _ | .ident _ _, _, _ => rfl
  | .unary _ _ e, _, h | .cast _ e _, _, h => by rw [Expr.update, e.update_of_not_mem h]
  | .binary _ _ a b, _, h | .assign _ a b, _, h | .index _ a b, _, h => by
      rw [Expr.blocks, blockIds_append, List.mem_append, not_or] at h
      rw [Expr.update, a.update_of_not_mem h.1, b.update_of_not_mem h.2]
  | .call _ g args, _, h => by
      rw [Expr.blocks, blockIds_append, List.mem_append, not_or] at h
      rw [Expr.update, g.update_of_not_mem h.1, Expr.updateAll_of_not_mem args h.2]
  | .list _ items, _, h => by rw [Expr.update, Expr.updateAll_of_not_mem items h]
  | .lambda _ _ b, _, h => by rw [Expr.update, b.update_of_not_mem h]

/-- Where no block has the label nothing changes. -/
theorem Expr.updateAll_of_not_mem : ∀ (es : List Expr) {f : Nat},
    label ∉ blockIds (Expr.blocksOf f es) → Expr.updateAll label change es = es
  | [], _, _ => rfl
  | e :: es, _, h => by
      rw [Expr.blocksOf, blockIds_append, List.mem_append, not_or] at h
      rw [Expr.updateAll, e.update_of_not_mem h.1, Expr.updateAll_of_not_mem es h.2]

/-- A statement without the block with the label stays as it is. -/
theorem Stmt.update_of_not_mem : ∀ (s : Stmt) {f : Nat}, label ∉ blockIds (s.blocks f) →
    s.update label change = s
  | .block b, _, h | .loop _ b, _, h | .fnDecl _ _ _ b, _, h => by
      rw [Stmt.update, b.update_of_not_mem h]
  | .letVar _ _ _ e, _, h | .expr _ e, _, h | .ret _ (some e), _, h => by
      rw [Stmt.update, e.update_of_not_mem h]
  | .ret _ none, _, _ | .breakLoop _, _, _ | .continueLoop _, _, _ => rfl
  | .cond _ test yes none, _, h => by
      rw [Stmt.blocks, blockIds_append, List.mem_append, not_or] at h
      rw [Stmt.update, test.update_of_not_mem h.1, yes.update_of_not_mem h.2]
  | .cond _ test yes (some no), _, h => by
      rw [Stmt.blocks, blockIds_append, blockIds_append, List.mem_append, List.mem_append, not_or,
        not_or] at h
      rw [Stmt.update, test.update_of_not_mem h.1.1, yes.update_of_not_mem h.1.2,
        no.update_of_not_mem h.2]
  | .whileLoop _ test b, _, h => by
      rw [Stmt.blocks, blockIds_append, List.mem_append, not_or] at h
      rw [Stmt.update, test.update_of_not_mem h.1, b.update_of_not_mem h.2]

/-- Statements without the block with the label stay as they are. -/
theorem Stmt.updateAll_of_not_mem : ∀ (ss : List Stmt) {f : Nat},
    label ∉ blockIds (Stmt.blocksOf f ss) → Stmt.updateAll label change ss = ss
  | [], _, _ => rfl
  | s :: ss, _, h => by
      rw [Stmt.blocksOf, blockIds_append, List.mem_append, not_or] at h
      rw [Stmt.updateAll, s.update_of_not_mem h.1, Stmt.updateAll_of_not_mem ss h.2]

/-- A block that neither has the label nor has a block with it inside stays as it is. -/
theorem Block.update_of_not_mem : ∀ (b : Block) {f : Nat}, label ∉ blockIds (b.blocks f) →
    b.update label change = b
  | .mk n ss none, _, h => by
      rw [Block.blocks, blockIds, List.map_cons, List.mem_cons, not_or] at h
      have hn : n.id ≠ label := Ne.symm h.1
      rw [Block.update, if_neg hn, Stmt.updateAll_of_not_mem ss h.2]
  | .mk n ss (some e), _, h => by
      rw [Block.blocks, blockIds, List.map_cons, List.mem_cons, not_or] at h
      have hn : n.id ≠ label := Ne.symm h.1
      have h := h.2
      change label ∉ blockIds _ at h
      rw [blockIds_append, List.mem_append, not_or] at h
      rw [Block.update, if_neg hn, Stmt.updateAll_of_not_mem ss h.1,
        e.update_of_not_mem h.2]

end

end

section

variable (label : Nat) (new : Block)

/-- A function with a block in the place of the block with a label. -/
def FunctionBody.put (p : FunctionBody) : FunctionBody :=
  (p.1, p.2.update label fun _ => new)

/-- The functions of the block with the label are those of the new block and some more. -/
def Trades (lost : Multiset FunctionBody) (blocks : List OwnedBlock) : Prop :=
  ∀ b ∈ blocks, b.1.note.id = label →
    (blockIds (b.1.blocks b.2)).count label = 1 ∧
      (new.functions true : Multiset FunctionBody) + lost =
        (b.1.functions true : Multiset FunctionBody).map (FunctionBody.put label new)

variable {label new} {lost : Multiset FunctionBody}

/-- Where blocks in a row are replaced, the same functions are lost in both parts. -/
theorem trades_append {as bs : List OwnedBlock} :
    Trades label new lost (as ++ bs) ↔ Trades label new lost as ∧ Trades label new lost bs :=
  List.forall_mem_append

/-- A function whose body is changed, and the functions inside it. -/
theorem functions_made (made : Option Nat) {b : Block} {more : Multiset FunctionBody}
    (h : ((b.update label fun _ => new).functions true : Multiset FunctionBody) + more =
      (b.functions true : Multiset FunctionBody).map (FunctionBody.put label new)) :
    (((made.map fun f => (f, b.update label fun _ => new)).toList ++
        if true then (b.update label fun _ => new).functions true else [] : List FunctionBody) :
          Multiset FunctionBody) + more =
      (((made.map fun f => (f, b)).toList ++ if true then b.functions true else [] :
        List FunctionBody) : Multiset FunctionBody).map (FunctionBody.put label new) := by
  rw [if_pos rfl, if_pos rfl, ← Multiset.coe_add, ← Multiset.coe_add, Multiset.map_add, ← h,
    add_assoc]
  cases made <;> rfl

mutual

/-- Replacing a block inside an expression loses the functions that the new block lacks, and the
function around it gets the new body. -/
theorem Expr.functions_update : ∀ (e : Expr) {f : Nat}, Trades label new lost (e.blocks f) →
    ((e.update label fun _ => new).functions true : Multiset FunctionBody) +
        (blockIds (e.blocks f)).count label • lost =
      (e.functions true : Multiset FunctionBody).map (FunctionBody.put label new)
  | .lit _ _, _, _ | .ident _ _, _, _ => by simp [Expr.update, Expr.functions, Expr.blocks, blockIds]
  | .unary _ _ e, _, h | .cast _ e _, _, h => e.functions_update h
  | .binary _ _ a b, _, h | .assign _ a b, _, h | .index _ a b, _, h => by
      rw [Expr.blocks, trades_append] at h
      simp only [Expr.update, Expr.functions, Expr.blocks, blockIds_append, List.count_append,
        ← Multiset.coe_add, Multiset.map_add, add_nsmul, ← a.functions_update h.1,
        ← b.functions_update h.2]
      abel
  | .call _ g args, _, h => by
      rw [Expr.blocks, trades_append] at h
      simp only [Expr.update, Expr.functions, Expr.blocks, blockIds_append, List.count_append,
        ← Multiset.coe_add, Multiset.map_add, add_nsmul, ← g.functions_update h.1,
        ← Expr.functionsOf_update args h.2]
      abel
  | .list _ items, _, h => Expr.functionsOf_update items h
  | .lambda n _ b, f, h => by
      rw [Expr.update, Expr.functions, Expr.functions]
      exact functions_made n.function (b.functions_update h)

/-- Replacing a block inside expressions loses the functions that the new block lacks. -/
theorem Expr.functionsOf_update : ∀ (es : List Expr) {f : Nat},
    Trades label new lost (Expr.blocksOf f es) →
    (Expr.functionsOf true (Expr.updateAll label (fun _ => new) es) : Multiset FunctionBody) +
        (blockIds (Expr.blocksOf f es)).count label • lost =
      (Expr.functionsOf true es : Multiset FunctionBody).map (FunctionBody.put label new)
  | [], _, _ => by simp [Expr.updateAll, Expr.functionsOf, Expr.blocksOf, blockIds]
  | e :: es, _, h => by
      rw [Expr.blocksOf, trades_append] at h
      simp only [Expr.updateAll, Expr.functionsOf, Expr.blocksOf, blockIds_append, List.count_append,
        ← Multiset.coe_add, Multiset.map_add, add_nsmul, ← e.functions_update h.1,
        ← Expr.functionsOf_update es h.2]
      abel

/-- Replacing a block inside a statement loses the functions that the new block lacks, once for each
block with this label. -/
theorem Stmt.functions_update : ∀ (s : Stmt) {f : Nat}, Trades label new lost (s.blocks f) →
    ((s.update label fun _ => new).functions true : Multiset FunctionBody) +
        (blockIds (s.blocks f)).count label • lost =
      (s.functions true : Multiset FunctionBody).map (FunctionBody.put label new)
  | .block b, _, h | .loop _ b, _, h => b.functions_update h
  | .letVar _ _ _ e, _, h | .expr _ e, _, h | .ret _ (some e), _, h => e.functions_update h
  | .fnDecl n _ _ b, f, h => by
      rw [Stmt.update, Stmt.functions, Stmt.functions]
      exact functions_made n.function (b.functions_update h)
  | .ret _ none, _, _ | .breakLoop _, _, _ | .continueLoop _, _, _ => by
      simp [Stmt.update, Stmt.functions, Stmt.blocks, blockIds]
  | .cond _ test yes none, _, h => by
      rw [Stmt.blocks, trades_append] at h
      simp only [Stmt.update, Stmt.functions, Stmt.blocks, blockIds_append, List.count_append,
        ← Multiset.coe_add, Multiset.map_add, add_nsmul, ← test.functions_update h.1,
        ← yes.functions_update h.2]
      abel
  | .cond _ test yes (some no), _, h => by
      rw [Stmt.blocks, trades_append, trades_append] at h
      simp only [Stmt.update, Stmt.functions, Stmt.blocks, blockIds_append, List.count_append,
        ← Multiset.coe_add, Multiset.map_add, add_nsmul, ← test.functions_update h.1.1,
        ← yes.functions_update h.1.2, ← no.functions_update h.2]
      abel
  | .whileLoop _ test b, _, h => by
      rw [Stmt.blocks, trades_append] at h
      simp only [Stmt.update, Stmt.functions, Stmt.blocks, blockIds_append, List.count_append,
        ← Multiset.coe_add, Multiset.map_add, add_nsmul, ← test.functions_update h.1,
        ← b.functions_update h.2]
      abel

/-- Replacing a block inside statements loses the functions that the new block lacks. -/
theorem Stmt.functionsOf_update : ∀ (ss : List Stmt) {f : Nat},
    Trades label new lost (Stmt.blocksOf f ss) →
    (Stmt.functionsOf true (Stmt.updateAll label (fun _ => new) ss) : Multiset FunctionBody) +
        (blockIds (Stmt.blocksOf f ss)).count label • lost =
      (Stmt.functionsOf true ss : Multiset FunctionBody).map (FunctionBody.put label new)
  | [], _, _ => by simp [Stmt.updateAll, Stmt.functionsOf, Stmt.blocksOf, blockIds]
  | s :: ss, _, h => by
      rw [Stmt.blocksOf, trades_append] at h
      simp only [Stmt.updateAll, Stmt.functionsOf, Stmt.blocksOf, blockIds_append, List.count_append,
        ← Multiset.coe_add, Multiset.map_add, add_nsmul, ← s.functions_update h.1,
        ← Stmt.functionsOf_update ss h.2]
      abel

/-- **Functions after a change.** Every function is there with the change in it, except those that
the new block has lost. Multisets count functions, so none can be there twice. -/
theorem Block.functions_update : ∀ (b : Block) {f : Nat}, Trades label new lost (b.blocks f) →
    ((b.update label fun _ => new).functions true : Multiset FunctionBody) +
        (blockIds (b.blocks f)).count label • lost =
      (b.functions true : Multiset FunctionBody).map (FunctionBody.put label new)
  | .mk n ss none, f, h => by
      have hself := h _ (Block.mem_blocks_self f (.mk n ss none))
      by_cases hn : n.id = label
      · rw [Block.update, if_pos hn, (hself hn).1, one_nsmul]
        exact (hself hn).2
      · have hss := Stmt.functionsOf_update ss fun b hb => h b (List.mem_cons_of_mem _ hb)
        have hcount : (blockIds ((Block.mk n ss none).blocks f)).count label =
            (blockIds (Stmt.blocksOf f ss)).count label := List.count_cons_of_ne hn
        rw [hcount, Block.update, if_neg hn]
        exact hss
  | .mk n ss (some e), f, h => by
      have hself := h _ (Block.mem_blocks_self f (.mk n ss (some e)))
      by_cases hn : n.id = label
      · rw [Block.update, if_pos hn, (hself hn).1, one_nsmul]
        exact (hself hn).2
      · have hparts := trades_append.mp fun b hb => h b (List.mem_cons_of_mem _ hb)
        have hcount : (blockIds ((Block.mk n ss (some e)).blocks f)).count label =
            (blockIds (Stmt.blocksOf f ss)).count label + (blockIds (e.blocks f)).count label := by
          rw [← List.count_append, ← blockIds_append]
          exact List.count_cons_of_ne hn
        rw [hcount, Block.update, if_neg hn]
        simp only [Block.functions, ← Multiset.coe_add, Multiset.map_add, add_nsmul,
          ← Stmt.functionsOf_update ss hparts.1, ← e.functions_update hparts.2]
        abel

end

end

end Parlance
