import Parlance.Proofs.BigStep.Programs
import Parlance.Proofs.Optimizer.Labels
import Parlance.Proofs.Tree.Bodies

/-!
# Replacing a block

A block in the place of another one, somewhere in the body of a function. The expressions around
it do not see the change, since the functions they make are made by number. The statements around
it do what they did if the new block does what the old one did, in any scope.

## Main definitions

* `Replaces`: a block that may stand in the place of another one.

## Main results

* `Block.scope_of_block`: the scope of a block in a body, and what it evaluates.
* `Block.update_replaces`: the change in a body.
-/

namespace Parlance

open BigStep BigStep.Eval

section

variable {label : Nat} {change : Block → Block} {owner : Nat → Nat}

/-! ### Expressions -/

/-- An expression keeps its note when a block inside it is replaced. -/
@[simp] theorem Expr.note_update (e : Expr) : (e.update label change).note = e.note := by
  cases e <;> rfl

/-- An expression remains a lambda, or none. -/
@[simp] theorem Expr.isLambda_update (e : Expr) : (e.update label change).isLambda = e.isLambda := by
  cases e <;> rfl

/-- A statement declares the same variables. -/
@[simp] theorem Stmt.declared_update (s : Stmt) : (s.update label change).declared = s.declared := by
  cases s with
  | ret n value => cases value <;> rfl
  | cond n test yes no => cases no <;> rfl
  | _ => rfl

mutual

/-- An expression does not see changes of blocks. -/
theorem Expr.expr_update (x : Activation) : ∀ e : Expr,
    expr x (e.update label change) = expr x e
  | .lit _ _ | .ident _ _ => rfl
  | .unary _ _ e | .cast _ e _ => by rw [Expr.update, expr, expr, e.expr_update x]
  | .binary _ _ a b => by rw [Expr.update, expr, expr, a.expr_update x, b.expr_update x]
  | .index _ a b => by rw [Expr.update, expr, expr, a.expr_update x, b.expr_update x]
  | .call _ f args => by
      rw [Expr.update, expr, expr, f.expr_update x, Expr.exprs_update x args]
  | .list _ items => by rw [Expr.update, expr, expr, Expr.exprs_update x items]
  | .lambda n _ b => by rw [Expr.update, expr, expr]
  | .assign _ (.index _ base i) v => by
      rw [Expr.update, Expr.update, expr, expr, base.note_update, i.expr_update x, v.expr_update x]
  | .assign _ (.lit _ _) v | .assign _ (.ident _ _) v | .assign _ (.unary _ _ _) v
  | .assign _ (.binary _ _ _ _) v | .assign _ (.assign _ _ _) v | .assign _ (.call _ _ _) v
  | .assign _ (.list _ _) v | .assign _ (.cast _ _ _) v | .assign _ (.lambda _ _ _) v => by
      simp only [Expr.update, expr, Expr.note, v.expr_update x]

/-- Expressions do the same with another block inside, because only lambdas have blocks and their
bodies run elsewhere. -/
theorem Expr.exprs_update (x : Activation) : ∀ es : List Expr,
    exprs x (Expr.updateAll label change es) = exprs x es
  | [] => rfl
  | e :: es => by rw [Expr.updateAll, exprs, exprs, e.expr_update x, Expr.exprs_update x es]

end

mutual

/-- An expression keeps its names in scope, for the same reason. -/
theorem Expr.scoped_update {F : Facts} {f : Nat} {live : List Nat} : ∀ e : Expr,
    e.Scoped F f live → (e.update label change).Scoped F f live
  | .lit _ _, _ => trivial
  | .ident _ _, h => h
  | .unary _ _ e, h | .cast _ e _, h => e.scoped_update h
  | .binary _ _ a b, h | .index _ a b, h => ⟨a.scoped_update h.1, b.scoped_update h.2⟩
  | .assign _ (.ident _ _) v, h => ⟨v.scoped_update h.1, h.2⟩
  | .assign _ (.index _ (.ident _ _) i) v, h =>
      ⟨i.scoped_update h.1, v.scoped_update h.2.1, h.2.2⟩
  | .call _ g args, h => ⟨g.scoped_update h.1, Expr.allScoped_update args h.2⟩
  | .list _ items, h => Expr.allScoped_update items h
  | .lambda _ _ _, h => h

/-- The same for lists of expressions. -/
theorem Expr.allScoped_update {F : Facts} {f : Nat} {live : List Nat} : ∀ es : List Expr,
    Expr.AllScoped F f live es → Expr.AllScoped F f live (Expr.updateAll label change es)
  | [], _ => trivial
  | e :: es, h => ⟨e.scoped_update h.1, Expr.allScoped_update es h.2⟩

end

/-! ### Notes -/

section

variable {new : Block}

mutual

/-- A block of the same function keeps the notes as they should be. -/
theorem Expr.noted_update (hnew : new.Noted owner (owner label)) : ∀ (e : Expr) {f : Nat}, e.Noted owner f →
    (e.update label fun _ => new).Noted owner f
  | .lit _ _, _, _ | .ident _ _, _, _ => trivial
  | .unary _ _ e, _, h | .cast _ e _, _, h => e.noted_update hnew h
  | .binary _ _ a b, _, h =>
      ⟨fun hop => ⟨(h.1 hop).1, b.isLambda_update.trans (h.1 hop).2⟩,
        a.noted_update hnew h.2.1, b.noted_update hnew h.2.2⟩
  | .assign _ a b, _, h | .index _ a b, _, h =>
      ⟨a.noted_update hnew h.1, b.noted_update hnew h.2⟩
  | .call _ g args, _, h => ⟨g.noted_update hnew h.1, Expr.allNoted_update hnew args h.2⟩
  | .list _ items, _, h => Expr.allNoted_update hnew items h
  | .lambda _ _ b, _, ⟨g, hg, hb⟩ => ⟨g, hg, b.noted_update hnew hb⟩

/-- Lists of expressions keep their notes in order if the new block is noted for the owner of the
label. -/
theorem Expr.allNoted_update (hnew : new.Noted owner (owner label)) : ∀ (es : List Expr) {f : Nat}, Expr.AllNoted owner f es →
    Expr.AllNoted owner f (Expr.updateAll label (fun _ => new) es)
  | [], _, _ => trivial
  | e :: es, _, h => ⟨e.noted_update hnew h.1, Expr.allNoted_update hnew es h.2⟩

/-- The same for statements. -/
theorem Stmt.noted_update (hnew : new.Noted owner (owner label)) : ∀ (s : Stmt) {f : Nat}, s.Noted owner f →
    (s.update label fun _ => new).Noted owner f
  | .block b, _, h | .loop _ b, _, h => b.noted_update hnew h
  | .letVar _ _ _ e, _, h | .expr _ e, _, h | .ret _ (some e), _, h => e.noted_update hnew h
  | .fnDecl _ _ _ b, _, ⟨g, hg, hb⟩ => ⟨g, hg, b.noted_update hnew hb⟩
  | .ret _ none, _, _ | .breakLoop _, _, _ | .continueLoop _, _, _ => trivial
  | .cond _ test yes none, _, h =>
      ⟨test.noted_update hnew h.1, yes.noted_update hnew h.2⟩
  | .cond _ test yes (some no), _, h =>
      ⟨test.noted_update hnew h.1, yes.noted_update hnew h.2.1,
        no.declared_update.trans h.2.2.1, no.noted_update hnew h.2.2.2⟩
  | .whileLoop _ test b, _, h =>
      ⟨test.noted_update hnew h.1, b.noted_update hnew h.2⟩

/-- The same for statements in a row. -/
theorem Stmt.allNoted_update (hnew : new.Noted owner (owner label)) : ∀ (ss : List Stmt) {f : Nat}, Stmt.AllNoted owner f ss →
    Stmt.AllNoted owner f (Stmt.updateAll label (fun _ => new) ss)
  | [], _, _ => trivial
  | s :: ss, _, h => ⟨s.noted_update hnew h.1, Stmt.allNoted_update hnew ss h.2⟩

/-- The same for blocks. -/
theorem Block.noted_update (hnew : new.Noted owner (owner label)) : ∀ (b : Block) {f : Nat}, b.Noted owner f →
    (b.update label fun _ => new).Noted owner f
  | .mk n ss none, f, h => by
      rw [Block.update]
      split
      · next hn =>
          rw [← h.1, hn]
          exact hnew
      · exact ⟨h.1, Stmt.allNoted_update hnew ss h.2⟩
  | .mk n ss (some e), f, h => by
      rw [Block.update]
      split
      · next hn =>
          rw [← h.1, hn]
          exact hnew
      · exact ⟨h.1, Stmt.allNoted_update hnew ss h.2.1, e.noted_update hnew h.2.2⟩

end

end

end

/-! ### Scopes of blocks -/

section

variable {F : Facts} {owner : Nat → Nat} {f : Nat}

mutual

/-- Every block that belongs to the function itself stands in some scope of it, and evaluates
expressions that the function evaluates. -/
theorem Stmt.scope_of_block : ∀ (s : Stmt) {live : List Nat} {c : OwnedBlock}, s.Noted owner f →
    F.Live f live → s.Scoped F f live → f ∉ (s.functions true).map Prod.fst → c ∈ s.blocks f →
    c.2 = f → (∃ live', F.Live f live' ∧ c.1.Scoped F f live') ∧ c.1.roots ⊆ s.roots
  | .block b, _, _, hn, hl, hs, hf, hc, hcf | .loop _ b, _, _, hn, hl, hs, hf, hc, hcf =>
      b.scope_of_block hn hl hs hf hc hcf
  | .letVar _ _ _ e, _, _, hn, _, _, hf, hc, hcf | .expr _ e, _, _, hn, _, _, hf, hc, hcf
  | .ret _ (some e), _, _, hn, _, _, hf, hc, hcf =>
      absurd (hcf ▸ e.mem_functions_of_block hn hc) hf
  | .fnDecl n _ _ b, _, c, ⟨g, hg, hb⟩, _, _, hf, hc, hcf => by
      rw [Stmt.blocks, hg, Option.getD_some] at hc
      rw [Stmt.functions, hg] at hf
      rcases (b.inside hb hc).home with hcg | ⟨body, hbody, -⟩
      · exact absurd (hcf.symm.trans hcg ▸ List.mem_cons_self) hf
      · exact absurd (hcf ▸ List.mem_cons_of_mem _ (List.mem_map_of_mem hbody)) hf
  | .ret _ none, _, _, _, _, _, _, hc, _ | .breakLoop _, _, _, _, _, _, _, hc, _
  | .continueLoop _, _, _, _, _, _, _, hc, _ => by cases hc
  | .cond _ test yes none, _, _, hn, hl, hs, hf, hc, hcf => by
      rw [Stmt.functions, List.map_append, List.mem_append, not_or] at hf
      rcases List.mem_append.mp hc with hc | hc
      · exact absurd (hcf ▸ test.mem_functions_of_block hn.1 hc) hf.1
      · exact (yes.scope_of_block hn.2 hl hs.2 hf.2 hc hcf).imp_right
          (List.subset_cons_of_subset _ ·)
  | .cond _ test yes (some no), _, _, hn, hl, hs, hf, hc, hcf => by
      rw [Stmt.functions, List.map_append, List.map_append, List.mem_append, List.mem_append, not_or,
        not_or] at hf
      rcases List.mem_append.mp hc with hc | hc
      · rcases List.mem_append.mp hc with hc | hc
        · exact absurd (hcf ▸ test.mem_functions_of_block hn.1 hc) hf.1.1
        · exact (yes.scope_of_block hn.2.1 hl hs.2.1 hf.1.2 hc hcf).imp_right fun h =>
            List.subset_cons_of_subset _ (List.subset_append_of_subset_left _ h)
      · exact (no.scope_of_block hn.2.2.2 hl hs.2.2 hf.2 hc hcf).imp_right fun h =>
          List.subset_cons_of_subset _ (List.subset_append_of_subset_right _ h)
  | .whileLoop _ test b, _, _, hn, hl, hs, hf, hc, hcf => by
      rw [Stmt.functions, List.map_append, List.mem_append, not_or] at hf
      rcases List.mem_append.mp hc with hc | hc
      · exact absurd (hcf ▸ test.mem_functions_of_block hn.1 hc) hf.1
      · exact (b.scope_of_block hn.2 hl hs.2 hf.2 hc hcf).imp_right
          (List.subset_cons_of_subset _ ·)

/-- The blocks among statements have live variables of their function in scope, and their functions
are among those of the statements. -/
theorem Stmt.scope_of_blockOf : ∀ (ss : List Stmt) {live : List Nat} {c : OwnedBlock},
    Stmt.AllNoted owner f ss → F.Live f live → Stmt.AllScoped F f live ss →
    f ∉ (Stmt.functionsOf true ss).map Prod.fst → c ∈ Stmt.blocksOf f ss → c.2 = f →
    (∃ live', F.Live f live' ∧ c.1.Scoped F f live') ∧ c.1.roots ⊆ Stmt.rootsOf ss
  | [], _, _, _, _, _, _, hc, _ => by cases hc
  | s :: ss, _, _, hn, hl, hs, hf, hc, hcf => by
      rw [Stmt.functionsOf, List.map_append, List.mem_append, not_or] at hf
      rcases List.mem_append.mp hc with hc | hc
      · exact (s.scope_of_block hn.1 hl hs.1 hf.1 hc hcf).imp_right
          (List.subset_append_of_subset_left _ ·)
      · exact (Stmt.scope_of_blockOf ss hn.2 (hs.1.live hl) hs.2 hf.2 hc hcf).imp_right
          (List.subset_append_of_subset_right _ ·)

/-- The same for the blocks of a block. -/
theorem Block.scope_of_block : ∀ (b : Block) {live : List Nat} {c : OwnedBlock}, b.Noted owner f →
    F.Live f live → b.Scoped F f live → f ∉ (b.functions true).map Prod.fst → c ∈ b.blocks f →
    c.2 = f → (∃ live', F.Live f live' ∧ c.1.Scoped F f live') ∧ c.1.roots ⊆ b.roots
  | .mk n ss none, live, _, hn, hl, hs, hf, hc, hcf => by
      rcases List.mem_cons.mp hc with rfl | hc
      · exact ⟨⟨live, hl, hs⟩, List.Subset.refl _⟩
      · exact Stmt.scope_of_blockOf ss hn.2 hl hs hf hc hcf
  | .mk n ss (some e), live, _, hn, hl, hs, hf, hc, hcf => by
      rcases List.mem_cons.mp hc with rfl | hc
      · exact ⟨⟨live, hl, hs⟩, List.Subset.refl _⟩
      · rw [Block.functions, List.map_append, List.mem_append, not_or] at hf
        rcases List.mem_append.mp hc with hc | hc
        · exact (Stmt.scope_of_blockOf ss hn.2.1 hl hs.1 hf.1 hc hcf).imp_right
            (List.subset_append_of_subset_left _ ·)
        · exact absurd (hcf ▸ e.mem_functions_of_block hn.2.2 hc) hf.2

end

end

/-! ### Blocks -/

/-- A block that may stand in the place of another one of a function, with more facts. -/
structure Replaces (F F' : Facts) (function : Nat) (old new : Block) : Prop where
  inScope : ∀ live, F.Live function live → old.Scoped F function live →
    new.Scoped F' function live
  refines : ∀ live, F.Live function live → old.Scoped F function live →
    ∀ x : Activation, x.facts = F' → x.function = function → Twins x x → ∀ before before',
      Keeps (finish x old.stmts old.tail) (finish x new.stmts new.tail)
        (x.Agree before before' live)

/-- Those of the blocks that belong to the function and have the label may be replaced. -/
def Replaceable (F F' : Facts) (function label : Nat) (new : Block) (blocks : List OwnedBlock) :
    Prop :=
  ∀ b ∈ blocks, b.1.note.id = label → b.2 = function → Replaces F F' function b.1 new

section

variable {F : Facts} {x : Activation} {label : Nat} {new : Block}

/-- A condition on the blocks of two lists is one on those of each. -/
theorem replaceable_append {F' : Facts} {function : Nat} {as bs : List OwnedBlock} :
    Replaceable F F' function label new (as ++ bs) ↔
      Replaceable F F' function label new as ∧ Replaceable F F' function label new bs :=
  List.forall_mem_append

/-- Expressions keep what they do when a block inside them is replaced. -/
theorem expr_update_refines (hF : F.Orderly) (he : F.Extends x.facts) (hx : Twins x x) {e : Expr} {live : List Nat} (hl : F.Live x.function live)
    (hs : e.Scoped F x.function live) (before before' : Nat → Value) :
    Keeps (expr x e) (expr x (e.update label fun _ => new)) (x.Agree before before' live) := by
  rw [e.expr_update x]
  exact expr_refines hx e (hs.mono hF he hl.lt)

mutual

/-- A statement with a block replaced is scoped, and it refines the statement if the block is
refined by its replacement wherever it stands. -/
theorem Stmt.update_replaces (hF : F.Orderly) (he : F.Extends x.facts) (hx : Twins x x) :
    ∀ (a : Stmt) {live : List Nat}, F.Live x.function live →
    a.Scoped F x.function live → Replaceable F x.facts x.function label new (a.blocks x.function) →
    (a.update label fun _ => new).Scoped x.facts x.function live ∧ ∀ before before',
      Refines (stmt x a) (stmt x (a.update label fun _ => new)) (x.Agree before before' live)
        fun signal => signal.pick (x.Agree before before' (a.declared ++ live))
          (x.Agree before before' live)
  | .block b, _, hl, hs, hr => by
      obtain ⟨hb, hk⟩ := Block.update_replaces hF he hx b hl hs hr
      exact ⟨hb, fun before before' => (hk before before').block_of_finish.block_stmt.pick⟩
  | .loop _ b, _, hl, hs, hr => by
      obtain ⟨hb, hk⟩ := Block.update_replaces hF he hx b hl hs hr
      exact ⟨hb, fun before before' => ((hk before before').block_of_finish.loop rfl).pick⟩
  | .letVar n _ _ e, _, hl, hs, _ =>
      ⟨⟨(e.scoped_update hs.1).mono hF he hl.lt, fun y hy => (hs.2 y hy).shift he (.refl hl.lt)⟩,
        fun before before' => letVar_refines hx (expr_update_refines hF he hx hl hs.1 before before')
          fun y hy => ((hs.2 y hy).shift he (.refl hl.lt)).placed hx.orderly⟩
  | .expr _ e, _, hl, hs, _ =>
      ⟨(e.scoped_update hs).mono hF he hl.lt, fun before before' =>
        (expr_update_refines hF he hx hl hs before before').expr_stmt.pick⟩
  | .ret _ (some e), _, hl, hs, _ =>
      ⟨(e.scoped_update hs).mono hF he hl.lt, fun before before' =>
        (expr_update_refines hF he hx hl hs before before').ret.pick⟩
  | .fnDecl _ _ _ _, _, _, _, _ | .ret _ none, _, _, _, _ | .breakLoop _, _, _, _, _
  | .continueLoop _, _, _, _, _ => by
      refine ⟨trivial, fun before before' => ?_⟩
      simp only [Stmt.update, stmt]
      exact Refines.pure fun _ _ h => h
  | .cond _ test yes none, _, hl, hs, hr => by
      obtain ⟨hb, hk⟩ := Block.update_replaces hF he hx yes hl hs.2 (replaceable_append.mp hr).2
      exact ⟨⟨(test.scoped_update hs.1).mono hF he hl.lt, hb⟩, fun before before' =>
        ((expr_update_refines hF he hx hl hs.1 before before').cond
          (hk before before').block_of_finish).pick⟩
  | .cond _ test yes (some no), _, hl, hs, hr => by
      obtain ⟨hr, hn⟩ := replaceable_append.mp hr
      obtain ⟨hb, hk⟩ := Block.update_replaces hF he hx yes hl hs.2.1 (replaceable_append.mp hr).2
      obtain ⟨ha, hka⟩ := Stmt.update_replaces hF he hx no hl hs.2.2 hn
      exact ⟨⟨(test.scoped_update hs.1).mono hF he hl.lt, hb, ha⟩, fun before before' =>
        ((expr_update_refines hF he hx hl hs.1 before before').cond_else
          (hk before before').block_of_finish (Refines.alternate (hka before before'))).pick⟩
  | .whileLoop _ test b, _, hl, hs, hr => by
      obtain ⟨hb, hk⟩ := Block.update_replaces hF he hx b hl hs.2 (replaceable_append.mp hr).2
      exact ⟨⟨(test.scoped_update hs.1).mono hF he hl.lt, hb⟩, fun before before' =>
        ((expr_update_refines hF he hx hl hs.1 before before').whileLoop
          (hk before before').block_of_finish rfl).pick⟩

/-- The statements of a block, in front of any result. -/
theorem Stmt.updateAll_replaces (hF : F.Orderly) (he : F.Extends x.facts) (hx : Twins x x) :
    ∀ (ss : List Stmt) {live : List Nat}, F.Live x.function live →
    Stmt.AllScoped F x.function live ss →
    Replaceable F x.facts x.function label new (Stmt.blocksOf x.function ss) →
    Stmt.AllScoped x.facts x.function live (Stmt.updateAll label (fun _ => new) ss) ∧
    Stmt.liveAfter live (Stmt.updateAll label (fun _ => new) ss) = Stmt.liveAfter live ss ∧
    ∀ before before' tail tail', Keeps (finish x [] tail) (finish x [] tail')
      (x.Agree before before' (Stmt.liveAfter live ss)) →
      Keeps (finish x ss tail) (finish x (Stmt.updateAll label (fun _ => new) ss) tail')
        (x.Agree before before' live)
  | [], _, _, _, _ => ⟨trivial, rfl, fun _ _ _ _ h => h⟩
  | a :: ss, live, hl, hs, hr => by
      obtain ⟨ha, hka⟩ := Stmt.update_replaces hF he hx a hl hs.1 (replaceable_append.mp hr).1
      obtain ⟨hss, hlive, hk⟩ :=
        Stmt.updateAll_replaces hF he hx ss (hs.1.live hl) hs.2 (replaceable_append.mp hr).2
      have hd : (a.update label fun _ => new).declared = a.declared := a.declared_update
      rw [Stmt.updateAll, Stmt.liveAfter, hd]
      refine ⟨⟨ha, hd ▸ hss⟩, hlive, fun before before' tail tail' htail => ?_⟩
      exact (hka before before').finish_cons ((hk before before' tail tail' htail).post
        fun _ _ _ h => h.mono (List.subset_append_right _ _))

/-- **Blocks.** A body with a block replaced is scoped, and does what it did. The new block declares
nothing outside, so what follows sees the same variables. -/
theorem Block.update_replaces (hF : F.Orderly) (he : F.Extends x.facts) (hx : Twins x x) :
    ∀ (b : Block) {live : List Nat}, F.Live x.function live →
    b.Scoped F x.function live → Replaceable F x.facts x.function label new (b.blocks x.function) →
    (b.update label fun _ => new).Scoped x.facts x.function live ∧ ∀ before before',
      Keeps (finish x b.stmts b.tail)
        (finish x (b.update label fun _ => new).stmts (b.update label fun _ => new).tail)
        (x.Agree before before' live)
  | .mk n ss none, live, hl, hs, hr => by
      rw [Block.update]
      split
      · next hn =>
          have h := hr _ (Block.mem_blocks_self x.function (.mk n ss none)) hn rfl
          exact ⟨h.inScope live hl hs, h.refines live hl hs x rfl rfl hx⟩
      · obtain ⟨hss, -, hk⟩ := Stmt.updateAll_replaces hF he hx ss hl hs fun b hb =>
          hr b (List.mem_cons_of_mem _ hb)
        exact ⟨hss, fun before before' => hk before before' none none finish_none_keeps⟩
  | .mk n ss (some e), live, hl, hs, hr => by
      rw [Block.update]
      split
      · next hn =>
          have h := hr _ (Block.mem_blocks_self x.function (.mk n ss (some e))) hn rfl
          exact ⟨h.inScope live hl hs, h.refines live hl hs x rfl rfl hx⟩
      · have hparts := replaceable_append.mp fun b hb => hr b (List.mem_cons_of_mem _ hb)
        obtain ⟨hss, hlive, hk⟩ := Stmt.updateAll_replaces hF he hx ss hl hs.1 hparts.1
        have hafter := hs.1.live hl
        refine ⟨⟨hss, ?_⟩, fun before before' => hk before before' (some e) _
          (expr_update_refines hF he hx hafter hs.2 before before').finish_some⟩
        rw [hlive]
        exact (e.scoped_update hs.2).mono hF he hafter.lt

end

end

end Parlance
