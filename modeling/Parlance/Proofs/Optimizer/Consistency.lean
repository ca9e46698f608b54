import Parlance.Proofs.Optimizer.DeadCode
import Parlance.Proofs.Optimizer.Folding
import Parlance.Proofs.Optimizer.Replacement
import Parlance.Proofs.Optimizer.Sharing
import Parlance.Proofs.Value.Typing

/-!
# Types during optimization

The notes of an analyzed tree say which type each expression has. Sweeps rewrite operands and
make variables, and the notes stay right all the time. Only names are an exception: folding may
leave a name without a symbol, and such a name may have any type.

What an assignment or a call gives is not said, as no sweep asks for it. So the types are those
of the analysis, told in a weaker way, which all sweeps keep.

## Main definitions

* `Expr.Consistent`: the types in the notes of an expression fit together.
* `Facts.Settled`: what the facts say about functions and builtins.

## Main results

* `Facts.Accepts.consistent`: what analysis accepts is consistent.
* `Block.consistent_folded`, `DeadCode.consistent_block`, `Share.consistent_block`,
  `Block.consistent_update`: sweeps keep the types.
-/

namespace Parlance

/-! ### Facts -/

namespace Facts

/-- What the facts say about functions, and about names that stand for constants. -/
structure Settled (F : Facts) : Prop where
  param : ∀ f, ∀ y ∈ (F.info f).params, y < F.symbols.size
  function : ∀ y < F.symbols.size, ∀ f, (F.symbol y).storage = .function f →
    f < F.functions.size ∧ (F.symbol y).ty = F.signature f ∧ F.captures f = []
  builtin : ∀ y < F.symbols.size, ∀ b, (F.symbol y).storage = .builtin b →
    (F.symbol y).ty = .builtin b

variable {F F' : Facts}

/-- A function has the same signature when more facts are known. -/
theorem Settled.signature (h : F.Settled) (he : F.Extends F') (f : Nat) :
    F'.signature f = F.signature f := by
  have hparams : (F.info f).params.map (fun y => (F'.symbol y).ty) =
      (F.info f).params.map fun y => (F.symbol y).ty :=
    List.map_congr_left fun y hy => by rw [he.symbol y (h.param f y hy)]
  unfold Facts.signature
  rw [he.params, hparams, he.info f]

/-- A temporary stands for no constant: it is a variable in a slot of its own, so the functions and
builtins are the same as before. -/
theorem Settled.addTemporary (h : F.Settled) (name : String) (ty : Ty) {function : Nat}
    (hf : function < F.functions.size) : (F.addTemporary name ty function).1.Settled := by
  have he := addTemporary_extends (F := F) name ty hf
  have hstorage : ∀ {s}, (F.temporary name ty function).storage = s →
      ∃ k, s = .global k ∨ s = .frame k := by
    rintro s rfl
    unfold temporary
    dsimp only
    split
    · exact ⟨_, .inl rfl⟩
    · exact ⟨_, .inr rfl⟩
  refine ⟨fun f y hy => ?_, fun y hy f hs => ?_, fun y hy b hs => ?_⟩
  · rw [he.params] at hy
    exact Nat.lt_of_lt_of_le (h.param f y hy) he.symbols_le
  · rcases symbol_addTemporary name ty hf hy with ⟨hlt, heq⟩ | ⟨-, heq⟩
    · rw [heq] at hs ⊢
      rw [he.functions_size, h.signature he, he.captures]
      exact h.function y hlt f hs
    · rw [heq] at hs
      obtain ⟨k, hk | hk⟩ := hstorage hs
      · cases hk
      · cases hk
  · rcases symbol_addTemporary name ty hf hy with ⟨hlt, heq⟩ | ⟨-, heq⟩
    · rw [heq] at hs ⊢
      exact h.builtin y hlt b hs
    · rw [heq] at hs
      obtain ⟨k, hk | hk⟩ := hstorage hs
      · cases hk
      · cases hk

end Facts

/-! ### Expressions -/

mutual

/-- The types in the notes of an expression and its parts fit together. -/
def Expr.Consistent (F : Facts) : Expr → Prop
  | .lit n v => n.ty = v.ty
  | .ident n _ => ∀ y, n.symbol = some y → y < F.symbols.size ∧ n.ty = (F.symbol y).ty
  | .unary n op e => e.Consistent F ∧ op.Types e.ty n.ty
  | .binary n op l r => l.Consistent F ∧ r.Consistent F ∧ r.ty = l.ty ∧ op.Types l.ty n.ty
  | .assign _ t v => t.Consistent F ∧ v.Consistent F
  | .call _ f args => f.Consistent F ∧ Expr.AllConsistent F args
  | .index n t i => t.Consistent F ∧ i.Consistent F ∧ i.ty = .int ∧ t.ty.Items n.ty
  | .list n items => Expr.AllConsistent F items ∧ ∃ t, n.ty = .list t ∧ ∀ e ∈ items, e.ty = t
  | .cast n e target => e.Consistent F ∧ e.ty.scalar?.isSome = true ∧ n.ty = target.toTy
  | .lambda n _ _ => ∃ f, n.function = some f ∧ f < F.functions.size ∧ n.ty = F.signature f

def Expr.AllConsistent (F : Facts) : List Expr → Prop
  | [] => True
  | e :: es => e.Consistent F ∧ Expr.AllConsistent F es

end

section

variable {F F' : Facts}

mutual

/-- The parts of an expression are consistent. Parts are the expression itself and those of its
operands; bodies of lambdas are not among them. -/
theorem Expr.consistent_of_mem_parts : ∀ {e d : Expr}, e.Consistent F → d ∈ e.parts → d.Consistent F
  | .lit _ _, _, h, hd | .ident _ _, _, h, hd | .lambda _ _ _, _, h, hd => by
      rw [Expr.parts, List.mem_singleton] at hd
      exact hd ▸ h
  | .unary _ _ e, _, h, hd | .cast _ e _, _, h, hd => by
      rcases List.mem_cons.mp hd with rfl | hd
      · exact h
      · exact e.consistent_of_mem_parts h.1 hd
  | .binary _ _ a b, _, h, hd | .index _ a b, _, h, hd => by
      rcases List.mem_cons.mp hd with rfl | hd
      · exact h
      · rcases List.mem_append.mp hd with hd | hd
        · exact a.consistent_of_mem_parts h.1 hd
        · exact b.consistent_of_mem_parts h.2.1 hd
  | .assign _ a b, _, h, hd => by
      rcases List.mem_cons.mp hd with rfl | hd
      · exact h
      · rcases List.mem_append.mp hd with hd | hd
        · exact a.consistent_of_mem_parts h.1 hd
        · exact b.consistent_of_mem_parts h.2 hd
  | .call _ f args, _, h, hd => by
      rcases List.mem_cons.mp hd with rfl | hd
      · exact h
      · rcases List.mem_append.mp hd with hd | hd
        · exact f.consistent_of_mem_parts h.1 hd
        · exact Expr.consistent_of_mem_partsOf h.2 hd
  | .list _ items, _, h, hd => by
      rcases List.mem_cons.mp hd with rfl | hd
      · exact h
      · exact Expr.consistent_of_mem_partsOf h.1 hd

/-- The parts of consistent expressions are consistent. -/
theorem Expr.consistent_of_mem_partsOf : ∀ {es : List Expr} {d : Expr}, Expr.AllConsistent F es →
    d ∈ Expr.partsOf es → d.Consistent F
  | [], _, _, hd => by cases hd
  | e :: es, _, h, hd => by
      rcases List.mem_append.mp hd with hd | hd
      · exact e.consistent_of_mem_parts h.1 hd
      · exact Expr.consistent_of_mem_partsOf h.2 hd

end

mutual

/-- More facts do not matter. -/
theorem Expr.Consistent.extend (hF : F.Settled) (he : F.Extends F') : ∀ {e : Expr},
    e.Consistent F → e.Consistent F'
  | .lit _ _, h => h
  | .ident _ _, h => fun y hy => by
      obtain ⟨hlt, hty⟩ := h y hy
      exact ⟨Nat.lt_of_lt_of_le hlt he.symbols_le, hty.trans (by rw [he.symbol y hlt])⟩
  | .unary _ _ _, h | .cast _ _ _, h => ⟨h.1.extend hF he, h.2⟩
  | .binary _ _ _ _, h | .index _ _ _, h => ⟨h.1.extend hF he, h.2.1.extend hF he, h.2.2⟩
  | .assign _ _ _, h => ⟨h.1.extend hF he, h.2.extend hF he⟩
  | .call _ _ args, h => ⟨h.1.extend hF he, Expr.AllConsistent.extend hF he h.2⟩
  | .list _ _, h => ⟨Expr.AllConsistent.extend hF he h.1, h.2⟩
  | .lambda _ _ _, ⟨f, hf, hlt, hty⟩ =>
      ⟨f, hf, he.functions_size ▸ hlt, hty.trans (hF.signature he f).symm⟩

/-- Expressions stay consistent when more facts are known. -/
theorem Expr.AllConsistent.extend (hF : F.Settled) (he : F.Extends F') : ∀ {es : List Expr},
    Expr.AllConsistent F es → Expr.AllConsistent F' es
  | [], _ => trivial
  | _ :: _, h => ⟨h.1.extend hF he, Expr.AllConsistent.extend hF he h.2⟩

end

mutual

/-- What analysis accepts is consistent: the judgement asks for fitting types at every node. The
induction is on the tree. -/
theorem Expr.consistent_of_typed {f : Nat} {live : List Nat} : ∀ e : Expr, e.Scoped F f live →
    e.Typed F → e.Consistent F
  | .lit _ _, _, h => h
  | .ident _ _, hs, ⟨y, hy, hty⟩ => fun z hz => by
      obtain rfl := Option.some.inj (hy.symm.trans hz)
      exact ⟨(hs y hy).1, hty⟩
  | .unary _ _ e, hs, h | .cast _ e _, hs, h => ⟨e.consistent_of_typed hs h.1, h.2⟩
  | .binary _ _ a b, hs, h | .index _ a b, hs, h =>
      ⟨a.consistent_of_typed hs.1 h.1, b.consistent_of_typed hs.2 h.2.1, h.2.2⟩
  | .assign _ (.ident _ _) v, hs, ⟨hv, _, y, hy, hty, ht⟩ => by
      refine ⟨fun z hz => ?_, v.consistent_of_typed hs.1 hv⟩
      obtain rfl := Option.some.inj (hy.symm.trans hz)
      exact ⟨(hs.2 y hy).1, ht.trans hty.symm⟩
  | .assign _ (.index m (.ident t name) i) v, hs, ⟨hi, hint, hv, _, y, hy, hty, ht, hm⟩ => by
      refine ⟨⟨fun z hz => ?_, i.consistent_of_typed hs.1 hi, hint, ?_⟩,
        v.consistent_of_typed hs.2.1 hv⟩
      · obtain rfl := Option.some.inj (hy.symm.trans hz)
        exact ⟨(hs.2.2 y hy).1, ht.trans hty.symm⟩
      · have hbase : (Expr.ident t name).ty = .list v.ty := ht
        rw [hbase]
        exact hm
  | .call _ g args, hs, h =>
      ⟨g.consistent_of_typed hs.1 h.1, Expr.allConsistent_of_typed args hs.2 h.2.1⟩
  | .list _ items, hs, h => ⟨Expr.allConsistent_of_typed items hs h.1, h.2⟩
  | .lambda _ _ _, hs, ⟨g, hg, hty⟩ => ⟨g, hg, (hs g hg).lt, hty⟩

/-- Typed expressions are consistent. Typing says more than that: it also fixes where each type is
expected. -/
theorem Expr.allConsistent_of_typed {f : Nat} {live : List Nat} : ∀ es : List Expr,
    Expr.AllScoped F f live es → Expr.AllTyped F es → Expr.AllConsistent F es
  | [], _, _ => trivial
  | e :: es, hs, h => ⟨e.consistent_of_typed hs.1 h.1, Expr.allConsistent_of_typed es hs.2 h.2⟩

end

end

/-! ### Blocks -/

/-- All expressions of a block, without those of the functions in it. -/
def Block.expressions (b : Block) : List Expr :=
  b.roots.flatMap Expr.parts

/-- The result of a block is one of its expressions. -/
theorem Block.mem_expressions_of_tail {b : Block} {e : Expr} (h : b.tail = some e) :
    e ∈ b.expressions := by
  obtain ⟨n, ss, tail⟩ := b
  obtain rfl : tail = some e := h
  exact List.mem_flatMap.mpr ⟨e, List.mem_append_right _ List.mem_cons_self, e.mem_parts_self⟩

/-- All expressions of a block are consistent. -/
def Block.Consistent (F : Facts) (b : Block) : Prop :=
  ∀ e ∈ b.roots, e.Consistent F

section

variable {F F' : Facts}

/-- A block stays consistent when more facts are known. -/
theorem Block.Consistent.extend (hF : F.Settled) (he : F.Extends F') {b : Block}
    (h : b.Consistent F) : b.Consistent F' :=
  fun e hmem => (h e hmem).extend hF he

/-- Each expression of a consistent block is consistent. -/
theorem Block.Consistent.of_mem {b : Block} (h : b.Consistent F) {e : Expr}
    (he : e ∈ b.expressions) : e.Consistent F := by
  obtain ⟨root, hroot, he⟩ := List.mem_flatMap.mp he
  exact Expr.consistent_of_mem_parts (h root hroot) he

mutual

/-- A typed statement has consistent expressions. -/
theorem Stmt.consistent_of_typed {f : Nat} {returns : Ty} : ∀ (s : Stmt) {live : List Nat},
    s.Scoped F f live → s.Typed F returns → ∀ e ∈ s.roots, e.Consistent F
  | .block b, _, hs, h | .loop _ b, _, hs, h => b.consistent_of_typed hs h
  | .letVar _ _ _ e, _, hs, h => List.forall_mem_singleton.mpr (e.consistent_of_typed hs.1 h.1)
  | .expr _ e, _, hs, h => List.forall_mem_singleton.mpr (e.consistent_of_typed hs h)
  | .ret _ (some e), _, hs, h => List.forall_mem_singleton.mpr (e.consistent_of_typed hs h.1)
  | .fnDecl _ _ _ _, _, _, _ | .ret _ none, _, _, _ | .breakLoop _, _, _, _
  | .continueLoop _, _, _, _ => fun _ he => by cases he
  | .cond _ test yes none, _, hs, h =>
      List.forall_mem_cons.mpr ⟨test.consistent_of_typed hs.1 h.1, yes.consistent_of_typed hs.2 h.2.2⟩
  | .cond _ test yes (some no), _, hs, h =>
      List.forall_mem_cons.mpr ⟨test.consistent_of_typed hs.1 h.1, List.forall_mem_append.mpr
        ⟨yes.consistent_of_typed hs.2.1 h.2.2.1, no.consistent_of_typed hs.2.2 h.2.2.2⟩⟩
  | .whileLoop _ test b, _, hs, h =>
      List.forall_mem_cons.mpr ⟨test.consistent_of_typed hs.1 h.1, b.consistent_of_typed hs.2 h.2.2⟩

/-- Typed statements have consistent expressions. -/
theorem Stmt.allConsistent_of_typed {f : Nat} {returns : Ty} : ∀ (ss : List Stmt) {live : List Nat},
    Stmt.AllScoped F f live ss → Stmt.AllTyped F returns ss →
    ∀ e ∈ Stmt.rootsOf ss, e.Consistent F
  | [], _, _, _ => fun _ he => by cases he
  | s :: ss, _, hs, h => List.forall_mem_append.mpr
      ⟨s.consistent_of_typed hs.1 h.1, Stmt.allConsistent_of_typed ss hs.2 h.2⟩

/-- A typed block is consistent. -/
theorem Block.consistent_of_typed {f : Nat} {returns : Ty} : ∀ (b : Block) {live : List Nat},
    b.Scoped F f live → b.Typed F returns → b.Consistent F
  | .mk _ ss none, _, hs, h => Stmt.allConsistent_of_typed ss hs h

end

/-- **Accepted functions.** -/
theorem Facts.Accepts.consistent {f : Nat} {b : Block} (h : F.Accepts f b) : b.Consistent F := by
  have hs := h.inScope
  have ht := h.typed
  obtain ⟨n, ss, tail⟩ := b
  cases tail with
  | none => exact Stmt.allConsistent_of_typed ss hs ht.1
  | some e =>
      exact List.forall_mem_append.mpr ⟨Stmt.allConsistent_of_typed ss hs.1 ht.1,
        List.forall_mem_singleton.mpr (e.consistent_of_typed hs.2 ht.2.1)⟩

/-! ### Folding -/

/-- The value of a literal has the type of the literal. -/
theorem Lit.hasTy_toValue (v : Lit) : v.toValue.HasTy F v.ty := by
  cases v <;> rfl

/-- A literal has the type of its value. -/
theorem Value.HasTy.ty_toLit? {v : Value} {t : Ty} (h : v.HasTy F t) {w : Lit}
    (hw : v.toLit? = some w) : t = w.ty := by
  cases v <;> cases hw <;> exact h

/-- A literal that takes the place of a node has the type of the node, since operations keep to
their types. -/
theorem Fold.ty_literal? {n : Note} {result : Except Fault Value} {e : Expr}
    (h : Value.ResultHasTy F n.ty result) (he : Fold.literal? n result = some e) :
    e.Consistent F ∧ e.ty = n.ty := by
  cases result with
  | error k => cases he
  | ok v =>
      obtain ⟨w, hw, rfl⟩ := Option.map_eq_some_iff.mp he
      exact ⟨Value.HasTy.ty_toLit? h hw, rfl⟩

/-- An expression that is no lambda may get another note of the same type. -/
theorem Expr.Consistent.withNote {e : Expr} {n : Note} (h : e.Consistent F) (hty : n.ty = e.ty)
    (hs : n.symbol = none) (hl : e.isLambda = false) :
    (e.withNote n).Consistent F ∧ (e.withNote n).ty = e.ty := by
  cases e with
  | lambda => cases hl
  | ident m name => exact ⟨fun y hy => (nomatch hs.symm.trans hy), hty⟩
  | assign m t v => exact ⟨h, hty⟩
  | call m f args => exact ⟨h, hty⟩
  | lit m v => exact ⟨hty.trans h, hty⟩
  | unary m op e => exact ⟨⟨h.1, hty ▸ h.2⟩, hty⟩
  | binary m op l r => exact ⟨⟨h.1, h.2.1, h.2.2.1, hty ▸ h.2.2.2⟩, hty⟩
  | index m t i => exact ⟨⟨h.1, h.2.1, h.2.2.1, hty ▸ h.2.2.2⟩, hty⟩
  | list m items => exact ⟨⟨h.1, hty ▸ h.2⟩, hty⟩
  | cast m e target => exact ⟨⟨h.1, h.2.1, hty.trans h.2.2⟩, hty⟩

/-- **One node.** What takes the place of a node has its type. A computed value has it by the
judgement of the operator; a right operand that takes the place of a logical operator gets its note.
-/
theorem Fold.consistent_reduce {owner : Nat → Nat} {f : Nat} {e : Expr} (hn : e.Noted owner f)
    (h : e.Consistent F) : (Fold.reduce e).Consistent F ∧ (Fold.reduce e).ty = e.ty := by
  have hself : e.Consistent F ∧ e.ty = e.ty := ⟨h, rfl⟩
  have hliteral : ∀ {n : Note} {result : Except Fault Value}, e.ty = n.ty →
      Value.ResultHasTy F n.ty result →
      ((Fold.literal? n result).getD e).Consistent F ∧ ((Fold.literal? n result).getD e).ty = e.ty := by
    intro n result hty hresult
    cases hl : Fold.literal? n result with
    | none => exact hself
    | some e' =>
        obtain ⟨hc, he⟩ := Fold.ty_literal? hresult hl
        exact ⟨hc, he.trans hty.symm⟩
  unfold Fold.reduce Fold.node?
  split
  · next n op m v =>
      obtain ⟨hv, hop⟩ := h
      exact hliteral rfl ((Lit.hasTy_toValue v).unary (hv ▸ hop))
  · next n op m v r =>
      obtain ⟨hv, hr, hty, hop⟩ := h
      cases hsplit : op.split with
      | inl strict =>
          cases r with
          | lit m' w =>
              obtain rfl := BinaryOp.toBinary_of_split hsplit
              have hl : (Expr.lit m v).ty = v.ty := hv
              have hw : v.ty = w.ty := hl.symm.trans (hty.symm.trans hr)
              rw [hl] at hop
              exact hliteral rfl ((Lit.hasTy_toValue v).binary (hw ▸ Lit.hasTy_toValue w) hop)
          | _ => exact hself
      | inr logical =>
          cases v with
          | bool b =>
              rw [BinaryOp.Types, if_pos (BinaryOp.isLogical_of_split hsplit)] at hop
              obtain ⟨hl, hbool⟩ := hop
              simp only [Option.getD_some]
              split
              · exact ⟨hbool, rfl⟩
              · obtain ⟨hs, hlambda⟩ := hn.1 (BinaryOp.isLogical_of_split hsplit)
                obtain ⟨hc, ht⟩ := hr.withNote (n := n) (hbool.trans (hty.trans hl).symm) hs hlambda
                exact ⟨hc, ht.trans ((hty.trans hl).trans hbool.symm)⟩
          | _ => exact hself
  · next n m v target =>
      obtain ⟨-, -, hty⟩ := h
      exact hliteral rfl (hty ▸ Value.cast_hasTy)
  · next n m v m' i =>
      obtain ⟨hv, hi, hint, hitems⟩ := h
      have hl : (Expr.lit m v).ty = v.ty := hv
      have hindex : i.ty = .int := hi.symm.trans hint
      rw [hl] at hitems
      exact hliteral rfl ((Lit.hasTy_toValue v).getItem (hindex ▸ Lit.hasTy_toValue i) hitems)
  · exact hself

section

variable {owner : Nat → Nat}

mutual

/-- **Expressions.** Folding leaves an expression consistent, and its type as it was. The operands
are folded first, and the node that is reduced then is consistent since their types are the same. -/
theorem Expr.consistent_folded : ∀ (e : Expr) {f : Nat}, e.Noted owner f → e.Consistent F →
    e.folded.Consistent F ∧ e.folded.ty = e.ty
  | .lit _ _, _, _, h | .ident _ _, _, _, h | .lambda _ _ _, _, _, h => ⟨h, rfl⟩
  | .unary n op e, f, hn, h => by
      have hn' : (Expr.unary n op e.folded).Noted owner f := (e.noted_folded hn).1
      obtain ⟨he, hty⟩ := e.consistent_folded hn h.1
      exact Fold.consistent_reduce hn' ⟨he, hty ▸ h.2⟩
  | .cast n e target, f, hn, h => by
      have hn' : (Expr.cast n e.folded target).Noted owner f := (e.noted_folded hn).1
      obtain ⟨he, hty⟩ := e.consistent_folded hn h.1
      exact Fold.consistent_reduce hn' ⟨he, hty ▸ h.2⟩
  | .binary n op a b, _, hn, h => by
      obtain ⟨ha, hta⟩ := a.consistent_folded hn.2.1 h.1
      obtain ⟨hb, htb⟩ := b.consistent_folded hn.2.2 h.2.1
      exact Fold.consistent_reduce (Expr.noted_binary_folded hn)
        ⟨ha, hb, htb.trans (h.2.2.1.trans hta.symm), hta ▸ h.2.2.2⟩
  | .index n a b, f, hn, h => by
      have hn' : (Expr.index n a.folded b.folded).Noted owner f :=
        ⟨(a.noted_folded hn.1).1, (b.noted_folded hn.2).1⟩
      obtain ⟨ha, hta⟩ := a.consistent_folded hn.1 h.1
      obtain ⟨hb, htb⟩ := b.consistent_folded hn.2 h.2.1
      exact Fold.consistent_reduce hn' ⟨ha, hb, htb.trans h.2.2.1, hta ▸ h.2.2.2⟩
  | .assign _ t v, _, hn, h =>
      ⟨⟨(t.consistent_folded hn.1 h.1).1, (v.consistent_folded hn.2 h.2).1⟩, rfl⟩
  | .call _ g args, _, hn, h =>
      ⟨⟨(g.consistent_folded hn.1 h.1).1, (Expr.allConsistent_folded args hn.2 h.2).1⟩, rfl⟩
  | .list _ items, _, hn, h => by
      obtain ⟨hitems, t, hty, hall⟩ := h
      obtain ⟨hfolded, htys⟩ := Expr.allConsistent_folded items hn hitems
      exact ⟨⟨hfolded, t, hty, htys t hall⟩, rfl⟩

/-- Folding leaves expressions consistent, and their types as they were. -/
theorem Expr.allConsistent_folded : ∀ (es : List Expr) {f : Nat}, Expr.AllNoted owner f es →
    Expr.AllConsistent F es → Expr.AllConsistent F (Expr.foldedAll es) ∧
      ∀ t, (∀ e ∈ es, e.ty = t) → ∀ e ∈ Expr.foldedAll es, e.ty = t
  | [], _, _, _ => ⟨trivial, fun _ _ _ he => by cases he⟩
  | e :: es, _, hn, h => by
      obtain ⟨he, hty⟩ := e.consistent_folded hn.1 h.1
      obtain ⟨hes, htys⟩ := Expr.allConsistent_folded es hn.2 h.2
      refine ⟨⟨he, hes⟩, fun t ht => List.forall_mem_cons.mpr ⟨?_, ?_⟩⟩
      · exact hty.trans (ht e List.mem_cons_self)
      · exact htys t fun d hd => ht d (List.mem_cons_of_mem e hd)

end

mutual

/-- Folding leaves the expressions of a statement consistent. -/
theorem Stmt.consistent_folded : ∀ (s : Stmt) {f : Nat}, s.Noted owner f →
    (∀ e ∈ s.roots, e.Consistent F) → ∀ e ∈ s.folded.roots, e.Consistent F
  | .block b, _, hn, h | .loop _ b, _, hn, h => b.consistent_folded hn h
  | .letVar _ _ _ e, _, hn, h | .expr _ e, _, hn, h | .ret _ (some e), _, hn, h =>
      List.forall_mem_singleton.mpr (e.consistent_folded hn (List.forall_mem_singleton.mp h)).1
  | .fnDecl _ _ _ _, _, _, h | .ret _ none, _, _, h | .breakLoop _, _, _, h
  | .continueLoop _, _, _, h => h
  | .cond _ test yes none, _, hn, h => by
      obtain ⟨htest, hyes⟩ := List.forall_mem_cons.mp h
      exact List.forall_mem_cons.mpr ⟨(test.consistent_folded hn.1 htest).1,
        yes.consistent_folded hn.2 hyes⟩
  | .cond _ test yes (some no), _, hn, h => by
      obtain ⟨htest, hrest⟩ := List.forall_mem_cons.mp h
      obtain ⟨hyes, hno⟩ := List.forall_mem_append.mp hrest
      exact List.forall_mem_cons.mpr ⟨(test.consistent_folded hn.1 htest).1,
        List.forall_mem_append.mpr ⟨yes.consistent_folded hn.2.1 hyes,
          no.consistent_folded hn.2.2.2 hno⟩⟩
  | .whileLoop _ test b, _, hn, h => by
      obtain ⟨htest, hb⟩ := List.forall_mem_cons.mp h
      exact List.forall_mem_cons.mpr ⟨(test.consistent_folded hn.1 htest).1,
        b.consistent_folded hn.2 hb⟩

/-- Folding leaves the expressions of statements consistent. -/
theorem Stmt.allConsistent_folded : ∀ (ss : List Stmt) {f : Nat}, Stmt.AllNoted owner f ss →
    (∀ e ∈ Stmt.rootsOf ss, e.Consistent F) →
    ∀ e ∈ Stmt.rootsOf (Stmt.foldedAll ss), e.Consistent F
  | [], _, _, h => h
  | s :: ss, _, hn, h => by
      obtain ⟨hs, hss⟩ := List.forall_mem_append.mp h
      exact List.forall_mem_append.mpr
        ⟨s.consistent_folded hn.1 hs, Stmt.allConsistent_folded ss hn.2 hss⟩

/-- **Folding** keeps types. -/
theorem Block.consistent_folded : ∀ (b : Block) {f : Nat}, b.Noted owner f → b.Consistent F →
    b.folded.Consistent F
  | .mk _ ss none, _, hn, h => Stmt.allConsistent_folded ss hn.2 h
  | .mk _ ss (some e), _, hn, h => by
      obtain ⟨hss, he⟩ := List.forall_mem_append.mp h
      exact List.forall_mem_append.mpr ⟨Stmt.allConsistent_folded ss hn.2.1 hss,
        List.forall_mem_singleton.mpr
          (e.consistent_folded hn.2.2 (List.forall_mem_singleton.mp he)).1⟩

end

end

/-! ### Dead code -/

namespace DeadCode

/-- A statement that stands in for another one has only expressions of that one. -/
theorem consistent_replaced {s s' : Stmt} (hs : simplify s = .replaced s')
    (h : ∀ e ∈ s.roots, e.Consistent F) : ∀ e ∈ s'.roots, e.Consistent F := by
  obtain ⟨n, m, yes, no, rfl, rfl⟩ | ⟨n, m, yes, rfl⟩ := simplify_eq_replaced hs
  · cases no with
    | none => exact fun e he => h e (List.mem_cons_of_mem _ he)
    | some no => exact fun e he => h e (List.mem_cons_of_mem _ (List.mem_append_left _ he))
  · exact fun e he => h e (List.mem_cons_of_mem _ (List.mem_append_right _ he))

/-- Statements that are left have only expressions that were there. -/
theorem consistent_filter (keep : Stmt → Bool) (ss : List Stmt)
    (h : ∀ e ∈ Stmt.rootsOf ss, e.Consistent F) :
    ∀ e ∈ Stmt.rootsOf (ss.filter keep), e.Consistent F := by
  induction ss with
  | nil => exact h
  | cons s ss ih =>
      obtain ⟨hs, hss⟩ := List.forall_mem_append.mp h
      rw [List.filter_cons]
      split
      · exact List.forall_mem_append.mpr ⟨hs, ih hss⟩
      · exact ih hss

/-- What is left of statements behind a jump has only expressions that were there. -/
theorem consistent_reachable (ss : List Stmt) (h : ∀ e ∈ Stmt.rootsOf ss, e.Consistent F) :
    ∀ e ∈ Stmt.rootsOf (reachable ss).stmts, e.Consistent F := by
  induction ss with
  | nil => exact h
  | cons s ss ih =>
      obtain ⟨hs, hss⟩ := List.forall_mem_append.mp h
      have hrest : ∀ diverges : Bool, ∀ e ∈
          Stmt.rootsOf (if diverges then unreachable ss else reachable ss).stmts, e.Consistent F := by
        intro diverges
        cases diverges with
        | true => exact consistent_filter _ ss hss
        | false => exact ih hss
      rw [reachable]
      split
      · exact ih hss
      · exact List.forall_mem_append.mpr ⟨hs, hrest _⟩
      · next s' hr => exact List.forall_mem_append.mpr ⟨consistent_replaced hr hs, hrest _⟩

/-- The value of a dropped store is a part of the store. -/
theorem Dropped.consistent {ss ss' : List Stmt} (hd : Dropped ss ss')
    (h : ∀ e ∈ Stmt.rootsOf ss, e.Consistent F) : ∀ e ∈ Stmt.rootsOf ss', e.Consistent F := by
  cases hd with
  | later n m k target name name' t init value rest =>
      obtain ⟨-, hrest⟩ := List.forall_mem_cons.mp h
      obtain ⟨hstore, hrest⟩ := List.forall_mem_cons.mp hrest
      exact List.forall_mem_cons.mpr ⟨hstore.2, hrest⟩
  | laterKept n m k target name name' t init value rest =>
      obtain ⟨hinit, hrest⟩ := List.forall_mem_cons.mp h
      obtain ⟨hstore, hrest⟩ := List.forall_mem_cons.mp hrest
      exact List.forall_mem_cons.mpr ⟨hinit, List.forall_mem_cons.mpr ⟨hstore.2, hrest⟩⟩
  | store n k target name value rest =>
      obtain ⟨hstore, hrest⟩ := List.forall_mem_cons.mp h
      exact List.forall_mem_cons.mpr ⟨hstore.2, hrest⟩
  | declaration n name t init rest => exact h

/-- Dropping stores leaves the expressions consistent: a store whose value is needed leaves the
value. -/
theorem consistent_dropStores (facts : Facts) (tail : Option Expr) (before ss : List Stmt)
    (h : ∀ e ∈ Stmt.rootsOf (before ++ ss), e.Consistent F) :
    ∀ e ∈ Stmt.rootsOf (dropStores facts tail before ss).1, e.Consistent F := by
  fun_induction dropStores facts tail before ss with
  | case1 before => simpa using h
  | case2 before s ss ss' hd out changes hout ih =>
      rw [hout] at ih
      rw [Stmt.rootsOf_append] at h ih
      obtain ⟨hbefore, hss⟩ := List.forall_mem_append.mp h
      exact ih (List.forall_mem_append.mpr ⟨hbefore, (dropped_of_dropStore? hd).consistent hss⟩)
  | case3 before s ss hd ih => exact ih (by simpa using h)

/-- **Dead code.** A swept block keeps types. -/
theorem consistent_block (facts : Facts) {b : Block} (h : b.Consistent F) :
    (block facts b).1.Consistent F := by
  obtain ⟨n, ss, tail⟩ := b
  unfold Block.Consistent at h ⊢
  rw [block_mk, Block.roots_mk]
  rw [Block.roots_mk] at h
  obtain ⟨hss, htail⟩ := List.forall_mem_append.mp h
  refine List.forall_mem_append.mpr
    ⟨consistent_dropStores facts _ [] _ (consistent_reachable ss hss), fun e he => htail e ?_⟩
  rw [Option.mem_toList] at he ⊢
  exact (sweptTail_eq_some he).2

end DeadCode

/-! ### Shared subexpressions -/

/-- The type of the expressions with a key. -/
def ExprKey.ty (F : Facts) : ExprKey → Ty
  | .lit v => v.ty
  | .symbol y => (F.symbol y).ty
  | .unary _ k => k.ty F
  | .binary op l _ => if op.toBinary.isComparison then .bool else l.ty F
  | .cast target _ => target.toTy

/-- Expressions with one key have one type. The type is read off the key: from the symbol of a name,
or from the operator and the keys of its operands. -/
theorem Expr.ty_of_key : ∀ (e : Expr) {k : ExprKey}, e.Consistent F → e.key? = some k →
    e.ty = k.ty F
  | .lit _ v, _, h, hk => by
      cases hk
      refine h.trans ?_
      cases v <;> rfl
  | .ident n _, _, h, hk => by
      obtain ⟨y, hy, rfl⟩ := Option.map_eq_some_iff.mp hk
      exact (h y hy).2
  | .unary n op e, _, ⟨he, hop⟩, hk => by
      obtain ⟨k, hoperand, rfl⟩ := Option.map_eq_some_iff.mp hk
      have hty := e.ty_of_key he hoperand
      cases op with
      | neg => exact hop.2.trans hty
      | not => exact hop.2.trans (hop.1.symm.trans hty)
  | .cast n e target, _, h, hk => by
      obtain ⟨k, hk, rfl⟩ := Option.map_eq_some_iff.mp hk
      exact h.2.2
  | .binary n op l r, _, ⟨hl, _, _, hop⟩, hk => by
      rw [Expr.key?] at hk
      split at hk
      · next strict hsplit =>
          obtain ⟨kl, hkl, hk⟩ := Option.bind_eq_some_iff.mp hk
          obtain ⟨kr, -, hk⟩ := Option.bind_eq_some_iff.mp hk
          cases hk
          obtain rfl := BinaryOp.toBinary_of_split hsplit
          have hlogical : ¬strict.toBinary.isLogical = true := by cases strict <;> decide
          rw [BinaryOp.Types, if_neg hlogical, l.ty_of_key hl hkl] at hop
          exact hop.2
      · cases hk

namespace Share

section

variable {labels : List Nat} {name : String} {y : Nat}

/-- A temporary in the place of an expression of its type. -/
theorem consistent_temporary (hy : y < F.symbols.size) {n : Note} (h : n.ty = (F.symbol y).ty) :
    (Expr.ident { n with symbol := some y } name).Consistent F := by
  rintro z ⟨⟩
  exact ⟨hy, h⟩

mutual

/-- **Temporaries** in the place of subexpressions of their type leave an expression consistent, and
its type as it was. -/
theorem consistent_substitute (hy : y < F.symbols.size) : ∀ e : Expr, e.Consistent F →
    (∀ d ∈ e.parts, labels.contains d.note.id = true → d.ty = (F.symbol y).ty) →
    (substitute labels name y e).Consistent F ∧ (substitute labels name y e).ty = e.ty
  | .lit _ _, h, hall | .ident _ _, h, hall | .lambda _ _ _, h, hall => by
      rw [substitute]
      split
      · next hl => exact ⟨consistent_temporary hy (hall _ (Expr.mem_parts_self _) hl), rfl⟩
      · exact ⟨h, rfl⟩
  | .unary _ _ e, h, hall | .cast _ e _, h, hall => by
      rw [substitute]
      split
      · next hl => exact ⟨consistent_temporary hy (hall _ (Expr.mem_parts_self _) hl), rfl⟩
      · obtain ⟨he, hty⟩ := consistent_substitute hy e h.1 fun d hd =>
          hall d (List.mem_cons_of_mem _ hd)
        exact ⟨⟨he, hty ▸ h.2⟩, rfl⟩
  | .binary _ _ a b, h, hall | .index _ a b, h, hall => by
      rw [substitute]
      split
      · next hl => exact ⟨consistent_temporary hy (hall _ (Expr.mem_parts_self _) hl), rfl⟩
      · obtain ⟨hparts, hparts'⟩ := List.forall_mem_append.mp (List.forall_mem_cons.mp hall).2
        obtain ⟨ha, hta⟩ := consistent_substitute hy a h.1 hparts
        obtain ⟨hb, htb⟩ := consistent_substitute hy b h.2.1 hparts'
        refine ⟨⟨ha, hb, ?_⟩, rfl⟩
        rw [hta, htb]
        exact h.2.2
  | .assign _ a b, h, hall => by
      rw [substitute]
      split
      · next hl => exact ⟨consistent_temporary hy (hall _ (Expr.mem_parts_self _) hl), rfl⟩
      · obtain ⟨hparts, hparts'⟩ := List.forall_mem_append.mp (List.forall_mem_cons.mp hall).2
        exact ⟨⟨(consistent_substitute hy a h.1 hparts).1,
          (consistent_substitute hy b h.2 hparts').1⟩, rfl⟩
  | .call _ g args, h, hall => by
      rw [substitute]
      split
      · next hl => exact ⟨consistent_temporary hy (hall _ (Expr.mem_parts_self _) hl), rfl⟩
      · obtain ⟨hparts, hparts'⟩ := List.forall_mem_append.mp (List.forall_mem_cons.mp hall).2
        exact ⟨⟨(consistent_substitute hy g h.1 hparts).1,
          (allConsistent_substitute hy args h.2 hparts').1⟩, rfl⟩
  | .list _ items, h, hall => by
      rw [substitute]
      split
      · next hl => exact ⟨consistent_temporary hy (hall _ (Expr.mem_parts_self _) hl), rfl⟩
      · obtain ⟨hitems, t, hty, htys⟩ := h
        obtain ⟨hsub, htys'⟩ := allConsistent_substitute hy items hitems
          (List.forall_mem_cons.mp hall).2
        exact ⟨⟨hsub, t, hty, htys' t htys⟩, rfl⟩

/-- Replacing repetitions by a variable of their type leaves expressions consistent, and their types
as they were. -/
theorem allConsistent_substitute (hy : y < F.symbols.size) : ∀ es : List Expr,
    Expr.AllConsistent F es →
    (∀ d ∈ Expr.partsOf es, labels.contains d.note.id = true → d.ty = (F.symbol y).ty) →
    Expr.AllConsistent F (substituteAll labels name y es) ∧
      ∀ t, (∀ e ∈ es, e.ty = t) → ∀ e ∈ substituteAll labels name y es, e.ty = t
  | [], _, _ => ⟨trivial, fun _ _ _ he => by cases he⟩
  | e :: es, h, hall => by
      obtain ⟨hparts, hparts'⟩ := List.forall_mem_append.mp hall
      obtain ⟨he, hty⟩ := consistent_substitute hy e h.1 hparts
      obtain ⟨hes, htys⟩ := allConsistent_substitute hy es h.2 hparts'
      refine ⟨⟨he, hes⟩, fun t ht => List.forall_mem_cons.mpr ⟨?_, ?_⟩⟩
      · exact hty.trans (ht e List.mem_cons_self)
      · exact htys t fun d hd => ht d (List.mem_cons_of_mem e hd)

end

end

/-- An operation is no lambda. -/
theorem Operation.isLambda {e : Expr} (h : Operation e) : e.isLambda = false := by
  cases h <;> rfl

/-- More facts, with which some expressions are consistent. -/
structure Fitting (F F' : Facts) (es : List Expr) : Prop where
  more : F.Extends F'
  settled : F'.Settled
  consistent : ∀ e ∈ es, e.Consistent F'

section

variable {function : Nat} {s : Supply}

/-- Facts fit the expressions that are consistent with them. -/
theorem Fitting.refl (hF : F.Settled) {es : List Expr} (h : ∀ e ∈ es, e.Consistent F) :
    Fitting F F es :=
  ⟨.refl F, hF, h⟩

/-- Expressions after others. -/
theorem Fitting.append {F'' : Facts} {es ds : List Expr} (h : Fitting F F' es)
    (h' : Fitting F' F'' ds) : Fitting F F'' (es ++ ds) :=
  ⟨h.more.trans h'.more, h'.settled, List.forall_mem_append.mpr
    ⟨fun e he => (h.consistent e he).extend h.settled h'.more, h'.consistent⟩⟩

/-- Expressions that sharing leaves alone. -/
theorem Fitting.keep {es : List Expr} (h : Fitting F F' es) (hF : F.Settled) {ds : List Expr}
    (hds : ∀ e ∈ ds, e.Consistent F) : Fitting F F' (es ++ ds) :=
  ⟨h.more, h.settled, List.forall_mem_append.mpr
    ⟨h.consistent, fun e he => (hds e he).extend hF h.more⟩⟩

/-- **Expressions.** The declarations for an expression, and what is left of it, fit the new facts.
The induction is on the rounds: each one declares a temporary for the first repeated subexpression
and shares what is in its value, and then what is left. -/
theorem consistent_expr (fuel : Nat) : ∀ {e : Expr} {s : Supply},
    function < s.facts.functions.size → s.facts.Settled → e.Consistent s.facts →
    Distinct s.labels e.labels →
    Fitting s.facts ((expr function fuel e).run s).2.facts
      (Stmt.rootsOf ((expr function fuel e).run s).1.1 ++ [((expr function fuel e).run s).1.2]) := by
  induction fuel with
  | zero => exact fun _ hF he _ => .refl hF (List.forall_mem_singleton.mpr he)
  | succ fuel ih =>
      intro e s hf hF he hd
      cases hw : e.mayWrite with
      | true =>
          rw [expr, hw]
          exact .refl hF (List.forall_mem_singleton.mpr he)
      | false =>
          cases hr : repeated? e with
          | none =>
              rw [expr, hw, hr]
              exact .refl hF (List.forall_mem_singleton.mpr he)
          | some r =>
              obtain ⟨first, labels⟩ := r
              obtain ⟨c, hc, rfl, hkeys⟩ := keys_of_repeated? (fun x =>
                Nat.le_trans (hd x) (by unfold fresh; split <;> omega)) hr
              rw [run_expr_succ hw hr]
              dsimp only
              rw [Facts.addTemporary_symbol]
              generalize (s!"%t{s.facts.symbols.size}" : String) = name
              have hcand := isCandidate e hc
              have hfirst := Expr.consistent_of_mem_parts he hcand.mem
              have hmore := Facts.addTemporary_extends (F := s.facts) name c.expr.ty hf
              have hF₁ := hF.addTemporary name c.expr.ty hf
              obtain ⟨hinit, -⟩ := hfirst.withNote
                (n := { id := s.labels, range := c.expr.range, ty := c.expr.ty }) rfl rfl hcand.operation.isLambda
              have hi := ih (s := s.declared (s.facts.addTemporary name c.expr.ty function).1 c.expr.ty)
                (hmore.functions_size ▸ hf) hF₁ (hinit.extend hF hmore) (hd.withNote hc rfl)
              have hle := (from_expr 0 function fuel _ (c.expr.withNote
                { id := s.labels, range := c.expr.range, ty := c.expr.ty })
                (s.declared (s.facts.addTemporary name c.expr.ty function).1 c.expr.ty) rfl).1
              generalize hrun : (expr function fuel (c.expr.withNote
                { id := s.labels, range := c.expr.range, ty := c.expr.ty })).run
                  (s.declared (s.facts.addTemporary name c.expr.ty function).1 c.expr.ty) = run at hi hle ⊢
              -- All that the temporary stands for has the type of its key.
              have hfresh : s.facts.symbols.size <
                  (s.facts.addTemporary name c.expr.ty function).1.symbols.size := by
                rw [Facts.symbols_addTemporary, Array.size_push]
                exact Nat.lt_succ_self _
              have hty : (run.2.facts.symbol s.facts.symbols.size).ty = c.expr.ty := by
                rw [hi.more.symbol _ hfresh, Supply.declared_facts, Facts.symbol_addTemporary_self]
                rfl
              have hparts : ∀ d ∈ e.parts, labels.contains d.note.id = true →
                  d.ty = (run.2.facts.symbol s.facts.symbols.size).ty := fun d hmem hlabel => by
                rw [hty, d.ty_of_key (Expr.consistent_of_mem_parts he hmem) (hkeys d hmem hlabel),
                  c.expr.ty_of_key hfirst hcand.key]
              have hrest : (substitute labels name s.facts.symbols.size e).Consistent run.2.facts :=
                (consistent_substitute (Nat.lt_of_lt_of_le hfresh hi.more.symbols_le) e
                  (he.extend hF (hmore.trans hi.more)) hparts).1
              have hr := ih ((hmore.trans hi.more).functions_size ▸ hf) hi.settled hrest
                fun x => Nat.le_trans (count_substitute x labels name s.facts.symbols.size e)
                  (Nat.le_trans (hd x) (fresh_mono (by rw [Supply.declared_labels] at hle; omega)))
              have happ := hi.append hr
              refine ⟨hmore.trans happ.more, happ.settled, ?_⟩
              rw [Stmt.rootsOf_append, Stmt.rootsOf, Stmt.roots]
              simpa only [List.append_assoc] using happ.consistent

/-- **Statements.** The declarations for a statement, and the statement. Only the expression that is
evaluated first is shared, so the others just have to stay consistent. -/
theorem consistent_stmt {a : Stmt} (hf : function < s.facts.functions.size) (hF : s.facts.Settled)
    (ha : ∀ e ∈ a.roots, e.Consistent s.facts) (hd : Distinct s.labels a.labels) :
    Fitting s.facts ((stmt function a).run s).2.facts
      (Stmt.rootsOf ((stmt function a).run s).1.1 ++ ((stmt function a).run s).1.2.roots) := by
  have hroot : ∀ {e : Expr}, e.Consistent s.facts → (∀ x, e.labels.count x ≤ a.labels.count x) →
      Fitting s.facts ((root function e).run s).2.facts
        (Stmt.rootsOf ((root function e).run s).1.1 ++ [((root function e).run s).1.2]) :=
    fun he hle => consistent_expr _ hf hF he fun x => Nat.le_trans (hle x) (hd x)
  cases a with
  | letVar n name ty e =>
      exact hroot (List.forall_mem_singleton.mp ha) fun x => by
        simp only [Stmt.labels, List.count_append]; omega
  | expr n e =>
      exact hroot (List.forall_mem_singleton.mp ha) fun x => by
        simp only [Stmt.labels, List.count_append]; omega
  | ret n value =>
      cases value with
      | none => exact .refl hF ha
      | some e =>
          exact hroot (List.forall_mem_singleton.mp ha) fun x => by
            simp only [Stmt.labels, List.count_append]; omega
  | cond n test yes no =>
      cases no with
      | none =>
          obtain ⟨htest, hyes⟩ := List.forall_mem_cons.mp ha
          have hall := (hroot htest fun x => by
            simp only [Stmt.labels, List.count_append]; omega).keep hF hyes
          rw [List.append_assoc] at hall
          exact hall
      | some no =>
          obtain ⟨htest, hrest⟩ := List.forall_mem_cons.mp ha
          have hall := (hroot htest fun x => by
            simp only [Stmt.labels, List.count_append]; omega).keep hF hrest
          rw [List.append_assoc] at hall
          exact hall
  | block b => exact .refl hF ha
  | fnDecl n name signature b => exact .refl hF ha
  | whileLoop n test b => exact .refl hF ha
  | loop n b => exact .refl hF ha
  | breakLoop n => exact .refl hF ha
  | continueLoop n => exact .refl hF ha

/-- Sharing in statements leaves their expressions consistent with the facts, to which it adds the
temporaries. -/
theorem consistent_stmts : ∀ (ss : List Stmt) {s : Supply}, function < s.facts.functions.size →
    s.facts.Settled → (∀ e ∈ Stmt.rootsOf ss, e.Consistent s.facts) →
    Distinct s.labels (Stmt.labelsOf ss) →
    Fitting s.facts ((stmts function ss).run s).2.facts
      (Stmt.rootsOf ((stmts function ss).run s).1.1)
  | [], _, _, hF, hss, _ => .refl hF hss
  | a :: ss, s, hf, hF, hss, hd => by
      obtain ⟨ha, hss⟩ := List.forall_mem_append.mp hss
      have hstmt := consistent_stmt hf hF ha fun x => by
        have := hd x
        rw [Stmt.labelsOf, List.count_append] at this
        omega
      have hle := (from_stmt 0 function _ a s rfl).1
      have hrest := consistent_stmts ss (s := ((stmt function a).run s).2)
        (hstmt.more.functions_size ▸ hf) hstmt.settled
        (fun e he => (hss e he).extend hF hstmt.more) fun x => by
          have := hd x
          have := fresh_mono hle (x := x)
          simp only [Stmt.labelsOf, List.count_append] at *
          omega
      have hall := hstmt.append hrest
      change Fitting _ _ (Stmt.rootsOf (((stmt function a).run s).1.1 ++
        ((stmt function a).run s).1.2 :: ((stmts function ss).run ((stmt function a).run s).2).1.1))
      rw [Stmt.rootsOf_append, Stmt.rootsOf, ← List.append_assoc]
      exact hall

/-- **Shared subexpressions.** A block with temporaries keeps types: its statements are shared one
after the other, and then its tail. -/
theorem consistent_block {b : Block} (hf : function < s.facts.functions.size) (hF : s.facts.Settled)
    (hb : b.Consistent s.facts) (hd : Distinct s.labels b.labels) :
    ((block function b).run s).2.facts.Settled ∧
      ((block function b).run s).1.1.Consistent ((block function b).run s).2.facts := by
  obtain ⟨n, ss, tail⟩ := b
  have hd' : Distinct s.labels (Stmt.labelsOf ss) := fun x => by
    have := hd x
    cases tail <;> simp only [Block.labels, List.count_append] at this <;> omega
  cases tail with
  | none =>
      have hstmts := consistent_stmts ss hf hF hb hd'
      exact ⟨hstmts.settled, hstmts.consistent⟩
  | some e =>
      obtain ⟨hss, he⟩ := List.forall_mem_append.mp hb
      have hstmts := consistent_stmts ss hf hF hss hd'
      have hle := (from_stmts 0 function _ ss s rfl).1
      have hroot := consistent_expr (extent e) (s := ((stmts function ss).run s).2)
        (hstmts.more.functions_size ▸ hf) hstmts.settled
        ((List.forall_mem_singleton.mp he).extend hF hstmts.more) fun x => by
          have := hd x
          have := fresh_mono hle (x := x)
          simp only [Block.labels, List.count_append] at *
          omega
      have hall := hstmts.append hroot
      refine ⟨hall.settled, ?_⟩
      change ∀ d ∈ Stmt.rootsOf (((stmts function ss).run s).1.1 ++
        ((root function e).run ((stmts function ss).run s).2).1.1) ++
          [((root function e).run ((stmts function ss).run s).2).1.2], d.Consistent _
      rw [Stmt.rootsOf_append, List.append_assoc]
      exact hall.consistent

end

end Share

/-! ### Replaced blocks -/

section

variable {label : Nat} {new : Block}

/-- A changed block inside an expression leaves its type. -/
theorem Expr.ty_update (e : Expr) : (e.update label fun _ => new).ty = e.ty :=
  congrArg Note.ty e.note_update

mutual

/-- A changed block inside an expression leaves it consistent, as the lambda around it keeps its
signature. -/
theorem Expr.consistent_update : ∀ e : Expr, e.Consistent F →
    (e.update label fun _ => new).Consistent F
  | .lit _ _, h | .ident _ _, h | .lambda _ _ _, h => h
  | .unary _ _ e, h | .cast _ e _, h => ⟨e.consistent_update h.1, by
      rw [e.ty_update]
      exact h.2⟩
  | .binary _ _ a b, h | .index _ a b, h => ⟨a.consistent_update h.1, b.consistent_update h.2.1, by
      rw [a.ty_update, b.ty_update]
      exact h.2.2⟩
  | .assign _ t v, h => ⟨t.consistent_update h.1, v.consistent_update h.2⟩
  | .call _ g args, h => ⟨g.consistent_update h.1, (Expr.allConsistent_update args h.2).1⟩
  | .list _ items, ⟨hitems, t, hty, hall⟩ =>
      ⟨(Expr.allConsistent_update items hitems).1, t, hty,
        (Expr.allConsistent_update items hitems).2 t hall⟩

/-- A changed block inside expressions leaves them consistent. -/
theorem Expr.allConsistent_update : ∀ es : List Expr, Expr.AllConsistent F es →
    Expr.AllConsistent F (Expr.updateAll label (fun _ => new) es) ∧
      ∀ t, (∀ e ∈ es, e.ty = t) → ∀ e ∈ Expr.updateAll label (fun _ => new) es, e.ty = t
  | [], _ => ⟨trivial, fun _ _ _ he => by cases he⟩
  | e :: es, h => by
      obtain ⟨hes, htys⟩ := Expr.allConsistent_update es h.2
      refine ⟨⟨e.consistent_update h.1, hes⟩, fun t ht => List.forall_mem_cons.mpr ⟨?_, ?_⟩⟩
      · exact e.ty_update.trans (ht e List.mem_cons_self)
      · exact htys t fun d hd => ht d (List.mem_cons_of_mem e hd)

end

mutual

/-- A consistent block put inside a statement leaves its expressions consistent. -/
theorem Stmt.consistent_update (hnew : new.Consistent F) : ∀ s : Stmt,
    (∀ e ∈ s.roots, e.Consistent F) → ∀ e ∈ (s.update label fun _ => new).roots, e.Consistent F
  | .block b, h | .loop _ b, h => b.consistent_update hnew h
  | .letVar _ _ _ e, h | .expr _ e, h | .ret _ (some e), h =>
      List.forall_mem_singleton.mpr (e.consistent_update (List.forall_mem_singleton.mp h))
  | .fnDecl _ _ _ _, h | .ret _ none, h | .breakLoop _, h | .continueLoop _, h => h
  | .cond _ test yes none, h => by
      obtain ⟨htest, hyes⟩ := List.forall_mem_cons.mp h
      exact List.forall_mem_cons.mpr ⟨test.consistent_update htest, yes.consistent_update hnew hyes⟩
  | .cond _ test yes (some no), h => by
      obtain ⟨htest, hrest⟩ := List.forall_mem_cons.mp h
      obtain ⟨hyes, hno⟩ := List.forall_mem_append.mp hrest
      exact List.forall_mem_cons.mpr ⟨test.consistent_update htest, List.forall_mem_append.mpr
        ⟨yes.consistent_update hnew hyes, no.consistent_update hnew hno⟩⟩
  | .whileLoop _ test b, h => by
      obtain ⟨htest, hb⟩ := List.forall_mem_cons.mp h
      exact List.forall_mem_cons.mpr ⟨test.consistent_update htest, b.consistent_update hnew hb⟩

/-- A consistent block put inside statements leaves their expressions consistent. -/
theorem Stmt.allConsistent_update (hnew : new.Consistent F) : ∀ ss : List Stmt,
    (∀ e ∈ Stmt.rootsOf ss, e.Consistent F) →
    ∀ e ∈ Stmt.rootsOf (Stmt.updateAll label (fun _ => new) ss), e.Consistent F
  | [], h => h
  | s :: ss, h => by
      obtain ⟨hs, hss⟩ := List.forall_mem_append.mp h
      exact List.forall_mem_append.mpr
        ⟨s.consistent_update hnew hs, Stmt.allConsistent_update hnew ss hss⟩

/-- **Replaced blocks.** A consistent block may stand in the place of another one. -/
theorem Block.consistent_update (hnew : new.Consistent F) : ∀ b : Block, b.Consistent F →
    (b.update label fun _ => new).Consistent F
  | .mk n ss none, h => by
      rw [Block.update]
      split
      · exact hnew
      · exact Stmt.allConsistent_update hnew ss h
  | .mk n ss (some e), h => by
      rw [Block.update]
      split
      · exact hnew
      · obtain ⟨hss, he⟩ := List.forall_mem_append.mp h
        exact List.forall_mem_append.mpr ⟨Stmt.allConsistent_update hnew ss hss,
          List.forall_mem_singleton.mpr (e.consistent_update (List.forall_mem_singleton.mp he))⟩

end

end

end

end Parlance
