import Parlance.Proofs.Analysis.Accepted
import Parlance.Proofs.Tree.Arena
import Parlance.Proofs.Tree.Noted

/-!
# Notes of accepted programs

Analysis numbers all functions, also where it reports errors, and it gives operators no symbols.
Together with the types of an accepted program this is what `Block.Noted` asks for. Labels tell
blocks apart, so a label says to which function a block belongs.

## Main results

* `Analyze.numbered_programBody`: the notes that analysis leaves.
* `Analyzed.Accepted.noted`: the notes of an accepted program.
-/

namespace Parlance

/-! ### Numbered functions -/

def Stmt.isFnDecl : Stmt → Bool
  | .fnDecl _ _ _ _ => true
  | _ => false

mutual

/-- Functions are numbered, and the nodes of operators have no symbol. -/
def Expr.Numbered : Expr → Prop
  | .lit _ _ | .ident _ _ => True
  | .unary _ _ e | .cast _ e _ => e.Numbered
  | .binary n _ a b => n.symbol = none ∧ a.Numbered ∧ b.Numbered
  | .assign _ (.index _ (.ident _ _) i) v => i.Numbered ∧ v.Numbered
  | .assign _ _ v => v.Numbered
  | .index _ a b => a.Numbered ∧ b.Numbered
  | .call _ f args => f.Numbered ∧ Expr.AllNumbered args
  | .list _ items => Expr.AllNumbered items
  | .lambda n _ b => n.function.isSome = true ∧ b.Numbered

def Expr.AllNumbered : List Expr → Prop
  | [] => True
  | e :: es => e.Numbered ∧ Expr.AllNumbered es

/-- Functions are numbered, and the alternative of a conditional declares nothing. -/
def Stmt.Numbered : Stmt → Prop
  | .block b | .loop _ b => b.Numbered
  | .letVar _ _ _ e | .expr _ e | .ret _ (some e) => e.Numbered
  | .fnDecl n _ _ b => n.function.isSome = true ∧ b.Numbered
  | .ret _ none | .breakLoop _ | .continueLoop _ => True
  | .cond _ test yes none => test.Numbered ∧ yes.Numbered
  | .cond _ test yes (some no) =>
    test.Numbered ∧ yes.Numbered ∧ no.declared = [] ∧ no.Numbered
  | .whileLoop _ test b => test.Numbered ∧ b.Numbered

def Stmt.AllNumbered : List Stmt → Prop
  | [] => True
  | s :: ss => s.Numbered ∧ Stmt.AllNumbered ss

def Block.Numbered : Block → Prop
  | .mk _ ss none => Stmt.AllNumbered ss
  | .mk _ ss (some e) => Stmt.AllNumbered ss ∧ e.Numbered

end

namespace Analyze

variable {α β : Type}

/-- What a part of analysis gives has a property, with or without errors. -/
def Leaves (m : Analyze α) (P : α → Prop) : Prop :=
  ∀ s, P (m s).1

section Rules

variable {P : α → Prop} {Q : β → Prop}

/-- A result that is there already is what is given. -/
theorem Leaves.pure {a : α} (h : P a) : Leaves (Pure.pure a) P :=
  fun _ => h

/-- Of two parts in a row the second one gives the result, and it may rely on what the first one
gave. -/
theorem Leaves.bind {m : Analyze α} {f : α → Analyze β} (hm : Leaves m P)
    (hf : ∀ a, P a → Leaves (f a) Q) : Leaves (m >>= f) Q :=
  fun s => hf _ (hm s) _

/-- Nothing needs to be known about the first part of a sequence. -/
theorem Leaves.after {m : Analyze α} {f : α → Analyze β} (hf : ∀ a, Leaves (f a) Q) :
    Leaves (m >>= f) Q :=
  fun s => hf (m s).1 (m s).2

/-- A scope around a part of analysis does not change what it gives. -/
theorem Leaves.inScope {m : Analyze α} {kind : ScopeKind} (h : Leaves m P) :
    Leaves (inScope kind m) P :=
  .after fun _ => .after fun _ => .after fun _ => h.bind fun _ ha => .after fun _ => .pure ha

/-- A function around a part of analysis does not change what it gives. -/
theorem Leaves.inFunction {m : Analyze α} {function : Nat} {signature : Signature} {place : Range}
    (h : Leaves m P) : Leaves (inFunction function signature place m) P :=
  .after fun _ => .after fun _ =>
    (Leaves.inScope (.after fun _ => .after fun _ => .after fun _ => .after fun _ => h)).bind
      fun _ ha => .after fun _ => .after fun _ => .after fun _ => .pure ha

/-- A loop around a part of analysis does not change what it gives. -/
theorem Leaves.inLoop {m : Analyze α} (h : Leaves m P) : Leaves (inLoop m) P :=
  .after fun _ => h.bind fun _ ha => .after fun _ => .pure ha

/-- A check in front of the result does not matter. -/
theorem Leaves.checked {m : Analyze β} {c : Prop} [Decidable c] {a : α} (h : P a) :
    Leaves (if c then m >>= fun _ => Pure.pure a else Pure.pure a) P := by
  split
  · exact .after fun _ => .pure h
  · exact .pure h

/-- A settled type changes at most the type in the note. -/
theorem leaves_settle {P : Expr → Prop} {want : Option Ty} {e : Expr} (h : P e) :
    Leaves (settle want e) P := by
  unfold settle
  split
  · exact .pure h
  · exact .checked h

end Rules

/-- Every function declaration is declared before. -/
def Aligned : List Stmt → List (Option Declared) → Prop
  | [], _ => True
  | s :: ss, ds => (s.isFnDecl = true → ds.head?.join.isSome = true) ∧ Aligned ss ds.tail

/-- Every function declaration of a list of statements is declared ahead. -/
theorem leaves_hoist (ss : List Stmt) : Leaves (hoist ss) (Aligned ss) := by
  induction ss with
  | nil => exact .pure trivial
  | cons s ss ih =>
      cases s with
      | fnDecl n name signature b =>
          rw [hoist]
          exact .after fun _ => .after fun _ => ih.bind fun ds hds => .pure ⟨fun _ => rfl, hds⟩
      | _ => exact ih.bind fun ds hds => .pure ⟨fun h => (Bool.false_ne_true h).elim, hds⟩

/-- The alternative of a conditional is a block or a conditional again. -/
theorem leaves_alternate {s : Stmt} (h : s.IsAlternate) :
    Leaves (stmt s none) fun s' => s'.declared = [] := by
  cases s with
  | block b =>
      rw [stmt]
      exact .after fun _ => .pure rfl
  | cond n test yes no =>
      cases no with
      | none =>
          rw [stmt]
          exact .after fun _ => .after fun _ => .pure rfl
      | some no =>
          rw [stmt]
          exact .after fun _ => .after fun _ => .after fun _ => .pure rfl
  | _ => exact h.elim

/-- What is given has both of two properties if it has each. -/
theorem Leaves.and {m : Analyze α} {P Q : α → Prop} (h : Leaves m P) (h' : Leaves m Q) :
    Leaves m fun a => P a ∧ Q a :=
  fun s => ⟨h s, h' s⟩

mutual

/-- **Expressions.** Analysis numbers every function in an expression and gives no symbol to an
operator, with or without errors. -/
theorem numbered_expr : ∀ (e : Expr) (want : Option Ty), e.Regular →
    Leaves (expr want e) Expr.Numbered
  | .lit _ _, _, _ => by
      rw [expr]
      exact leaves_settle trivial
  | .ident _ _, _, _ => by
      rw [expr]
      refine .after fun y => ?_
      cases y with
      | some y => exact .after fun _ => leaves_settle trivial
      | none => exact leaves_settle trivial
  | .unary _ .neg e, _, h => by
      rw [expr]
      exact (numbered_expr e _ h).bind fun _ he => .after fun _ => leaves_settle he
  | .unary _ .not e, _, h => by
      rw [expr]
      exact (numbered_expr e _ h).bind fun _ he => leaves_settle he
  | .binary _ op l r, _, h => by
      rw [expr]
      split
      · exact (numbered_expr l _ h.2.1).bind fun _ hl => (numbered_expr r _ h.2.2).bind fun _ hr =>
          leaves_settle ⟨h.1, hl, hr⟩
      · exact (numbered_expr l _ h.2.1).bind fun _ hl => (numbered_expr r _ h.2.2).bind fun _ hr =>
          .after fun _ => leaves_settle ⟨h.1, hl, hr⟩
  | .assign _ (.ident _ _) v, _, h => by
      rw [expr]
      refine .after fun y => ?_
      cases y with
      | none => exact (numbered_expr v _ h.2).bind fun _ hv => leaves_settle hv
      | some y =>
          refine .after fun ty => ?_
          cases ty with
          | none => exact .after fun _ => (numbered_expr v _ h.2).bind fun _ hv => leaves_settle hv
          | some ty => exact (numbered_expr v _ h.2).bind fun _ hv => leaves_settle hv
  | .assign _ (.index _ (.ident _ _) i) v, _, h => by
      rw [expr]
      exact .after fun _ => .after fun _ => (numbered_expr i _ h.1.2).bind fun _ hi =>
        .after fun _ => (numbered_expr v _ h.2).bind fun _ hv => leaves_settle ⟨hi, hv⟩
  | .assign _ (.lit _ _) v, _, h | .assign _ (.unary _ _ _) v, _, h
  | .assign _ (.binary _ _ _ _) v, _, h | .assign _ (.assign _ _ _) v, _, h
  | .assign _ (.call _ _ _) v, _, h | .assign _ (.list _ _) v, _, h
  | .assign _ (.cast _ _ _) v, _, h | .assign _ (.lambda _ _ _) v, _, h
  | .assign _ (.index _ (.lit _ _) _) v, _, h | .assign _ (.index _ (.unary _ _ _) _) v, _, h
  | .assign _ (.index _ (.binary _ _ _ _) _) v, _, h
  | .assign _ (.index _ (.assign _ _ _) _) v, _, h | .assign _ (.index _ (.call _ _ _) _) v, _, h
  | .assign _ (.index _ (.index _ _ _) _) v, _, h | .assign _ (.index _ (.list _ _) _) v, _, h
  | .assign _ (.index _ (.cast _ _ _) _) v, _, h
  | .assign _ (.index _ (.lambda _ _ _) _) v, _, h => by
      simp only [expr]
      exact .after fun _ => (numbered_expr v _ h.2).bind fun _ hv => leaves_settle hv
  | .call _ f args, _, h => by
      rw [expr]
      refine (numbered_expr f _ h.1).bind fun f' hf => .after fun mode => ?_
      cases mode with
      | params tys =>
          exact (numbered_exprsAgainst args tys h.2).bind fun _ ha => .after fun _ =>
            leaves_settle ⟨hf, ha⟩
      | all want =>
          exact (numbered_exprs args want h.2).bind fun _ ha => .after fun _ =>
            leaves_settle ⟨hf, ha⟩
      | push =>
          exact (numbered_pushArgs args h.2).bind fun _ ha => .after fun _ =>
            leaves_settle ⟨hf, ha⟩
  | .index _ t i, _, h => by
      rw [expr]
      exact (numbered_expr t _ h.1).bind fun _ ht => (numbered_expr i _ h.2).bind fun _ hi =>
        .after fun _ => leaves_settle ⟨ht, hi⟩
  | .list _ [], want, _ => by
      rw [expr.eq_def]
      dsimp only
      split
      · exact .pure trivial
      · exact .after fun _ => leaves_settle trivial
  | .list _ (e :: es), want, h => by
      rw [expr.eq_def]
      dsimp only
      split
      · exact (numbered_expr e _ h.1).bind fun _ he => (numbered_exprs es _ h.2).bind fun _ hes =>
          .pure ⟨he, hes⟩
      · exact (numbered_expr e _ h.1).bind fun _ he => (numbered_exprs es _ h.2).bind fun _ hes =>
          leaves_settle ⟨he, hes⟩
  | .cast _ e _, _, h => by
      rw [expr]
      exact (numbered_expr e _ h).bind fun _ he => .after fun _ => leaves_settle he
  | .lambda _ signature b, _, h => by
      rw [expr]
      exact .after fun _ => (Leaves.inFunction (numbered_functionBody b signature h.2)).bind
        fun _ hb => leaves_settle ⟨rfl, hb⟩

/-- Analysis numbers the functions in expressions that are expected to have one type. -/
theorem numbered_exprs : ∀ (es : List Expr) (want : Option Ty), Expr.AllRegular es →
    Leaves (exprs want es) Expr.AllNumbered
  | [], _, _ => .pure trivial
  | e :: es, want, h => by
      rw [exprs]
      exact (numbered_expr e want h.1).bind fun _ he => (numbered_exprs es want h.2).bind fun _ hes =>
        .pure ⟨he, hes⟩

/-- Analysis numbers the functions in expressions with a type for each of them. -/
theorem numbered_exprsAgainst : ∀ (es : List Expr) (tys : List Ty), Expr.AllRegular es →
    Leaves (exprsAgainst tys es) Expr.AllNumbered
  | [], _, _ => by
      rw [exprsAgainst]
      exact .pure trivial
  | e :: es, tys, h => by
      rw [exprsAgainst]
      exact (numbered_expr e _ h.1).bind fun _ he => (numbered_exprsAgainst es _ h.2).bind fun _ hes =>
        .pure ⟨he, hes⟩

/-- Analysis numbers the functions in the arguments of `push`. -/
theorem numbered_pushArgs : ∀ es : List Expr, Expr.AllRegular es →
    Leaves (pushArgs es) Expr.AllNumbered
  | [], _ => by
      rw [pushArgs]
      exact .pure trivial
  | e :: es, h => by
      rw [pushArgs]
      exact (numbered_expr e _ h.1).bind fun _ he => (numbered_exprs es _ h.2).bind fun _ hes =>
        .pure ⟨he, hes⟩

/-- Analysis numbers the functions in the body of a function. -/
theorem numbered_functionBody : ∀ (b : Block) (signature : Signature), b.Regular true →
    Leaves (functionBody signature b) Block.Numbered
  | .mk n ss none, signature, h => by
      rw [functionBody]
      exact (leaves_hoist ss).bind fun ds hds => (numbered_stmts ss ds h hds).bind fun _ hss =>
        .checked hss
  | .mk n ss (some e), signature, h => by
      rw [functionBody]
      exact (leaves_hoist ss).bind fun ds hds => (numbered_stmts ss ds h.2.1 hds).bind fun _ hss =>
        (numbered_expr e _ h.2.2).bind fun _ he => .pure ⟨hss, he⟩

/-- Analysis numbers the functions in a block. -/
theorem numbered_block : ∀ b : Block, b.Regular false → Leaves (block b) Block.Numbered
  | .mk n ss none, h => by
      rw [block]
      exact Leaves.inScope ((leaves_hoist ss).bind fun ds hds =>
        (numbered_stmts ss ds h hds).bind fun _ hss => .pure hss)
  | .mk n ss (some e), h => by simp [Block.Regular] at h

/-- Analysis numbers the functions in statements. Those that they declare were numbered ahead. -/
theorem numbered_stmts : ∀ (ss : List Stmt) (ds : List (Option Declared)), Stmt.AllRegular ss →
    Aligned ss ds → Leaves (stmts ss ds) Stmt.AllNumbered
  | [], _, _, _ => .pure trivial
  | s :: ss, ds, h, hds => by
      rw [stmts]
      exact (numbered_stmt s _ h.1 hds.1).bind fun _ hs =>
        (numbered_stmts ss _ h.2 hds.2).bind fun _ hss => .pure ⟨hs, hss⟩

/-- Analysis numbers the functions in a statement, and the one it declares. A declaration is
analyzed with what hoisting has noted of it; other statements declare nothing. -/
theorem numbered_stmt : ∀ (s : Stmt) (d : Option Declared), s.Regular →
    (s.isFnDecl = true → d.isSome = true) → Leaves (stmt s d) Stmt.Numbered
  | .block b, _, h, _ => by
      rw [stmt]
      exact (numbered_block b h).bind fun _ hb => .pure hb
  | .letVar _ _ _ e, _, h, _ => by
      rw [stmt]
      exact (numbered_expr e _ h.2).bind fun _ he => .after fun _ => .after fun _ => .pure he
  | .fnDecl _ _ signature b, none, _, hd => by simp [Stmt.isFnDecl] at hd
  | .fnDecl _ _ signature b, some d, h, _ => by
      rw [stmt]
      exact (Leaves.inFunction (numbered_functionBody b signature h.2)).bind fun _ hb =>
        .pure ⟨rfl, hb⟩
  | .ret _ none, _, _, _ => by
      rw [stmt]
      exact .after fun _ => .pure trivial
  | .ret _ (some e), _, h, _ => by
      rw [stmt]
      refine .after fun s => ?_
      cases s.context.returns with
      | some returns => exact (numbered_expr e _ h).bind fun _ he => .pure he
      | none => exact (numbered_expr e _ h).bind fun _ he => .after fun _ => .pure he
  | .cond _ test yes none, _, h, _ => by
      rw [stmt]
      exact (numbered_expr test _ h.1).bind fun _ ht => (numbered_block yes h.2).bind fun _ hy =>
        .pure ⟨ht, hy⟩
  | .cond _ test yes (some no), _, h, _ => by
      have hno : no.isFnDecl = true → (none : Option Declared).isSome = true := by
        cases no <;> first | exact h.2.2.1.elim | exact nofun
      rw [stmt]
      exact (numbered_expr test _ h.1).bind fun _ ht => (numbered_block yes h.2.1).bind fun _ hy =>
        ((leaves_alternate h.2.2.1).and (numbered_stmt no none h.2.2.2 hno)).bind fun _ hn =>
          .pure ⟨ht, hy, hn⟩
  | .whileLoop _ test b, _, h, _ => by
      rw [stmt]
      exact (numbered_expr test _ h.1).bind fun _ ht =>
        (Leaves.inLoop (numbered_block b h.2)).bind fun _ hb => .pure ⟨ht, hb⟩
  | .loop _ b, _, h, _ => by
      rw [stmt]
      exact (Leaves.inLoop (numbered_block b h)).bind fun _ hb => .pure hb
  | .breakLoop _, _, _, _ => by
      rw [stmt]
      exact .after fun _ => .pure trivial
  | .continueLoop _, _, _, _ => by
      rw [stmt]
      exact .after fun _ => .pure trivial
  | .expr _ e, _, h, _ => by
      rw [stmt]
      exact (numbered_expr e _ h).bind fun _ he => .pure he

end

/-- **Analysis numbers functions.** -/
theorem numbered_programBody (b : Block) (h : b.Regular true) :
    Leaves (programBody b) Block.Numbered := by
  obtain ⟨n, ss, tail⟩ := b
  cases tail with
  | none =>
      rw [programBody]
      exact (leaves_hoist ss).bind fun ds hds => (numbered_stmts ss ds h hds).bind fun _ hss =>
        .checked hss
  | some e =>
      rw [programBody]
      exact (leaves_hoist ss).bind fun ds hds => (numbered_stmts ss ds h.2.1 hds).bind fun _ hss =>
        (numbered_expr e _ h.2.2).bind fun _ he => .after fun _ => .pure ⟨hss, he⟩

end Analyze

/-! ### Owners -/

section

variable {owner : Nat → Nat} {F : Facts}

/-- The bodies of functions are typed. -/
def AllBodiesTyped (F : Facts) (functions : List FunctionBody) : Prop :=
  ∀ p ∈ functions, p.2.TypedBody F (F.info p.1).returns

/-- The labels of blocks say to which function they belong. -/
def Owns (owner : Nat → Nat) (blocks : List OwnedBlock) : Prop :=
  ∀ b ∈ blocks, owner b.1.note.id = b.2

/-- The bodies of functions in a row are typed if those of both parts are. -/
theorem allBodiesTyped_append {as bs : List FunctionBody} :
    AllBodiesTyped F (as ++ bs) ↔ AllBodiesTyped F as ∧ AllBodiesTyped F bs :=
  List.forall_mem_append

/-- Blocks in a row belong to functions as those of both parts do. -/
theorem owns_append {as bs : List OwnedBlock} : Owns owner (as ++ bs) ↔ Owns owner as ∧ Owns owner bs :=
  List.forall_mem_append

/-- A lambda is no operand of a logical operator, since that has type `bool`. -/
theorem Expr.isLambda_of_ty {e : Expr} (h : e.Typed F) (hty : e.ty = .bool) : e.isLambda = false := by
  cases e with
  | lambda n s b =>
      obtain ⟨f, -, hf⟩ := h
      rw [Expr.ty, Expr.note, hf] at hty
      cases hty
  | _ => rfl

/-- The bodies in a function that is made, and the functions inside it. -/
theorem allBodiesTyped_made {made : Option Nat} {f : Nat} {b : Block} (hf : made = some f)
    (h : AllBodiesTyped F ((made.map fun f => (f, b)).toList ++ if true then b.functions true else [])) :
    b.TypedBody F (F.info f).returns ∧ AllBodiesTyped F (b.functions true) := by
  rw [hf, if_pos rfl, allBodiesTyped_append] at h
  exact ⟨h.1 (f, b) (by simp), h.2⟩

mutual

/-- **Expressions.** A numbered and typed expression has right notes: lambdas have the function to
which their bodies belong. -/
theorem Expr.noted_of_typed : ∀ (e : Expr) {f : Nat}, e.Numbered → e.Typed F →
    AllBodiesTyped F (e.functions true) → Owns owner (e.blocks f) → e.Noted owner f
  | .lit _ _, _, _, _, _, _ | .ident _ _, _, _, _, _, _ => trivial
  | .unary _ _ e, _, hn, ht, hb, ho => e.noted_of_typed hn ht.1 hb ho
  | .cast _ e _, _, hn, ht, hb, ho => e.noted_of_typed hn ht.1 hb ho
  | .binary n op l r, _, hn, ht, hb, ho => by
      obtain ⟨hl, hr, hty, hop⟩ := ht
      have hb := allBodiesTyped_append.mp hb
      have ho := owns_append.mp ho
      refine ⟨fun hlog => ⟨hn.1, r.isLambda_of_ty hr ?_⟩, l.noted_of_typed hn.2.1 hl hb.1 ho.1,
        r.noted_of_typed hn.2.2 hr hb.2 ho.2⟩
      rw [BinaryOp.Types, if_pos hlog] at hop
      rw [hty, hop.1]
  | .assign _ (.ident _ _) v, _, hn, ht, hb, ho =>
      ⟨trivial, v.noted_of_typed hn ht.1 (allBodiesTyped_append.mp hb).2 (owns_append.mp ho).2⟩
  | .assign _ (.index _ (.ident _ _) i) v, _, hn, ht, hb, ho => by
      have hb := allBodiesTyped_append.mp hb
      have ho := owns_append.mp ho
      exact ⟨⟨trivial, i.noted_of_typed hn.1 ht.1 hb.1 ho.1⟩,
        v.noted_of_typed hn.2 ht.2.2.1 hb.2 ho.2⟩
  | .index _ a b, _, hn, ht, hb, ho => by
      have hb := allBodiesTyped_append.mp hb
      have ho := owns_append.mp ho
      exact ⟨a.noted_of_typed hn.1 ht.1 hb.1 ho.1, b.noted_of_typed hn.2 ht.2.1 hb.2 ho.2⟩
  | .call _ g args, _, hn, ht, hb, ho => by
      have hb := allBodiesTyped_append.mp hb
      have ho := owns_append.mp ho
      exact ⟨g.noted_of_typed hn.1 ht.1 hb.1 ho.1,
        Expr.allNoted_of_typed args hn.2 ht.2.1 hb.2 ho.2⟩
  | .list _ items, _, hn, ht, hb, ho => Expr.allNoted_of_typed items hn ht.1 hb ho
  | .lambda n _ b, _, hn, ht, hb, ho => by
      obtain ⟨g, hg, -⟩ := ht
      obtain ⟨hbody, hinner⟩ := allBodiesTyped_made hg hb
      rw [Expr.blocks, hg] at ho
      exact ⟨g, hg, b.noted_of_typedBody hn.2 hbody hinner ho⟩

/-- Numbered and typed expressions have right notes. -/
theorem Expr.allNoted_of_typed : ∀ (es : List Expr) {f : Nat}, Expr.AllNumbered es →
    Expr.AllTyped F es → AllBodiesTyped F (Expr.functionsOf true es) →
    Owns owner (Expr.blocksOf f es) → Expr.AllNoted owner f es
  | [], _, _, _, _, _ => trivial
  | e :: es, _, hn, ht, hb, ho => by
      have hb := allBodiesTyped_append.mp hb
      have ho := owns_append.mp ho
      exact ⟨e.noted_of_typed hn.1 ht.1 hb.1 ho.1, Expr.allNoted_of_typed es hn.2 ht.2 hb.2 ho.2⟩

/-- A numbered and typed statement has right notes. The bodies of its functions are among those that
are typed, and each belongs to the function that its number says. -/
theorem Stmt.noted_of_typed : ∀ (s : Stmt) {f : Nat} {r : Ty}, s.Numbered → s.Typed F r →
    AllBodiesTyped F (s.functions true) → Owns owner (s.blocks f) → s.Noted owner f
  | .block b, _, _, hn, ht, hb, ho | .loop _ b, _, _, hn, ht, hb, ho =>
      b.noted_of_typed hn ht hb ho
  | .letVar _ _ _ e, _, _, hn, ht, hb, ho => e.noted_of_typed hn ht.1 hb ho
  | .expr _ e, _, _, hn, ht, hb, ho => e.noted_of_typed hn ht hb ho
  | .ret _ (some e), _, _, hn, ht, hb, ho => e.noted_of_typed hn ht.1 hb ho
  | .ret _ none, _, _, _, _, _, _ | .breakLoop _, _, _, _, _, _, _
  | .continueLoop _, _, _, _, _, _, _ => trivial
  | .fnDecl n _ _ b, _, _, hn, _, hb, ho => by
      obtain ⟨g, hg⟩ := Option.isSome_iff_exists.mp hn.1
      obtain ⟨hbody, hinner⟩ := allBodiesTyped_made hg hb
      rw [Stmt.blocks, hg] at ho
      exact ⟨g, hg, b.noted_of_typedBody hn.2 hbody hinner ho⟩
  | .cond _ test yes none, _, _, hn, ht, hb, ho => by
      have hb := allBodiesTyped_append.mp hb
      have ho := owns_append.mp ho
      exact ⟨test.noted_of_typed hn.1 ht.1 hb.1 ho.1, yes.noted_of_typed hn.2 ht.2.2 hb.2 ho.2⟩
  | .cond _ test yes (some no), _, _, hn, ht, hb, ho => by
      have hb := allBodiesTyped_append.mp hb
      have ho := owns_append.mp ho
      have hb' := allBodiesTyped_append.mp hb.1
      have ho' := owns_append.mp ho.1
      exact ⟨test.noted_of_typed hn.1 ht.1 hb'.1 ho'.1,
        yes.noted_of_typed hn.2.1 ht.2.2.1 hb'.2 ho'.2, hn.2.2.1,
        no.noted_of_typed hn.2.2.2 ht.2.2.2 hb.2 ho.2⟩
  | .whileLoop _ test b, _, _, hn, ht, hb, ho => by
      have hb := allBodiesTyped_append.mp hb
      have ho := owns_append.mp ho
      exact ⟨test.noted_of_typed hn.1 ht.1 hb.1 ho.1, b.noted_of_typed hn.2 ht.2.2 hb.2 ho.2⟩

/-- Numbered and typed statements have right notes. -/
theorem Stmt.allNoted_of_typed : ∀ (ss : List Stmt) {f : Nat} {r : Ty}, Stmt.AllNumbered ss →
    Stmt.AllTyped F r ss → AllBodiesTyped F (Stmt.functionsOf true ss) →
    Owns owner (Stmt.blocksOf f ss) → Stmt.AllNoted owner f ss
  | [], _, _, _, _, _, _ => trivial
  | s :: ss, _, _, hn, ht, hb, ho => by
      have hb := allBodiesTyped_append.mp hb
      have ho := owns_append.mp ho
      exact ⟨s.noted_of_typed hn.1 ht.1 hb.1 ho.1, Stmt.allNoted_of_typed ss hn.2 ht.2 hb.2 ho.2⟩

/-- A numbered and typed block has right notes. -/
theorem Block.noted_of_typed : ∀ (b : Block) {f : Nat} {r : Ty}, b.Numbered → b.Typed F r →
    AllBodiesTyped F (b.functions true) → Owns owner (b.blocks f) → b.Noted owner f
  | .mk _ ss none, _, _, hn, ht, hb, ho =>
      ⟨ho _ List.mem_cons_self, Stmt.allNoted_of_typed ss hn ht hb fun b hb =>
        ho b (List.mem_cons_of_mem _ hb)⟩

/-- A numbered and typed body has right notes. -/
theorem Block.noted_of_typedBody : ∀ (b : Block) {f : Nat} {r : Ty}, b.Numbered →
    b.TypedBody F r → AllBodiesTyped F (b.functions true) → Owns owner (b.blocks f) →
    b.Noted owner f
  | .mk _ ss none, _, _, hn, ht, hb, ho =>
      ⟨ho _ List.mem_cons_self, Stmt.allNoted_of_typed ss hn ht.1 hb fun b hb =>
        ho b (List.mem_cons_of_mem _ hb)⟩
  | .mk n ss (some e), f, _, hn, ht, hb, ho => by
      have hb := allBodiesTyped_append.mp hb
      have hparts := owns_append.mp fun b hb => ho b (List.mem_cons_of_mem _ hb)
      exact ⟨ho _ List.mem_cons_self, Stmt.allNoted_of_typed ss hn.1 ht.1 hb.1 hparts.1,
        e.noted_of_typed hn.2 ht.2.1 hb.2 hparts.2⟩

end

end

/-! ### Accepted programs -/

/-- The function to which the block with a label belongs. -/
def ownerIn (blocks : List OwnedBlock) (label : Nat) : Nat :=
  ((blocks.find? fun b => b.1.note.id == label).map Prod.snd).getD 0

/-- If labels tell blocks apart, they say to which function a block belongs. -/
theorem owns_ownerIn {blocks : List OwnedBlock} (h : (blockIds blocks).Nodup) :
    Owns (ownerIn blocks) blocks := by
  intro b hb
  have hfind : ∃ c, (blocks.find? fun c => c.1.note.id == b.1.note.id) = some c := by
    rw [← Option.isSome_iff_exists, List.find?_isSome]
    exact ⟨b, hb, by simp⟩
  obtain ⟨c, hc⟩ := hfind
  have hid : c.1.note.id = b.1.note.id := by simpa using List.find?_some hc
  rw [ownerIn, hc, List.inj_on_of_nodup_map h (List.mem_of_find?_eq_some hc) hb hid]
  rfl

/-- **Notes of accepted programs.** -/
theorem Analyzed.Accepted.noted {a : Analyzed} (h : a.Accepted) (hn : a.program.root.Numbered)
    (hl : (blockIds (a.program.root.blocks 0)).Nodup) :
    a.program.root.Noted (ownerIn (a.program.root.blocks 0)) 0 :=
  a.program.root.noted_of_typedBody hn h.main.typed
    (fun p hp => (h.made.accepts p hp).2.typed) (owns_ownerIn hl)

/-- The program that analysis gives has numbered functions. -/
theorem analyze_numbered {p : Program} (hreg : p.root.Regular true) :
    (analyze p).1.program.root.Numbered :=
  Analyze.numbered_programBody p.root hreg Analyze.initial

end Parlance
