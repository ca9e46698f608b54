import Parlance.Code.Generator
import Parlance.Proofs.Analysis.Scoping

/-!
# Names that code generation looks up

Code generation asks for the symbols of names. Analysis gives every name a symbol, but a change of
the tree may lose it: if a name takes the place of a logical operator, it gets the note of the
operator, which has none. So here it is said which names of a tree have no symbol, in the order in
which code generation comes to them, and what must hold of a tree otherwise.

## Main definitions

* `Analyzed.lost`: the names of a program without a symbol.
* `Block.Guarded`: no name can take the place of a logical operator.
* `Block.Resolved`: what is stored to has a symbol, and jumps stand in loops.

## Main results

* `Block.Resolved.lost_eq_nil`: if what is read has a symbol too, then no name is without one.
* `Facts.Accepts.resolved`: bodies that analysis accepts.
-/

namespace Parlance

/-! ### Names without a symbol -/

/-- A name that is read, if it has no symbol. -/
def Note.lost (n : Note) : List Note :=
  if n.symbol.isSome then [] else [n]

mutual

/-- The names without a symbol that an expression reads, from left to right. The bodies of lambdas
are code of other functions. -/
def Expr.lost : Expr → List Note
  | .lit _ _ | .lambda _ _ _ => []
  | .ident n _ => n.lost
  | .unary _ _ e | .cast _ e _ => e.lost
  | .binary _ _ a b | .index _ a b => a.lost ++ b.lost
  | .assign _ (.index _ _ i) v => i.lost ++ v.lost
  | .assign _ _ v => v.lost
  | .call _ f args => f.lost ++ Expr.lostOf args
  | .list _ items => Expr.lostOf items

def Expr.lostOf : List Expr → List Note
  | [] => []
  | e :: es => e.lost ++ Expr.lostOf es

end

mutual

/-- The names without a symbol that a statement reads. -/
def Stmt.lost : Stmt → List Note
  | .block b | .loop _ b => b.lost
  | .letVar _ _ _ e | .expr _ e | .ret _ (some e) => e.lost
  | .fnDecl _ _ _ _ | .ret _ none | .breakLoop _ | .continueLoop _ => []
  | .cond _ test yes none => test.lost ++ yes.lost
  | .cond _ test yes (some no) => test.lost ++ (yes.lost ++ no.lost)
  | .whileLoop _ test b => test.lost ++ b.lost

def Stmt.lostOf : List Stmt → List Note
  | [] => []
  | s :: ss => s.lost ++ Stmt.lostOf ss

def Block.lost : Block → List Note
  | .mk _ ss none => Stmt.lostOf ss
  | .mk _ ss (some e) => Stmt.lostOf ss ++ e.lost

end

/-- The names without a symbol in the bodies of functions, from number `function` on. -/
def lostIn (bodies : List FunctionBody) : Nat → List FunctionInfo → List Note
  | _, [] => []
  | function, _ :: infos =>
    ((bodies.lookup function).elim [] Block.lost) ++ lostIn bodies (function + 1) infos

/-- The names of a program that have no symbol. -/
def Analyzed.lost (a : Analyzed) : List Note :=
  lostIn a.bodies 0 a.facts.functions.toList

/-! ### Names that stay -/

/-- Whether an expression is a name. -/
def Expr.isName : Expr → Bool
  | .ident _ _ => true
  | _ => false

mutual

/-- No logical operator in an expression has a name as its right operand. -/
def Expr.Guarded : Expr → Prop
  | .lit _ _ | .ident _ _ | .lambda _ _ _ => True
  | .unary _ _ e | .cast _ e _ => e.Guarded
  | .binary _ op a b => (op.isLogical = true → b.isName = false) ∧ a.Guarded ∧ b.Guarded
  | .assign _ a b | .index _ a b => a.Guarded ∧ b.Guarded
  | .call _ f args => f.Guarded ∧ Expr.AllGuarded args
  | .list _ items => Expr.AllGuarded items

def Expr.AllGuarded : List Expr → Prop
  | [] => True
  | e :: es => e.Guarded ∧ Expr.AllGuarded es

end

mutual

/-- No logical operator in a statement has a name as its right operand. -/
def Stmt.Guarded : Stmt → Prop
  | .block b | .loop _ b => b.Guarded
  | .letVar _ _ _ e | .expr _ e | .ret _ (some e) => e.Guarded
  | .fnDecl _ _ _ _ | .ret _ none | .breakLoop _ | .continueLoop _ => True
  | .cond _ test yes none => test.Guarded ∧ yes.Guarded
  | .cond _ test yes (some no) => test.Guarded ∧ yes.Guarded ∧ no.Guarded
  | .whileLoop _ test b => test.Guarded ∧ b.Guarded

def Stmt.AllGuarded : List Stmt → Prop
  | [] => True
  | s :: ss => s.Guarded ∧ Stmt.AllGuarded ss

/-- No logical operator in a block has a name as its right operand. The bodies of functions inside
the block do not count. -/
def Block.Guarded : Block → Prop
  | .mk _ ss none => Stmt.AllGuarded ss
  | .mk _ ss (some e) => Stmt.AllGuarded ss ∧ e.Guarded

end

/-! ### Resolved trees -/

section Resolved

variable (reads guarded : Prop)

mutual

/-- What an expression stores to is a name with a symbol, or an item of one, and its lambdas are
numbered. If `reads` holds, the names that it reads have symbols too; if `guarded` does, they can
not lose them. -/
def Expr.Resolved : Expr → Prop
  | .lit _ _ => True
  | .lambda n _ _ => n.function.isSome = true
  | .ident n _ => reads → n.symbol.isSome = true
  | .unary _ _ e | .cast _ e _ => e.Resolved
  | .binary _ op a b =>
    (guarded → op.isLogical = true → b.isName = false) ∧ a.Resolved ∧ b.Resolved
  | .index _ a b => a.Resolved ∧ b.Resolved
  | .assign _ (.ident n _) v => n.symbol.isSome = true ∧ v.Resolved
  | .assign _ (.index _ (.ident n _) i) v => n.symbol.isSome = true ∧ i.Resolved ∧ v.Resolved
  | .assign _ _ _ => False
  | .call _ f args => f.Resolved ∧ Expr.AllResolved args
  | .list _ items => Expr.AllResolved items

def Expr.AllResolved : List Expr → Prop
  | [] => True
  | e :: es => e.Resolved ∧ Expr.AllResolved es

end

mutual

/-- What a statement declares or stores to has a symbol, and its jumps stand in a loop. -/
def Stmt.Resolved (inLoop : Prop) : Stmt → Prop
  | .block b => b.Resolved inLoop
  | .loop _ b => b.Resolved True
  | .letVar n _ _ e => n.symbol.isSome = true ∧ e.Resolved reads guarded
  | .expr _ e | .ret _ (some e) => e.Resolved reads guarded
  | .fnDecl _ _ _ _ | .ret _ none => True
  | .breakLoop _ | .continueLoop _ => inLoop
  | .cond _ test yes none => test.Resolved reads guarded ∧ yes.Resolved inLoop
  | .cond _ test yes (some no) =>
    test.Resolved reads guarded ∧ yes.Resolved inLoop ∧ no.Resolved inLoop
  | .whileLoop _ test b => test.Resolved reads guarded ∧ b.Resolved True

def Stmt.AllResolved (inLoop : Prop) : List Stmt → Prop
  | [] => True
  | s :: ss => s.Resolved inLoop ∧ Stmt.AllResolved inLoop ss

/-- What a block declares or stores to has a symbol, and its jumps stand in a loop. -/
def Block.Resolved (inLoop : Prop) : Block → Prop
  | .mk _ ss none => Stmt.AllResolved inLoop ss
  | .mk _ ss (some e) => Stmt.AllResolved inLoop ss ∧ e.Resolved reads guarded

end

end Resolved

section

variable {reads guarded : Prop}

/-- A name with a symbol is not lost. -/
theorem Note.lost_eq_nil {n : Note} (h : n.symbol.isSome = true) : n.lost = [] :=
  if_pos h

mutual

/-- An expression whose names have symbols has no lost ones. -/
theorem Expr.Resolved.lost_eq_nil : ∀ {e : Expr}, e.Resolved True guarded → e.lost = []
  | .lit _ _, _ | .lambda _ _ _, _ => rfl
  | .ident _ _, h => Note.lost_eq_nil (h trivial)
  | .unary _ _ e, h | .cast _ e _, h => Expr.Resolved.lost_eq_nil (e := e) h
  | .binary _ _ a b, h => by
      rw [Expr.lost, Expr.Resolved.lost_eq_nil h.2.1, Expr.Resolved.lost_eq_nil h.2.2]
      rfl
  | .index _ a b, h => by
      rw [Expr.lost, Expr.Resolved.lost_eq_nil h.1, Expr.Resolved.lost_eq_nil h.2]
      rfl
  | .assign _ (.ident _ _) v, h => by
      rw [Expr.lost]
      · exact Expr.Resolved.lost_eq_nil h.2
      · simp
  | .assign _ (.index _ (.ident _ _) i) v, h => by
      rw [Expr.lost, Expr.Resolved.lost_eq_nil h.2.1, Expr.Resolved.lost_eq_nil h.2.2]
      rfl
  | .call _ f args, h => by
      rw [Expr.lost, Expr.Resolved.lost_eq_nil h.1, Expr.AllResolved.lost_eq_nil h.2]
      rfl
  | .list _ _, (h : Expr.AllResolved _ _ _) => Expr.AllResolved.lost_eq_nil h

/-- The same for lists of expressions. -/
theorem Expr.AllResolved.lost_eq_nil : ∀ {es : List Expr}, Expr.AllResolved True guarded es →
    Expr.lostOf es = []
  | [], _ => rfl
  | e :: es, h => by
      rw [Expr.lostOf, Expr.Resolved.lost_eq_nil h.1, Expr.AllResolved.lost_eq_nil h.2]
      rfl

end

mutual

/-- The same for statements. -/
theorem Stmt.Resolved.lost_eq_nil : ∀ {s : Stmt} {inLoop : Prop},
    s.Resolved True guarded inLoop → s.lost = []
  | .block b, _, h => Block.Resolved.lost_eq_nil (b := b) h
  | .loop _ b, _, h => Block.Resolved.lost_eq_nil (b := b) h
  | .letVar _ _ _ e, _, h => Expr.Resolved.lost_eq_nil (e := e) h.2
  | .expr _ e, _, h | .ret _ (some e), _, h => Expr.Resolved.lost_eq_nil (e := e) h
  | .fnDecl _ _ _ _, _, _ | .ret _ none, _, _ | .breakLoop _, _, _ | .continueLoop _, _, _ => rfl
  | .cond _ test yes none, _, h => by
      rw [Stmt.lost, h.1.lost_eq_nil, Block.Resolved.lost_eq_nil h.2]
      rfl
  | .cond _ test yes (some no), _, h => by
      rw [Stmt.lost, h.1.lost_eq_nil, Block.Resolved.lost_eq_nil h.2.1,
        Stmt.Resolved.lost_eq_nil h.2.2]
      rfl
  | .whileLoop _ test b, _, h => by
      rw [Stmt.lost, h.1.lost_eq_nil, Block.Resolved.lost_eq_nil h.2]
      rfl

/-- The same for statements in a row. -/
theorem Stmt.AllResolved.lost_eq_nil : ∀ {ss : List Stmt} {inLoop : Prop},
    Stmt.AllResolved True guarded inLoop ss → Stmt.lostOf ss = []
  | [], _, _ => rfl
  | s :: ss, _, h => by
      rw [Stmt.lostOf, Stmt.Resolved.lost_eq_nil h.1, Stmt.AllResolved.lost_eq_nil h.2]
      rfl

/-- No name of a block is without a symbol, if those that it reads have one. -/
theorem Block.Resolved.lost_eq_nil : ∀ {b : Block} {inLoop : Prop},
    b.Resolved True guarded inLoop → b.lost = []
  | .mk _ _ none, _, (h : Stmt.AllResolved _ _ _ _) => Stmt.AllResolved.lost_eq_nil h
  | .mk _ ss (some e), _, h => by
      rw [Block.lost, Stmt.AllResolved.lost_eq_nil h.1, h.2.lost_eq_nil]
      rfl

end

/-- Functions whose bodies have no lost names have none together. -/
theorem lostIn_eq_nil {bodies : List FunctionBody}
    (h : ∀ f b, bodies.lookup f = some b → b.lost = []) {infos : List FunctionInfo} :
    ∀ {function : Nat}, lostIn bodies function infos = [] := by
  induction infos with
  | nil => exact rfl
  | cons info infos ih =>
      intro function
      rw [lostIn, ih, List.append_nil]
      cases hb : bodies.lookup function with
      | none => rfl
      | some b => exact h function b hb

/-! ### Accepted programs -/

variable {F : Facts}

mutual

/-- A typed expression is resolved: the typing judgement asks for the symbols of its names. -/
theorem Expr.Typed.resolved : ∀ {e : Expr}, e.Typed F → (guarded → e.Guarded) →
    e.Resolved reads guarded
  | .lit _ _, _, _ => trivial
  | .lambda _ _ _, ⟨_, hf, _⟩, _ => Option.isSome_of_eq_some hf
  | .ident _ _, ⟨_, hy, _⟩, _ => fun _ => Option.isSome_of_eq_some hy
  | .unary _ _ e, h, hg | .cast _ e _, h, hg => Expr.Typed.resolved (e := e) h.1 hg
  | .binary _ _ _ _, h, hg =>
      ⟨fun hguarded => (hg hguarded).1, h.1.resolved fun hguarded => (hg hguarded).2.1,
        h.2.1.resolved fun hguarded => (hg hguarded).2.2⟩
  | .index _ _ _, h, hg =>
      ⟨h.1.resolved fun hguarded => (hg hguarded).1, h.2.1.resolved fun hguarded => (hg hguarded).2⟩
  | .assign _ (.ident _ _) _, ⟨hv, _, _, hy, _⟩, hg =>
      ⟨Option.isSome_of_eq_some hy, hv.resolved fun hguarded => (hg hguarded).2⟩
  | .assign _ (.index _ (.ident _ _) _) _, ⟨hi, _, hv, _, _, hy, _⟩, hg =>
      ⟨Option.isSome_of_eq_some hy, hi.resolved fun hguarded => (hg hguarded).1.2,
        hv.resolved fun hguarded => (hg hguarded).2⟩
  | .call _ _ _, h, hg =>
      ⟨h.1.resolved fun hguarded => (hg hguarded).1,
        Expr.AllTyped.resolved h.2.1 fun hguarded => (hg hguarded).2⟩
  | .list _ _, h, hg => Expr.AllTyped.resolved h.1 hg

/-- The same for lists of expressions. -/
theorem Expr.AllTyped.resolved : ∀ {es : List Expr}, Expr.AllTyped F es →
    (guarded → Expr.AllGuarded es) → Expr.AllResolved reads guarded es
  | [], _, _ => trivial
  | _ :: _, h, hg =>
      ⟨h.1.resolved fun hguarded => (hg hguarded).1,
        Expr.AllTyped.resolved h.2 fun hguarded => (hg hguarded).2⟩

end

variable {returns : Ty}

mutual

/-- The same for statements whose jumps stand in loops. -/
theorem Stmt.Typed.resolved : ∀ {s : Stmt} {inLoop : Prop}, s.Typed F returns → s.Looped inLoop →
    (guarded → s.Guarded) → s.Resolved reads guarded inLoop
  | .block b, _, h, hl, hg => Block.Typed.resolved (b := b) h hl hg
  | .loop _ b, _, h, hl, hg => Block.Typed.resolved (b := b) h hl hg
  | .letVar _ _ _ _, _, ⟨he, _, hy, _⟩, _, hg => ⟨Option.isSome_of_eq_some hy, he.resolved hg⟩
  | .expr _ e, _, h, _, hg => Expr.Typed.resolved (e := e) h hg
  | .ret _ (some e), _, h, _, hg => Expr.Typed.resolved (e := e) h.1 hg
  | .fnDecl _ _ _ _, _, _, _, _ | .ret _ none, _, _, _, _ => trivial
  | .breakLoop _, _, _, hl, _ | .continueLoop _, _, _, hl, _ => hl
  | .cond _ _ yes none, _, h, hl, hg =>
      ⟨h.1.resolved fun hguarded => (hg hguarded).1,
        Block.Typed.resolved (b := yes) h.2.2 hl fun hguarded => (hg hguarded).2⟩
  | .cond _ _ yes (some no), _, h, hl, hg =>
      ⟨h.1.resolved fun hguarded => (hg hguarded).1,
        Block.Typed.resolved (b := yes) h.2.2.1 hl.1 fun hguarded => (hg hguarded).2.1,
        Stmt.Typed.resolved (s := no) h.2.2.2 hl.2 fun hguarded => (hg hguarded).2.2⟩
  | .whileLoop _ _ b, _, h, hl, hg =>
      ⟨h.1.resolved fun hguarded => (hg hguarded).1,
        Block.Typed.resolved (b := b) h.2.2 hl fun hguarded => (hg hguarded).2⟩

/-- The same for statements in a row. -/
theorem Stmt.AllTyped.resolved : ∀ {ss : List Stmt} {inLoop : Prop}, Stmt.AllTyped F returns ss →
    Stmt.AllLooped inLoop ss → (guarded → Stmt.AllGuarded ss) →
    Stmt.AllResolved reads guarded inLoop ss
  | [], _, _, _, _ => trivial
  | _ :: _, _, h, hl, hg =>
      ⟨Stmt.Typed.resolved h.1 hl.1 fun hguarded => (hg hguarded).1,
        Stmt.AllTyped.resolved h.2 hl.2 fun hguarded => (hg hguarded).2⟩

/-- The same for blocks. -/
theorem Block.Typed.resolved : ∀ {b : Block} {inLoop : Prop}, b.Typed F returns →
    b.Looped inLoop → (guarded → b.Guarded) → b.Resolved reads guarded inLoop
  | .mk _ _ none, _, (h : Stmt.AllTyped _ _ _), hl, hg => Stmt.AllTyped.resolved h hl hg

end

/-- **Accepted functions.** What analysis accepts is resolved. -/
theorem Facts.Accepts.resolved {f : Nat} {b : Block} (h : F.Accepts f b)
    (hg : guarded → b.Guarded) : b.Resolved reads guarded False := by
  obtain ⟨n, ss, tail⟩ := b
  have htyped := h.typed
  cases tail with
  | none => exact Stmt.AllTyped.resolved htyped.1 h.looped hg
  | some e =>
      exact ⟨Stmt.AllTyped.resolved htyped.1 h.looped fun hguarded => (hg hguarded).1,
        htyped.2.1.resolved fun hguarded => (hg hguarded).2⟩

end

end Parlance
