import Parlance.Proofs.Analysis.Judgements

/-!
# The notes of analyzed trees

What optimizing needs to know of a tree beyond scoping: that the functions in it are numbered, that
every block belongs to the function that its label says, that the node of a logical operator has no
symbol and no lambda as right operand, and that the alternative of a conditional declares nothing.
-/

namespace Parlance

/-- An operator that is not logical is strict. -/
theorem BinaryOp.exists_strict {op : BinaryOp} (h : op.isLogical = false) :
    ∃ strict, op.split = .inl strict := by
  cases op <;> first | exact ⟨_, rfl⟩ | cases h

def Expr.isLambda : Expr → Bool
  | .lambda _ _ _ => true
  | _ => false

section

variable (owner : Nat → Nat)

mutual

/-- Functions are numbered. A logical operator has no symbol, and its right operand is no
lambda. -/
def Expr.Noted (function : Nat) : Expr → Prop
  | .lit _ _ | .ident _ _ => True
  | .unary _ _ e | .cast _ e _ => e.Noted function
  | .binary n op a b =>
    (op.isLogical = true → n.symbol = none ∧ b.isLambda = false) ∧
      a.Noted function ∧ b.Noted function
  | .assign _ a b | .index _ a b => a.Noted function ∧ b.Noted function
  | .call _ f args => f.Noted function ∧ Expr.AllNoted function args
  | .list _ items => Expr.AllNoted function items
  | .lambda n _ b => ∃ f, n.function = some f ∧ b.Noted f

def Expr.AllNoted (function : Nat) : List Expr → Prop
  | [] => True
  | e :: es => e.Noted function ∧ Expr.AllNoted function es

/-- The alternative of a conditional declares nothing. -/
def Stmt.Noted (function : Nat) : Stmt → Prop
  | .block b | .loop _ b => b.Noted function
  | .letVar _ _ _ e | .expr _ e | .ret _ (some e) => e.Noted function
  | .fnDecl n _ _ b => ∃ f, n.function = some f ∧ b.Noted f
  | .ret _ none | .breakLoop _ | .continueLoop _ => True
  | .cond _ test yes none => test.Noted function ∧ yes.Noted function
  | .cond _ test yes (some no) =>
    test.Noted function ∧ yes.Noted function ∧ no.declared = [] ∧ no.Noted function
  | .whileLoop _ test b => test.Noted function ∧ b.Noted function

def Stmt.AllNoted (function : Nat) : List Stmt → Prop
  | [] => True
  | s :: ss => s.Noted function ∧ Stmt.AllNoted function ss

/-- The label of a block says to which function it belongs. -/
def Block.Noted (function : Nat) : Block → Prop
  | .mk n ss none => owner n.id = function ∧ Stmt.AllNoted function ss
  | .mk n ss (some e) => owner n.id = function ∧ Stmt.AllNoted function ss ∧ e.Noted function

end

end

section

variable {owner : Nat → Nat} {function : Nat}

/-- Statements are noted if each of them is. -/
theorem Stmt.allNoted_iff {ss : List Stmt} :
    Stmt.AllNoted owner function ss ↔ ∀ s ∈ ss, s.Noted owner function := by
  induction ss with
  | nil => simp [Stmt.AllNoted]
  | cons s ss ih => simp [Stmt.AllNoted, ih]

/-- Statements in a row are noted if both halves are. -/
theorem Stmt.allNoted_append {ss ts : List Stmt} :
    Stmt.AllNoted owner function (ss ++ ts) ↔
      Stmt.AllNoted owner function ss ∧ Stmt.AllNoted owner function ts := by
  simp only [Stmt.allNoted_iff, List.mem_append, or_imp, forall_and]

/-- A block is noted for the owner of its label, with all it has inside. -/
theorem Block.noted_mk {n : Note} {ss : List Stmt} {tail : Option Expr} :
    (Block.mk n ss tail).Noted owner function ↔ owner n.id = function ∧
      Stmt.AllNoted owner function ss ∧ ∀ e, tail = some e → e.Noted owner function := by
  cases tail with
  | none => exact ⟨fun h => ⟨h.1, h.2, nofun⟩, fun h => ⟨h.1, h.2.1⟩⟩
  | some e =>
      exact ⟨fun h => ⟨h.1, h.2.1, fun _ he => Option.some.inj he ▸ h.2.2⟩,
        fun h => ⟨h.1, h.2.1, h.2.2 e rfl⟩⟩

end

end Parlance
