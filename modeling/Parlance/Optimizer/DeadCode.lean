import Parlance.Analysis.Checker
import Parlance.Tree.Effects

/-!
# Dead code

A sweep removes from a list of statements what can never run, what has no effect, and stores
whose value is never read. The effects of a removed store's value stay.
-/

namespace Parlance

namespace DeadCode

/-! ### Statements -/

/-- What stands in the place of a statement. -/
inductive Simplified where
  | same
  | removed
  | replaced (s : Stmt)

/-- Simplifies a statement: pure expressions, empty blocks, and branches on a constant. -/
def simplify : Stmt → Simplified
  | .expr _ e => if e.isPure then .removed else .same
  | .block (.mk _ [] none) => .removed
  | .cond _ (.lit _ (.bool true)) yes _ => .replaced (.block yes)
  | .cond _ (.lit _ (.bool false)) _ none => .removed
  | .cond _ (.lit _ (.bool false)) _ (some no) => .replaced no
  | .whileLoop _ (.lit _ (.bool false)) _ => .removed
  | _ => .same

/-- What is removed is a pure expression, an empty block, or something on the constant false. -/
theorem simplify_eq_removed {s : Stmt} (h : simplify s = .removed) :
    (∃ n e, s = .expr n e ∧ e.isPure = true) ∨ (∃ n, s = .block (.mk n [] none)) ∨
      (∃ n m yes, s = .cond n (.lit m (.bool false)) yes none) ∨
      ∃ n m body, s = .whileLoop n (.lit m (.bool false)) body := by
  unfold simplify at h
  split at h
  · next n e =>
      split at h
      · next hp => exact .inl ⟨n, e, rfl, hp⟩
      · cases h
  · next n => exact .inr (.inl ⟨n, rfl⟩)
  · cases h
  · next n m yes => exact .inr (.inr (.inl ⟨n, m, yes, rfl⟩))
  · cases h
  · next n m body => exact .inr (.inr (.inr ⟨n, m, body, rfl⟩))
  · cases h

/-- What is replaced is a branch on a constant, by what is taken. -/
theorem simplify_eq_replaced {s s' : Stmt} (h : simplify s = .replaced s') :
    (∃ n m yes no, s = .cond n (.lit m (.bool true)) yes no ∧ s' = .block yes) ∨
      ∃ n m yes, s = .cond n (.lit m (.bool false)) yes (some s') := by
  unfold simplify at h
  split at h
  · split at h <;> cases h
  · cases h
  · next n m yes no =>
      cases h
      exact .inl ⟨n, m, yes, no, rfl, rfl⟩
  · cases h
  · next n m yes no =>
      cases h
      exact .inr ⟨n, m, yes, rfl⟩
  · cases h
  · cases h

/-- Whether a statement is a function declaration. These count from the start of their block,
so they stay where control never comes. -/
def isDeclaration : Stmt → Bool
  | .fnDecl _ _ _ _ => true
  | _ => false

/-- Statements that were kept, the number of changes, and whether control never reaches
their end. -/
structure Swept where
  stmts : List Stmt
  changes : Nat
  diverged : Bool

/-- Keeps the declarations where control never comes. -/
def unreachable (ss : List Stmt) : Swept :=
  let kept := ss.filter isDeclaration
  { stmts := kept, changes := ss.length - kept.length, diverged := true }

/-- Puts a statement in front of the swept ones after it. -/
def Swept.cons (s : Stmt) (changes : Nat) (rest : Swept) : Swept :=
  { rest with stmts := s :: rest.stmts, changes := changes + rest.changes }

/-- Simplifies statements up to the first one that control does not leave. -/
def reachable : List Stmt → Swept
  | [] => { stmts := [], changes := 0, diverged := false }
  | s :: ss =>
    match simplify s with
    | .removed =>
      let rest := reachable ss
      { rest with changes := rest.changes + 1 }
    | .same => (if s.diverges then unreachable ss else reachable ss).cons s 0
    | .replaced s => (if s.diverges then unreachable ss else reachable ss).cons s 1

/-! ### Stores -/

/-- The variable that a `let` declares, if no other function refers to it. -/
def ownVariable? (facts : Facts) (n : Note) : Option Nat :=
  n.symbol.filter fun symbol =>
    match facts.symbols[symbol]? with
    | some y => y.kind == .variable && !y.escapes
    | none => false

/-- Whether stores to a symbol may be removed: no other function refers to it. -/
def isRemovable (facts : Facts) (symbol : Nat) : Bool :=
  match facts.symbols[symbol]? with
  | some y => (y.kind == .variable || y.kind == .parameter) && !y.escapes
  | none => false

/-- Whether one of the statements declares a symbol that no other function refers to. -/
def declares (facts : Facts) (symbol : Nat) (ss : List Stmt) : Bool :=
  ss.any fun
    | .letVar n _ _ _ => ownVariable? facts n == some symbol
    | _ => false

/-- `symbol = value;` -/
def storeOf? : Stmt → Option (Nat × Expr)
  | .expr _ (.assign _ (.ident n _) value) => n.symbol.map fun symbol => (symbol, value)
  | _ => none

/-- Whether a symbol is mentioned in statements or in the result after them. -/
def mentionedIn (symbol : Nat) (ss : List Stmt) (tail : Option Expr) : Bool :=
  Stmt.anyMentions symbol ss || tail.any (Expr.mentions symbol)

/-- A declaration whose variable is stored to by the next statement, before it is read,
declares it with that value. -/
def declareLater? (facts : Facts) : List Stmt → Option (List Stmt)
  | .letVar n name t init :: .expr m (.assign _ (.ident target _) value) :: rest =>
    match ownVariable? facts n, target.symbol with
    | some symbol, some stored =>
      if symbol = stored ∧ !value.mentions symbol then
        some (if init.isPure then .letVar n name t value :: rest
              else .expr m init :: .letVar n name t value :: rest)
      else none
    | _, _ => none
  | _ => none

/-- A store that the next statement overwrites, before it is read, keeps the effects of its
value only. -/
def overwritten? (facts : Facts) : List Stmt → Option (List Stmt)
  | .expr n (.assign _ (.ident target _) value) :: next :: rest =>
    match target.symbol, storeOf? next with
    | some symbol, some (stored, nextValue) =>
      if symbol = stored ∧ isRemovable facts symbol ∧ !nextValue.mentions symbol then
        some (.expr n value :: next :: rest)
      else none
    | _, _ => none
  | _ => none

/-- A variable that is not mentioned any more is neither declared nor stored to. `before` are
the statements before these, `tail` the result after them. -/
def forgotten? (facts : Facts) (tail : Option Expr) (before : List Stmt) :
    List Stmt → Option (List Stmt)
  | .letVar n _ _ init :: rest =>
    match ownVariable? facts n with
    | some symbol => if mentionedIn symbol rest tail then none else some (.expr n init :: rest)
    | none => none
  | .expr n (.assign _ (.ident target _) value) :: rest =>
    match target.symbol with
    | some symbol =>
      if declares facts symbol before ∧ !mentionedIn symbol rest tail then
        some (.expr n value :: rest)
      else none
    | none => none
  | _ => none

/-- One change to the first of some statements. -/
def dropStore? (facts : Facts) (tail : Option Expr) (before ss : List Stmt) : Option (List Stmt) :=
  (declareLater? facts ss).or ((overwritten? facts ss).or (forgotten? facts tail before ss))

theorem sizeOf_declareLater?_lt {facts : Facts} {ss ss' : List Stmt}
    (h : declareLater? facts ss = some ss') : sizeOf ss' < sizeOf ss := by
  unfold declareLater? at h
  split at h
  · split at h
    · split at h
      · simp only [Option.some.injEq] at h
        subst h
        split <;>
          simp only [List.cons.sizeOf_spec, Stmt.letVar.sizeOf_spec, Stmt.expr.sizeOf_spec,
            Expr.assign.sizeOf_spec] <;>
          omega
      · simp at h
    · simp at h
  · simp at h

theorem sizeOf_overwritten?_lt {facts : Facts} {ss ss' : List Stmt}
    (h : overwritten? facts ss = some ss') : sizeOf ss' < sizeOf ss := by
  unfold overwritten? at h
  split at h
  · split at h
    · split at h
      · simp only [Option.some.injEq] at h
        subst h
        simp only [List.cons.sizeOf_spec, Stmt.expr.sizeOf_spec, Expr.assign.sizeOf_spec]
        omega
      · simp at h
    · simp at h
  · simp at h

theorem sizeOf_forgotten?_lt {facts : Facts} {tail : Option Expr} {before ss ss' : List Stmt}
    (h : forgotten? facts tail before ss = some ss') : sizeOf ss' < sizeOf ss := by
  unfold forgotten? at h
  split at h
  · next _ _ t _ _ =>
    have : 0 < sizeOf t := by
      cases t <;> simp only [Option.none.sizeOf_spec, Option.some.sizeOf_spec] <;> omega
    split at h
    · split at h
      · simp at h
      · simp only [Option.some.injEq] at h
        subst h
        simp only [List.cons.sizeOf_spec, Stmt.letVar.sizeOf_spec, Stmt.expr.sizeOf_spec]
        omega
    · simp at h
  · split at h
    · split at h
      · simp only [Option.some.injEq] at h
        subst h
        simp only [List.cons.sizeOf_spec, Stmt.expr.sizeOf_spec, Expr.assign.sizeOf_spec]
        omega
      · simp at h
    · simp at h
  · simp at h

/-- Every change makes the statements smaller. -/
theorem sizeOf_dropStore?_lt {facts : Facts} {tail : Option Expr} {before ss ss' : List Stmt}
    (h : dropStore? facts tail before ss = some ss') : sizeOf ss' < sizeOf ss := by
  unfold dropStore? at h
  rcases Option.or_eq_some_iff.1 h with h | ⟨-, h⟩
  · exact sizeOf_declareLater?_lt h
  · rcases Option.or_eq_some_iff.1 h with h | ⟨-, h⟩
    · exact sizeOf_overwritten?_lt h
    · exact sizeOf_forgotten?_lt h

/-- Changes statements from the first to the last, as long as there is something to change.
Gives all statements and the number of changes. -/
def dropStores (facts : Facts) (tail : Option Expr) (before : List Stmt) :
    List Stmt → List Stmt × Nat
  | [] => (before, 0)
  | s :: ss =>
    match _h : dropStore? facts tail before (s :: ss) with
    | some ss' =>
      let (out, changes) := dropStores facts tail before ss'
      (out, changes + 1)
    | none => dropStores facts tail (before ++ [s]) ss
termination_by ss => sizeOf ss
decreasing_by
  · exact sizeOf_dropStore?_lt _h
  · simp only [List.cons.sizeOf_spec]
    omega

/-! ### Blocks -/

/-- Sweeps the statements of a block, but not the blocks inside it. Gives the number of
changes. -/
def block (facts : Facts) : Block → Block × Nat
  | .mk n ss tail =>
    let swept := reachable ss
    let (tail, cut) := if swept.diverged && tail.isSome then (none, 1) else (tail, 0)
    let (ss, dropped) := dropStores facts tail [] swept.stmts
    (.mk n ss tail, swept.changes + cut + dropped)

end DeadCode

end Parlance
