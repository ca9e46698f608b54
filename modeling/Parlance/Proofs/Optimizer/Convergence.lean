import Mathlib.Data.Prod.Lex
import Mathlib.Logic.Relation
import Mathlib.Order.OrderIsoNat
import Parlance.Proofs.Optimizer.Labels
import Parlance.Proofs.Optimizer.Subexpressions
import Parlance.Proofs.Tree.Bodies

/-!
# The optimizer converges

Sweeping dead code makes a program smaller. Folding and sharing may not: sharing adds
declarations, and folding may leave a node where it was. But both take operators away, which dead
code sweeping never adds. So a sweep that changes something lowers the operators of the program,
or keeps them and lowers its size. A declaration counts twice in the size, since a store that is
dropped turns it into an expression.

Only the program counts here, not the functions that lost their place. A sweep visits the blocks
that the program has at its start, so the first block it changes still stands in the program.

## Main definitions

* `Scale`, `Block.weight`: the sum of the weights of all nodes of a tree.
* `Analyzed.measure`: the operators of a program, then its size.
* `Share.Hoists`: the declaration of temporaries, without a bound on the rounds.
* `DeadCode.StoreStep`: one round of the removal of stores.

## Main results

* `Fold.weight_block`, `DeadCode.weight_block`, `Share.weight_block`: the passes on one block.
* `Pass.measure_sweep_lt`: a sweep that changes something lowers the measure.
* `sweeps_converge`: no program is swept forever, and the loops inside a sweep end.
-/

namespace Parlance

/-! ### Weights -/

/-- What the nodes of a tree weigh, and whether the bodies of lambdas count. -/
structure Scale where
  /-- Operators, casts and the indexing of lists and texts. -/
  operator : Nat
  /-- Declarations of variables. -/
  declaration : Nat
  /-- All other nodes. -/
  node : Nat
  bodies : Bool := true

namespace Scale

/-- Counts operators. -/
def operators (bodies : Bool) : Scale :=
  { operator := 1, declaration := 0, node := 0, bodies }

/-- Where operators are counted an operator weighs one. -/
@[simp] theorem operator_operators (bodies : Bool) : (operators bodies).operator = 1 := rfl

/-- Where operators are counted a declaration weighs nothing, so a temporary that is declared costs
none of what sharing saves. -/
@[simp] theorem declaration_operators (bodies : Bool) : (operators bodies).declaration = 0 := rfl

/-- Where operators are counted no other node weighs anything. -/
@[simp] theorem node_operators (bodies : Bool) : (operators bodies).node = 0 := rfl

/-- Where operators are counted it can be chosen whether those in lambdas count. -/
@[simp] theorem bodies_operators (bodies : Bool) : (operators bodies).bodies = bodies := rfl

/-- Counts nodes, and declarations twice. -/
def size : Scale :=
  { operator := 1, declaration := 2, node := 1 }

end Scale

mutual

def Expr.weight (w : Scale) : Expr → Nat
  | .lit _ _ | .ident _ _ => w.node
  | .unary _ _ e | .cast _ e _ => e.weight w + w.operator
  | .binary _ _ a b | .index _ a b => a.weight w + b.weight w + w.operator
  | .assign _ a b => a.weight w + b.weight w + w.node
  | .call _ f args => f.weight w + Expr.weightOf w args + w.node
  | .list _ items => Expr.weightOf w items + w.node
  | .lambda _ _ b => (if w.bodies then b.weight w else 0) + w.node

def Expr.weightOf (w : Scale) : List Expr → Nat
  | [] => 0
  | e :: es => e.weight w + Expr.weightOf w es

def Stmt.weight (w : Scale) : Stmt → Nat
  | .block b => b.weight w
  | .letVar _ _ _ e => e.weight w + w.declaration
  | .fnDecl _ _ _ b | .loop _ b => b.weight w + w.node
  | .ret _ none | .breakLoop _ | .continueLoop _ => w.node
  | .ret _ (some e) | .expr _ e => e.weight w + w.node
  | .cond _ test yes none => test.weight w + yes.weight w + w.node
  | .cond _ test yes (some no) => test.weight w + yes.weight w + no.weight w + w.node
  | .whileLoop _ test b => test.weight w + b.weight w + w.node

def Stmt.weightOf (w : Scale) : List Stmt → Nat
  | [] => 0
  | s :: ss => s.weight w + Stmt.weightOf w ss

def Block.weight (w : Scale) : Block → Nat
  | .mk _ ss none => Stmt.weightOf w ss + w.node
  | .mk _ ss (some e) => Stmt.weightOf w ss + e.weight w + w.node

end

/-- What an expression weighs does not depend on its note. -/
@[simp] theorem Expr.weight_withNote (w : Scale) (e : Expr) (n : Note) :
    (e.withNote n).weight w = e.weight w := by
  cases e <;> rfl

/-- Statements in a row weigh what both parts weigh. -/
@[simp] theorem Stmt.weightOf_append (w : Scale) (ss ts : List Stmt) :
    Stmt.weightOf w (ss ++ ts) = Stmt.weightOf w ss + Stmt.weightOf w ts := by
  induction ss with
  | nil => simp [Stmt.weightOf]
  | cons s ss ih => simp [Stmt.weightOf, ih, Nat.add_assoc]

/-- Every statement has a node of its own. -/
theorem Stmt.weight_size_pos (s : Stmt) : 1 ≤ s.weight .size := by
  cases s with
  | block b =>
      obtain ⟨n, ss, tail⟩ := b
      cases tail <;> simp [Stmt.weight, Block.weight, Scale.size]
  | ret n value => cases value <;> simp [Stmt.weight, Scale.size]
  | cond n test yes no => cases no <;> simp [Stmt.weight, Scale.size]
  | _ => simp [Stmt.weight, Scale.size]

/-! ### Folding -/

namespace Fold

variable {α β : Type}

/-- What a folding gives is related to the number of changes it makes. -/
def Makes (m : Folding α) (P : α → Nat → Prop) : Prop :=
  ∀ log, ∃ changes, (m.run log).2.count = log.count + changes ∧ P (m.run log).1 changes

/-- A result that is there already is made without a change. -/
theorem Makes.pure {a : α} {P : α → Nat → Prop} (h : P a 0) : Makes (Pure.pure a) P :=
  fun _ => ⟨0, rfl, h⟩

/-- Of two foldings in a row the changes of both are counted. -/
theorem Makes.bind {m : Folding α} {f : α → Folding β} {P : α → Nat → Prop} {Q : β → Nat → Prop}
    (hm : Makes m P) (hf : ∀ a k, P a k → Makes (f a) fun b j => Q b (k + j)) :
    Makes (m >>= f) Q := by
  intro log
  obtain ⟨k, hk, hp⟩ := hm log
  obtain ⟨j, hj, hq⟩ := hf _ k hp (m.run log).2
  exact ⟨k + j, by rw [← Nat.add_assoc, ← hk]; exact hj, hq⟩

/-- A node that takes the place of another one has an operator less. It is a literal or an operand
of the node, and the node itself is an operator. -/
theorem weight_node? {e e' : Expr} (h : node? e = some e') :
    e'.weight (.operators true) + 1 ≤ e.weight (.operators true) := by
  have hlit : ∀ {n : Note} {result : Except Fault Value},
      literal? n result = some e' → e'.weight (.operators true) = 0 := by
    intro n result h
    cases result with
    | error fault => cases h
    | ok v =>
        obtain ⟨w, -, rfl⟩ := Option.map_eq_some_iff.mp h
        rfl
  unfold node? at h
  split at h
  · rw [hlit h]
    exact Nat.le_add_left _ _
  · split at h
    · cases h
      split
      · exact Nat.le_add_left _ _
      · rw [Expr.weight_withNote]
        exact Nat.add_le_add_right (Nat.le_add_left _ _) _
    · rw [hlit h]
      exact Nat.le_add_left _ _
    · cases h
  · rw [hlit h]
    exact Nat.le_add_left _ _
  · rw [hlit h]
    exact Nat.le_add_left _ _
  · cases h

/-- A node that is folded loses at least one operator for the one change that is counted. -/
theorem weight_node (e : Expr) {k bound : Nat} (h : e.weight (.operators true) + k ≤ bound) :
    Makes (node e) fun e' j => e'.weight (.operators true) + (k + j) ≤ bound := by
  intro log
  unfold node
  split
  · exact ⟨0, rfl, h⟩
  · next e' he =>
      have := weight_node? he
      refine ⟨1, rfl, ?_⟩
      change e'.weight _ + (k + 1) ≤ bound
      omega

mutual

/-- **Expressions.** Folding pays for every change it counts with an operator, by induction on the
tree. -/
theorem weight_expr : ∀ e : Expr, Makes (expr e) fun e' k =>
    e'.weight (.operators true) + k ≤ e.weight (.operators true)
  | .lit _ _ | .ident _ _ => .pure (Nat.le_refl _)
  | .unary n op e => by
      rw [expr]
      refine (weight_expr e).bind fun e' k he => weight_node _ ?_
      rw [Expr.weight, Expr.weight]
      omega
  | .cast n e target => by
      rw [expr]
      refine (weight_expr e).bind fun e' k he => weight_node _ ?_
      rw [Expr.weight, Expr.weight]
      omega
  | .binary n op l r => by
      rw [expr]
      refine (weight_expr l).bind fun l' k hl => (weight_expr r).bind fun r' j hr => ?_
      simp only [← Nat.add_assoc k j]
      refine weight_node _ ?_
      rw [Expr.weight, Expr.weight]
      omega
  | .index n t i => by
      rw [expr]
      refine (weight_expr t).bind fun t' k ht => (weight_expr i).bind fun i' j hi => ?_
      simp only [← Nat.add_assoc k j]
      refine weight_node _ ?_
      rw [Expr.weight, Expr.weight]
      omega
  | .assign n t v => by
      rw [expr]
      refine (weight_expr t).bind fun t' k ht => (weight_expr v).bind fun v' j hv => .pure ?_
      rw [Expr.weight, Expr.weight]
      omega
  | .call n f args => by
      rw [expr]
      refine (weight_expr f).bind fun f' k hf => (weight_exprs args).bind fun as j ha => .pure ?_
      rw [Expr.weight, Expr.weight]
      omega
  | .list n items => by
      rw [expr]
      refine (weight_exprs items).bind fun is k hi => .pure ?_
      rw [Expr.weight, Expr.weight]
      omega
  | .lambda n s b => by
      rw [expr]
      refine (weight_block b).bind fun b' k hb => .pure ?_
      rw [Expr.weight, Expr.weight, Scale.bodies_operators, if_pos rfl, if_pos rfl]
      omega

/-- Folding expressions in a list pays for every change with an operator. -/
theorem weight_exprs : ∀ es : List Expr, Makes (exprs es) fun es' k =>
    Expr.weightOf (.operators true) es' + k ≤ Expr.weightOf (.operators true) es
  | [] => .pure (Nat.le_refl _)
  | e :: es => by
      rw [exprs]
      refine (weight_expr e).bind fun e' k he => (weight_exprs es).bind fun es' j hes => .pure ?_
      rw [Expr.weightOf, Expr.weightOf]
      omega

/-- Folding a statement pays for every change with an operator. Operators inside of lambdas count as
well, since folding goes into their bodies. -/
theorem weight_stmt : ∀ s : Stmt, Makes (stmt s) fun s' k =>
    s'.weight (.operators true) + k ≤ s.weight (.operators true)
  | .block b => by
      rw [stmt]
      exact (weight_block b).bind fun b' k hb => .pure hb
  | .letVar n name t e => by
      rw [stmt]
      refine (weight_expr e).bind fun e' k he => .pure ?_
      rw [Stmt.weight, Stmt.weight]
      omega
  | .fnDecl n name s b => by
      rw [stmt]
      refine (weight_block b).bind fun b' k hb => .pure ?_
      rw [Stmt.weight, Stmt.weight]
      omega
  | .ret n none | .breakLoop n | .continueLoop n => .pure (Nat.le_refl _)
  | .ret n (some e) => by
      rw [stmt]
      refine (weight_expr e).bind fun e' k he => .pure ?_
      rw [Stmt.weight, Stmt.weight]
      omega
  | .cond n test yes none => by
      rw [stmt]
      refine (weight_expr test).bind fun test' k ht => (weight_block yes).bind fun yes' j hy => .pure ?_
      rw [Stmt.weight, Stmt.weight]
      omega
  | .cond n test yes (some no) => by
      rw [stmt]
      refine (weight_expr test).bind fun test' k ht => (weight_block yes).bind fun yes' j hy =>
        (weight_stmt no).bind fun no' i hn => .pure ?_
      rw [Stmt.weight, Stmt.weight]
      omega
  | .whileLoop n test b => by
      rw [stmt]
      refine (weight_expr test).bind fun test' k ht => (weight_block b).bind fun b' j hb => .pure ?_
      rw [Stmt.weight, Stmt.weight]
      omega
  | .loop n b => by
      rw [stmt]
      refine (weight_block b).bind fun b' k hb => .pure ?_
      rw [Stmt.weight, Stmt.weight]
      omega
  | .expr n e => by
      rw [stmt]
      refine (weight_expr e).bind fun e' k he => .pure ?_
      rw [Stmt.weight, Stmt.weight]
      omega

/-- Folding statements pays for every change with an operator. -/
theorem weight_stmts : ∀ ss : List Stmt, Makes (stmts ss) fun ss' k =>
    Stmt.weightOf (.operators true) ss' + k ≤ Stmt.weightOf (.operators true) ss
  | [] => .pure (Nat.le_refl _)
  | s :: ss => by
      rw [stmts]
      refine (weight_stmt s).bind fun s' k hs => (weight_stmts ss).bind fun ss' j hss => .pure ?_
      rw [Stmt.weightOf, Stmt.weightOf]
      omega

/-- **Folding.** Every change takes an operator away. -/
theorem weight_block : ∀ b : Block, Makes (block b) fun b' k =>
    b'.weight (.operators true) + k ≤ b.weight (.operators true)
  | .mk n ss none => by
      rw [block]
      refine (weight_stmts ss).bind fun ss' k hs => .pure ?_
      rw [Block.weight, Block.weight]
      omega
  | .mk n ss (some e) => by
      rw [block]
      refine (weight_stmts ss).bind fun ss' k hs => (weight_expr e).bind fun e' j he => .pure ?_
      rw [Block.weight, Block.weight]
      omega

end

end Fold

/-! ### Dead code -/

namespace DeadCode

/-- A statement in the place of another one has no operators that this one has not, and a node
less. -/
theorem weight_simplify {s s' : Stmt} (h : simplify s = .replaced s') :
    s'.weight (.operators true) ≤ s.weight (.operators true) ∧
      s'.weight .size + 1 ≤ s.weight .size := by
  obtain ⟨n, m, yes, no, rfl, rfl⟩ | ⟨n, m, yes, rfl⟩ := simplify_eq_replaced h
  · cases no <;> simp only [Stmt.weight, Scale.operators, Scale.size] <;> omega
  · simp only [Stmt.weight, Scale.operators, Scale.size]
    omega

/-- Statements that are left weigh no more than all of them. -/
theorem weightOf_filter (w : Scale) (keep : Stmt → Bool) (ss : List Stmt) :
    Stmt.weightOf w (ss.filter keep) ≤ Stmt.weightOf w ss := by
  induction ss with
  | nil => exact Nat.le_refl _
  | cons s ss ih =>
      rw [List.filter_cons]
      split <;> simp only [Stmt.weightOf] <;> omega

/-- Every statement that is struck out makes the tree smaller by at least one. -/
theorem size_filter (keep : Stmt → Bool) (ss : List Stmt) :
    Stmt.weightOf .size (ss.filter keep) + (ss.length - (ss.filter keep).length) ≤
      Stmt.weightOf .size ss := by
  induction ss with
  | nil => exact Nat.le_refl _
  | cons s ss ih =>
      have := s.weight_size_pos
      rw [List.filter_cons]
      split <;> simp only [Stmt.weightOf, List.length_cons] <;> omega

/-- Statements swept of what is never reached or does nothing. The size pays for each change, and no
operator comes in. -/
theorem weight_reachable (ss : List Stmt) :
    Stmt.weightOf (.operators true) (reachable ss).stmts ≤ Stmt.weightOf (.operators true) ss ∧
      Stmt.weightOf .size (reachable ss).stmts + (reachable ss).changes ≤ Stmt.weightOf .size ss := by
  induction ss with
  | nil => exact ⟨Nat.le_refl _, Nat.le_refl _⟩
  | cons s ss ih =>
      have hrest : ∀ diverges : Bool,
          Stmt.weightOf (.operators true) (if diverges then unreachable ss else reachable ss).stmts ≤
              Stmt.weightOf (.operators true) ss ∧
            Stmt.weightOf .size (if diverges then unreachable ss else reachable ss).stmts +
                (if diverges then unreachable ss else reachable ss).changes ≤
              Stmt.weightOf .size ss := by
        intro diverges
        cases diverges with
        | true => exact ⟨weightOf_filter _ _ ss, size_filter _ ss⟩
        | false => exact ih
      have hpos := s.weight_size_pos
      rw [reachable]
      split
      · simp only [Stmt.weightOf]
        omega
      · have := hrest s.diverges
        simp only [Swept.cons, Stmt.weightOf]
        omega
      · next s' hs =>
          have := hrest s'.diverges
          have := weight_simplify hs
          simp only [Swept.cons, Stmt.weightOf]
          omega

/-- A store that is dropped takes a node away, or leaves an expression for a declaration. -/
theorem Dropped.weight {ss ss' : List Stmt} (h : Dropped ss ss') :
    Stmt.weightOf (.operators true) ss' ≤ Stmt.weightOf (.operators true) ss ∧
      Stmt.weightOf .size ss' + 1 ≤ Stmt.weightOf .size ss := by
  cases h <;>
    simp only [Stmt.weightOf, Stmt.weight, Expr.weight, Scale.operators, Scale.size] <;> omega

/-- Dropping stores adds no operator, and makes the tree smaller by at least the number of changes
that are counted. -/
theorem weight_dropStores (facts : Facts) (tail : Option Expr) (before ss : List Stmt) :
    Stmt.weightOf (.operators true) (dropStores facts tail before ss).1 ≤
        Stmt.weightOf (.operators true) before + Stmt.weightOf (.operators true) ss ∧
      Stmt.weightOf .size (dropStores facts tail before ss).1 +
          (dropStores facts tail before ss).2 ≤
        Stmt.weightOf .size before + Stmt.weightOf .size ss := by
  fun_induction dropStores facts tail before ss with
  | case1 before => exact ⟨Nat.le_add_right _ _, Nat.le_add_right _ _⟩
  | case2 before s ss ss' h out changes hout ih =>
      have := (dropped_of_dropStore? h).weight
      rw [hout] at ih
      dsimp only at ih ⊢
      omega
  | case3 before s ss h ih =>
      simp only [Stmt.weightOf_append, Stmt.weightOf] at ih ⊢
      omega

/-- **Dead code.** No change adds operators, and every change makes the block smaller. So the two
weights in this order fall with every change of this pass. -/
theorem weight_block (facts : Facts) (b : Block) :
    (block facts b).1.weight (.operators true) ≤ b.weight (.operators true) ∧
      (block facts b).1.weight .size + (block facts b).2 ≤ b.weight .size := by
  obtain ⟨n, ss, tail⟩ := b
  have hreach := weight_reachable ss
  have hdrop := fun tail => weight_dropStores facts tail [] (reachable ss).stmts
  simp only [Stmt.weightOf, Nat.zero_add] at hdrop
  have hpos : ∀ e : Expr, 1 ≤ e.weight .size := by
    intro e
    cases e <;> simp [Expr.weight, Scale.size]
  rw [block]
  dsimp only
  split
  · next hcut =>
      have := hdrop none
      cases tail with
      | none => simp at hcut
      | some e =>
          have := hpos e
          simp only [Block.weight]
          omega
  · have := hdrop tail
    cases tail <;> simp only [Block.weight] <;> omega

/-- One round of the removal of stores: what comes first changes, or is passed. -/
inductive StoreStep (facts : Facts) (tail : Option Expr) :
    List Stmt × List Stmt → List Stmt × List Stmt → Prop
  | change {before : List Stmt} {s : Stmt} {ss ss' : List Stmt}
      (h : dropStore? facts tail before (s :: ss) = some ss') :
      StoreStep facts tail (before, s :: ss) (before, ss')
  | pass {before : List Stmt} {s : Stmt} {ss : List Stmt}
      (h : dropStore? facts tail before (s :: ss) = none) :
      StoreStep facts tail (before, s :: ss) (before ++ [s], ss)

/-- The removal of stores ends, since the size of what is left to visit falls. -/
theorem wellFounded_storeStep (facts : Facts) (tail : Option Expr) :
    WellFounded fun after before => StoreStep facts tail before after := by
  refine Subrelation.wf ?_ (measure fun p : List Stmt × List Stmt => Stmt.weightOf .size p.2).wf
  rintro _ _ (h | h)
  · exact (dropped_of_dropStore? h).weight.2
  · next s ss =>
      have := s.weight_size_pos
      change Stmt.weightOf .size ss < s.weight .size + Stmt.weightOf .size ss
      omega

/-- The removal of stores takes these rounds, up to the last statement. -/
theorem dropStores_steps (facts : Facts) (tail : Option Expr) (before ss : List Stmt) :
    Relation.ReflTransGen (StoreStep facts tail) (before, ss)
      ((dropStores facts tail before ss).1, []) := by
  fun_induction dropStores facts tail before ss with
  | case1 before => exact .refl
  | case2 before s ss ss' h out changes hout ih =>
      rw [hout] at ih
      exact .head (.change h) ih
  | case3 before s ss h ih => exact .head (.pass h) ih

end DeadCode

/-! ### Sharing -/

/-- The operators of an expression with this key. -/
def ExprKey.operators : ExprKey → Nat
  | .lit _ | .symbol _ => 0
  | .unary _ e | .cast _ e => e.operators + 1
  | .binary _ l r => l.operators + r.operators + 1

/-- Expressions with the same key have the same number of operators, as the key is the expression
without its notes. -/
theorem Expr.weight_of_key {bodies : Bool} : ∀ {e : Expr} {key : ExprKey}, e.key? = some key →
    e.weight (.operators bodies) = key.operators
  | .lit _ _, _, h => by
      cases h
      rfl
  | .ident _ _, _, h => by
      obtain ⟨symbol, -, rfl⟩ := Option.map_eq_some_iff.mp h
      rfl
  | .unary _ op e, _, h => by
      obtain ⟨key, hkey, rfl⟩ := Option.map_eq_some_iff.mp h
      simp only [Expr.weight, ExprKey.operators, e.weight_of_key hkey, Scale.operator_operators]
  | .cast _ e target, _, h => by
      obtain ⟨key, hkey, rfl⟩ := Option.map_eq_some_iff.mp h
      simp only [Expr.weight, ExprKey.operators, e.weight_of_key hkey, Scale.operator_operators]
  | .binary _ op l r, _, h => by
      rw [Expr.key?] at h
      split at h
      · obtain ⟨left, hl, h⟩ := Option.bind_eq_some_iff.mp h
        obtain ⟨right, hr, h⟩ := Option.bind_eq_some_iff.mp h
        cases h
        simp only [Expr.weight, ExprKey.operators, l.weight_of_key hl, r.weight_of_key hr,
          Scale.operator_operators]
      · cases h

namespace Share

/-- A candidate at a node has the key of this node. -/
theorem candidate?_key {e : Expr} {c : Candidate} (h : c ∈ (candidate? e).toList) :
    e.key? = some c.key := by
  unfold candidate? at h
  split at h
  · obtain ⟨key, hkey, rfl⟩ := Option.map_eq_some_iff.mp (Option.mem_toList.mp h)
    exact hkey
  · cases h

/-- An operation has at least the operator at its top. -/
theorem Operation.weight_pos {e : Expr} (h : Operation e) (bodies : Bool) :
    0 < e.weight (.operators bodies) := by
  cases h <;> exact Nat.succ_pos _

section Occurrences

variable (key : ExprKey) {bodies : Bool}

/-- How often a key occurs among candidates. -/
def occurrences (cs : List Candidate) : Nat :=
  cs.countP fun c => c.key == key

/-- Among no candidates a key does not occur. -/
@[simp] theorem occurrences_nil : occurrences key [] = 0 :=
  rfl

/-- Among candidates in a row a key occurs as often as in both parts. -/
@[simp] theorem occurrences_append (cs ds : List Candidate) :
    occurrences key (cs ++ ds) = occurrences key cs + occurrences key ds :=
  List.countP_append

/-- A node by itself counts at most once. -/
theorem occurrences_candidate?_le (e : Expr) : occurrences key (candidate? e).toList ≤ 1 :=
  Nat.le_trans List.countP_le_length (Option.length_toList_le)

/-- An expression that is a candidate itself has the operators of its key. -/
theorem weight_of_candidate? {e : Expr} (h : 0 < occurrences key (candidate? e).toList) :
    e.weight (.operators bodies) = key.operators := by
  obtain ⟨c, hc, hkey⟩ := List.countP_pos_iff.mp h
  rw [← beq_iff_eq.mp hkey]
  exact e.weight_of_key (candidate?_key hc)

/-- Alike expressions do not stand inside each other: if an expression is an occurrence itself,
there is none in its operands. -/
theorem occurrences_mul_le {e : Expr} {inner total : Nat}
    (hinner : inner * key.operators ≤ total)
    (he : e.weight (.operators bodies) = total + 1) :
    (occurrences key (candidate? e).toList + inner) * key.operators ≤ total + 1 := by
  rcases Nat.eq_zero_or_pos (occurrences key (candidate? e).toList) with hself | hself
  · rw [hself, Nat.zero_add]
    exact Nat.le_succ_of_le hinner
  · have hkey : e.weight (.operators bodies) = key.operators := weight_of_candidate? key hself
    have hone : occurrences key (candidate? e).toList = 1 :=
      Nat.le_antisymm (occurrences_candidate?_le key e) hself
    rcases Nat.eq_zero_or_pos inner with hzero | hpos
    · rw [hone, hzero, Nat.add_zero, Nat.one_mul]
      omega
    · have := Nat.le_mul_of_pos_left key.operators hpos
      omega

mutual

/-- All occurrences of a key together have no more operators than the expression. Occurrences do not
overlap, since an expression does not hold its own key again further down. -/
theorem occurrences_le : ∀ e : Expr,
    occurrences key (candidates e) * key.operators ≤ e.weight (.operators bodies)
  | .lit _ _ | .ident _ _ | .lambda _ _ _ => by
      simp [candidates]
  | .unary n op e | .cast n e target => by
      rw [candidates, occurrences_append]
      exact occurrences_mul_le key (occurrences_le e) rfl
  | .binary n op l r => by
      have hl := occurrences_le l
      have hr := occurrences_le r
      rw [candidates]
      split
      · exact Nat.le_trans hl (Nat.le_trans (Nat.le_add_right _ _) (Nat.le_add_right _ _))
      · rw [occurrences_append, occurrences_append, Nat.add_assoc]
        refine occurrences_mul_le key ?_ rfl
        rw [Nat.add_mul]
        exact Nat.add_le_add hl hr
  | .assign n a b | .index n a b => by
      have ha := occurrences_le a
      have hb := occurrences_le b
      rw [candidates, occurrences_append, Nat.add_mul]
      exact Nat.le_trans (Nat.add_le_add ha hb) (Nat.le_add_right _ _)
  | .call n f args => by
      have hf := occurrences_le f
      have ha := occurrencesOf_le args
      rw [candidates, occurrences_append, Nat.add_mul]
      exact Nat.le_trans (Nat.add_le_add hf ha) (Nat.le_add_right _ _)
  | .list n items => Nat.le_trans (occurrencesOf_le items) (Nat.le_add_right _ _)

/-- Every occurrence of a key brings along the operators of the key, so together they are no more
than those of all expressions. -/
theorem occurrencesOf_le : ∀ es : List Expr,
    occurrences key (candidatesOf es) * key.operators ≤ Expr.weightOf (.operators bodies) es
  | [] => by simp [candidatesOf]
  | e :: es => by
      rw [candidatesOf, occurrences_append, Nat.add_mul]
      exact Nat.add_le_add (occurrences_le e) (occurrencesOf_le es)

end

variable (labels : List Nat) (name : String) (symbol : Nat)

mutual

/-- Substitution only takes operators away. -/
theorem weight_substitute_le (e : Expr) :
    (substitute labels name symbol e).weight (.operators bodies) ≤ e.weight (.operators bodies) := by
  rw [substitute.eq_def]
  split
  · exact Nat.zero_le _
  · cases e with
    | lit | ident | lambda => exact Nat.le_refl _
    | unary n op e | cast n e target => exact Nat.add_le_add_right (weight_substitute_le e) _
    | binary n op a b | assign n a b | index n a b =>
        exact Nat.add_le_add_right
          (Nat.add_le_add (weight_substitute_le a) (weight_substitute_le b)) _
    | call n f args =>
        exact Nat.add_le_add_right
          (Nat.add_le_add (weight_substitute_le f) (weightOf_substituteAll_le args)) _
    | list n items => exact Nat.add_le_add_right (weightOf_substituteAll_le items) _

/-- Replacing repetitions by a name adds no operators. -/
theorem weightOf_substituteAll_le (es : List Expr) :
    Expr.weightOf (.operators bodies) (substituteAll labels name symbol es) ≤
      Expr.weightOf (.operators bodies) es := by
  cases es with
  | nil => exact Nat.le_refl _
  | cons e es => exact Nat.add_le_add (weight_substitute_le e) (weightOf_substituteAll_le es)

end

/-- The labels of all candidates with a key are given. -/
def Listed (cs : List Candidate) : Prop :=
  ∀ c ∈ cs, c.key = key → labels.contains c.expr.note.id = true

/-- The labels of candidates in a row are given if those of both parts are. -/
theorem listed_append {as bs : List Candidate} :
    Listed key labels (as ++ bs) ↔ Listed key labels as ∧ Listed key labels bs := by
  simp only [Listed, List.mem_append, or_imp, forall_and]

/-- An expression whose label is not listed is no occurrence. -/
theorem occurrences_self {e : Expr} (hlisted : Listed key labels (candidate? e).toList)
    (hne : ¬ labels.contains e.note.id = true) : occurrences key (candidate? e).toList = 0 := by
  rw [occurrences, List.countP_eq_zero]
  intro c hc hkey
  refine hne ?_
  rw [← candidate?_expr hc]
  exact hlisted c hc (beq_iff_eq.mp hkey)

mutual

/-- Substitution takes the operators of every listed occurrence away. An occurrence is replaced as a
whole, so those inside of it are gone with it and are not counted again. -/
theorem weight_substitute (e : Expr) (hlisted : Listed key labels (candidates e)) :
    (substitute labels name symbol e).weight (.operators bodies) +
      occurrences key (candidates e) * key.operators ≤ e.weight (.operators bodies) := by
  rw [substitute.eq_def]
  split
  · simpa [Expr.weight] using occurrences_le key e
  · next hne =>
      cases e with
      | lit | ident | lambda => simp [candidates]
      | unary n op e | cast n e target =>
          rw [candidates, listed_append] at hlisted
          have hself := occurrences_self key labels hlisted.1 hne
          have := weight_substitute e hlisted.2
          rw [candidates, occurrences_append, hself, Nat.zero_add]
          simp only [Expr.weight]
          omega
      | binary n op l r =>
          have hr : (substitute labels name symbol r).weight (.operators bodies) ≤ _ :=
            weight_substitute_le labels name symbol r
          rw [candidates] at hlisted ⊢
          split at hlisted
          · next hlogical =>
              have := weight_substitute l hlisted
              rw [if_pos hlogical]
              simp only [Expr.weight]
              omega
          · next hstrict =>
              rw [List.append_assoc, listed_append, listed_append] at hlisted
              have hself := occurrences_self key labels hlisted.1 hne
              have := weight_substitute l hlisted.2.1
              have := weight_substitute r hlisted.2.2
              rw [if_neg hstrict, List.append_assoc, occurrences_append, occurrences_append, hself,
                Nat.zero_add, Nat.add_mul]
              simp only [Expr.weight]
              omega
      | assign n a b | index n a b =>
          rw [candidates, listed_append] at hlisted
          have := weight_substitute a hlisted.1
          have := weight_substitute b hlisted.2
          rw [candidates, occurrences_append, Nat.add_mul]
          simp only [Expr.weight]
          omega
      | call n f args =>
          rw [candidates, listed_append] at hlisted
          have := weight_substitute f hlisted.1
          have := weight_substituteAll args hlisted.2
          rw [candidates, occurrences_append, Nat.add_mul]
          simp only [Expr.weight]
          omega
      | list n items =>
          have := weight_substituteAll items hlisted
          rw [candidates]
          simp only [Expr.weight]
          omega

/-- Every occurrence that is replaced takes the operators of its key away. -/
theorem weight_substituteAll (es : List Expr) (hlisted : Listed key labels (candidatesOf es)) :
    Expr.weightOf (.operators bodies) (substituteAll labels name symbol es) +
      occurrences key (candidatesOf es) * key.operators ≤ Expr.weightOf (.operators bodies) es := by
  cases es with
  | nil => simp [candidatesOf, substituteAll]
  | cons e es =>
      rw [candidatesOf, listed_append] at hlisted
      have := weight_substitute e hlisted.1
      have := weight_substituteAll es hlisted.2
      rw [candidatesOf, occurrences_append, Nat.add_mul]
      simp only [substituteAll, Expr.weightOf]
      omega

end

end Occurrences

/-- A repeated subexpression occurs at least twice, and all its occurrences are listed. -/
theorem repeated?_occurrences {e first : Expr} {labels : List Nat}
    (h : repeated? e = some (first, labels)) : ∃ key, first.key? = some key ∧ 0 < key.operators ∧
      2 ≤ occurrences key (candidates e) ∧ Listed key labels (candidates e) := by
  obtain ⟨c, hc, heq⟩ := Option.map_eq_some_iff.mp h
  cases heq
  have hmem := List.mem_of_find?_eq_some hc
  have htwo := List.find?_some hc
  have hcand := isCandidate e hmem
  refine ⟨c.key, hcand.key, ?_, ?_, ?_⟩
  · rw [← Expr.weight_of_key hcand.key]
    exact hcand.operation.weight_pos true
  · rw [occurrences, List.countP_eq_length_filter]
    exact of_decide_eq_true htwo
  · intro d hd hdkey
    rw [List.contains_iff_mem]
    exact List.mem_map_of_mem (List.mem_filter.mpr ⟨hd, beq_iff_eq.mpr hdkey⟩)

/-- **One round.** What is left of an expression, the temporary and its declaration. -/
theorem weight_round (bodies : Bool) {e first : Expr} {labels : List Nat}
    (h : repeated? e = some (first, labels)) (name : String) (symbol : Nat) :
    0 < first.weight (.operators bodies) ∧
      (substitute labels name symbol e).weight (.operators bodies) +
        2 * first.weight (.operators bodies) ≤ e.weight (.operators bodies) := by
  obtain ⟨key, hkey, hpos, htwo, hlisted⟩ := repeated?_occurrences h
  have hsub : (substitute labels name symbol e).weight (.operators bodies) + _ ≤ _ :=
    weight_substitute key labels name symbol e hlisted
  have := Nat.mul_le_mul_right key.operators htwo
  rw [first.weight_of_key hkey]
  exact ⟨hpos, by omega⟩

/-- The declaration of temporaries for an expression, as long as a subexpression is repeated.
Temporaries are declared for the initializer of each temporary first. -/
inductive Hoists (function : Nat) : Supply → Expr → List Stmt × Expr → Supply → Prop
  | writes {s : Supply} {e : Expr} (h : e.mayWrite = true) : Hoists function s e ([], e) s
  | distinct {s : Supply} {e : Expr} (hw : e.mayWrite = false) (h : repeated? e = none) :
      Hoists function s e ([], e) s
  | hoist {s s₁ s₂ : Supply} {e first init e' : Expr} {labels : List Nat} {inner rest : List Stmt}
      {name : String} {symbol : Nat} (hw : e.mayWrite = false)
      (h : repeated? e = some (first, labels))
      (htemp : temporary first.ty function s = ((name, symbol), s₁))
      (hinit : Hoists function
        { s₁ with labels := s₁.labels + 2, types := (s₁.types.push first.ty).push .unit }
        (first.withNote { id := s₁.labels, range := first.range, ty := first.ty }) (inner, init) s₂)
      {s₃ : Supply}
      (hrest : Hoists function s₂ (substitute labels name symbol e) (rest, e') s₃) :
      Hoists function s e
        (inner ++ .letVar { id := s₁.labels + 1, range := first.range, symbol := some symbol }
          name none init :: rest, e') s₃

variable {function : Nat}

/-- As many rounds as there are operators are enough: each round takes operators away, from the
value of the temporary and from what is left. So the loop ends because nothing is repeated any more.
-/
theorem hoists_expr : ∀ (fuel : Nat) (e : Expr) (s : Supply),
    e.weight (.operators false) ≤ fuel →
      Hoists function s e ((expr function fuel e).run s).1 ((expr function fuel e).run s).2
  | 0, e, s, hfuel => by
      cases hw : e.mayWrite with
      | true => exact .writes hw
      | false =>
          refine .distinct hw ?_
          cases hr : repeated? e with
          | none => rfl
          | some r =>
              have := weight_round false hr "" 0
              omega
  | fuel + 1, e, s, hfuel => by
      cases hw : e.mayWrite with
      | true =>
          rw [expr, if_pos hw]
          exact .writes hw
      | false =>
          rw [expr, if_neg (by simp [hw])]
          split
          · next hr => exact .distinct hw hr
          · next first labels hr =>
              have hround := weight_round false hr
              refine .hoist hw hr rfl (hoists_expr fuel _ _ ?_) (hoists_expr fuel _ _ ?_)
              · have := hround "" 0
                rw [Expr.weight_withNote]
                omega
              · refine Nat.le_of_lt_succ (Nat.lt_of_lt_of_le ?_ hfuel)
                obtain ⟨hpos, hle⟩ := hround _ _
                exact Nat.lt_of_lt_of_le (Nat.lt_add_of_pos_right (by omega)) hle

mutual

/-- The extent of an expression counts its operators, and other nodes. -/
theorem operators_le_extent : ∀ e : Expr, e.weight (.operators false) ≤ extent e
  | .lit _ _ | .ident _ _ | .lambda _ _ _ => Nat.zero_le _
  | .unary _ _ e | .cast _ e _ => Nat.add_le_add_right (operators_le_extent e) 1
  | .binary _ _ l r | .index _ l r =>
      Nat.add_le_add_right (Nat.add_le_add (operators_le_extent l) (operators_le_extent r)) 1
  | .assign _ l r =>
      Nat.add_le_add (Nat.add_le_add (operators_le_extent l) (operators_le_extent r))
        (Nat.zero_le 1)
  | .call _ f args =>
      Nat.add_le_add (Nat.add_le_add (operators_le_extent f) (operatorsOf_le_extentOf args))
        (Nat.zero_le 1)
  | .list _ items => Nat.le_succ_of_le (operatorsOf_le_extentOf items)

/-- The fuel of hoisting is at least the number of operators that are left, so it does not run out
first. -/
theorem operatorsOf_le_extentOf : ∀ es : List Expr,
    Expr.weightOf (.operators false) es ≤ extentOf es
  | [] => Nat.zero_le _
  | e :: es => Nat.add_le_add (operators_le_extent e) (operatorsOf_le_extentOf es)

end

/-- Hoisting out of an expression has one outcome, since at each step one candidate is chosen. -/
theorem Hoists.unique {s s₁ s₂ : Supply} {e : Expr} {r₁ r₂ : List Stmt × Expr}
    (h₁ : Hoists function s e r₁ s₁) (h₂ : Hoists function s e r₂ s₂) : r₁ = r₂ ∧ s₁ = s₂ := by
  induction h₁ generalizing r₂ s₂ with
  | writes hw =>
      cases h₂ with
      | writes => exact ⟨rfl, rfl⟩
      | distinct hw' | hoist hw' => rw [hw] at hw'; cases hw'
  | distinct hw hr =>
      cases h₂ with
      | writes hw' => rw [hw] at hw'; cases hw'
      | distinct => exact ⟨rfl, rfl⟩
      | hoist _ hr' => rw [hr] at hr'; cases hr'
  | hoist hw hr htemp _ _ ihinit ihrest =>
      cases h₂ with
      | writes hw' => rw [hw] at hw'; cases hw'
      | distinct _ hr' => rw [hr] at hr'; cases hr'
      | hoist _ hr' htemp' hinit' hrest' =>
          cases hr.symm.trans hr'
          cases htemp.symm.trans htemp'
          obtain ⟨hr₁, rfl⟩ := ihinit hinit'
          cases hr₁
          obtain ⟨hr₂, rfl⟩ := ihrest hrest'
          cases hr₂
          exact ⟨rfl, rfl⟩

/-- **Hoisting ends.** The temporaries of an expression are those that hoisting declares without
a bound on its rounds. -/
theorem hoists_iff {s s' : Supply} {e : Expr} {r : List Stmt × Expr} :
    Hoists function s e r s' ↔ (root function e).run s = (r, s') := by
  have hroot : Hoists function s e ((root function e).run s).1 ((root function e).run s).2 :=
    hoists_expr (extent e) e s (operators_le_extent e)
  constructor
  · intro h
    obtain ⟨rfl, rfl⟩ := hroot.unique h
    rfl
  · intro h
    rw [h] at hroot
    exact hroot

/-- Every temporary takes an operator away: the repeated subexpression has one at least, and it
is computed once instead of twice or more often. -/
theorem Hoists.weight {s s' : Supply} {e : Expr} {r : List Stmt × Expr}
    (h : Hoists function s e r s') :
    Stmt.weightOf (.operators true) r.1 + r.2.weight (.operators true) + r.1.length ≤
      e.weight (.operators true) := by
  induction h with
  | writes | distinct => simp [Stmt.weightOf]
  | @hoist _ _ _ _ _ _ _ _ _ _ name symbol _ hr _ _ _ _ ihinit ihrest =>
      obtain ⟨hpos, hround⟩ := weight_round true hr name symbol
      rw [Expr.weight_withNote] at ihinit
      dsimp only at ihinit ihrest
      simp only [Stmt.weightOf_append, Stmt.weightOf, Stmt.weight, List.length_append,
        List.length_cons, Scale.declaration_operators]
      omega

variable {α β : Type}

/-- What a sharing gives has a property. -/
def Gives (m : Sharing α) (P : α → Prop) : Prop :=
  ∀ s, P (m.run s).1

/-- A result that is there already is what is given. -/
theorem Gives.pure {a : α} {P : α → Prop} (h : P a) : Gives (Pure.pure a) P :=
  fun _ => h

/-- Of two sharings in a row the second one gives the result, and it may rely on what the first one
gave. -/
theorem Gives.bind {m : Sharing α} {f : α → Sharing β} {P : α → Prop} {Q : β → Prop}
    (hm : Gives m P) (hf : ∀ a, P a → Gives (f a) Q) : Gives (m >>= f) Q :=
  fun s => hf _ (hm s) _

/-- **Hoisting.** Every temporary that is declared saves at least one operator in all of the
expression. -/
theorem weight_root (e : Expr) : Gives (root function e) fun r =>
    Stmt.weightOf (.operators true) r.1 + r.2.weight (.operators true) + r.1.length ≤
      e.weight (.operators true) :=
  fun _ => (hoists_iff.mpr rfl).weight

/-- Sharing in a statement saves an operator for every temporary that is declared. A temporary holds
the expression once, and at least two occurrences of it are gone. -/
theorem weight_stmt (s : Stmt) : Gives (stmt function s) fun r =>
    Stmt.weightOf (.operators true) r.1 + r.2.weight (.operators true) + r.1.length ≤
      s.weight (.operators true) := by
  have hsame : Gives (Pure.pure ([], s) : Sharing (List Stmt × Stmt)) fun r =>
      Stmt.weightOf (.operators true) r.1 + r.2.weight (.operators true) + r.1.length ≤
        s.weight (.operators true) :=
    .pure (by simp [Stmt.weightOf])
  cases s with
  | letVar n name t e | expr n e =>
      rw [stmt]
      refine (weight_root e).bind fun r h => .pure ?_
      simp only [Stmt.weight]
      omega
  | ret n value =>
      cases value with
      | none => exact hsame
      | some e =>
          rw [stmt]
          refine (weight_root e).bind fun r h => .pure ?_
          simp only [Stmt.weight]
          omega
  | cond n test yes no =>
      rw [stmt]
      refine (weight_root test).bind fun r h => .pure ?_
      dsimp only
      cases no <;> simp only [Stmt.weight] <;> omega
  | _ => exact hsame

/-- Sharing in statements saves an operator for every change that is counted. -/
theorem weight_stmts : ∀ ss : List Stmt, Gives (stmts function ss) fun r =>
    Stmt.weightOf (.operators true) r.1 + r.2 ≤ Stmt.weightOf (.operators true) ss
  | [] => .pure (Nat.le_refl _)
  | s :: ss => by
      rw [stmts]
      refine (weight_stmt s).bind fun r hs => (weight_stmts ss).bind fun rest hss => .pure ?_
      simp only [Stmt.weightOf_append, Stmt.weightOf]
      omega

/-- **Sharing.** Every temporary takes an operator away. -/
theorem weight_block (function : Nat) (b : Block) : Gives (block function b) fun r =>
    r.1.weight (.operators true) + r.2 ≤ b.weight (.operators true) := by
  obtain ⟨n, ss, tail⟩ := b
  cases tail with
  | none =>
      rw [block]
      refine (weight_stmts ss).bind fun r h => .pure ?_
      simp only [Block.weight]
      omega
  | some e =>
      rw [block]
      refine (weight_stmts ss).bind fun rest hs => (weight_root e).bind fun r he => .pure ?_
      simp only [Block.weight, Stmt.weightOf_append]
      omega

end Share

/-! ### Blocks inside trees -/

section Update

variable (w : Scale) (label : Nat) (new : Block) (saved : Nat)

/-- The block with a label is replaced by one that weighs less by `saved`. -/
def Saves (blocks : List OwnedBlock) : Prop :=
  ∀ b ∈ blocks, b.1.note.id = label → new.weight w + saved ≤ b.1.weight w

/-- Where blocks in a row are replaced, the new block is to be lighter in both parts. -/
theorem saves_append {as bs : List OwnedBlock} :
    Saves w label new saved (as ++ bs) ↔ Saves w label new saved as ∧ Saves w label new saved bs := by
  simp only [Saves, List.mem_append, or_imp, forall_and]

/-- A tree has not become heavier, and if the label occurs in it, lighter by `saved`. -/
def Lightens (blocks : List OwnedBlock) (after before : Nat) : Prop :=
  after ≤ before ∧ (label ∈ blockIds blocks → after + saved ≤ before)

variable {label saved} in
/-- Two parts of a tree that are not heavier make a tree that is not, and it is lighter if one of
them is. -/
theorem Lightens.add {as bs : List OwnedBlock} {i i' j j' : Nat} (h : Lightens label saved as i i')
    (h' : Lightens label saved bs j j') : Lightens label saved (as ++ bs) (i + j) (i' + j') := by
  refine ⟨Nat.add_le_add h.1 h'.1, fun hmem => ?_⟩
  obtain ⟨hle, hhit⟩ := h
  obtain ⟨hle', hhit'⟩ := h'
  rw [blockIds, List.map_append, List.mem_append] at hmem
  rcases hmem with hmem | hmem
  · have := hhit hmem
    omega
  · have := hhit' hmem
    omega

variable {label saved} in
/-- The weight of a node itself does not change while its parts change. -/
theorem Lightens.add_const {bs : List OwnedBlock} {i i' : Nat} (h : Lightens label saved bs i i')
    (k : Nat) : Lightens label saved bs (i + k) (i' + k) :=
  ⟨Nat.add_le_add_right h.1 k, fun hmem => by have := h.2 hmem; omega⟩

/-- A part without blocks stays as heavy as it is. -/
theorem Lightens.refl (k : Nat) : Lightens label saved [] k k :=
  ⟨Nat.le_refl _, fun h => by cases h⟩

mutual

/-- Replacing a block inside an expression by a lighter one makes the expression no heavier, and
lighter if the block occurs in it. -/
theorem Expr.weight_update (hw : w.bodies = true) : ∀ (e : Expr) {f : Nat},
    Saves w label new saved (e.blocks f) →
      Lightens label saved (e.blocks f) ((e.update label fun _ => new).weight w) (e.weight w)
  | .lit _ _, _, _ | .ident _ _, _, _ => .refl label saved _
  | .unary _ _ e, _, h | .cast _ e _, _, h => (e.weight_update hw h).add_const _
  | .binary _ _ a b, _, h | .assign _ a b, _, h | .index _ a b, _, h => by
      have h := (saves_append w label new saved).mp h
      exact ((a.weight_update hw h.1).add (b.weight_update hw h.2)).add_const _
  | .call _ g args, _, h => by
      have h := (saves_append w label new saved).mp h
      exact ((g.weight_update hw h.1).add (Expr.weightOf_update hw args h.2)).add_const _
  | .list _ items, _, h => (Expr.weightOf_update hw items h).add_const _
  | .lambda _ _ b, _, h => by
      rw [Expr.update, Expr.weight, Expr.weight, if_pos hw, if_pos hw]
      exact (b.weight_update hw h).add_const _

/-- Replacing a block inside expressions by a lighter one makes them lighter. -/
theorem Expr.weightOf_update (hw : w.bodies = true) : ∀ (es : List Expr) {f : Nat},
    Saves w label new saved (Expr.blocksOf f es) →
      Lightens label saved (Expr.blocksOf f es)
        (Expr.weightOf w (Expr.updateAll label (fun _ => new) es)) (Expr.weightOf w es)
  | [], _, _ => .refl label saved _
  | e :: es, _, h => by
      have h := (saves_append w label new saved).mp h
      exact (e.weight_update hw h.1).add (Expr.weightOf_update hw es h.2)

/-- Replacing a block inside a statement by a lighter one makes the statement lighter. -/
theorem Stmt.weight_update (hw : w.bodies = true) : ∀ (s : Stmt) {f : Nat},
    Saves w label new saved (s.blocks f) →
      Lightens label saved (s.blocks f) ((s.update label fun _ => new).weight w) (s.weight w)
  | .block b, _, h => b.weight_update hw h
  | .loop _ b, _, h | .fnDecl _ _ _ b, _, h => (b.weight_update hw h).add_const _
  | .letVar _ _ _ e, _, h | .expr _ e, _, h | .ret _ (some e), _, h =>
      (e.weight_update hw h).add_const _
  | .ret _ none, _, _ | .breakLoop _, _, _ | .continueLoop _, _, _ => .refl label saved _
  | .cond _ test yes none, _, h => by
      have h := (saves_append w label new saved).mp h
      exact ((test.weight_update hw h.1).add (yes.weight_update hw h.2)).add_const _
  | .cond _ test yes (some no), _, h => by
      have h := (saves_append w label new saved).mp h
      have h' := (saves_append w label new saved).mp h.1
      exact (((test.weight_update hw h'.1).add (yes.weight_update hw h'.2)).add
        (no.weight_update hw h.2)).add_const _
  | .whileLoop _ test b, _, h => by
      have h := (saves_append w label new saved).mp h
      exact ((test.weight_update hw h.1).add (b.weight_update hw h.2)).add_const _

/-- Replacing a block inside statements by a lighter one makes them lighter. -/
theorem Stmt.weightOf_update (hw : w.bodies = true) : ∀ (ss : List Stmt) {f : Nat},
    Saves w label new saved (Stmt.blocksOf f ss) →
      Lightens label saved (Stmt.blocksOf f ss)
        (Stmt.weightOf w (Stmt.updateAll label (fun _ => new) ss)) (Stmt.weightOf w ss)
  | [], _, _ => .refl label saved _
  | s :: ss, _, h => by
      have h := (saves_append w label new saved).mp h
      exact (s.weight_update hw h.1).add (Stmt.weightOf_update hw ss h.2)

/-- **A change in a tree.** A tree becomes lighter by what the new block saves, once for each block
that has the label. -/
theorem Block.weight_update (hw : w.bodies = true) : ∀ (b : Block) {f : Nat},
    Saves w label new saved (b.blocks f) →
      Lightens label saved (b.blocks f) ((b.update label fun _ => new).weight w) (b.weight w)
  | .mk n ss none, f, h => by
      rw [Block.update]
      split
      · next hn =>
          have := h _ List.mem_cons_self hn
          exact ⟨Nat.le_trans (Nat.le_add_right _ _) this, fun _ => this⟩
      · next hn =>
          have hss := Stmt.weightOf_update hw ss fun b hb => h b (List.mem_cons_of_mem _ hb)
          refine ⟨(hss.add_const _).1, fun hmem => (hss.add_const _).2 ?_⟩
          exact (List.mem_cons.mp hmem).resolve_left (Ne.symm hn)
  | .mk n ss (some e), f, h => by
      rw [Block.update]
      split
      · next hn =>
          have := h _ List.mem_cons_self hn
          exact ⟨Nat.le_trans (Nat.le_add_right _ _) this, fun _ => this⟩
      · next hn =>
          have hparts := (saves_append w label new saved).mp fun b hb =>
            h b (List.mem_cons_of_mem _ hb)
          have hboth := ((Stmt.weightOf_update hw ss hparts.1).add
            (e.weight_update hw hparts.2)).add_const w.node
          refine ⟨hboth.1, fun hmem => hboth.2 ?_⟩
          exact (List.mem_cons.mp hmem).resolve_left (Ne.symm hn)

end

end Update

/-! ### Sweeps -/

namespace Analyzed

variable {a : Analyzed} {label : Nat}

/-- The operators of a program, and then its size. -/
def measure (a : Analyzed) : Nat ×ₗ Nat :=
  toLex (a.program.root.weight (.operators true), a.program.root.weight .size)

/-- One block has fewer operators than another one, or no more and a smaller size. -/
def Lighter (new old : Block) : Prop :=
  new.weight (.operators true) < old.weight (.operators true) ∨
    new.weight (.operators true) ≤ old.weight (.operators true) ∧ new.weight .size < old.weight .size

/-- A change of the block with a label lowers the measure, unless the block is not one of the
program. -/
def Lowers (label : Nat) (a a' : Analyzed) : Prop :=
  a'.measure ≤ a.measure ∧ (label ∈ blockIds (a.program.root.blocks 0) → a'.measure < a.measure)

/-- A lighter block in the place of the one that is found. -/
theorem lowers_setBlock (h : a.program.Labelled) {b : OwnedBlock} {new : Block}
    (hfind : (a.allBlocks.find? fun b => b.1.note.id == label) = some b) (hnew : Lighter new b.1) :
    Lowers label a (a.setBlock label b.1 new) := by
  by_cases hmem : label ∈ blockIds (a.program.root.blocks 0)
  · have hsaves : ∀ {w : Scale} {saved : Nat}, new.weight w + saved ≤ b.1.weight w →
        Saves w label new saved (a.program.root.blocks 0) := by
      intro w saved hle b' hb' hid
      rw [eq_of_find? h hfind hb' hid]
      exact hle
    have hlt : (a.setBlock label b.1 new).measure < a.measure := by
      rw [measure, measure, Prod.Lex.toLex_lt_toLex]
      rcases hnew with hlt | ⟨hle, hlt⟩
      · exact .inl ((Block.weight_update _ label new 1 rfl _ (hsaves hlt)).2 hmem)
      · have hops := (Block.weight_update (.operators true) label new 0 rfl _ (hsaves hle)).1
        have hsize := (Block.weight_update .size label new 1 rfl _ (hsaves hlt)).2 hmem
        rcases Nat.lt_or_eq_of_le hops with hops | hops
        · exact .inl hops
        · exact .inr ⟨hops, hsize⟩
    exact ⟨le_of_lt hlt, fun _ => hlt⟩
  · have hroot : (a.setBlock label b.1 new).program.root = a.program.root :=
      a.program.root.update_of_not_mem hmem
    refine ⟨?_, fun hmem' => absurd hmem' hmem⟩
    rw [measure, measure, hroot]

/-- A sweep for dead code through one block does nothing, or it lowers the measure. -/
theorem lowers_sweepDeadCode (h : a.program.Labelled) :
    a.sweepDeadCode label = (a, 0) ∨ Lowers label a (a.sweepDeadCode label).1 := by
  rw [sweepDeadCode]
  split
  · exact .inl rfl
  · next b f hfind =>
      have hblock := DeadCode.weight_block a.facts b
      dsimp only
      split
      · exact .inl rfl
      · have hlt : (DeadCode.block a.facts b).1.weight .size < b.weight .size := by omega
        exact .inr (lowers_setBlock h hfind (.inr ⟨hblock.1, hlt⟩))

/-- A sweep for repeated subexpressions through one block does nothing, or it lowers the measure. -/
theorem lowers_sweepRepeated (h : a.program.Labelled) :
    a.sweepRepeated label = (a, 0) ∨ Lowers label a (a.sweepRepeated label).1 := by
  rw [sweepRepeated]
  split
  · exact .inl rfl
  · next b function hfind =>
      have hblock := Share.weight_block function b a.supply
      split
      next new count supply heq =>
        rw [heq] at hblock
        split
        · exact .inl rfl
        · have hlt : new.weight (.operators true) < b.weight (.operators true) := by
            dsimp only at hblock
            omega
          exact .inr (lowers_setBlock h hfind (.inl hlt))

/-- One block of a sweep over blocks. -/
def sweepStep (sweep : Analyzed → Nat → Analyzed × Nat) (r : Analyzed × Nat) (b : OwnedBlock) :
    Analyzed × Nat :=
  ((sweep r.1 b.1.note.id).1, r.2 + (sweep r.1 b.1.note.id).2)

/-- A sweep over blocks takes the blocks of the program as it finds them at the start, and goes
through them from left to right. -/
theorem sweepBlocks_eq_foldl (sweep : Analyzed → Nat → Analyzed × Nat) (a : Analyzed) :
    a.sweepBlocks sweep = (a.program.root.blocks 0).foldl (sweepStep sweep) (a, 0) :=
  rfl

/-- **One sweep over blocks.** The first block that changes is one of the program, and no later
change makes up for it. -/
theorem measure_sweepBlocks {sweep : Analyzed → Nat → Analyzed × Nat}
    (hlabelled : ∀ {a label}, a.program.Labelled → (sweep a label).1.program.Labelled)
    (hsweep : ∀ {a label}, a.program.Labelled →
      sweep a label = (a, 0) ∨ Lowers label a (sweep a label).1)
    (h : a.program.Labelled) (hchange : (a.sweepBlocks sweep).2 ≠ 0) :
    (a.sweepBlocks sweep).1.measure < a.measure := by
  have hfold : ∀ (blocks : List OwnedBlock) (a : Analyzed) (count : Nat), a.program.Labelled →
      (blocks.foldl (sweepStep sweep) (a, count)).1.measure ≤ a.measure ∧
        ((blocks.foldl (sweepStep sweep) (a, count)).2 ≠ count →
          (∀ x ∈ blockIds blocks, x ∈ blockIds (a.program.root.blocks 0)) →
            (blocks.foldl (sweepStep sweep) (a, count)).1.measure < a.measure) := by
    intro blocks
    induction blocks with
    | nil => exact fun a count _ => ⟨le_refl _, fun hne => absurd rfl hne⟩
    | cons b blocks ih =>
        intro a count h
        rw [List.foldl_cons]
        rcases @hsweep a b.1.note.id h with hsame | hlower
        · -- Nothing changed yet, so all blocks are still those of the program.
          rw [sweepStep, hsame]
          refine ⟨(ih a count h).1, fun hne hmem => (ih a count h).2 hne fun x hx => hmem x ?_⟩
          exact List.mem_cons_of_mem _ hx
        · have hrest := (ih (sweep a b.1.note.id).1 (count + (sweep a b.1.note.id).2)
            (hlabelled h)).1
          refine ⟨le_trans hrest hlower.1, fun _ hmem => lt_of_le_of_lt hrest (hlower.2 ?_)⟩
          exact hmem _ List.mem_cons_self
  rw [sweepBlocks_eq_foldl] at hchange ⊢
  exact (hfold _ a 0 h).2 hchange fun _ hx => hx

end Analyzed

/-- A sweep of folding that counts a change lowers the measure. -/
theorem measure_foldSweep_lt {a : Analyzed} (h : (foldSweep a).2 ≠ 0) :
    (foldSweep a).1.measure < a.measure := by
  obtain ⟨changes, hcount, hweight⟩ := Fold.weight_block a.program.root {}
  have hchanges : (foldSweep a).2 = changes := hcount.trans (Nat.zero_add _)
  refine Prod.Lex.toLex_lt_toLex.mpr (.inl ?_)
  change ((Fold.block a.program.root).run {}).1.weight (.operators true) < _
  omega

/-- **One sweep.** A sweep that changes something lowers the measure. -/
theorem Pass.measure_sweep_lt (p : Pass) {a : Analyzed} (h : a.program.Labelled)
    (hchange : (p.sweep a).2 ≠ 0) : (p.sweep a).1.measure < a.measure := by
  cases p with
  | constantFolding => exact measure_foldSweep_lt hchange
  | deadCode =>
      exact Analyzed.measure_sweepBlocks Analyzed.labelled_sweepDeadCode
        Analyzed.lowers_sweepDeadCode h hchange
  | commonSubexpr =>
      exact Analyzed.measure_sweepBlocks Analyzed.labelled_sweepRepeated
        Analyzed.lowers_sweepRepeated h hchange

/-! ### Sequences of sweeps -/

/-- Programs that come from each other by sweeps that change something. -/
def SweptForever (run : Nat → Analyzed) : Prop :=
  ∀ n, ∃ p : Pass, (p.sweep (run n)).2 ≠ 0 ∧ run (n + 1) = (p.sweep (run n)).1

/-- No program with distinct labels is swept forever. -/
theorem not_sweptForever {run : Nat → Analyzed} (h : (run 0).program.Labelled) :
    ¬ SweptForever run := by
  intro hrun
  have hlabelled : ∀ n, (run n).program.Labelled := by
    intro n
    induction n with
    | zero => exact h
    | succ n ih =>
        obtain ⟨p, -, hnext⟩ := hrun n
        rw [hnext]
        exact p.labelled_sweep ih
  obtain ⟨n, hn⟩ := WellFounded.not_rel_apply_succ
    (r := fun x y : Nat ×ₗ Nat => x < y) fun n => (run n).measure
  obtain ⟨p, hchange, hnext⟩ := hrun n
  refine hn ?_
  rw [hnext]
  exact p.measure_sweep_lt (hlabelled n) hchange

/-- Enough rounds of a pass end. -/
theorem exists_repeatSweep (p : Pass) (a : Analyzed) (h : a.program.Labelled) (changed : Bool) :
    ∃ rounds answer, (repeatSweep p.sweep rounds changed a).2 = some answer := by
  cases hsweep : p.sweep a with
  | mk a' changes =>
      cases changes with
      | zero => exact ⟨1, changed, by rw [repeatSweep, hsweep]⟩
      | succ changes =>
          have hlt : a'.measure < a.measure := by
            have := p.measure_sweep_lt h (by rw [hsweep]; exact Nat.succ_ne_zero _)
            rwa [hsweep] at this
          have hlabelled : a'.program.Labelled := by
            have := p.labelled_sweep h
            rwa [hsweep] at this
          obtain ⟨rounds, answer, hrest⟩ := exists_repeatSweep p a' hlabelled true
          exact ⟨rounds + 1, answer, by rw [repeatSweep, hsweep]; exact hrest⟩
termination_by a.measure
decreasing_by exact hlt

/-- **The optimizer converges.** If analysis finds no errors in a program, then no sequence of
sweeps of any passes changes it again and again: the measure falls with every sweep that changes
something, and every pass ends if its rounds are not bounded. The removal of stores ends in every
block, and so does the hoisting of subexpressions, which is what a sweep does with its bound. -/
theorem sweeps_converge (g : Grammar) (size : Nat) (tokens : List Token)
    (h : (analyze (parseTokens g size tokens).1).2 = []) :
    let a := (analyze (parseTokens g size tokens).1).1
    (∀ b, a.Sweeps b → ∀ p : Pass, (p.sweep b).2 ≠ 0 → (p.sweep b).1.measure < b.measure) ∧
      (∀ run : Nat → Analyzed, run 0 = a → ¬ SweptForever run) ∧
      (∀ b, a.Sweeps b → ∀ (p : Pass) (changed : Bool),
        ∃ rounds answer, (repeatSweep p.sweep rounds changed b).2 = some answer) ∧
      (∀ (facts : Facts) (tail : Option Expr),
        (WellFounded fun after before => DeadCode.StoreStep facts tail before after) ∧
        ∀ ss, Relation.ReflTransGen (DeadCode.StoreStep facts tail) ([], ss)
          ((DeadCode.dropStores facts tail [] ss).1, [])) ∧
      (∀ (function : Nat) (s s' : Share.Supply) (e : Expr) (r : List Stmt × Expr),
        Share.Hoists function s e r s' ↔ (Share.root function e).run s = (r, s')) := by
  intro a
  have hlabelled : a.program.Labelled := by
    intro x
    rw [(analyze_accepted parseTokens_regular h).2]
    exact parseTokens_labelled g size tokens x
  refine ⟨fun b hb p hchange => p.measure_sweep_lt (hb.labelled hlabelled) hchange, ?_, ?_, ?_, ?_⟩
  · rintro run hrun
    refine not_sweptForever ?_
    rw [hrun]
    exact hlabelled
  · exact fun b hb p changed => exists_repeatSweep p b (hb.labelled hlabelled) changed
  · exact fun facts tail =>
      ⟨DeadCode.wellFounded_storeStep facts tail, DeadCode.dropStores_steps facts tail []⟩
  · exact fun function s s' e r => Share.hoists_iff

/-- In this text one sweep finds something to share, so the measure does go down. -/
theorem sweep_addsSquares :
    (CompileOptions.lex {} addsSquares).toOption.map (fun tokens =>
      let p := (parseTokens .standard 24 tokens).1
      ((analyze p).2.isEmpty, (Pass.commonSubexpr.sweep (analyze p).1).2)) = some (true, 1) := by
  rw [Grammar.standard_eq]
  decide +kernel

/-- Sharing declares a temporary in `addsSquares`, and lowers the measure. -/
theorem addsSquares_converges :
    ∃ tokens, CompileOptions.lex {} addsSquares = .ok tokens ∧
      (analyze (parseTokens .standard 24 tokens).1).2 = [] ∧
      (Pass.commonSubexpr.sweep (analyze (parseTokens .standard 24 tokens).1).1).1.measure <
        (analyze (parseTokens .standard 24 tokens).1).1.measure := by
  have h := sweep_addsSquares
  cases hl : CompileOptions.lex {} addsSquares with
  | error e => simp [hl, Except.toOption] at h
  | ok tokens =>
      simp only [hl, Except.toOption, Option.map_some, Option.some.injEq, Prod.mk.injEq,
        List.isEmpty_iff] at h
      obtain ⟨herrors, hchange⟩ := h
      refine ⟨tokens, rfl, herrors, ?_⟩
      refine (sweeps_converge .standard 24 tokens herrors).1 _ .refl .commonSubexpr ?_
      rw [hchange]
      exact Nat.one_ne_zero

end Parlance
