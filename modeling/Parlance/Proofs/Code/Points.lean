import Parlance.Proofs.Code.Heights
import Parlance.Proofs.Value.Typing

/-!
# Types of code

What is known at each instruction of generated code: which variables are declared and stored,
and which types the operands have. The points of a tree are listed in the order of its code.

There are no points behind a statement that control does not leave at its end. This matters at
the end of a function: the value that is returned there has the result type only if control
comes there.

## Main results

* `Block.bodyPoints`: the points of a function body.
* `Instr.Leads`: the types of instructions.
* `Fragment.Computes.append`, `Fragment.Executes.append`: typed code after typed code.
-/

namespace Parlance

/-! ### Points -/

/-- What is known before an instruction is executed. -/
structure Point where
  /-- The variables of the function that are declared here and have been stored. -/
  live : List Nat
  /-- The types of the operands, the topmost first. -/
  stack : List Ty

/-- An offset may be reached with what is known. -/
def Point.Accepts (chart : Chart Point) (pc : Nat) (p : Point) : Prop :=
  ∃ q, chart pc = some q ∧ q.stack = p.stack ∧ q.live ⊆ p.live

/-- The points of code in which no variable is declared. -/
def Point.listAt (live : List Nat) (operands : List (List Ty)) : List (Option Point) :=
  operands.map fun stack => some ⟨live, stack⟩

/-- The point behind a statement, unless control never comes there. -/
def Point.behind (live : List Nat) (terminates : Bool) : Option Point :=
  if terminates then none else some ⟨live, []⟩

namespace Point

variable {chart : Chart Point} {pc : Nat} {live live' : List Nat} {stack : List Ty}

/-- A point may be reached with more variables than it asks for. -/
theorem Accepts.mono (h : Accepts chart pc ⟨live, stack⟩) (hl : live ⊆ live') :
    Accepts chart pc ⟨live', stack⟩ := by
  obtain ⟨q, hq, hs, hsub⟩ := h
  exact ⟨q, hq, hs, List.Subset.trans hsub hl⟩

/-- Points are listed one by one. -/
@[simp] theorem listAt_append {xs ys : List (List Ty)} :
    listAt live (xs ++ ys) = listAt live xs ++ listAt live ys :=
  List.map_append

/-- The first point is that of the first operands. -/
@[simp] theorem listAt_cons {x : List Ty} {xs : List (List Ty)} :
    listAt live (x :: xs) = some ⟨live, x⟩ :: listAt live xs := rfl

/-- No operands make no points. -/
@[simp] theorem listAt_nil : listAt live [] = [] := rfl

end Point

/-! ### Points of trees -/

/-- The types of the operands while captured variables are loaded, and behind them. -/
def Facts.captureOperands (facts : Facts) (stack : List Ty) : List Nat → List (List Ty)
  | [] => [stack]
  | y :: ys => stack :: facts.captureOperands ((facts.symbol y).ty :: stack) ys

/-- The types of the variables that a function captures. -/
def Facts.captureTys (facts : Facts) (function : Nat) : List Ty :=
  (facts.captures function).map fun y => (facts.symbol y).ty

section Trees

variable (facts : Facts)

mutual

/-- The types of the operands before each instruction of an expression. -/
def Expr.operands (stack : List Ty) : Expr → List (List Ty)
  | .lit _ _ | .ident _ _ => [stack]
  | .unary _ _ e | .cast _ e _ => e.operands stack ++ [e.ty :: stack]
  | .binary _ op l r =>
    match op.split with
    | .inl _ => l.operands stack ++ r.operands (l.ty :: stack) ++ [r.ty :: l.ty :: stack]
    | .inr _ => l.operands stack ++ (l.ty :: stack) :: r.operands stack
  | .assign _ (.index _ _ i) v =>
    let base : Ty := .list v.ty
    [stack] ++ i.operands (base :: stack) ++ v.operands (i.ty :: base :: stack)
      ++ [v.ty :: i.ty :: base :: stack] ++ [base :: v.ty :: stack]
  | .assign _ _ v => v.operands stack ++ [v.ty :: stack] ++ [v.ty :: v.ty :: stack]
  | .call _ f args =>
    f.operands stack ++ Expr.operandsOf (f.ty :: stack) args
      ++ [(args.map Expr.ty).reverse ++ f.ty :: stack]
  | .index _ t i => t.operands stack ++ i.operands (t.ty :: stack) ++ [i.ty :: t.ty :: stack]
  | .list _ items => Expr.operandsOf stack items ++ [(items.map Expr.ty).reverse ++ stack]
  | .lambda n _ _ => facts.captureOperands stack ((n.function.map facts.captures).getD [])

def Expr.operandsOf (stack : List Ty) : List Expr → List (List Ty)
  | [] => []
  | e :: es => e.operands stack ++ Expr.operandsOf (e.ty :: stack) es

end

/-- The points of an expression whose value is not used. -/
def Expr.discardPoints (live : List Nat) : Expr → List (Option Point)
  | .assign _ (.ident _ _) v => Point.listAt live (v.operands facts [] ++ [[v.ty]])
  | e =>
    if Generate.isLoad { facts, function := 0, tidy := true } e then []
    else Point.listAt live (e.operands facts [] ++ [[e.ty]])

mutual

/-- The points of a statement. -/
def Stmt.points (live : List Nat) : Stmt → List (Option Point)
  | .block b => b.points live
  | .letVar _ _ _ e | .ret _ (some e) => Point.listAt live (e.operands facts [] ++ [[e.ty]])
  | .fnDecl _ _ _ _ => []
  | .ret _ none => Point.listAt live [[], [.unit]]
  | .cond _ test yes none =>
    Point.listAt live (test.operands facts []) ++ some ⟨live, [test.ty]⟩ :: yes.points live
  | .cond _ test yes (some no) =>
    Point.listAt live (test.operands facts []) ++ some ⟨live, [test.ty]⟩ ::
      (yes.points live ++ Point.behind live yes.terminates :: no.points live)
  | .whileLoop _ test b =>
    Point.listAt live (test.operands facts []) ++ some ⟨live, [test.ty]⟩ ::
      (b.points live ++ [some ⟨live, []⟩])
  | .loop _ b => b.points live ++ [some ⟨live, []⟩]
  | .breakLoop _ | .continueLoop _ => [some ⟨live, []⟩]
  | .expr _ e => e.discardPoints facts live

/-- The points of statements, one after the other. There are none behind a statement that
control does not leave at its end. -/
def Stmt.pointsOf (live : List Nat) : List Stmt → List (Option Point)
  | [] => []
  | s :: ss =>
    let rest := Stmt.pointsOf (s.declared ++ live) ss
    s.points live ++ if s.terminates then rest.map fun _ => none else rest

/-- The points of a block without a result. -/
def Block.points (live : List Nat) : Block → List (Option Point)
  | .mk _ ss _ => Stmt.pointsOf live ss

end

/-- The points of the end of a function body. -/
def Block.endPoints (live : List Nat) : Option Expr → List (Option Point)
  | none => Point.listAt live [[], [.unit]]
  | some e => Point.listAt live (e.operands facts [] ++ [[e.ty]])

/-- The points of a function body, whose parameters are `params`. -/
def Block.bodyPoints (params : List Nat) : Block → List (Option Point)
  | .mk _ ss tail => Stmt.pointsOf facts params ss ++
      if Stmt.anyTerminates ss then [] else Block.endPoints facts (Stmt.liveAfter params ss) tail

end Trees

/-! ### Instructions -/

/-- A constant has a type, whichever identity its value gets. -/
def Const.HasTy (facts : Facts) (c : Const) (t : Ty) : Prop :=
  ∀ tag, (c.toValue tag).HasTy facts t

section Leads

variable (facts : Facts) (function : Nat) (consts : Array Const) (chart : Chart Point) (pc : Nat)

open Point in
/-- **Instructions.** From a point, an instruction of a function leads only to points that are
listed. -/
inductive Instr.Leads : Point → Instr → Prop
  | pop {live stack t} : Accepts chart (pc + 1) ⟨live, stack⟩ → Leads ⟨live, t :: stack⟩ .pop
  | copy {live stack t} : Accepts chart (pc + 1) ⟨live, t :: t :: stack⟩ →
      Leads ⟨live, t :: stack⟩ .copy
  | loadConst {live stack t i c} : consts[i]? = some c → c.HasTy facts t →
      Accepts chart (pc + 1) ⟨live, t :: stack⟩ → Leads ⟨live, stack⟩ (.loadConst i)
  | loadLocal {live stack y k} : y ∈ live → (facts.symbol y).storage = .frame k →
      Accepts chart (pc + 1) ⟨live, (facts.symbol y).ty :: stack⟩ →
      Leads ⟨live, stack⟩ (.loadLocal k)
  -- The slot is not that of another variable.
  | storeLocal {live stack y k} : (facts.symbol y).storage = .frame k →
      (∀ z ∈ live, (facts.symbol z).storage = .frame k → z = y) →
      Accepts chart (pc + 1) ⟨y :: live, stack⟩ →
      Leads ⟨live, (facts.symbol y).ty :: stack⟩ (.storeLocal k)
  -- The program itself only loads what it has stored.
  | loadGlobal {live stack y k} : y < facts.symbols.size →
      (facts.symbol y).storage = .global k → (function = 0 → y ∈ live) →
      Accepts chart (pc + 1) ⟨live, (facts.symbol y).ty :: stack⟩ →
      Leads ⟨live, stack⟩ (.loadGlobal k)
  | storeGlobal {live stack y k} : y < facts.symbols.size →
      (facts.symbol y).storage = .global k →
      Accepts chart (pc + 1) ⟨y :: live, stack⟩ →
      Leads ⟨live, (facts.symbol y).ty :: stack⟩ (.storeGlobal k)
  | loadCapture {live stack y i} : (facts.captures function)[i]? = some y →
      Accepts chart (pc + 1) ⟨live, (facts.symbol y).ty :: stack⟩ →
      Leads ⟨live, stack⟩ (.loadCapture i)
  | closure {live stack f} : f < facts.functions.size →
      Accepts chart (pc + 1) ⟨live, facts.signature f :: stack⟩ →
      Leads ⟨live, (facts.captureTys f).reverse ++ stack⟩ (.closure f)
  | buildList {live stack count} {ts : List Ty} {t : Ty} : ts.length = count →
      (∀ u ∈ ts, u = t) → Accepts chart (pc + 1) ⟨live, .list t :: stack⟩ →
      Leads ⟨live, ts.reverse ++ stack⟩ (.buildList count)
  | getItem {live stack} {t item : Ty} : t.Items item →
      Accepts chart (pc + 1) ⟨live, item :: stack⟩ → Leads ⟨live, .int :: t :: stack⟩ .getItem
  | setItem {live stack t} : Accepts chart (pc + 1) ⟨live, .list t :: t :: stack⟩ →
      Leads ⟨live, t :: .int :: .list t :: stack⟩ .setItem
  | unary {live stack} {op : UnaryOp} {t result : Ty} : op.Types t result →
      Accepts chart (pc + 1) ⟨live, result :: stack⟩ → Leads ⟨live, t :: stack⟩ (.unary op)
  | binary {live stack} {op : StrictOp} {t result : Ty} : op.toBinary.Types t result →
      Accepts chart (pc + 1) ⟨live, result :: stack⟩ → Leads ⟨live, t :: t :: stack⟩ (.binary op)
  | cast {live stack t} {target : Scalar} : Accepts chart (pc + 1) ⟨live, target.toTy :: stack⟩ →
      Leads ⟨live, t :: stack⟩ (.cast target)
  | jump {p target} : Accepts chart target p → Leads p (.jump target)
  | jumpIfFalse {live stack target} : Accepts chart (pc + 1) ⟨live, stack⟩ →
      Accepts chart target ⟨live, stack⟩ → Leads ⟨live, .bool :: stack⟩ (.jumpIfFalse target)
  | jumpIfTrueOrPop {live stack target} : Accepts chart (pc + 1) ⟨live, stack⟩ →
      Accepts chart target ⟨live, .bool :: stack⟩ →
      Leads ⟨live, .bool :: stack⟩ (.jumpIfTrueOrPop target)
  | jumpIfFalseOrPop {live stack target} : Accepts chart (pc + 1) ⟨live, stack⟩ →
      Accepts chart target ⟨live, .bool :: stack⟩ →
      Leads ⟨live, .bool :: stack⟩ (.jumpIfFalseOrPop target)
  | call {live stack count} {callee : Ty} {args : List Ty} {result : Ty} : args.length = count →
      callee.Calls args result → Accepts chart (pc + 1) ⟨live, result :: stack⟩ →
      Leads ⟨live, args.reverse ++ callee :: stack⟩ (.call count)
  | ret {live stack} : Leads ⟨live, (facts.info function).returns :: stack⟩ .ret

end Leads

/-- Points are judged by the types of instructions. Fewer variables may be expected than are
known to be stored. -/
def pointRules (facts : Facts) (function : Nat) (consts : Array Const) : Rules Point where
  Covers q p := q.stack = p.stack ∧ q.live ⊆ p.live
  covers_refl _ := ⟨rfl, List.Subset.refl _⟩
  Leads := Instr.Leads facts function consts

/-! ### Fragments -/

/-- The code of an expression, or of several: the variables stay, and the operands change from
`stack` to `after`. -/
structure Fragment.Computes (x : GenerateContext) (consts : Array Const) (live : List Nat)
    (stack : List Ty) (a : Fragment) (operands : List (List Ty)) (after : List Ty) : Prop where
  flows : ∀ J, a.Flows (pointRules x.facts x.function consts) J (some ⟨live, stack⟩)
    (Point.listAt live operands) (some ⟨live, after⟩)
  falls : a.returns = false

/-- What is known about the ends of the loop around a statement. The exit is only there if
something leaves the loop. -/
def loopPoints (inLoop : Bool) (start : List Nat) (breaks : Bool) : Jumps Point := fun chart loop =>
  inLoop = true → Point.Accepts chart loop.start ⟨start, []⟩ ∧
    (breaks = true → Point.Accepts chart loop.exit ⟨start, []⟩)

/-- The code of a statement: it starts and ends without operands. -/
structure Fragment.Executes (x : GenerateContext) (consts : Array Const) (J : Jumps Point)
    (live : List Nat) (a : Fragment) (ps : List (Option Point)) (after : List Nat)
    (terminates : Bool) : Prop where
  flows : a.Flows (pointRules x.facts x.function consts) J (some ⟨live, []⟩) ps
    (Point.behind after terminates)
  returns : a.returns = true → terminates = true

namespace Fragment

variable {x : GenerateContext} {consts : Array Const} {live live' : List Nat}
  {stack mid after : List Ty} {a b test : Fragment} {xs ys : List (List Ty)}

/-- No code leaves the operands as they are. -/
theorem computes_empty : empty.Computes x consts live stack [] stack :=
  ⟨fun _ => flows_empty, rfl⟩

/-- One instruction computes what it leads to. -/
theorem computes_one {i : Instr} (hi : i.isFinal = false)
    (h : ∀ chart pc, Point.Accepts chart (pc + 1) ⟨live, after⟩ →
      i.Leads x.facts x.function consts chart pc ⟨live, stack⟩) :
    (one i).Computes x consts live stack [stack] after :=
  ⟨fun _ => flows_one h, returns_one hi⟩

namespace Computes

/-- Code in a row computes what the second part makes of the operands of the first. -/
theorem append (ha : a.Computes x consts live stack xs mid)
    (hb : b.Computes x consts live mid ys after) :
    (a ++ b).Computes x consts live stack (xs ++ ys) after := by
  refine ⟨fun J => ?_, returns_append ha.falls hb.falls⟩
  rw [Point.listAt_append]
  exact (ha.flows J).append (hb.flows J)

/-- Operands and the instruction that takes them. -/
theorem apply (ha : a.Computes x consts live stack xs mid) {i : Instr} (hi : i.isFinal = false)
    (h : ∀ chart pc, Point.Accepts chart (pc + 1) ⟨live, after⟩ →
      i.Leads x.facts x.function consts chart pc ⟨live, mid⟩) :
    (a ++ one i).Computes x consts live stack (xs ++ [mid]) after :=
  ha.append (computes_one hi h)

/-- The code of a short-circuit operator leaves one boolean, whichever way it goes. -/
theorem skipJump (ha : a.Computes x consts live stack xs (.bool :: stack))
    (hb : b.Computes x consts live stack ys (.bool :: stack)) (op : LogicalOp) :
    (skipping op.skipJump a b).Computes x consts live stack
      (xs ++ (.bool :: stack) :: ys) (.bool :: stack) := by
  refine ⟨fun J => ?_, rfl⟩
  rw [Point.listAt_append, Point.listAt_cons]
  refine (ha.flows J).skipping (hb.flows J) fun chart pc target hn ht => ?_
  cases op with
  | and => exact .jumpIfFalseOrPop hn ht
  | or => exact .jumpIfTrueOrPop hn ht

end Computes

variable {J J' : Jumps Point} {ps qs : List (Option Point)} {later : List Nat}
  {terminates terminates' : Bool}

namespace Executes

/-- Fewer variables may be expected behind a statement, and one that control does not leave at
its end may count as any other. -/
theorem flows_to (h : a.Executes x consts J live ps later terminates) (hl : live' ⊆ later)
    (ht : terminates' = true → terminates = true) :
    a.Flows (pointRules x.facts x.function consts) J (some ⟨live, []⟩) ps
      (Point.behind live' terminates') := by
  refine h.flows.strengthen fun chart pc hr => ?_
  cases terminates with
  | true => trivial
  | false =>
      cases terminates' with
      | true => cases ht rfl
      | false => exact Point.Accepts.mono hr hl

/-- A statement and those after it. -/
theorem append (ha : a.Executes x consts J live ps later terminates)
    (hb : b.Executes x consts J later qs live' terminates') :
    (a ++ b).Executes x consts J live
      (ps ++ if terminates then qs.map fun _ => none else qs) live' (terminates || terminates') := by
  cases terminates with
  | true =>
      refine ⟨?_, fun _ => rfl⟩
      have hrest : (qs.map fun _ => none) = List.replicate b.size (none : Option Point) := by
        rw [List.map_const', hb.flows.length]
      rw [if_pos rfl, hrest]
      exact ha.flows.append hb.flows.sized.unreachable
  | false =>
      refine ⟨?_, fun h => ?_⟩
      · rw [if_neg (by simp), Bool.false_or]
        exact ha.flows.append hb.flows
      · change (if b.size = 0 then a.returns else b.returns) = true at h
        split at h
        · cases ha.returns h
        · exact hb.returns h

end Executes

/-- Code that leaves no operand is that of a statement. -/
theorem Computes.executes (ha : a.Computes x consts live [] xs []) :
    a.Executes x consts J live (Point.listAt live xs) live false :=
  ⟨ha.flows J, fun h => by rw [ha.falls] at h; cases h⟩

end Fragment

end Parlance
