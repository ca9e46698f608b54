import Parlance.Proofs.BigStep.Basic

/-!
# Refinement of evaluations

One evaluation refines another if every value that the first one gives, the second one gives too,
in stores that stay related. Faults and timeouts do not count: what is said is only about runs
that finish. The relation between the stores is a parameter, before and after.

Calls of the program by itself do not occur in a program that analysis accepts, but an evaluation
that guesses the value of an unresolved name could make one. `enter` evaluates calls like
`invoke`, without any result for those.

## Main definitions

* `Eval.Refines`: every value of one evaluation is a value of the other.
* `run`: the evaluation of one call, given that of the calls in it.
* `enter`: calls in which the program does not call itself.
-/

namespace Parlance

namespace BigStep

namespace Eval

variable {α β γ : Type} {P R : Store → Store → Prop}

/-- Every value of `m` from a store is a value of `m'` from a related store, and the stores are
related again then. -/
def Refines (m m' : Eval α) (P : Store → Store → Prop) (Q : α → Store → Store → Prop) : Prop :=
  ∀ s t a s', P s t → m s (.ok a s') → ∃ t', m' t (.ok a t') ∧ Q a s' t'

/-- Every value of `m` is a value of `m'`, and the stores stay related as they were. -/
abbrev Keeps (m m' : Eval α) (P : Store → Store → Prop) : Prop :=
  Refines m m' P fun _ => P

variable {m m' : Eval α} {Q : α → Store → Store → Prop}

/-- A value that is there already is one on both sides. -/
theorem Refines.pure {a : α} (h : ∀ s t, P s t → Q a s t) :
    Refines (Pure.pure a) (Pure.pure a) P Q := by
  rintro s t _ _ hp ⟨⟩
  exact ⟨t, rfl, h s t hp⟩

/-- Two evaluations in a row refine two others if each refines its own. The second pair starts from
stores that are related as the first pair left them. -/
theorem Refines.bind {f f' : α → Eval β} {S : β → Store → Store → Prop}
    (h : Refines m m' P Q) (hf : ∀ a, Refines (f a) (f' a) (Q a) S) :
    Refines (m >>= f) (m' >>= f') P S := by
  intro s t b s' hp hm
  obtain ⟨a, u, hu, hb⟩ := bind_ok.mp hm
  obtain ⟨v, hv, hq⟩ := h s t a u hp hu
  obtain ⟨t', ht', hs⟩ := hf a u v b s' hq hb
  exact ⟨t', bind_ok.mpr ⟨a, v, hv, ht'⟩, hs⟩

/-- Stores may be related more closely before, and more loosely behind. -/
theorem Refines.mono {Q' : α → Store → Store → Prop} (h : Refines m m' P Q)
    (hp : ∀ s t, R s t → P s t) (hq : ∀ a s t, Q a s t → Q' a s t) : Refines m m' R Q' := by
  intro s t a s' hr hm
  obtain ⟨t', ht', h'⟩ := h s t a s' (hp s t hr) hm
  exact ⟨t', ht', hq a s' t' h'⟩

/-- What follows only from the result may be weakened. -/
theorem Refines.post {Q' : α → Store → Store → Prop} (h : Refines m m' P Q)
    (hq : ∀ a s t, Q a s t → Q' a s t) : Refines m m' P Q' :=
  h.mono (fun _ _ => id) hq

/-- The refined evaluation starts with something that the other one leaves out. -/
theorem Refines.skip {n : Eval β} {f : α → Eval β} {S : β → Store → Store → Prop}
    (h : ∀ s t a s', P s t → m s (.ok a s') → Q a s' t) (hf : ∀ a, Refines (f a) n (Q a) S) :
    Refines (m >>= f) n P S := by
  intro s t b s' hp hm
  obtain ⟨a, u, hu, hb⟩ := bind_ok.mp hm
  exact hf a u t b s' (h s t a u hp hu) hb

/-- Refinement composes, if the stores in the middle are related to themselves. -/
theorem Refines.trans {n : Eval α} {Q' Q'' : α → Store → Store → Prop}
    (h : Refines m m' P Q) (h' : Refines m' n R Q') (hr : ∀ s t, P s t → R t t)
    (hq : ∀ a s t u, Q a s t → Q' a t u → Q'' a s u) : Refines m n P Q'' := by
  intro s t a s' hp hm
  obtain ⟨t', ht', hs⟩ := h s t a s' hp hm
  obtain ⟨u', hu', ht⟩ := h' t t a t' (hr s t hp) ht'
  exact ⟨u', hu', hq a s' t' u' hs ht⟩

/-- A failure is no value, so it refines everything. -/
theorem refines_fail {k : Fault} : Refines (fail k) m' P Q := by
  rintro s t a s' - ⟨⟩

/-- An evaluation that is cut off has no value, so it refines everything. -/
theorem refines_timeout : Refines timeout m' P Q := by
  rintro s t a s' - ⟨⟩

/-- Changes of the stores refine each other if they lead from related stores to related stores. -/
theorem refines_update {f f' : Store → Store} {Q : Unit → Store → Store → Prop}
    (h : ∀ s t, P s t → Q () (f s) (f' t)) : Refines (update f) (update f') P Q := by
  rintro s t _ _ hp ⟨⟩
  exact ⟨f' t, rfl, h s t hp⟩

/-- Both sides read the same from their stores. -/
theorem refines_store {f : Store → α} (h : ∀ s t, P s t → f t = f s ∧ Q (f s) s t) :
    Refines (do return f (← store)) (do return f (← store)) P Q := by
  rintro s t a s' hp ⟨q, rfl, hq⟩
  cases hq
  obtain ⟨he, hq⟩ := h s t hp
  exact ⟨t, ⟨_, rfl, by rw [← he]; rfl⟩, hq⟩

/-- The value of an operation is the same on both sides, and the stores are not touched. -/
theorem refines_lift {r : Except Fault α} (h : ∀ a s t, r = .ok a → P s t → Q a s t) :
    Refines (lift r) (lift r) P Q := by
  cases r with
  | ok a => exact Refines.pure fun s t => h a s t rfl
  | error k => exact refines_fail

/-- A choice refines another one by the same condition if it does so in both cases. -/
theorem refines_ite {c : Prop} [Decidable c] {n n' : Eval α} (h : c → Refines m m' P Q)
    (h' : ¬ c → Refines n n' P Q) : Refines (if c then m else n) (if c then m' else n') P Q := by
  split
  · next hc => exact h hc
  · next hc => exact h' hc

/-- An operation on values keeps the stores related as they were. -/
theorem keeps_lift {r : Except Fault α} : Keeps (lift r) (lift r) P :=
  refines_lift fun _ _ _ _ h => h

/-- A value that is there already keeps the stores related as they were. -/
theorem keeps_pure {a : α} : Keeps (Pure.pure a) (Pure.pure a) P :=
  .pure fun _ _ h => h

/-- No result at all. -/
def never : Eval α :=
  fun _ _ => False

end Eval

open Eval

/-! ### Blocks with a result -/

/-- One thing if control reaches the end of a statement, and another one if it leaves it
before. -/
def Signal.pick {α : Type} (normal other : α) : Signal → α
  | .normal => normal
  | _ => other

/-- The statements and the result of a block: how control leaves them, and the result if it
reaches that. -/
def finish (x : Activation) (ss : List Stmt) (tail : Option Expr) : Eval (Signal × Value) := do
  match ← stmts x ss with
  | .normal =>
    match tail with
    | none => return (.normal, .unit)
    | some e => return (.normal, ← expr x e)
  | signal => return (signal, .unit)

section

variable {x : Activation} {s s' : Store} {ss : List Stmt} {tail : Option Expr} {n : Note}

/-- A block whose result is not used ends as its statements do, or with its tail, whose value is
forgotten. -/
theorem block_ok {signal : Signal} :
    block x (.mk n ss tail) s (.ok signal s') ↔ ∃ v, finish x ss tail s (.ok (signal, v) s') := by
  unfold finish
  cases tail with
  | none =>
      rw [block]
      constructor
      · intro h
        refine ⟨.unit, bind_ok.mpr ⟨signal, s', h, ?_⟩⟩
        cases signal <;> rfl
      · rintro ⟨v, h⟩
        obtain ⟨signal', t, hs, h⟩ := bind_ok.mp h
        cases signal' <;> cases h <;> exact hs
  | some e =>
      rw [block]
      constructor
      · intro h
        obtain ⟨signal', t, hs, h⟩ := bind_ok.mp h
        cases signal' with
        | normal =>
            obtain ⟨v, u, hv, h⟩ := bind_ok.mp h
            cases h
            exact ⟨v, bind_ok.mpr ⟨_, t, hs, bind_ok.mpr ⟨v, _, hv, rfl⟩⟩⟩
        | broke => cases h; exact ⟨.unit, bind_ok.mpr ⟨_, _, hs, rfl⟩⟩
        | continued => cases h; exact ⟨.unit, bind_ok.mpr ⟨_, _, hs, rfl⟩⟩
        | returned v => cases h; exact ⟨.unit, bind_ok.mpr ⟨_, _, hs, rfl⟩⟩
      · rintro ⟨v, h⟩
        obtain ⟨signal', t, hs, h⟩ := bind_ok.mp h
        refine bind_ok.mpr ⟨signal', t, hs, ?_⟩
        cases signal' with
        | normal =>
            obtain ⟨w, u, hw, h⟩ := bind_ok.mp h
            cases h
            exact bind_ok.mpr ⟨_, _, hw, rfl⟩
        | _ => cases h; rfl

/-- The result of a function body is what it returns, or the value of its tail if it comes to the
end. A `break` or `continue` does not leave a body. -/
theorem body_ok {v : Value} :
    body x (.mk n ss tail) s (.ok v s') ↔
      ∃ r, finish x ss tail s (.ok r s') ∧ (r.1 = .returned v ∨ r = (.normal, v)) := by
  unfold body finish
  constructor
  · intro h
    obtain ⟨signal, t, hs, h⟩ := bind_ok.mp h
    cases signal with
    | returned w =>
        cases h
        exact ⟨(.returned v, .unit), bind_ok.mpr ⟨_, _, hs, rfl⟩, .inl rfl⟩
    | normal =>
        cases tail with
        | none =>
            cases h
            exact ⟨(.normal, .unit), bind_ok.mpr ⟨_, _, hs, rfl⟩, .inr rfl⟩
        | some e =>
            exact ⟨(.normal, v), bind_ok.mpr ⟨_, _, hs, bind_ok.mpr ⟨v, _, h, rfl⟩⟩, .inr rfl⟩
    | broke => cases h
    | continued => cases h
  · rintro ⟨r, h, hr⟩
    obtain ⟨signal, t, hs, h⟩ := bind_ok.mp h
    refine bind_ok.mpr ⟨signal, t, hs, ?_⟩
    cases signal with
    | returned w =>
        cases h
        rcases hr with hr | hr
        · cases hr
          rfl
        · cases hr
    | normal =>
        cases tail with
        | none =>
            cases h
            rcases hr with hr | hr
            · cases hr
            · cases hr
              rfl
        | some e =>
            obtain ⟨w, u, hw, h⟩ := bind_ok.mp h
            cases h
            rcases hr with hr | hr
            · cases hr
            · cases hr
              exact hw
    | broke =>
        cases h
        rcases hr with hr | hr <;> cases hr
    | continued =>
        cases h
        rcases hr with hr | hr <;> cases hr

/-- The first statement, then the others if control reaches them. A statement that control leaves in
another way is the end of the block. -/
theorem finish_cons {a : Stmt} {r : Signal × Value} :
    finish x (a :: ss) tail s (.ok r s') ↔ ∃ signal t, stmt x a s (.ok signal t) ∧
      signal.pick (finish x ss tail t (.ok r s')) (r = (signal, .unit) ∧ s' = t) := by
  unfold finish
  rw [stmts]
  constructor
  · intro h
    obtain ⟨signal, t, hs, h⟩ := bind_ok.mp h
    obtain ⟨signal', u, ha, hs⟩ := bind_ok.mp hs
    refine ⟨signal', u, ha, ?_⟩
    cases signal' with
    | normal => exact bind_ok.mpr ⟨signal, t, hs, h⟩
    | _ => cases hs; cases h; exact ⟨rfl, rfl⟩
  · rintro ⟨signal, t, ha, h⟩
    cases signal with
    | normal =>
        obtain ⟨signal', u, hs, h⟩ := bind_ok.mp h
        exact bind_ok.mpr ⟨signal', u, bind_ok.mpr ⟨_, t, ha, hs⟩, h⟩
    | _ =>
        obtain ⟨rfl, rfl⟩ := h
        exact bind_ok.mpr ⟨_, _, bind_ok.mpr ⟨_, _, ha, rfl⟩, rfl⟩

/-- Without statements and without a result control reaches the end, with the unit value. -/
theorem finish_none {r : Signal × Value} :
    finish x [] none s (.ok r s') ↔ r = (.normal, .unit) ∧ s' = s := by
  unfold finish
  rw [stmts]
  constructor
  · intro h
    obtain ⟨signal, t, hs, h⟩ := bind_ok.mp h
    cases hs
    cases h
    exact ⟨rfl, rfl⟩
  · rintro ⟨rfl, rfl⟩
    exact bind_ok.mpr ⟨_, _, rfl, rfl⟩

/-- Without statements what counts is the result. -/
theorem finish_some {e : Expr} {r : Signal × Value} :
    finish x [] (some e) s (.ok r s') ↔ ∃ v, r = (.normal, v) ∧ expr x e s (.ok v s') := by
  unfold finish
  rw [stmts]
  constructor
  · intro h
    obtain ⟨signal, t, hs, h⟩ := bind_ok.mp h
    cases hs
    obtain ⟨v, u, hv, h⟩ := bind_ok.mp h
    cases h
    exact ⟨v, rfl, hv⟩
  · rintro ⟨v, rfl, hv⟩
    exact bind_ok.mpr ⟨_, _, rfl, bind_ok.mpr ⟨v, _, hv, rfl⟩⟩

end

/-! ### One rule for each construct -/

/-- Looking at a truth value keeps the stores related as they were. -/
theorem truth_keeps {P : Store → Store → Prop} (v : Value) : Keeps (truth v) (truth v) P := by
  unfold truth
  split
  · exact keeps_pure
  · exact refines_fail

/-- A logical operator keeps the stores related if its right operand does. On the left operand both
sides agree. -/
theorem shortCircuit_keeps {P : Store → Store → Prop} {op : LogicalOp} {l : Value}
    {r r' : Eval Value} (h : Keeps r r' P) :
    Keeps (shortCircuit op l r) (shortCircuit op l r') P :=
  (truth_keeps l).bind fun _ => refines_ite (fun _ => keeps_pure) fun _ => h

/-- Loops repeat what their bodies keep. -/
theorem iterate_keeps {P : Store → Store → Prop} {m m' : Eval Signal} (h : Keeps m m' P)
    (fuel : Nat) : Keeps (iterate fuel m) (iterate fuel m') P := by
  induction fuel with
  | zero => exact refines_timeout
  | succ fuel ih =>
      rw [iterate, iterate]
      refine h.bind fun signal => ?_
      cases signal with
      | normal => exact ih
      | continued => exact ih
      | broke => exact keeps_pure
      | returned v => exact keeps_pure

namespace Eval

section Constructs

variable {x x' : Activation} {P R S : Store → Store → Prop} {n n' : Note} {e e' f f' : Expr}
  {es es' : List Expr} {b b' : Block} {a a' : Stmt} {ss ss' : List Stmt}
  {tail tail' : Option Expr}

/-- A unary operation refines another one if its operand does. -/
theorem Refines.unary {op : UnaryOp} (h : Keeps (expr x e) (expr x' e') P) :
    Keeps (expr x (.unary n op e)) (expr x' (.unary n' op e')) P := by
  rw [expr, expr]
  exact h.bind fun _ => keeps_lift

/-- A cast refines another one if its operand does. -/
theorem Refines.cast {target : Scalar} (h : Keeps (expr x e) (expr x' e') P) :
    Keeps (expr x (.cast n e target)) (expr x' (.cast n' e' target)) P := by
  rw [expr, expr]
  exact h.bind fun _ => keeps_lift

/-- A binary operation refines another one if both operands do, evaluated from left to right. -/
theorem Refines.binary {op : BinaryOp} (hl : Keeps (expr x e) (expr x' e') P)
    (hr : Keeps (expr x f) (expr x' f') P) :
    Keeps (expr x (.binary n op e f)) (expr x' (.binary n' op e' f')) P := by
  rw [expr, expr]
  refine hl.bind fun v => ?_
  split
  · exact hr.bind fun _ => keeps_lift
  · exact shortCircuit_keeps hr

/-- An indexed list refines another one if the list and the index do. -/
theorem Refines.index (ht : Keeps (expr x e) (expr x' e') P)
    (hi : Keeps (expr x f) (expr x' f') P) :
    Keeps (expr x (.index n e f)) (expr x' (.index n' e' f')) P := by
  rw [expr, expr]
  exact ht.bind fun _ => hi.bind fun _ => keeps_lift

/-- A list refines another one if its items do. -/
theorem Refines.list (h : Keeps (exprs x es) (exprs x' es') P) :
    Keeps (expr x (.list n es)) (expr x' (.list n' es')) P := by
  rw [expr, expr]
  exact h.bind fun _ => keeps_pure

/-- A call refines another one if the callee and the arguments do, and what is called does so on all
values. -/
theorem Refines.call (hf : Keeps (expr x e) (expr x' e') P) (hs : Keeps (exprs x es) (exprs x' es') P)
    (ha : ∀ v vs, Keeps (apply x v vs) (apply x' v vs) P) :
    Keeps (expr x (.call n e es)) (expr x' (.call n' e' es')) P := by
  rw [expr, expr]
  exact hf.bind fun v => hs.bind fun vs => ha v vs

/-- An assignment refines another one if its value does, and writing the variable does so for every
value. -/
theorem Refines.assign {t : Note} {name name' : String} (h : Keeps (expr x e) (expr x' e') P)
    (hw : ∀ v, Keeps (write x t v) (write x' t v) P) :
    Keeps (expr x (.assign n (.ident t name) e)) (expr x' (.assign n' (.ident t name') e')) P := by
  rw [expr, expr]
  · exact h.bind fun v => (hw v).bind fun _ => keeps_pure
  · intros
    contradiction
  · intros
    contradiction

/-- An assignment to an item refines another one if the index, the value, the reading and the
writing of the list do. -/
theorem Refines.assignItem {t m m' : Note} {name name' : String}
    (hi : Keeps (expr x e) (expr x' e') P) (hv : Keeps (expr x f) (expr x' f') P)
    (hr : Keeps (read x t) (read x' t) P) (hw : ∀ v, Keeps (write x t v) (write x' t v) P) :
    Keeps (expr x (.assign n (.index m (.ident t name) e) f))
      (expr x' (.assign n' (.index m' (.ident t name') e') f')) P := by
  rw [expr, expr]
  exact hr.bind fun _ => hi.bind fun _ => hv.bind fun _ => keeps_lift.bind fun l =>
    (hw l).bind fun _ => keeps_pure

/-- Where there are no expressions nothing changes. -/
theorem exprs_nil_keeps : Keeps (exprs x []) (exprs x' []) P := by
  rw [exprs, exprs]
  exact keeps_pure

/-- Expressions in a list refine others if the first one and the rest do. -/
theorem Refines.exprs_cons (h : Keeps (expr x e) (expr x' e') P)
    (hs : Keeps (exprs x es) (exprs x' es') P) :
    Keeps (exprs x (e :: es)) (exprs x' (e' :: es')) P := by
  rw [exprs, exprs]
  exact h.bind fun _ => hs.bind fun _ => keeps_pure

/-- A block refines another one if its statements and its result do. -/
theorem Refines.block (h : Refines (finish x ss tail) (finish x' ss' tail') P fun _ => S) :
    Refines (BigStep.block x (.mk n ss tail)) (BigStep.block x' (.mk n' ss' tail')) P
      fun _ => S := by
  intro s t signal s' hp hm
  obtain ⟨v, hv⟩ := block_ok.mp hm
  obtain ⟨t', ht', hs⟩ := h s t _ s' hp hv
  exact ⟨t', block_ok.mpr ⟨v, ht'⟩, hs⟩

/-- The body of a function refines another one if its statements and its result do. -/
theorem Refines.body (h : Refines (finish x ss tail) (finish x' ss' tail') P fun _ => S) :
    Refines (BigStep.body x (.mk n ss tail)) (BigStep.body x' (.mk n' ss' tail')) P
      fun _ => S := by
  intro s t v s' hp hm
  obtain ⟨r, hr, hv⟩ := body_ok.mp hm
  obtain ⟨t', ht', hs⟩ := h s t r s' hp hr
  exact ⟨t', body_ok.mpr ⟨r, ht', hv⟩, hs⟩

/-- Blocks given by their parts. -/
theorem Refines.block_of_finish
    (h : Refines (finish x b.stmts b.tail) (finish x' b'.stmts b'.tail) P fun _ => S) :
    Refines (BigStep.block x b) (BigStep.block x' b') P fun _ => S := by
  obtain ⟨n, ss, tail⟩ := b
  obtain ⟨n', ss', tail'⟩ := b'
  exact h.block

/-- The same with the parts of the blocks taken out. -/
theorem Refines.body_of_finish
    (h : Refines (finish x b.stmts b.tail) (finish x' b'.stmts b'.tail) P fun _ => S) :
    Refines (BigStep.body x b) (BigStep.body x' b') P fun _ => S := by
  obtain ⟨n, ss, tail⟩ := b
  obtain ⟨n', ss', tail'⟩ := b'
  exact h.body

/-- A statement in front refines another one if the rest does so wherever control goes on. Where it
leaves, the stores are related as in the end. -/
theorem Refines.finish_cons (ha : Refines (stmt x a) (stmt x' a') P fun signal => signal.pick R S)
    (h : Refines (finish x ss tail) (finish x' ss' tail') R fun _ => S) :
    Refines (finish x (a :: ss) tail) (finish x' (a' :: ss') tail') P fun _ => S := by
  intro s t r s' hp hm
  obtain ⟨signal, u, hu, hr⟩ := BigStep.finish_cons.mp hm
  obtain ⟨v, hv, hs⟩ := ha s t signal u hp hu
  cases signal with
  | normal =>
      obtain ⟨t', ht', hs'⟩ := h u v r s' hs hr
      exact ⟨t', BigStep.finish_cons.mpr ⟨_, v, hv, ht'⟩, hs'⟩
  | _ =>
      obtain ⟨rfl, rfl⟩ := hr
      exact ⟨v, BigStep.finish_cons.mpr ⟨_, v, hv, rfl, rfl⟩, hs⟩

/-- The end of a block without a result keeps the stores related as they were. -/
theorem finish_none_keeps : Keeps (finish x [] none) (finish x' [] none) P := by
  intro s t r s' hp hm
  obtain ⟨rfl, rfl⟩ := finish_none.mp hm
  exact ⟨t, finish_none.mpr ⟨rfl, rfl⟩, hp⟩

/-- A result refines another one as an expression does. -/
theorem Refines.finish_some (h : Refines (expr x e) (expr x' e') P fun _ => S) :
    Refines (finish x [] (some e)) (finish x' [] (some e')) P fun _ => S := by
  intro s t r s' hp hm
  obtain ⟨v, rfl, hv⟩ := BigStep.finish_some.mp hm
  obtain ⟨t', ht', hs⟩ := h s t v s' hp hv
  exact ⟨t', BigStep.finish_some.mpr ⟨v, rfl, ht'⟩, hs⟩

/-- A statement that declares nothing keeps what holds of the stores. -/
theorem Refines.pick {m m' : Eval Signal} (h : Refines m m' P fun _ => R) :
    Refines m m' P fun signal => signal.pick R R := by
  refine h.post fun signal s t hr => ?_
  cases signal <;> exact hr

/-- An expression as a statement refines another one if it does so as an expression. -/
theorem Refines.expr_stmt (h : Refines (expr x e) (expr x' e') P fun _ => S) :
    Refines (stmt x (.expr n e)) (stmt x' (.expr n' e')) P fun _ => S := by
  rw [stmt, stmt]
  exact h.bind fun _ => keeps_pure

/-- A `return` refines another one if its value does. -/
theorem Refines.ret (h : Refines (expr x e) (expr x' e') P fun _ => S) :
    Refines (stmt x (.ret n (some e))) (stmt x' (.ret n' (some e'))) P fun _ => S := by
  rw [stmt, stmt]
  exact h.bind fun _ => keeps_pure

/-- A block as a statement refines another one if it does so as a block. -/
theorem Refines.block_stmt (h : Refines (BigStep.block x b) (BigStep.block x' b') P fun _ => S) :
    Refines (stmt x (.block b)) (stmt x' (.block b')) P fun _ => S := by
  rw [stmt, stmt]
  exact h

/-- A conditional refines another one if its test and its branch do. -/
theorem Refines.cond (h : Refines (expr x e) (expr x' e') P fun _ => S)
    (hb : Keeps (BigStep.block x b) (BigStep.block x' b') S) :
    Refines (stmt x (.cond n e b none)) (stmt x' (.cond n' e' b' none)) P fun _ => S := by
  rw [stmt, stmt]
  exact h.bind fun v => (truth_keeps v).bind fun c => refines_ite (fun _ => hb) fun _ => keeps_pure

/-- A conditional with two branches refines another one if its test and both branches do. -/
theorem Refines.cond_else (h : Refines (expr x e) (expr x' e') P fun _ => S)
    (hb : Keeps (BigStep.block x b) (BigStep.block x' b') S)
    (ha : Keeps (stmt x a) (stmt x' a') S) :
    Refines (stmt x (.cond n e b (some a))) (stmt x' (.cond n' e' b' (some a'))) P fun _ => S := by
  rw [stmt, stmt]
  exact h.bind fun v => (truth_keeps v).bind fun c => refines_ite (fun _ => hb) fun _ => ha

/-- A loop with a test refines another one if the test and the body keep the stores related, by
induction on the rounds. -/
theorem Refines.whileLoop (h : Keeps (expr x e) (expr x' e') P)
    (hb : Keeps (BigStep.block x b) (BigStep.block x' b') P) (hf : x'.fuel = x.fuel) :
    Keeps (stmt x (.whileLoop n e b)) (stmt x' (.whileLoop n' e' b')) P := by
  rw [stmt, stmt, hf]
  exact iterate_keeps (h.bind fun v => (truth_keeps v).bind fun c =>
    refines_ite (fun _ => hb) fun _ => keeps_pure) _

/-- A loop without a test refines another one if the body keeps the stores related. -/
theorem Refines.loop (hb : Keeps (BigStep.block x b) (BigStep.block x' b') P)
    (hf : x'.fuel = x.fuel) : Keeps (stmt x (.loop n b)) (stmt x' (.loop n' b')) P := by
  rw [stmt, stmt, hf]
  exact iterate_keeps hb _

end Constructs

end Eval

/-! ### Calls -/

/-- What functions do when they are called. -/
abbrev Calls := Nat → List Value → List Value → Eval Value

/-- Calls of a function with captures and arguments, where `call` evaluates the calls in its
body. -/
def run (p : Environment) (fuel depth : Nat) (call : Calls) (function : Nat)
    (captures args : List Value) : Eval Value :=
  match p.program.facts.functions[function]?, p.program.bodies.lookup function with
  | some info, some b =>
    if args.length = info.params.length then
      within (fun i => args.getD i .unit)
        (body { facts := p.program.facts, inputs := p.inputs, maxDepth := p.maxDepth, function,
                captures, depth, fuel, call } b)
    else fail (.arityMismatch info.params.length args.length)
  | _, _ => fail .danglingReference

/-- A call with fuel left runs the function, with calls inside it that have less fuel. -/
theorem invoke_succ (p : Environment) (fuel depth function : Nat) (captures args : List Value) :
    invoke p (fuel + 1) depth function captures args =
      run p fuel depth (invoke p fuel (depth + 1)) function captures args :=
  rfl

/-- Calls without those of the program itself. -/
def Calls.others (call : Calls) : Calls :=
  fun function captures args => if function = 0 then never else call function captures args

/-- Calls a function of the program like `invoke`. If the program is called from inside, there is
no result. -/
def enter (p : Environment) : Nat → Nat → Calls
  | 0, _, _, _, _ => timeout
  | fuel + 1, depth, function, captures, args =>
    run p fuel depth (Calls.others (enter p fuel (depth + 1))) function captures args

end BigStep

end Parlance
