import Parlance.Proofs.BigStep.Refinement

/-!
# Inclusion of evaluations

The results of one evaluation carry over to another one if each of them, from any store, is a
result of the other from the same store: values, faults, and running out of fuel. A dangling
reference is left out, as no program that analysis accepts comes to one.

This is more than `Eval.Refines` says about results, as faults and timeouts count, and less about
stores, as they stay the same.

## Main definitions

* `Eval.Carries`: the results of one evaluation carry over to another one.
* `BodyCarries`: the results of a function body carry over to another body.

## Main results

* `body_carries`: the results of a body carry over if those of the calls in it do.
* `invoke_carries`: if the results of all bodies carry over, so do those of all calls.
-/

namespace Parlance

namespace BigStep

namespace Eval

variable {α β : Type} {m m' m'' : Eval α}

/-- Every result of `m` is one of `m'`, except for a dangling reference. -/
def Carries (m m' : Eval α) : Prop :=
  ∀ s r, m s r → m' s r ∨ ∃ o, r = .fault .danglingReference o

/-- A result that is given at once may be put in. -/
theorem pure_bind_eq (a : α) (f : α → Eval β) : (pure a >>= f) = f a := by
  funext s r
  refine propext ⟨?_, fun h => ⟨.ok a s, rfl, h⟩⟩
  rintro ⟨q, rfl, h⟩
  exact h

/-- An evaluation carries over to itself. -/
theorem Carries.refl (m : Eval α) : Carries m m :=
  fun _ _ => .inl

/-- Results carry over again. -/
theorem Carries.trans (h : Carries m m') (h' : Carries m' m'') : Carries m m'' := by
  intro s r hr
  rcases h s r hr with hr | hr
  · exact h' s r hr
  · exact .inr hr

/-- Results of sequences carry over if those of both parts do. -/
theorem Carries.bind {f f' : α → Eval β} (h : Carries m m') (hf : ∀ a, Carries (f a) (f' a)) :
    Carries (m >>= f) (m' >>= f') := by
  rintro s r ⟨q, hq, hr⟩
  rcases h s q hq with hq | ⟨o, rfl⟩
  · cases q with
    | ok a t => exact (hf a t r hr).imp_left fun hr => ⟨.ok a t, hq, hr⟩
    | fault k o => exact .inl ⟨.fault k o, hq, hr⟩
    | timeout o => exact .inl ⟨.timeout o, hq, hr⟩
  · exact .inr ⟨o, hr⟩

/-- Values carry over as they are. -/
theorem Carries.ok (h : Carries m m') {s s' : Store} {a : α} (hm : m s (.ok a s')) :
    m' s (.ok a s') := by
  rcases h s _ hm with hm | ⟨o, ho⟩
  · exact hm
  · cases ho

/-- Results in a frame of its own carry over. -/
theorem Carries.within {slots : Nat → Value} (h : Carries m m') :
    Carries (within slots m) (within slots m') :=
  (Carries.refl _).bind fun _ => (Carries.refl _).bind fun _ => h.bind fun _ => .refl _

/-- Results of a choice carry over if those of both sides do. -/
theorem carries_ite {c : Prop} [Decidable c] {n n' : Eval α} (h : Carries m m')
    (h' : Carries n n') : Carries (if c then m else n) (if c then m' else n') := by
  split
  · exact h
  · exact h'

end Eval

open Eval

/-! ### Constructs -/

/-- The same activation, with other calls. -/
def Activation.calling (x : Activation) (call : Calls) : Activation :=
  { x with call }

/-- The results of all calls carry over. -/
def CallsCarry (call call' : Calls) : Prop :=
  ∀ f captures args, Carries (call f captures args) (call' f captures args)

variable {x : Activation} {call : Calls}

/-- Results of an application carry over if those of calls do. -/
theorem apply_carries (hc : CallsCarry x.call call) (callee : Value) (args : List Value) :
    Carries (apply x callee args) (apply (x.calling call) callee args) := by
  unfold apply
  split
  · exact carries_ite (.refl _) (hc _ _ _)
  · exact .refl _
  · exact .refl _

/-- Results of a short-circuit operator carry over if those of the right operand do. -/
theorem shortCircuit_carries {op : LogicalOp} {l : Value} {r r' : Eval Value} (h : Carries r r') :
    Carries (shortCircuit op l r) (shortCircuit op l r') :=
  (Carries.refl _).bind fun _ => carries_ite (.refl _) h

/-- Results of a loop carry over if those of its body do. The induction is on the fuel. -/
theorem iterate_carries {m m' : Eval Signal} (h : Carries m m') (fuel : Nat) :
    Carries (iterate fuel m) (iterate fuel m') := by
  induction fuel with
  | zero => exact .refl _
  | succ fuel ih =>
      rw [iterate, iterate]
      refine h.bind fun signal => ?_
      cases signal with
      | normal => exact ih
      | continued => exact ih
      | broke => exact .refl _
      | returned v => exact .refl _

/-- Results of the rest of a sequence carry over, whatever the signal before it was. -/
theorem Signal.next_carries (signal : Signal) {m m' : Eval Signal} (h : Carries m m') :
    Carries (signal.next m) (signal.next m') := by
  cases signal with
  | normal => exact h
  | broke => exact .refl _
  | continued => exact .refl _
  | returned v => exact .refl _

/-- Reading captured variables calls nothing. -/
theorem readAllCaptured_calling (captures : List Nat) :
    readAllCaptured (x.calling call) captures = readAllCaptured x captures := by
  induction captures with
  | nil => rfl
  | cons y rest ih =>
      rw [readAllCaptured, readAllCaptured, ih]
      rfl

/-- Making a function calls nothing. -/
theorem lambda_calling (n : Note) : lambda (x.calling call) n = lambda x n := by
  unfold lambda
  simp only [readAllCaptured_calling]
  rfl

/-- The value of a variable, or a dangling reference. Reading has no other faults and changes
nothing. -/
theorem readVariable_cases {symbol slot owner : Nat} {s : Store} {r : Result Value}
    (h : readVariable x symbol slot owner s r) :
    (∃ v, r = .ok v s) ∨ ∃ o, r = .fault .danglingReference o := by
  by_cases ho : owner = x.function
  · rw [readVariable, if_pos ho] at h
    obtain ⟨q, rfl, h⟩ := h
    exact .inl ⟨_, h⟩
  · rw [readVariable, if_neg ho] at h
    cases hi : (x.facts.captures x.function).idxOf? symbol with
    | none =>
        rw [hi] at h
        exact .inr ⟨_, h⟩
    | some index =>
        rw [hi] at h
        simp only [captured] at h
        cases hv : x.captures[index]? with
        | none =>
            rw [hv] at h
            exact .inr ⟨_, h⟩
        | some v =>
            rw [hv] at h
            exact .inl ⟨v, h⟩

/-- Reading does not change the store. Either there is a value, or the reference dangles. -/
theorem read_cases {n : Note} {s : Store} {r : Result Value} (h : read x n s r) :
    (∃ v, r = .ok v s) ∨ ∃ o, r = .fault .danglingReference o := by
  cases hs : n.symbol with
  | none =>
      rw [read, hs] at h
      exact .inl h
  | some symbol =>
      rw [read, hs] at h
      cases hst : (x.facts.symbol symbol).storage with
      | global slot =>
          simp only [hst] at h
          obtain ⟨q, rfl, h⟩ := h
          exact .inl ⟨_, h⟩
      | frame slot =>
          simp only [hst] at h
          exact readVariable_cases h
      | function f =>
          simp only [hst] at h
          exact .inl ⟨_, h⟩
      | builtin b =>
          simp only [hst] at h
          exact .inl ⟨_, h⟩

/-- A name that is not resolved may have any value, so also the value of any variable. -/
theorem read_carries_unresolved {n n' : Note} (h : n'.symbol = none) :
    Carries (read x n) (read x n') := by
  intro s r hr
  refine (read_cases hr).imp_left ?_
  rintro ⟨v, rfl⟩
  rw [read, h]
  exact ⟨v, rfl⟩

/-! ### Monotonicity -/

mutual

/-- **Expressions.** Results carry over if those of the calls do. Calls are the only place where the
two environments differ. -/
theorem expr_carries (hc : CallsCarry x.call call) : ∀ e : Expr,
    Carries (expr x e) (expr (x.calling call) e)
  | .lit _ _ | .ident _ _ => by
      rw [expr, expr]
      exact .refl _
  | .unary _ _ e | .cast _ e _ => by
      rw [expr, expr]
      exact (expr_carries hc e).bind fun _ => .refl _
  | .binary _ _ l r => by
      rw [expr, expr]
      refine (expr_carries hc l).bind fun _ => ?_
      split
      · exact (expr_carries hc r).bind fun _ => .refl _
      · exact shortCircuit_carries (expr_carries hc r)
  | .assign _ t v => by
      have hv := expr_carries hc v
      cases t with
      | index n b i =>
          rw [expr, expr]
          exact (Carries.refl _).bind fun _ => (expr_carries hc i).bind fun _ =>
            hv.bind fun _ => .refl _
      | _ =>
          simp only [expr]
          exact hv.bind fun _ => .refl _
  | .call _ f args => by
      rw [expr, expr]
      exact (expr_carries hc f).bind fun _ => (exprs_carries hc args).bind fun _ =>
        apply_carries hc _ _
  | .index _ t i => by
      rw [expr, expr]
      exact (expr_carries hc t).bind fun _ => (expr_carries hc i).bind fun _ => .refl _
  | .list _ items => by
      rw [expr, expr]
      exact (exprs_carries hc items).bind fun _ => .refl _
  | .lambda _ _ _ => by
      rw [expr, expr, lambda_calling]
      exact .refl _

/-- Results of lists of expressions carry over. -/
theorem exprs_carries (hc : CallsCarry x.call call) : ∀ es : List Expr,
    Carries (exprs x es) (exprs (x.calling call) es)
  | [] => by
      rw [exprs, exprs]
      exact .refl _
  | e :: es => by
      rw [exprs, exprs]
      exact (expr_carries hc e).bind fun _ => (exprs_carries hc es).bind fun _ => .refl _

end

mutual

/-- **Statements.** Results carry over if those of the calls do, through loops by induction on their
fuel. -/
theorem stmt_carries (hc : CallsCarry x.call call) : ∀ a : Stmt,
    Carries (stmt x a) (stmt (x.calling call) a)
  | .block b => by
      rw [stmt, stmt]
      exact block_carries hc b
  | .letVar _ _ _ e | .expr _ e | .ret _ (some e) => by
      rw [stmt, stmt]
      exact (expr_carries hc e).bind fun _ => .refl _
  | .fnDecl _ _ _ _ | .ret _ none | .breakLoop _ | .continueLoop _ => by
      rw [stmt, stmt]
      exact .refl _
  | .cond _ test yes none => by
      rw [stmt, stmt]
      exact (expr_carries hc test).bind fun _ => (Carries.refl _).bind fun _ =>
        carries_ite (block_carries hc yes) (.refl _)
  | .cond _ test yes (some no) => by
      rw [stmt, stmt]
      exact (expr_carries hc test).bind fun _ => (Carries.refl _).bind fun _ =>
        carries_ite (block_carries hc yes) (stmt_carries hc no)
  | .whileLoop _ test b => by
      rw [stmt, stmt]
      exact iterate_carries ((expr_carries hc test).bind fun _ => (Carries.refl _).bind fun _ =>
        carries_ite (block_carries hc b) (.refl _)) _
  | .loop _ b => by
      rw [stmt, stmt]
      exact iterate_carries (block_carries hc b) _

/-- Results of statements in a row carry over. -/
theorem stmts_carries (hc : CallsCarry x.call call) : ∀ ss : List Stmt,
    Carries (stmts x ss) (stmts (x.calling call) ss)
  | [] => by
      rw [stmts, stmts]
      exact .refl _
  | s :: ss => by
      rw [stmts, stmts]
      exact (stmt_carries hc s).bind fun signal => signal.next_carries (stmts_carries hc ss)

/-- Results of blocks carry over. -/
theorem block_carries (hc : CallsCarry x.call call) : ∀ b : Block,
    Carries (block x b) (block (x.calling call) b)
  | .mk _ ss none => by
      rw [block, block]
      exact stmts_carries hc ss
  | .mk _ ss (some e) => by
      rw [block, block]
      exact (stmts_carries hc ss).bind fun signal =>
        signal.next_carries ((expr_carries hc e).bind fun _ => .refl _)

end

/-- **Bodies.** -/
theorem body_carries (hc : CallsCarry x.call call) (b : Block) :
    Carries (body x b) (body (x.calling call) b) := by
  obtain ⟨n, ss, tail⟩ := b
  refine (stmts_carries hc ss).bind fun signal => ?_
  cases signal with
  | normal =>
      cases tail with
      | none => exact .refl _
      | some e => exact expr_carries hc e
  | broke => exact .refl _
  | continued => exact .refl _
  | returned v => exact .refl _

/-! ### Programs -/

/-- The results of a body carry over to another one. -/
def BodyCarries (b b' : Block) : Prop :=
  ∀ x : Activation, Carries (body x b) (body x b')

/-- **Programs.** If the results of the bodies of all functions carry over, so do those of
calls. -/
theorem invoke_carries {p p' : Environment} (hfacts : p'.program.facts = p.program.facts)
    (hinputs : p'.inputs = p.inputs) (hdepth : p'.maxDepth = p.maxDepth)
    (hbody : ∀ f b, p.program.bodies.lookup f = some b →
      ∃ b', p'.program.bodies.lookup f = some b' ∧ BodyCarries b b') (fuel : Nat) :
    ∀ depth, CallsCarry (invoke p fuel depth) (invoke p' fuel depth) := by
  induction fuel with
  | zero => exact fun _ _ _ _ => .refl _
  | succ fuel ih =>
      intro depth f captures args
      rw [invoke, invoke, hfacts, hinputs, hdepth]
      cases hinfo : p.program.facts.functions[f]? with
      | none => exact .refl _
      | some info =>
          cases hb : p.program.bodies.lookup f with
          | none =>
              -- A function without a body is a dangling reference.
              rintro s r rfl
              exact .inr ⟨_, rfl⟩
          | some b =>
              obtain ⟨b', hb', hcarry⟩ := hbody f b hb
              rw [hb']
              exact carries_ite ((hcarry _).trans (body_carries (ih (depth + 1)) b')).within
                (.refl _)

end BigStep

end Parlance
