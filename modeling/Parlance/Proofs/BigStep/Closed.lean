import Parlance.Proofs.Analysis.Accepted
import Parlance.Proofs.BigStep.Programs
import Parlance.Proofs.Value.Correspondence

/-!
# Programs do not call themselves

A function value of an accepted program is never the program itself: names that stand for
functions stand for declared ones, and a lambda makes a function of its own. So evaluation does
not change when calls of the program have no result.

## Main definitions

* `Value.Proper`: no function in a value is the program.

## Main results

* `Analyzed.Accepted.enters`: the values of an accepted program, without calls of itself.
-/

namespace Parlance

/-! ### Values -/

mutual

/-- No function in a value is the program itself. -/
def Value.Proper : Value → Prop
  | .list items => Value.AllProper items
  | .function _ f captures => f ≠ 0 ∧ Value.AllProper captures
  | _ => True

def Value.AllProper : List Value → Prop
  | [] => True
  | v :: vs => v.Proper ∧ Value.AllProper vs

end

namespace Value

/-- Values are proper together if each of them is. -/
theorem allProper_iff {vs : List Value} : AllProper vs ↔ ∀ v ∈ vs, v.Proper := by
  induction vs with
  | nil => simp [AllProper]
  | cons v vs ih => simp [AllProper, ih]

/-- A value at a place of proper values is proper, also behind their end. -/
theorem Proper.getD {vs : List Value} (h : AllProper vs) (i : Nat) : (vs.getD i .unit).Proper := by
  rw [List.getD_eq_getElem?_getD]
  cases hi : vs[i]? with
  | none => trivial
  | some v => exact allProper_iff.mp h v (List.mem_of_getElem? hi)

/-- A value without parts is proper. -/
theorem IsAtom.proper {v : Value} (h : v.IsAtom) : v.Proper := by
  cases v with
  | list items => exact h.elim
  | function t f captures => exact h.elim
  | _ => trivial

/-- An item of a proper list is proper. -/
theorem Proper.getItem {v i w : Value} (h : v.Proper) (hw : v.getItem i = .ok w) : w.Proper := by
  unfold Value.getItem at hw
  split at hw
  · next items =>
      cases hi : checkedIndex i items.length with
      | error k =>
          rw [hi] at hw
          cases hw
      | ok k =>
          rw [hi] at hw
          cases hw
          exact Proper.getD h k
  · next s =>
      cases hi : checkedIndex i s.toList.length with
      | error k =>
          rw [hi] at hw
          cases hw
      | ok k =>
          rw [hi] at hw
          cases hw
          trivial
  · cases hw

/-- A proper list with a proper value set in it is proper. -/
theorem Proper.setItem {v i u w : Value} (h : v.Proper) (hu : u.Proper)
    (hw : v.setItem i u = .ok w) : w.Proper := by
  unfold Value.setItem at hw
  split at hw
  · next items =>
      cases hi : checkedIndex i items.length with
      | error k =>
          rw [hi] at hw
          cases hw
      | ok k =>
          rw [hi] at hw
          cases hw
          refine allProper_iff.mpr fun x hx => ?_
          rcases List.mem_or_eq_of_mem_set hx with hx | rfl
          · exact allProper_iff.mp h x hx
          · exact hu
  · cases hw

/-- A proper list with a proper value at its end is proper. -/
theorem Proper.push {v u w : Value} (h : v.Proper) (hu : u.Proper) (hw : v.push u = .ok w) :
    w.Proper := by
  unfold Value.push at hw
  split at hw
  · next items =>
      cases hw
      refine allProper_iff.mpr fun x hx => ?_
      rcases List.mem_append.mp hx with hx | hx
      · exact allProper_iff.mp h x hx
      · exact List.mem_singleton.mp hx ▸ hu
  · cases hw

end Value

namespace BigStep

open Eval

/-! ### Evaluation -/

/-- The values in a store are proper. -/
structure Store.Proper (s : Store) : Prop where
  slots : ∀ k, (s.slots k).Proper
  globals : ∀ k, (s.globals k).Proper

/-- The same store on both sides, with proper values. -/
def Same (s t : Store) : Prop :=
  t = s ∧ s.Proper

/-- Both evaluations have the same values, which have a property, from the same stores. -/
abbrev Matching {α : Type} (m m' : Eval α) (V : α → Prop) : Prop :=
  Refines m m' Same fun a s t => V a ∧ Same s t

/-- A value that is there already is the same on both sides. -/
theorem Matching.pure {α : Type} {a : α} {V : α → Prop} (h : V a) :
    Matching (Pure.pure a) (Pure.pure a) V :=
  Refines.pure fun _ _ hs => ⟨h, hs⟩

/-- Two evaluations in a row have the same values on both sides if each of them has, and the second
may rely on the property of the first. -/
theorem Matching.bind {α β : Type} {m m' : Eval α} {f f' : α → Eval β} {V : α → Prop}
    {W : β → Prop} (h : Matching m m' V) (hf : ∀ a, V a → Matching (f a) (f' a) W) :
    Matching (m >>= f) (m' >>= f') W :=
  Refines.bind h fun a s t b s' hs => hf a hs.1 s t b s' hs.2

/-- An operation has the same value on both sides. -/
theorem Matching.lift {r : Except Fault Value} (h : ∀ v, r = .ok v → v.Proper) :
    Matching (Eval.lift r) (Eval.lift r) Value.Proper :=
  refines_lift fun v _ _ hv hs => ⟨h v hv, hs⟩

/-- Two activations with proper captures. Their calls have the same values, if it is not the
program that is called. -/
structure Guarded (x x' : Activation) : Prop where
  eq : x' = { x with call := x'.call }
  coherent : x.facts.Coherent
  captures : Value.AllProper x.captures
  calls : ∀ f captures args, f ≠ 0 → Value.AllProper captures → Value.AllProper args →
    Matching (x.call f captures args) (x'.call f captures args) Value.Proper

section

variable {x x' : Activation} {live : List Nat}

/-- Both activations look things up in the same facts. -/
theorem Guarded.facts (hx : Guarded x x') : x'.facts = x.facts := by rw [hx.eq]

/-- Both activations are of the same function. -/
theorem Guarded.function (hx : Guarded x x') : x'.function = x.function := by rw [hx.eq]

/-- Both activations captured the same values. -/
theorem Guarded.captures_eq (hx : Guarded x x') : x'.captures = x.captures := by rw [hx.eq]

/-- Both activations read the same inputs. -/
theorem Guarded.inputs (hx : Guarded x x') : x'.inputs = x.inputs := by rw [hx.eq]

/-- Both activations have the same limit of depth. -/
theorem Guarded.maxDepth (hx : Guarded x x') : x'.maxDepth = x.maxDepth := by rw [hx.eq]

/-- Both activations are equally deep. -/
theorem Guarded.depth (hx : Guarded x x') : x'.depth = x.depth := by rw [hx.eq]

/-- Both activations go on for equally many rounds. -/
theorem Guarded.fuel (hx : Guarded x x') : x'.fuel = x.fuel := by rw [hx.eq]

/-- What is read from the store is the same on both sides, and proper. -/
theorem store_matching {f : Store → Value} (h : ∀ s : Store, s.Proper → (f s).Proper) :
    Matching (do return f (← store)) (do return f (← store)) Value.Proper :=
  refines_store fun s t hs => ⟨by rw [hs.1], h s hs.2, hs⟩

/-- Reading a variable gives the same on both sides, wherever it is kept. -/
theorem readVariable_matching (hx : Guarded x x') {symbol slot owner : Nat} :
    Matching (readVariable x symbol slot owner) (readVariable x' symbol slot owner)
      Value.Proper := by
  unfold readVariable
  rw [hx.function, hx.facts]
  refine refines_ite (fun _ => store_matching fun s hs => hs.slots slot) fun _ => ?_
  split
  · next index _ =>
      unfold captured
      rw [hx.captures_eq]
      split
      · next v hv =>
          exact Matching.pure (Value.allProper_iff.mp hx.captures v (List.mem_of_getElem? hv))
      · exact refines_fail
  · exact refines_fail

/-- Names of an accepted program stand for proper values. -/
theorem read_matching (hx : Guarded x x') {n : Note}
    (hn : ∃ y, n.symbol = some y ∧ y < x.facts.symbols.size) :
    Matching (read x n) (read x' n) Value.Proper := by
  obtain ⟨y, hy, hlt⟩ := hn
  unfold read
  rw [hy, hx.facts]
  dsimp only
  cases hs : (x.facts.symbol y).storage with
  | global k => exact store_matching fun s hs => hs.globals k
  | frame k => exact readVariable_matching hx
  | function f => exact .pure ⟨(hx.coherent.symbol y hlt).of_function hs, trivial⟩
  | builtin b => exact .pure trivial

/-- Writing a proper value leaves the stores the same, and proper. -/
theorem write_matching (hx : Guarded x x') {n : Note} {v : Value} (hv : v.Proper) :
    Matching (write x n v) (write x' n v) fun _ => True := by
  unfold write
  rw [hx.facts, hx.function]
  split
  · exact refines_fail
  · split
    · refine refines_update fun s t hs => ⟨trivial, by rw [hs.1], hs.2.slots, fun k => ?_⟩
      simp only [Function.update_apply]
      split
      · exact hv
      · exact hs.2.globals k
    · refine refines_ite (fun _ => ?_) fun _ => refines_fail
      refine refines_update fun s t hs => ⟨trivial, by rw [hs.1], fun k => ?_, hs.2.globals⟩
      simp only [Function.update_apply]
      split
      · exact hv
      · exact hs.2.slots k
    · exact refines_fail

/-- Reading the captured variables gives the same on both sides. -/
theorem readAllCaptured_matching (hx : Guarded x x') (captures : List Nat) :
    Matching (readAllCaptured x captures) (readAllCaptured x' captures) Value.AllProper := by
  induction captures with
  | nil => exact .pure trivial
  | cons y rest ih =>
      rw [readAllCaptured, readAllCaptured]
      refine Matching.bind (V := Value.Proper) ?_ fun v hv => ih.bind fun vs hvs => .pure ⟨hv, hvs⟩
      unfold readCaptured
      rw [hx.facts]
      split
      · exact readVariable_matching hx
      · exact refines_fail

/-- A lambda makes the same function on both sides. It is not the program, which no lambda makes. -/
theorem lambda_matching (hx : Guarded x x') {n : Note}
    (hn : ∀ f, n.function = some f → x.facts.Makes x.function live f) :
    Matching (lambda x n) (lambda x' n) Value.Proper := by
  unfold lambda
  rw [hx.facts]
  split
  · exact refines_fail
  · next f hf =>
      have hf := (hn f hf).ne_zero
      split
      · exact .pure ⟨hf, trivial⟩
      · refine (readAllCaptured_matching hx _).bind fun vs hvs =>
          Matching.bind (V := fun _ => True) ?_ fun k _ => .pure ⟨hf, hvs⟩
        rintro s t k s' ⟨rfl, hp⟩ hk
        refine ⟨s', hk, trivial, rfl, ?_⟩
        obtain ⟨k', -, he⟩ := hk
        cases he
        exact ⟨hp.slots, hp.globals⟩

/-- A builtin does the same on both sides, since it reads nothing but its arguments, the inputs and
the output, and lists that it makes of proper values are proper. -/
theorem builtin_matching (hx : Guarded x x') (b : Builtin) {args : List Value}
    (ha : Value.AllProper args) : Matching (builtin x b args) (builtin x' b args) Value.Proper := by
  have hinput : ∀ v, inputAt x' v = inputAt x v := fun v => by
    unfold inputAt input
    rw [hx.inputs]
  unfold builtin
  split
  · rintro s t v s' ⟨rfl, hp⟩ hm
    refine ⟨s', hm, ?_⟩
    unfold print at hm
    split at hm
    · cases hm
      exact ⟨trivial, rfl, hp.slots, hp.globals⟩
    · cases hm
  · next v =>
      refine Matching.lift fun w hw => ?_
      cases hl : v.length with
      | error k =>
          rw [hl] at hw
          cases hw
      | ok n =>
          rw [hl] at hw
          cases hw
          trivial
  · next v =>
      rw [hinput]
      refine Matching.lift fun w hw => ?_
      unfold inputAt at hw
      split at hw
      · unfold input at hw
        split at hw <;> cases hw
        trivial
      · cases hw
  · rw [hx.inputs]
    exact .pure trivial
  · next target item => exact Matching.lift fun w hw => ha.1.push ha.2.1 hw
  · exact refines_fail

/-- A call does the same on both sides. What is called is proper, so it is not the program. -/
theorem apply_matching (hx : Guarded x x') {callee : Value} (hc : callee.Proper)
    {args : List Value} (ha : Value.AllProper args) :
    Matching (apply x callee args) (apply x' callee args) Value.Proper := by
  unfold apply
  split
  · next t f captures =>
      rw [hx.maxDepth, hx.depth]
      exact refines_ite (fun _ => refines_fail) fun _ => hx.calls f captures args hc.1 hc.2 ha
  · exact builtin_matching hx _ ha
  · exact refines_fail

/-- Looking at a truth value does the same on both sides. -/
theorem truth_matching (v : Value) : Matching (truth v) (truth v) fun _ => True := by
  unfold truth
  split
  · exact .pure trivial
  · exact refines_fail

/-- An assignment does the same on both sides if its value does. -/
theorem assign_matching (hx : Guarded x x') {n t : Note} {name : String} {e : Expr}
    (he : Matching (expr x e) (expr x' e) Value.Proper) :
    Matching (expr x (.assign n (.ident t name) e)) (expr x' (.assign n (.ident t name) e))
      Value.Proper := by
  rw [expr, expr]
  · exact he.bind fun v hv => (write_matching hx hv).bind fun _ _ => .pure hv
  · intros
    contradiction
  · intros
    contradiction

mutual

/-- **Expressions.** An expression of an accepted program has the same value on both sides, and the
value is proper. The induction is on the tree. -/
theorem expr_matching (hx : Guarded x x') : ∀ e : Expr, e.Scoped x.facts x.function live →
    e.Typed x.facts → Matching (expr x e) (expr x' e) Value.Proper
  | .lit _ v, _, _ => by
      rw [expr, expr]
      refine .pure ?_
      cases v <;> trivial
  | .ident n _, hs, ht => by
      rw [expr, expr]
      exact read_matching hx (ht.imp fun y hy => ⟨hy.1, (hs y hy.1).1⟩)
  | .unary _ _ e, hs, ht => by
      rw [expr, expr]
      exact (expr_matching hx e hs ht.1).bind fun v _ =>
        Matching.lift fun w hw => (Value.isAtom_of_unary hw).proper
  | .binary _ op l r, hs, ht => by
      rw [expr, expr]
      refine (expr_matching hx l hs.1 ht.1).bind fun v hv => ?_
      split
      · exact (expr_matching hx r hs.2 ht.2.1).bind fun w _ =>
          Matching.lift fun u hu => (Value.isAtom_of_binary hu).proper
      · exact (truth_matching v).bind fun b _ =>
          refines_ite (fun _ => Matching.pure hv) fun _ => expr_matching hx r hs.2 ht.2.1
  | .assign _ (.ident n name) v, hs, ht => assign_matching hx (expr_matching hx v hs.1 ht.1)
  | .assign _ (.index _ (.ident n name) i) v, hs, ht => by
      rw [expr, expr]
      obtain ⟨hi, -, hv, -, y, hy, -⟩ := ht
      exact (read_matching hx ⟨y, hy, (hs.2.2 y hy).1⟩).bind fun l hl =>
        (expr_matching hx i hs.1 hi).bind fun j _ => (expr_matching hx v hs.2.1 hv).bind fun w hw =>
          (Matching.lift fun u hu => hl.setItem hw hu).bind fun u hu =>
            (write_matching hx hu).bind fun _ _ => .pure hw
  | .call _ f args, hs, ht => by
      rw [expr, expr]
      exact (expr_matching hx f hs.1 ht.1).bind fun v hv =>
        (exprs_matching hx args hs.2 ht.2.1).bind fun vs hvs => apply_matching hx hv hvs
  | .index _ t i, hs, ht => by
      rw [expr, expr]
      exact (expr_matching hx t hs.1 ht.1).bind fun v hv =>
        (expr_matching hx i hs.2 ht.2.1).bind fun j _ => Matching.lift fun w hw => hv.getItem hw
  | .list _ items, hs, ht => by
      rw [expr, expr]
      exact (exprs_matching hx items hs ht.1).bind fun vs hvs => .pure hvs
  | .cast _ e _, hs, ht => by
      rw [expr, expr]
      exact (expr_matching hx e hs ht.1).bind fun v _ =>
        Matching.lift fun w hw => (Value.isAtom_of_cast hw).proper
  | .lambda n _ _, hs, _ => by
      rw [expr, expr]
      exact lambda_matching hx hs

/-- Expressions have the same values on both sides, by induction with the other parts of the tree.
-/
theorem exprs_matching (hx : Guarded x x') : ∀ es : List Expr,
    Expr.AllScoped x.facts x.function live es → Expr.AllTyped x.facts es →
    Matching (exprs x es) (exprs x' es) Value.AllProper
  | [], _, _ => by
      rw [exprs, exprs]
      exact .pure trivial
  | e :: es, hs, ht => by
      rw [exprs, exprs]
      exact (expr_matching hx e hs.1 ht.1).bind fun v hv =>
        (exprs_matching hx es hs.2 ht.2).bind fun vs hvs => .pure ⟨hv, hvs⟩

end

/-- A function returns proper values. -/
def Signal.Proper : Signal → Prop
  | .returned v => v.Proper
  | _ => True

/-- A loop does the same on both sides if its round does, by induction on the rounds. -/
theorem iterate_matching {m m' : Eval Signal} (h : Matching m m' Signal.Proper) (fuel : Nat) :
    Matching (iterate fuel m) (iterate fuel m') Signal.Proper := by
  induction fuel with
  | zero => exact refines_timeout
  | succ fuel ih =>
      rw [iterate, iterate]
      refine h.bind fun signal hs => ?_
      cases signal with
      | normal => exact ih
      | continued => exact ih
      | broke => exact .pure trivial
      | returned v => exact .pure hs

/-- What follows a statement does the same on both sides, and is left out on both where control
leaves. -/
theorem next_matching {signal : Signal} (hs : signal.Proper) {m m' : Eval Signal}
    (h : Matching m m' Signal.Proper) :
    Matching (signal.next m) (signal.next m') Signal.Proper := by
  cases signal with
  | normal => exact h
  | _ => exact .pure hs

end

section

variable {x x' : Activation} {returns : Ty}

mutual

/-- **Statements.** A statement of an accepted program does the same on both sides, and what it
returns is proper. A loop matches if its body does. -/
theorem stmt_matching (hx : Guarded x x') : ∀ (a : Stmt) {live : List Nat},
    a.Scoped x.facts x.function live → a.Typed x.facts returns →
    Matching (stmt x a) (stmt x' a) Signal.Proper
  | .block b, _, hs, ht => by
      rw [stmt, stmt]
      exact block_matching hx b hs ht
  | .letVar n _ _ e, _, hs, ht => by
      rw [stmt, stmt]
      exact (expr_matching hx e hs.1 ht.1).bind fun v hv =>
        (write_matching hx hv).bind fun _ _ => .pure trivial
  | .fnDecl _ _ _ _, _, _, _ | .ret _ none, _, _, _ | .breakLoop _, _, _, _
  | .continueLoop _, _, _, _ => by
      rw [stmt, stmt]
      exact .pure trivial
  | .ret _ (some e), _, hs, ht => by
      rw [stmt, stmt]
      exact (expr_matching hx e hs ht.1).bind fun v hv => .pure hv
  | .cond _ test yes none, _, hs, ht => by
      rw [stmt, stmt]
      exact (expr_matching hx test hs.1 ht.1).bind fun v _ => (truth_matching v).bind fun c _ =>
        refines_ite (fun _ => block_matching hx yes hs.2 ht.2.2) fun _ => Matching.pure trivial
  | .cond _ test yes (some no), _, hs, ht => by
      rw [stmt, stmt]
      exact (expr_matching hx test hs.1 ht.1).bind fun v _ => (truth_matching v).bind fun c _ =>
        refines_ite (fun _ => block_matching hx yes hs.2.1 ht.2.2.1) fun _ =>
          stmt_matching hx no hs.2.2 ht.2.2.2
  | .whileLoop _ test b, _, hs, ht => by
      rw [stmt, stmt, hx.fuel]
      refine iterate_matching ((expr_matching hx test hs.1 ht.1).bind fun v _ =>
        (truth_matching v).bind fun c _ =>
          refines_ite (fun _ => block_matching hx b hs.2 ht.2.2) fun _ => ?_) _
      exact Matching.pure (a := Signal.broke) trivial
  | .loop _ b, _, hs, ht => by
      rw [stmt, stmt, hx.fuel]
      exact iterate_matching (block_matching hx b hs ht) _
  | .expr _ e, _, hs, ht => by
      rw [stmt, stmt]
      exact (expr_matching hx e hs ht).bind fun _ _ => .pure trivial

/-- **Statements.** They have the same effect on both sides. -/
theorem stmts_matching (hx : Guarded x x') : ∀ (ss : List Stmt) {live : List Nat},
    Stmt.AllScoped x.facts x.function live ss → Stmt.AllTyped x.facts returns ss →
    Matching (stmts x ss) (stmts x' ss) Signal.Proper
  | [], _, _, _ => by
      rw [stmts, stmts]
      exact .pure trivial
  | a :: ss, _, hs, ht => by
      rw [stmts, stmts]
      exact (stmt_matching hx a hs.1 ht.1).bind fun signal hsig =>
        next_matching hsig (stmts_matching hx ss hs.2 ht.2)

/-- A block has the same effect on both sides. -/
theorem block_matching (hx : Guarded x x') : ∀ (b : Block) {live : List Nat},
    b.Scoped x.facts x.function live → b.Typed x.facts returns →
    Matching (block x b) (block x' b) Signal.Proper
  | .mk _ ss none, _, hs, ht => by
      rw [block, block]
      exact stmts_matching hx ss hs ht
  | .mk _ _ (some _), _, _, ht => ht.elim

end

/-- The body of a function has the same value on both sides. -/
theorem body_matching (hx : Guarded x x') {b : Block} {live : List Nat}
    (hs : b.Scoped x.facts x.function live) (ht : b.TypedBody x.facts returns) :
    Matching (body x b) (body x' b) Value.Proper := by
  obtain ⟨n, ss, tail⟩ := b
  unfold body
  cases tail with
  | none =>
      refine (stmts_matching hx ss hs ht.1).bind fun signal hsig => ?_
      cases signal with
      | returned v => exact .pure hsig
      | normal => exact .pure trivial
      | broke => exact refines_fail
      | continued => exact refines_fail
  | some e =>
      refine (stmts_matching hx ss hs.1 ht.1).bind fun signal hsig => ?_
      cases signal with
      | returned v => exact .pure hsig
      | normal => exact expr_matching hx e hs.2 ht.2.1
      | broke => exact refines_fail
      | continued => exact refines_fail

end

/-! ### Programs -/

variable {p : Environment}

/-- A run of a function has the same value on both sides if the calls in it have. -/
theorem run_matching (hp : p.program.Accepted) {fuel depth f : Nat} {call call' : Calls}
    {captures args : List Value} (hc : Value.AllProper captures) (ha : Value.AllProper args)
    (hcalls : ∀ f captures args, f ≠ 0 → Value.AllProper captures → Value.AllProper args →
      Matching (call f captures args) (call' f captures args) Value.Proper) :
    Matching (run p fuel depth call f captures args) (run p fuel depth call' f captures args)
      Value.Proper := by
  intro s t v s' ⟨ht, hs⟩ hm
  subst ht
  obtain ⟨hlt, hlen, b, u, hb, hu, rfl⟩ := run_ok.mp hm
  have hacc := hp.accepts_of_lookup hb
  have hstart : Store.Proper { t with slots := fun i => args.getD i .unit } :=
    ⟨fun k => Value.Proper.getD ha k, hs.globals⟩
  have hx : Guarded (p.activation fuel depth call f captures)
      (p.activation fuel depth call' f captures) := ⟨rfl, hp.coherent, hc, hcalls⟩
  obtain ⟨w, hw, hv, rfl, hprop⟩ := body_matching hx hacc.inScope hacc.typed _ _ v u ⟨rfl, hstart⟩ hu
  exact ⟨_, run_ok.mpr ⟨hlt, hlen, b, _, hb, hw, rfl⟩, hv, rfl, hs.slots, hprop.globals⟩

/-- **Calls.** An accepted program does not call itself. -/
theorem invoke_matching (hp : p.program.Accepted) (fuel : Nat) :
    ∀ depth f captures args, Value.AllProper captures → Value.AllProper args →
      Matching (invoke p fuel depth f captures args) (enter p fuel depth f captures args)
        Value.Proper := by
  induction fuel with
  | zero =>
      intro depth f captures args _ _
      exact refines_timeout
  | succ fuel ih =>
      intro depth f captures args hc ha
      rw [invoke_succ, enter]
      refine run_matching hp hc ha fun g captures args hg hc ha => ?_
      unfold Calls.others
      rw [if_neg hg]
      exact ih (depth + 1) g captures args hc ha

end BigStep

/-- **Accepted programs.** A value of an accepted program needs no calls of the program itself. -/
theorem Analyzed.Accepted.enters {a : Analyzed} (h : a.Accepted) {o : RunOptions} {v : Value}
    {s' : BigStep.Store} (hs : a.Evaluates o (.ok v s')) :
    ∃ fuel, BigStep.enter { program := a, inputs := o.inputs, maxDepth := o.maxDepth } fuel 1 0 []
      [] (BigStep.start a o.outputLimit) (.ok v s') := by
  obtain ⟨fuel, hs⟩ := hs
  have hstart : (BigStep.start a o.outputLimit).Proper := ⟨fun _ => trivial, fun _ => trivial⟩
  obtain ⟨t', ht', -, rfl, -⟩ := BigStep.invoke_matching (p := ⟨a, o.inputs, o.maxDepth⟩) h fuel 1 0
    [] [] trivial trivial _ _ v s' ⟨rfl, hstart⟩ hs
  exact ⟨fuel, ht'⟩

end Parlance
