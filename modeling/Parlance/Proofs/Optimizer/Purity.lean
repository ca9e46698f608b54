import Parlance.Proofs.BigStep.Simulation
import Parlance.Proofs.Code.Pool
import Parlance.Proofs.Optimizer.Sweeping

/-!
# Pure expressions

The optimizer removes and moves expressions that it calls pure. It decides so from the tree and
the types in it, and sweeps change both. What it says is right nevertheless: the code of a pure
expression runs to its end from every state in which variables have values of their types. It
pushes one value of the type of the expression, and changes nothing else.

The code of a pure expression only jumps forward, so its size bounds the number of steps. The
proof puts runs together like code: `Machine.Computes` says what a fragment does wherever it is
placed, with one rule for each way to build fragments.

## Main definitions

* `Expr.reads`: the symbols that an expression reads.
* `Machine.Supplies`: variables have values of their types.
* `Machine.Computes`: a fragment runs to its end, and pushes values.

## Main results

* `Expr.computes`: the code of a pure expression.
* `CompileOptions.pure_computes`: pure expressions of an analyzed text, after any sweeps.
-/

namespace Parlance

/-! ### Operations that do not fault -/

section

variable {F : Facts} {v w : Value} {t result : Ty}

/-- A value has every type that is the same. -/
theorem Value.HasTy.of_eq (hv : v.HasTy F t) (h : result = t) : v.HasTy F result :=
  h ▸ hv

/-- A unary operation on a value of the right type has a value of its result type, and no fault. -/
theorem Value.HasTy.unary_ok {op : UnaryOp} (hv : v.HasTy F t) (h : op.Types t result) :
    ∃ u, v.unary op = .ok u ∧ u.HasTy F result := by
  cases op with
  | neg =>
      obtain ⟨hn, rfl⟩ := h
      cases result with
      | int =>
          obtain ⟨n, rfl⟩ := hv.int_eq
          exact ⟨_, rfl, rfl⟩
      | float =>
          obtain ⟨x, rfl⟩ := hv.float_eq
          exact ⟨_, rfl, rfl⟩
      | _ => cases hn
  | not =>
      obtain ⟨rfl, rfl⟩ := h
      obtain ⟨b, rfl⟩ := hv.bool_eq
      exact ⟨_, rfl, rfl⟩

/-- What the right operand of an operator must be. -/
def BinaryOp.Safe : BinaryOp → Value → Prop
  | .div, .int n | .rem, .int n => n ≠ 0
  | .div, .float x | .rem, .float x => x.isZero = false
  | .pow, .int n => ¬n < 0
  | _, _ => True

/-- With a safe right operand an operation on integers fails only for types. Overflow is none, since
integers wrap around. -/
theorem Value.isTypeFault_of_binaryInt {op : BinaryOp} {a b : Int64} {k : Fault}
    (hs : op.Safe (.int b)) (h : Value.binaryInt op a b = .error k) : k.isTypeFault = true := by
  unfold Value.binaryInt at h
  split at h
  case h_4 | h_5 | h_6 =>
    rw [if_neg hs] at h
    cases h
  case h_7 =>
    cases h
    rfl
  all_goals cases h

/-- With a safe right operand an operation on floats fails only for types. -/
theorem Value.isTypeFault_of_binaryFloat {op : BinaryOp} {a b : Binary64} {k : Fault}
    (hs : op.Safe (.float b)) (h : Value.binaryFloat op a b = .error k) : k.isTypeFault = true := by
  unfold Value.binaryFloat at h
  split at h
  case h_4 | h_5 =>
    rw [if_neg (Bool.eq_false_iff.mp hs)] at h
    cases h
  case h_7 =>
    cases h
    rfl
  all_goals cases h

/-- With a safe operand only a wrong type is a fault. -/
theorem Value.isTypeFault_of_binary {op : BinaryOp} {k : Fault} (hs : op.Safe w)
    (h : Value.binary op v w = .error k) : k.isTypeFault = true := by
  unfold Value.binary at h
  split at h
  case h_7 =>
    split at h
    · exact Value.isTypeFault_of_binaryInt hs h
    · exact Value.isTypeFault_of_binaryFloat hs h
    · split at h <;> cases h
      rfl
    · split at h <;> cases h
      rfl
    · cases h
      rfl
  case h_1 | h_2 => cases h
  all_goals
    split at h <;> cases h
    rfl

/-- A binary operation on values of the right types with a safe right operand has a value of its
result type, and no fault. -/
theorem Value.HasTy.binary_ok {op : StrictOp} (hv : v.HasTy F t) (hw : w.HasTy F t)
    (h : op.toBinary.Types t result) (hs : op.toBinary.Safe w) :
    ∃ u, Value.binary op.toBinary v w = .ok u ∧ u.HasTy F result := by
  have hty := hv.binary hw h
  cases hr : Value.binary op.toBinary v w with
  | ok u =>
      rw [hr] at hty
      exact ⟨u, rfl, hty⟩
  | error k =>
      rw [hr] at hty
      exact absurd (Value.isTypeFault_of_binary hs hr) (Bool.eq_false_iff.mp hty)

/-- A float is zero in its canonical form exactly if it is zero. -/
theorem Binary64.isZero_canonical (x : Binary64) : x.canonical.isZero = x.isZero := by
  unfold Binary64.canonical
  split
  · next h =>
      unfold Binary64.isNaN at h
      unfold Binary64.isZero
      have hx : x.magnitude ≠ 0 := fun h0 => by simp [h0] at h
      rw [beq_false_of_ne hx]
      decide
  · rfl

/-- What an operator that is called safe finds is safe. A division asks for a literal that is not
zero and a power of integers for one that is not negative, and a literal has the value that it says.
-/
theorem Expr.safe_of_safeOperator {op : BinaryOp} {e : Expr} (h : e.safeOperator op = true)
    (hv : v.HasTy F e.ty) (hlit : ∀ n l, e = .lit n l → v = l.toValue) : op.Safe v := by
  have hnonzero : e.isNonzeroLit = true → BinaryOp.div.Safe v := by
    intro h
    unfold Expr.isNonzeroLit at h
    split at h
    · rw [hlit _ _ rfl]
      exact bne_iff_ne.mp h
    · rw [hlit _ _ rfl]
      exact (Binary64.isZero_canonical _).trans (Bool.not_eq_true' _ ▸ h)
    · cases h
  unfold Expr.safeOperator at h
  split at h
  · exact hnonzero h
  · cases v <;> exact hnonzero h
  · rcases Bool.or_eq_true_iff.mp h with h | h
    · rw [beq_iff_eq.mp h] at hv
      obtain ⟨x, rfl⟩ := hv.float_eq
      trivial
    · unfold Expr.isNaturalLit at h
      split at h
      · next k =>
          rw [hlit _ _ rfl]
          exact Int64.not_lt.mpr (of_decide_eq_true h)
      · cases h
  · unfold BinaryOp.Safe
    split <;> simp_all

/-- A cast that is safe has a value of the target type, and no fault. Everything has a text, and
what may fail, as a text that is to be a number, is not called safe. -/
theorem Value.HasTy.cast_ok {target : Scalar} (hv : v.HasTy F t) (hscalar : t.scalar?.isSome = true)
    (h : Expr.safeCast t target = true) : ∃ u, v.cast target = .ok u ∧ u.HasTy F target.toTy := by
  have hcast : (v.cast? target).isSome = true → ∃ u, v.cast target = .ok u ∧ u.HasTy F target.toTy := by
    intro hsome
    obtain ⟨u, hu⟩ := Option.isSome_iff_exists.mp hsome
    have hty : Value.ResultHasTy F target.toTy (v.cast target) := Value.cast_hasTy
    have hok : v.cast target = .ok u := by rw [Value.cast, hu]
    rw [hok] at hty
    exact ⟨u, hok, hty⟩
  apply hcast
  cases t with
  | int =>
      obtain ⟨n, rfl⟩ := hv.int_eq
      cases target <;> rfl
  | bool =>
      obtain ⟨b, rfl⟩ := hv.bool_eq
      cases target <;> rfl
  | float =>
      obtain ⟨x, rfl⟩ := hv.float_eq
      cases target with
      | int => cases h
      | _ => rfl
  | str =>
      obtain ⟨x, rfl⟩ := hv.str_eq
      cases target with
      | str => rfl
      | _ => cases h
  | _ => cases hscalar

end

/-! ### Runs of straight code -/

namespace Budget

/-- The budget after so many instructions. -/
def spend (b : Budget) (n : Nat) : Budget :=
  ⟨b.remaining.map (· - n)⟩

/-- A budget is enough for so many instructions. -/
def Allows (b : Budget) (n : Nat) : Prop :=
  ∀ k, b.remaining = some k → n ≤ k

variable {b : Budget} {n : Nat}

/-- No instruction costs nothing. -/
theorem spend_zero : b.spend 0 = b := by
  obtain ⟨_ | k⟩ := b <;> rfl

/-- A budget that is enough for one more instruction pays for it. -/
theorem consume?_spend (h : b.Allows (n + 1)) : (b.spend n).consume? = some (b.spend (n + 1)) := by
  obtain ⟨_ | k⟩ := b
  · rfl
  · have hk : k - n = k - (n + 1) + 1 := by
      have := h k rfl
      omega
    simp only [spend, consume?, Option.map_some, hk]

end Budget

namespace Machine

section

variable (m : Machine) (frame : Frame) (callers : List Frame)

/-- The machine with its running frame at an offset and with these operands, `n` steps later. -/
def onward (pc : Nat) (stack : List Value) (tag n : Nat) : Machine :=
  { m with
    frames := { frame with pc, stack } :: callers
    nextTag := tag
    budget := m.budget.spend n
    steps := m.steps + n }

/-- A machine is about to run code of the running frame. The facts `F` say how many variables
its functions capture. -/
structure Primed (F : Facts) (r : Routine) : Prop where
  outcome : m.outcome = none
  cancelled : m.cancelled = false
  frames : m.frames = frame :: callers
  routine : m.image.routines[frame.function]? = some r
  consts : m.consts = m.image.consts.mapIdx fun i c => c.toValue i
  captures : ∀ g < F.functions.size, ∃ r, m.image.routines[g]? = some r ∧
    r.captures = (F.captures g).length

/-- An instruction replaces operands by a value. -/
def Takes (i : Instr) (vs : List Value) (Q : Value → Prop) : Prop :=
  ∀ pc stack tag n, ∃ w tag', Q w ∧
    (m.onward frame callers pc (vs.reverse ++ stack) tag n).execute callers
        { frame with pc := pc + 1, stack := vs.reverse ++ stack } i =
      done (m.onward frame callers (pc + 1) (w :: stack) tag' n)

/-- Wherever it is placed, a fragment runs to its end and pushes values, with no more steps than
it has instructions. -/
def Computes (r : Routine) (a : Fragment) (Q : List Value → Prop) : Prop :=
  ∀ loop pc stack tag n, a.Placed r.code pc loop → m.budget.Allows (n + a.size) →
    ∃ k ≤ a.size, ∃ vs tag', Q vs ∧ (m.onward frame callers pc stack tag n).run k =
      m.onward frame callers (pc + a.size) (vs.reverse ++ stack) tag' (n + k)

end

/-- There is one value, which has a property. -/
def Only (Q : Value → Prop) (vs : List Value) : Prop :=
  ∃ v, vs = [v] ∧ Q v

variable {F : Facts} {m : Machine} {frame : Frame} {callers : List Frame} {r : Routine}

/-- A machine that has not moved is at its own offset with its own operands. -/
theorem onward_self (h : m.Primed frame callers F r) :
    m.onward frame callers frame.pc frame.stack m.nextTag 0 = m := by
  unfold onward
  rw [Budget.spend_zero, ← h.frames]
  rfl

section

variable {i : Instr} {a b : Fragment} {P Q : List Value → Prop} {R S : Value → Prop}

/-- A step that executes an instruction without a fault. -/
theorem step_of_execute {m m' : Machine} {f : Frame} {callers : List Frame} {budget : Budget}
    {i : Instr} (ho : m.outcome = none) (hf : m.frames = f :: callers) (hc : m.cancelled = false)
    (hb : m.budget.consume? = some budget) (hi : m.fetch? f = some i)
    (hx : { m with budget, steps := m.steps + 1 }.execute callers { f with pc := f.pc + 1 } i =
      (m', none)) : m.step = m' := by
  rw [step_of_fetch ho hf hc hb hi, hx]

/-- One instruction of the running frame takes one step, if the budget is enough. -/
theorem step_onward (h : m.Primed frame callers F r) {pc pc' tag tag' n : Nat}
    {stack stack' : List Value} (hi : r.code[pc]? = some i) (hb : m.budget.Allows (n + 1))
    (hx : (m.onward frame callers pc stack tag (n + 1)).execute callers
      { frame with pc := pc + 1, stack } i = done (m.onward frame callers pc' stack' tag' (n + 1))) :
    (m.onward frame callers pc stack tag n).step =
      m.onward frame callers pc' stack' tag' (n + 1) := by
  have hfetch : (m.onward frame callers pc stack tag n).fetch? { frame with pc, stack } = some i := by
    unfold fetch?
    change (m.image.routines[frame.function]?).bind _ = _
    rw [h.routine]
    exact hi
  exact step_of_execute h.outcome rfl h.cancelled (Budget.consume?_spend hb) hfetch hx

/-- Pushed values may be described more loosely. -/
theorem Computes.mono (h : m.Computes frame callers r a P) (hPQ : ∀ vs, P vs → Q vs) :
    m.Computes frame callers r a Q := by
  intro loop pc stack tag n hp hb
  obtain ⟨k, hk, vs, tag', hvs, hrun⟩ := h loop pc stack tag n hp hb
  exact ⟨k, hk, vs, tag', hPQ vs hvs, hrun⟩

/-- No code pushes no value, in no step. -/
theorem computes_empty (hQ : Q []) : m.Computes frame callers r .empty Q :=
  fun _ _ _ tag _ _ _ => ⟨0, Nat.le_refl _, [], tag, hQ, rfl⟩

/-- One fragment after the other. -/
theorem Computes.append (ha : a.Sized) (hP : m.Computes frame callers r a P)
    (hQ : m.Computes frame callers r b Q) :
    m.Computes frame callers r (a ++ b) fun vs => ∃ us ws, vs = us ++ ws ∧ P us ∧ Q ws := by
  intro loop pc stack tag n hp hb
  rw [ha.placed_append] at hp
  rw [Fragment.size_append] at hb ⊢
  obtain ⟨k, hk, us, tag₁, hus, hrun⟩ := hP loop pc stack tag n hp.1 fun j hj => by
    have := hb j hj
    omega
  obtain ⟨k', hk', ws, tag₂, hws, hrun'⟩ := hQ loop (pc + a.size) (us.reverse ++ stack) tag₁ (n + k)
    hp.2 fun j hj => by
      have := hb j hj
      omega
  refine ⟨k + k', Nat.add_le_add hk hk', us ++ ws, tag₂, ⟨us, ws, rfl, hus, hws⟩, ?_⟩
  rw [run_add, hrun, hrun', List.reverse_append, List.append_assoc, Nat.add_assoc, Nat.add_assoc]

/-- An instruction that takes the values of the fragment before it. -/
theorem Computes.take (h : m.Primed frame callers F r) (ha : a.Sized)
    (hP : m.Computes frame callers r a P) (hi : ∀ vs, P vs → m.Takes frame callers i vs R) :
    m.Computes frame callers r (a ++ .one i) (Only R) := by
  intro loop pc stack tag n hp hb
  rw [ha.placed_append, Fragment.placed_one] at hp
  rw [Fragment.size_append] at hb ⊢
  obtain ⟨k, hk, us, tag₁, hus, hrun⟩ := hP loop pc stack tag n hp.1 fun j hj => by
    have := hb j hj
    omega
  obtain ⟨w, tag₂, hw, hx⟩ := hi us hus (pc + a.size) stack tag₁ (n + k + 1)
  have hstep := step_onward h (n := n + k) hp.2 (fun j hj => by
    have := hb j hj
    change n + k + 1 ≤ j
    have : (Fragment.one i).size = 1 := rfl
    omega) hx
  refine ⟨k + 1, Nat.add_le_add hk (Nat.le_refl 1), [w], tag₂, ⟨w, rfl, hw⟩, ?_⟩
  rw [run_add, hrun]
  exact hstep

/-- An instruction that takes nothing. -/
theorem computes_one (h : m.Primed frame callers F r) (hi : m.Takes frame callers i [] R) :
    m.Computes frame callers r (.one i) (Only R) := by
  intro loop pc stack tag n hp hb
  rw [Fragment.placed_one] at hp
  obtain ⟨w, tag', hw, hx⟩ := hi pc stack tag (n + 1)
  exact ⟨1, Nat.le_refl 1, [w], tag', ⟨w, rfl, hw⟩, step_onward h hp hb hx⟩

/-- The right operand of a logical operator runs unless the left one decides. In both cases one
value is left, and there are at most as many steps as there are instructions. -/
theorem Computes.skipping (h : m.Primed frame callers F r) (op : LogicalOp) (ha : a.Sized)
    (hl : m.Computes frame callers r a (Only fun v => v.HasTy F .bool))
    (hr : m.Computes frame callers r b (Only fun v => v.HasTy F .bool)) :
    m.Computes frame callers r (.skipping op.skipJump a b)
      (Only fun v => v.HasTy F .bool) := by
  intro loop pc stack tag n hp hb
  have hsize : (Fragment.skipping op.skipJump a b).size = a.size + 1 + b.size := rfl
  rw [ha.placed_skipping] at hp
  rw [hsize] at hb ⊢
  have hallows : ∀ {j}, j ≤ n + (a.size + 1 + b.size) → m.budget.Allows j :=
    fun hj l hl => Nat.le_trans hj (hb l hl)
  obtain ⟨k, hk, _, tag₁, ⟨v, rfl, hv⟩, hrun⟩ := hl loop pc stack tag n hp.1 (hallows (by omega))
  obtain ⟨c, rfl⟩ := hv.bool_eq
  cases hd : BigStep.decides op c with
  | true =>
      have hx : (m.onward frame callers (pc + a.size) (.bool c :: stack) tag₁ (n + k + 1)).execute
          callers { frame with pc := pc + a.size + 1, stack := .bool c :: stack }
          (op.skipJump (pc + a.size + 1 + b.size)) =
            done (m.onward frame callers (pc + a.size + 1 + b.size) (.bool c :: stack) tag₁
              (n + k + 1)) := by
        cases op <;> cases c <;> cases hd <;> rfl
      refine ⟨k + 1, by omega, [.bool c], tag₁, ⟨_, rfl, rfl⟩, ?_⟩
      rw [run_add, hrun]
      exact (step_onward h hp.2.1 (hallows (by omega)) hx).trans
        (by rw [← Nat.add_assoc, ← Nat.add_assoc]; rfl)
  | false =>
      have hx : (m.onward frame callers (pc + a.size) (.bool c :: stack) tag₁ (n + k + 1)).execute
          callers { frame with pc := pc + a.size + 1, stack := .bool c :: stack }
          (op.skipJump (pc + a.size + 1 + b.size)) =
            done (m.onward frame callers (pc + a.size + 1) stack tag₁ (n + k + 1)) := by
        cases op <;> cases c <;> cases hd <;> rfl
      obtain ⟨k', hk', vs, tag₂, hvs, hrun'⟩ := hr loop (pc + a.size + 1) stack tag₁ (n + k + 1)
        hp.2.2 (hallows (by omega))
      refine ⟨k + 1 + k', by omega, vs, tag₂, hvs, ?_⟩
      have hstep := step_onward h hp.2.1 (hallows (by omega)) hx
      rw [run_add, run_add, hrun]
      change (step (m.onward frame callers (pc + a.size) (.bool c :: stack) tag₁ (n + k))).run k' = _
      rw [hstep, hrun']
      simp only [← Nat.add_assoc]

end

/-! ### Instructions -/

/-- An instruction that pushes a value whatever is on the stack takes no operands. -/
theorem takes_load {i : Instr} {w : Value} {R : Value → Prop} (hw : R w)
    (hx : ∀ pc stack tag n, (m.onward frame callers pc stack tag n).execute callers
      { frame with pc := pc + 1, stack } i =
        done (m.onward frame callers (pc + 1) (w :: stack) tag n)) :
    m.Takes frame callers i [] R :=
  fun pc stack tag n => ⟨w, tag, hw, hx pc stack tag n⟩

/-- Loading a constant of the pool takes no operands, and pushes its value. -/
theorem takes_loadConst (h : m.Primed frame callers F r) {i : Nat} {c : Const} {R : Value → Prop}
    (hi : m.image.consts[i]? = some c) (hR : R (c.toValue i)) :
    m.Takes frame callers (.loadConst i) [] R := by
  have hc : m.consts[i]? = some (c.toValue i) := by
    rw [h.consts]
    simp [hi]
  refine takes_load hR fun pc stack tag n => ?_
  unfold execute
  dsimp only [onward]
  rw [hc]
  rfl

/-- Loading a variable of the program that is there takes no operands. -/
theorem takes_loadGlobal {i : Nat} {v : Value} {R : Value → Prop} (hi : m.globals[i]? = some v)
    (hR : R v) : m.Takes frame callers (.loadGlobal i) [] R := by
  refine takes_load hR fun pc stack tag n => ?_
  unfold execute
  dsimp only [onward]
  rw [hi]
  rfl

/-- Loading a slot that is there takes no operands. -/
theorem takes_loadLocal {i : Nat} {v : Value} {R : Value → Prop} (hi : frame.slots[i]? = some v)
    (hR : R v) : m.Takes frame callers (.loadLocal i) [] R := by
  refine takes_load hR fun pc stack tag n => ?_
  unfold execute
  dsimp only
  rw [hi]
  rfl

/-- Loading a captured value that is there takes no operands. -/
theorem takes_loadCapture {i : Nat} {v : Value} {R : Value → Prop}
    (hi : frame.captures[i]? = some v) (hR : R v) :
    m.Takes frame callers (.loadCapture i) [] R := by
  refine takes_load hR fun pc stack tag n => ?_
  unfold execute
  dsimp only
  rw [hi]
  rfl

/-- An instruction whose operation gives a value. -/
theorem takes_result {i : Instr} {vs : List Value} {w : Value} {result : Except Fault Value}
    {R : Value → Prop} (hr : result = .ok w) (hw : R w)
    (hx : ∀ pc stack tag n, (m.onward frame callers pc (vs.reverse ++ stack) tag n).execute callers
      { frame with pc := pc + 1, stack := vs.reverse ++ stack } i =
        (m.onward frame callers pc (vs.reverse ++ stack) tag n).pushResult callers
          { frame with pc := pc + 1, stack := vs.reverse ++ stack } stack result) :
    m.Takes frame callers i vs R := by
  intro pc stack tag n
  refine ⟨w, tag, hw, ?_⟩
  rw [hx, hr]
  rfl

/-- Building a list takes its items as operands. -/
theorem takes_buildList {vs : List Value} {R : Value → Prop} (hR : R (.list vs)) :
    m.Takes frame callers (.buildList vs.length) vs R := by
  intro pc stack tag n
  refine ⟨.list vs, tag, hR, ?_⟩
  unfold execute
  dsimp only
  rw [Simulation.popMany?_reverse]
  rfl

/-- Making a closure takes the captured values as operands, and gives a function with some identity.
-/
theorem takes_closure {g : Nat} {r' : Routine} {vs : List Value} {R : Value → Prop}
    (hr : m.image.routines[g]? = some r') (hvs : r'.captures = vs.length)
    (hR : ∀ tag, R (.function tag g vs)) : m.Takes frame callers (.closure g) vs R := by
  intro pc stack tag n
  refine ⟨.function tag g vs, tag + 1, hR tag, ?_⟩
  unfold execute
  dsimp only [onward]
  rw [hr]
  dsimp only
  rw [hvs, Simulation.popMany?_reverse]
  rfl

end Machine

/-! ### What an expression reads -/

mutual

/-- The symbols that an expression reads. Making a function reads the variables it captures. -/
def Expr.reads (F : Facts) : Expr → List Nat
  | .lit _ _ => []
  | .ident n _ => n.symbol.toList
  | .unary _ _ e | .cast _ e _ => e.reads F
  | .binary _ _ a b | .assign _ a b | .index _ a b => a.reads F ++ b.reads F
  | .call _ f args => f.reads F ++ Expr.readsOf F args
  | .list _ items => Expr.readsOf F items
  | .lambda n _ _ => n.function.elim [] F.captures

def Expr.readsOf (F : Facts) : List Expr → List Nat
  | [] => []
  | e :: es => e.reads F ++ Expr.readsOf F es

end

namespace Machine

/-- The variables among these symbols have values of their types. -/
structure Supplies (F : Facts) (m : Machine) (frame : Frame) (ys : List Nat) : Prop where
  global : ∀ y ∈ ys, ∀ k, (F.symbol y).storage = .global k →
    ∃ v, m.globals[k]? = some v ∧ v.HasTy F (F.symbol y).ty
  slot : ∀ y ∈ ys, ∀ k, (F.symbol y).storage = .frame k → (F.symbol y).function = frame.function →
    ∃ v, frame.slots[k]? = some v ∧ v.HasTy F (F.symbol y).ty
  capture : ∀ y ∈ ys, ∀ i, (F.symbol y).function ≠ frame.function →
    (F.captures frame.function).idxOf? y = some i →
      ∃ v, frame.captures[i]? = some v ∧ v.HasTy F (F.symbol y).ty

variable {F : Facts} {m : Machine} {frame : Frame} {callers : List Frame} {r : Routine}
  {ys zs : List Nat}

/-- Fewer symbols are supplied where more of them are. -/
theorem Supplies.mono (h : m.Supplies F frame ys) (hsub : zs ⊆ ys) : m.Supplies F frame zs :=
  ⟨fun y hy => h.global y (hsub hy), fun y hy => h.slot y (hsub hy),
    fun y hy => h.capture y (hsub hy)⟩

/-- Symbols of two parts are supplied if those of both are. -/
theorem Supplies.append (h : m.Supplies F frame (ys ++ zs)) :
    m.Supplies F frame ys ∧ m.Supplies F frame zs :=
  ⟨h.mono (List.subset_append_left _ _), h.mono (List.subset_append_right _ _)⟩

section

variable {tidy : Bool} {a : Fragment}

/-- A variable with a value of its type is loaded, from the frame or from the captures. -/
theorem computes_loadVariable (h : m.Primed frame callers F r) {y k : Nat} {range : Range}
    (hs : m.Supplies F frame [y]) (hk : (F.symbol y).storage = .frame k)
    (hy : Generate.Yields m.image.consts
      (Generate.loadVariable ⟨F, frame.function, tidy⟩ y k (F.symbol y).function range) a) :
    m.Computes frame callers r a (Only fun v => v.HasTy F (F.symbol y).ty) := by
  unfold Generate.loadVariable at hy
  split at hy
  · next ho =>
      cases hy.pure_eq
      obtain ⟨v, hv, hty⟩ := hs.slot y List.mem_cons_self k hk ho
      exact computes_one h (takes_loadLocal hv hty)
  · next ho =>
      split at hy
      · next i hi =>
          cases hy.pure_eq
          obtain ⟨v, hv, hty⟩ := hs.capture y List.mem_cons_self i ho hi
          exact computes_one h (takes_loadCapture hv hty)
      · exact absurd hy Generate.not_yields_unresolved

/-- A constant of a type. -/
theorem computes_loadConst (h : m.Primed frame callers F r) {c : Const} (hc : c.IsCanonical)
    {R : Value → Prop} (hR : ∀ tag, R (c.toValue tag))
    (hy : Generate.Yields m.image.consts (Generate.loadConst c) a) :
    m.Computes frame callers r a (Only R) := by
  obtain ⟨i, rfl, hi⟩ := Generate.yields_loadConst hc hy
  exact computes_one h (takes_loadConst h hi (hR i))

/-- **Names.** The code of a name pushes a value of the type of its symbol, which is in a slot of
the frame, among its captures or among the globals. -/
theorem computes_load (h : m.Primed frame callers F r) (hF : F.Settled) {n : Note} {y : Nat}
    (hn : n.symbol = some y) (hlt : y < F.symbols.size) (hs : m.Supplies F frame [y])
    (hy : Generate.Yields m.image.consts (Generate.load ⟨F, frame.function, tidy⟩ n) a) :
    m.Computes frame callers r a (Only fun v => v.HasTy F (F.symbol y).ty) := by
  unfold Generate.load at hy
  rw [hn] at hy
  dsimp only at hy
  cases hk : (F.symbol y).storage with
  | global k =>
      rw [hk] at hy
      cases hy.pure_eq
      obtain ⟨v, hv, hty⟩ := hs.global y List.mem_cons_self k hk
      exact computes_one h (takes_loadGlobal hv hty)
  | frame k =>
      rw [hk] at hy
      exact computes_loadVariable h hs hk hy
  | function f =>
      rw [hk] at hy
      obtain ⟨hf, hty, hcaptures⟩ := hF.function y hlt f hk
      refine computes_loadConst h (c := .function f) trivial (fun tag => ?_) hy
      refine Value.hasTy_function.mpr ⟨hf, hty, ?_⟩
      rw [hcaptures]
      exact .nil
  | builtin b =>
      rw [hk] at hy
      refine computes_loadConst h (c := .builtin b) trivial (fun tag => ?_) hy
      exact hF.builtin y hlt b hk

/-- The captured variables are loaded one after another, if all of them have values. -/
theorem computes_loadAllCaptured (h : m.Primed frame callers F r) {range : Range} :
    ∀ (captures : List Nat) {a : Fragment}, m.Supplies F frame captures →
      Generate.Yields m.image.consts
        (Generate.loadAllCaptured ⟨F, frame.function, tidy⟩ range captures) a →
      m.Computes frame callers r a fun vs =>
        List.Forall₂ (Value.HasTy F) vs (captures.map fun y => (F.symbol y).ty)
  | [], _, _, hy => by
      cases hy.pure_eq
      exact computes_empty .nil
  | y :: rest, _, hs, hy => by
      obtain ⟨a₁, hs₁, hy₁, hy⟩ := hy.bind Generate.produces_loadCaptured fun _ =>
        Generate.grows_bind (Generate.produces_loadAllCaptured _).grows (by simp)
      obtain ⟨a₂, -, hy₂, hy⟩ := hy.bind (Generate.produces_loadAllCaptured _) (by simp)
      cases hy.pure_eq
      obtain ⟨hsy, hsrest⟩ : m.Supplies F frame [y] ∧ m.Supplies F frame rest := hs.append
      have hfirst : m.Computes frame callers r a₁ (Only fun v => v.HasTy F (F.symbol y).ty) := by
        unfold Generate.loadCaptured at hy₁
        split at hy₁
        · next k hk => exact computes_loadVariable h hsy hk hy₁
        · exact absurd hy₁ Generate.not_yields_unresolved
      refine (hfirst.append hs₁ (computes_loadAllCaptured h rest hsrest hy₂)).mono ?_
      rintro _ ⟨_, ws, rfl, ⟨v, rfl, hv⟩, hws⟩
      exact .cons hv hws

/-- **Functions.** The code of a lambda pushes a value of the signature of its function. It loads
what the function captures, and makes a function value of it. -/
theorem computes_lambda (h : m.Primed frame callers F r) {n : Note} {f : Nat}
    (hn : n.function = some f) (hlt : f < F.functions.size) (hs : m.Supplies F frame (F.captures f))
    (hy : Generate.Yields m.image.consts (Generate.lambda ⟨F, frame.function, tidy⟩ n) a) :
    m.Computes frame callers r a (Only fun v => v.HasTy F (F.signature f)) := by
  unfold Generate.lambda at hy
  rw [hn] at hy
  dsimp only at hy
  split at hy
  · next hnil =>
      refine computes_loadConst h (c := .function f) trivial (fun tag => ?_) hy
      refine Value.hasTy_function.mpr ⟨hlt, rfl, ?_⟩
      rw [hnil]
      exact .nil
  · obtain ⟨a₁, hs₁, hy₁, hy⟩ := hy.bind (Generate.produces_loadAllCaptured _) (by simp)
    cases hy.pure_eq
    obtain ⟨r', hr', hcaptures⟩ := h.captures f hlt
    refine (computes_loadAllCaptured h _ hs hy₁).take h hs₁ fun vs hvs => ?_
    have hlen : r'.captures = vs.length := by
      rw [hcaptures, hvs.length_eq, List.length_map]
    exact takes_closure hr' hlen fun tag => Value.hasTy_function.mpr ⟨hlt, rfl, hvs⟩

end

end Machine

/-! ### Expressions -/

section

variable {F : Facts} {m : Machine} {frame : Frame} {callers : List Frame} {r : Routine}
  {tidy : Bool}

open Machine

/-- What is known about the value of an expression. -/
def Expr.Gives (F : Facts) (e : Expr) (v : Value) : Prop :=
  v.HasTy F e.ty ∧ ∀ n l, e = .lit n l → v = l.toValue

mutual

/-- **Pure expressions.** Their code pushes a value of their type. The machine is any one about to
run the code with the variables that the expression reads; since divisors are literals and casts are
safe, no operator faults. The literals themselves are remembered as such. -/
theorem Expr.computes (h : m.Primed frame callers F r) (hF : F.Settled) : ∀ (e : Expr) {a : Fragment},
    Generate.Yields m.image.consts (Generate.expr ⟨F, frame.function, tidy⟩ e) a →
    e.isPure = true → e.Consistent F → m.Supplies F frame (e.reads F) →
    m.Computes frame callers r a (Only (e.Gives F))
  | .lit n l, _, hy, _, hc, _ => by
      rw [Generate.expr] at hy
      refine computes_loadConst h l.isCanonical_toConst (fun tag => ?_) hy
      have hv : l.toConst.toValue tag = l.toValue := by cases l <;> rfl
      rw [hv]
      refine ⟨?_, ?_⟩
      · exact l.hasTy_toValue.of_eq hc
      · rintro _ _ ⟨⟩
        rfl
  | .ident n name, _, hy, _, hc, hs => by
      rw [Generate.expr] at hy
      cases hn : n.symbol with
      | none =>
          rw [Generate.load, hn] at hy
          exact absurd hy Generate.not_yields_unresolved
      | some y =>
          obtain ⟨hlt, hty⟩ := hc y hn
          rw [Expr.reads, hn] at hs
          refine (computes_load h hF hn hlt hs hy).mono ?_
          rintro _ ⟨v, rfl, hv⟩
          exact ⟨v, rfl, hv.of_eq hty, nofun⟩
  | .unary n op e, _, hy, hp, hc, hs => by
      rw [Generate.expr] at hy
      obtain ⟨a₁, hs₁, hy₁, hy⟩ := hy.bind (Generate.produces_expr e) (by simp)
      cases hy.pure_eq
      refine (e.computes h hF hy₁ hp hc.1 hs).take h hs₁ ?_
      rintro _ ⟨v, rfl, hv, -⟩
      obtain ⟨w, hw, hty⟩ := hv.unary_ok hc.2
      exact takes_result hw ⟨hty, nofun⟩ fun _ _ _ _ => rfl
  | .cast n e target, _, hy, hp, hc, hs => by
      rw [Generate.expr] at hy
      obtain ⟨a₁, hs₁, hy₁, hy⟩ := hy.bind (Generate.produces_expr e) (by simp)
      cases hy.pure_eq
      obtain ⟨hsafe, hp⟩ := Bool.and_eq_true_iff.mp hp
      obtain ⟨hc, hscalar, hn⟩ := hc
      refine (e.computes h hF hy₁ hp hc hs).take h hs₁ ?_
      rintro _ ⟨v, rfl, hv, -⟩
      obtain ⟨w, hw, hty⟩ := hv.cast_ok hscalar hsafe
      exact takes_result hw ⟨hty.of_eq hn, nofun⟩ fun _ _ _ _ => rfl
  | .binary n op l e, _, hy, hp, hc, hs => by
      rw [Generate.expr] at hy
      obtain ⟨a₁, hs₁, hy₁, hy⟩ := hy.bind (Generate.produces_expr l) (by
        intro a; refine Generate.grows_bind (by simp) fun b => ?_; split <;> simp)
      obtain ⟨a₂, hs₂, hy₂, hy⟩ := hy.bind (Generate.produces_expr e) (by intro b; split <;> simp)
      obtain ⟨hp, hpe⟩ := Bool.and_eq_true_iff.mp hp
      obtain ⟨hsafe, hpl⟩ := Bool.and_eq_true_iff.mp hp
      obtain ⟨hcl, hce, hty, hop⟩ := hc
      obtain ⟨hsl, hse⟩ := hs.append
      have hl := l.computes h hF hy₁ hpl hcl hsl
      have he := e.computes h hF hy₂ hpe hce hse
      cases hsplit : op.split with
      | inl strict =>
          simp only [hsplit] at hy
          cases hy.pure_eq
          obtain rfl := BinaryOp.toBinary_of_split hsplit
          refine (hl.append hs₁ he).take h (hs₁.append hs₂) ?_
          rintro _ ⟨_, _, rfl, ⟨v, rfl, hv, -⟩, w, rfl, hw, hlit⟩
          obtain ⟨u, hu, htu⟩ := hv.binary_ok (hw.of_eq hty.symm) hop (e.safe_of_safeOperator hsafe hw hlit)
          exact takes_result hu ⟨htu, nofun⟩ fun _ _ _ _ => rfl
      | inr logical =>
          simp only [hsplit] at hy
          cases hy.pure_eq
          rw [BinaryOp.Types, if_pos (BinaryOp.isLogical_of_split hsplit)] at hop
          refine (Computes.skipping h logical hs₁ (hl.mono ?_) (he.mono ?_)).mono ?_
          · rintro _ ⟨v, rfl, hv, -⟩
            exact ⟨v, rfl, hv.of_eq hop.1.symm⟩
          · rintro _ ⟨v, rfl, hv, -⟩
            exact ⟨v, rfl, hv.of_eq (hty.trans hop.1).symm⟩
          · rintro _ ⟨v, rfl, hv⟩
            exact ⟨v, rfl, hv.of_eq hop.2, nofun⟩
  | .list n items, _, hy, hp, hc, hs => by
      rw [Generate.expr] at hy
      obtain ⟨a₁, hs₁, hy₁, hy⟩ := hy.bind (Generate.produces_exprs items) (by simp)
      cases hy.pure_eq
      obtain ⟨hc, t, hn, htys⟩ := hc
      refine (Expr.allCompute h hF items hy₁ hp hc hs).take h hs₁ fun vs hvs => ?_
      rw [← hvs.1]
      exact takes_buildList ⟨(Value.hasTy_list.mpr (hvs.2 t htys)).of_eq hn, nofun⟩
  | .lambda n signature b, _, hy, _, hc, hs => by
      rw [Generate.expr] at hy
      obtain ⟨f, hf, hlt, hty⟩ := hc
      rw [Expr.reads, hf] at hs
      refine (computes_lambda h hf hlt hs hy).mono ?_
      rintro _ ⟨v, rfl, hv⟩
      exact ⟨v, rfl, hv.of_eq hty, nofun⟩
  | .assign _ _ _, _, _, hp, _, _ | .call _ _ _, _, _, hp, _, _ | .index _ _ _, _, _, hp, _, _ => by
      cases hp

/-- Pure expressions push their values one after another, by induction with the other expressions.
-/
theorem Expr.allCompute (h : m.Primed frame callers F r) (hF : F.Settled) : ∀ (es : List Expr)
    {a : Fragment}, Generate.Yields m.image.consts (Generate.exprs ⟨F, frame.function, tidy⟩ es) a →
    Expr.allPure es = true → Expr.AllConsistent F es → m.Supplies F frame (Expr.readsOf F es) →
    m.Computes frame callers r a fun vs => vs.length = es.length ∧
      ∀ t, (∀ e ∈ es, e.ty = t) → ∀ v ∈ vs, v.HasTy F t
  | [], _, hy, _, _, _ => by
      rw [Generate.exprs] at hy
      cases hy.pure_eq
      exact computes_empty ⟨rfl, nofun⟩
  | e :: es, _, hy, hp, hc, hs => by
      rw [Generate.exprs] at hy
      obtain ⟨a₁, hs₁, hy₁, hy⟩ := hy.bind (Generate.produces_expr e) (by simp)
      obtain ⟨a₂, -, hy₂, hy⟩ := hy.bind (Generate.produces_exprs es) (by simp)
      cases hy.pure_eq
      obtain ⟨hpe, hpes⟩ := Bool.and_eq_true_iff.mp hp
      obtain ⟨hse, hses⟩ := hs.append
      refine ((e.computes h hF hy₁ hpe hc.1 hse).append hs₁
        (Expr.allCompute h hF es hy₂ hpes hc.2 hses)).mono ?_
      rintro _ ⟨_, ws, rfl, ⟨v, rfl, hv, -⟩, hlen, hws⟩
      refine ⟨by rw [List.singleton_append, List.length_cons, List.length_cons, hlen],
        fun t ht => List.forall_mem_cons.mpr ⟨?_, ?_⟩⟩
      · exact hv.of_eq (ht e List.mem_cons_self).symm
      · exact hws t fun d hd => ht d (List.mem_cons_of_mem e hd)

end

end

/-! ### Texts -/

namespace CompileOptions

/-- **Purity is sound.** Take a text that analysis accepts, and any sweeps of the optimizer. Suppose
that an expression of some function is pure, and that there is code for it. Wherever this code
is placed, a machine that is about to run it, with values of their types for the variables that the
expression reads, gets to the end of the code: it has pushed one value of the type of the
expression, and nothing else has changed but the counters. -/
theorem pure_computes {o : CompileOptions} {text : List Char} {a b : Analyzed}
    (ha : o.analyze text = .ok a) (hs : a.Sweeps b) {f : Nat} {body : Block}
    (hbody : (f, body) ∈ b.bodies) {e : Expr} (he : e ∈ body.expressions) (hpure : e.isPure = true)
    {m : Machine} {frame : Frame} {callers : List Frame} {r : Routine}
    (hm : m.Primed frame callers b.facts r) (hf : frame.function = f) {tidy : Bool}
    {code : Fragment} (hcode : Generate.Yields m.image.consts (Generate.expr ⟨b.facts, f, tidy⟩ e) code)
    {loop : LoopEnds} (hplaced : code.Placed r.code frame.pc loop)
    (hbudget : m.budget.Allows code.size) (hreads : m.Supplies b.facts frame (e.reads b.facts)) :
    ∃ n ≤ code.size, ∃ v tag, v.HasTy b.facts e.ty ∧
      m.run n = { m with
        frames := { frame with pc := frame.pc + code.size, stack := v :: frame.stack } :: callers
        nextTag := tag
        budget := m.budget.spend n
        steps := m.steps + n } := by
  subst hf
  obtain ⟨owner, hsound⟩ := analyze_sound ha
  obtain ⟨hsound, -⟩ := hs.sound hsound
  have hconsistent := (hsound.consistent _ hbody).of_mem he
  have hcomputes := e.computes hm hsound.settled hcode hpure hconsistent hreads
  obtain ⟨n, hn, _, tag, ⟨v, rfl, hv, -⟩, hrun⟩ :=
    hcomputes loop frame.pc frame.stack m.nextTag 0 hplaced (by rwa [Nat.zero_add])
  rw [Machine.onward_self hm, Nat.zero_add] at hrun
  exact ⟨n, hn, v, tag, hv, hrun⟩

/-- A program with a variable, and a division that cannot fault. -/
def half : List Char :=
  "let x=7;x/2".toList

/-- The code of the division. -/
def halfRoutine : Routine :=
  { name := "main", params := 0, slots := 0, captures := 0
    code := #[.loadGlobal 0, .loadConst 0, .binary .div, .ret] }

def halfFrame : Frame :=
  { function := 0, captures := [], pc := 0, slots := #[], stack := [] }

/-- A machine that is about to run the division, with some value of the variable. -/
def halfMachine : Machine where
  image := { consts := #[.int 2], globals := 1, routines := #[halfRoutine] }
  consts := #[.int 2]
  inputs := []
  maxDepth := 1
  globals := #[.int 9]
  frames := [halfFrame]
  nextTag := 1
  output := {}
  budget := ⟨some 3⟩
  cancelled := false
  outcome := none
  steps := 0

set_option synthInstance.maxSize 1000 in
/-- Analysis finds the division pure, with its type and what it reads. -/
theorem analyze_half :
    ((analyze {} half).toOption.bind fun a => a.program.root.tail.bind fun e =>
      (Generate.expr ⟨a.facts, 0, true⟩ e #[]).toOption.map fun p =>
        ((e.isPure, e.ty, e.reads a.facts), ((a.facts.symbol 5).storage, (a.facts.symbol 5).ty),
          (a.facts.functions.size, a.facts.captures 0), (p.1.size, p.1.place 0 ⟨0, 0⟩), p.2)) =
      some ((true, .int, [5]), (.global 0, .int), (1, []),
        (3, [.loadGlobal 0, .loadConst 0, .binary .div]), #[.int 2]) := by
  rw [Grammar.standard_eq]
  decide +kernel

/-- A computation that gives a result as an option has succeeded with it. -/
theorem eq_ok_of_toOption {ε α : Type} {x : Except ε α} {a : α} (h : x.toOption = some a) :
    x = .ok a := by
  cases x with
  | error e => cases h
  | ok b => exact congrArg _ (Option.some.inj h)

/-- The machine divides, and does nothing else: it takes at most three steps to push the value, with
exactly these left in its budget. -/
theorem half_computes :
    ∃ a e, analyze {} half = .ok a ∧ e ∈ a.program.root.expressions ∧ e.isPure = true ∧
      ∃ n ≤ 3, ∃ v tag, v.HasTy a.facts e.ty ∧
        halfMachine.run n = { halfMachine with
          frames := [{ halfFrame with pc := 3, stack := [v] }]
          nextTag := tag
          budget := halfMachine.budget.spend n
          steps := halfMachine.steps + n } := by
  obtain ⟨a, ha, h⟩ := Option.bind_eq_some_iff.mp analyze_half
  obtain ⟨e, he, h⟩ := Option.bind_eq_some_iff.mp h
  obtain ⟨⟨code, pool⟩, hcode, h⟩ := Option.map_eq_some_iff.mp h
  simp only [Prod.mk.injEq] at h
  obtain ⟨⟨hpure, -, hreads⟩, ⟨hstorage, hty⟩, ⟨hfunctions, hcaptures⟩, ⟨hsize, hplace⟩, rfl⟩ := h
  have ha := eq_ok_of_toOption ha
  have hcode := eq_ok_of_toOption hcode
  have hexpr := Block.mem_expressions_of_tail he
  have hm : halfMachine.Primed halfFrame [] a.facts halfRoutine := by
    refine ⟨rfl, rfl, rfl, rfl, rfl, fun g hg => ?_⟩
    obtain rfl : g = 0 := by omega
    exact ⟨halfRoutine, rfl, by rw [hcaptures]; rfl⟩
  have hsupplies : halfMachine.Supplies a.facts halfFrame (e.reads a.facts) := by
    rw [hreads]
    refine ⟨?_, ?_, ?_⟩ <;> simp only [List.forall_mem_singleton, hstorage, hty]
    · rintro _ ⟨⟩
      exact ⟨.int 9, rfl, rfl⟩
    · rintro _ ⟨⟩
    · intro i _ hi
      change (a.facts.captures 0).idxOf? 5 = some i at hi
      rw [hcaptures] at hi
      cases hi
  have hplaced : code.Placed halfRoutine.code halfFrame.pc ⟨0, 0⟩ := by
    rw [Fragment.Placed, show halfFrame.pc = 0 from rfl, hplace]
    simp [embeds_cons, halfRoutine]
  obtain ⟨n, hn, v, tag, hv, hrun⟩ := pure_computes ha .refl
    (Analyzed.mem_bodies_of_tree List.mem_cons_self) hexpr hpure hm rfl
    ⟨#[], #[.int 2], ⟨by simp, by simp⟩, hcode, .refl _⟩ hplaced
    (by rintro k ⟨⟩; exact hsize.le) hsupplies
  rw [hsize] at hn hrun
  exact ⟨a, e, ha, hexpr, hpure, n, hn, v, tag, hv, hrun⟩

end CompileOptions

end Parlance
