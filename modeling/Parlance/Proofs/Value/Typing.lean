import Mathlib.Data.List.Forall2
import Parlance.Machine.Step
import Parlance.Proofs.Analysis.Judgements

/-!
# Types of values

A value has a type relative to the facts about a program. The type of a function value is the
signature of its function, and the values it captured have the types of the captured
variables.

An operation on values of the types it is made for gives a value of its result type, or a fault
that is not about types.

## Main results

* `Value.HasTy.unary`, `Value.HasTy.binary`, `Value.HasTy.cast`, `Value.HasTy.getItem`,
  `Value.HasTy.setItem`: operations.
* `Machine.callBuiltin_hasTy`: calls of builtins.
-/

namespace Parlance

/-- Whether a fault says that an operand has a wrong type or that a call has a wrong number of
arguments. -/
def Fault.isTypeFault : Fault → Bool
  | .invalidOperand _ _ | .arityMismatch _ _ => true
  | _ => false

section HasTy

variable (facts : Facts)

mutual

/-- A value has a type. -/
def Value.HasTy : Value → Ty → Prop
  | .unit, t => t = .unit
  | .int _, t => t = .int
  | .float _, t => t = .float
  | .bool _, t => t = .bool
  | .str _, t => t = .str
  | .list items, t => ∃ item, t = .list item ∧ Value.AllHaveTy items item
  | .function _ f captures, t => f < facts.functions.size ∧ t = facts.signature f ∧
      Value.HaveTys captures ((facts.captures f).map fun y => (facts.symbol y).ty)
  | .builtin b, t => t = .builtin b

/-- All values have one type. -/
def Value.AllHaveTy : List Value → Ty → Prop
  | [], _ => True
  | v :: vs, t => v.HasTy t ∧ Value.AllHaveTy vs t

/-- Values have a type each. -/
def Value.HaveTys : List Value → List Ty → Prop
  | [], [] => True
  | v :: vs, t :: ts => v.HasTy t ∧ Value.HaveTys vs ts
  | _, _ => False

end

end HasTy

namespace Value

variable {facts : Facts} {v w : Value} {t : Ty}

/-! ### Values of a type -/

/-- The unit value has the unit type only. -/
@[simp] theorem hasTy_unit : Value.unit.HasTy facts t ↔ t = .unit := Iff.rfl

/-- An integer has the type of integers only. -/
@[simp] theorem hasTy_int {n : Int64} : (Value.int n).HasTy facts t ↔ t = .int := Iff.rfl

/-- A float has the type of floats only. -/
@[simp] theorem hasTy_float {x : Binary64} : (Value.float x).HasTy facts t ↔ t = .float := Iff.rfl

/-- A bool has the type of bools only. -/
@[simp] theorem hasTy_bool {b : Bool} : (Value.bool b).HasTy facts t ↔ t = .bool := Iff.rfl

/-- A string has the type of strings only. -/
@[simp] theorem hasTy_str {x : String} : (Value.str x).HasTy facts t ↔ t = .str := Iff.rfl

/-- A builtin has a type of its own. -/
@[simp] theorem hasTy_builtin {b : Builtin} :
    (Value.builtin b).HasTy facts t ↔ t = .builtin b := Iff.rfl

/-- Values have one type together if each of them has it. -/
theorem allHaveTy_iff {vs : List Value} :
    Value.AllHaveTy facts vs t ↔ ∀ v ∈ vs, v.HasTy facts t := by
  induction vs with
  | nil => simp [Value.AllHaveTy]
  | cons v vs ih => simp [Value.AllHaveTy, ih]

/-- Values have a type each if they do so in pairs. -/
theorem haveTys_iff {vs : List Value} {ts : List Ty} :
    Value.HaveTys facts vs ts ↔ List.Forall₂ (Value.HasTy facts) vs ts := by
  induction vs generalizing ts with
  | nil => cases ts <;> simp [Value.HaveTys]
  | cons v vs ih => cases ts <;> simp [Value.HaveTys, ih]

/-- A list has a type of lists whose items have the type of its items. An empty list has all of
these types. -/
theorem hasTy_list_iff {items : List Value} :
    (Value.list items).HasTy facts t ↔ ∃ item, t = .list item ∧ ∀ v ∈ items, v.HasTy facts item :=
  exists_congr fun _ => and_congr_right fun _ => allHaveTy_iff

/-- A list has a list type if its items have the type of the items. -/
@[simp] theorem hasTy_list {items : List Value} :
    (Value.list items).HasTy facts (.list t) ↔ ∀ v ∈ items, v.HasTy facts t := by
  simp [hasTy_list_iff]

/-- A function has the signature of its number, and captured values of the types of the captured
variables. -/
theorem hasTy_function {tag f : Nat} {captures : List Value} :
    (Value.function tag f captures).HasTy facts t ↔ f < facts.functions.size ∧
      t = facts.signature f ∧
      List.Forall₂ (Value.HasTy facts) captures
        ((facts.captures f).map fun y => (facts.symbol y).ty) :=
  and_congr_right fun _ => and_congr_right fun _ => haveTys_iff

namespace HasTy

/-- A value of the type of integers is an integer. -/
theorem int_eq (h : v.HasTy facts .int) : ∃ n, v = .int n := by
  cases v <;> simp [hasTy_list_iff, hasTy_function, Facts.signature] at h ⊢

/-- A value of the type of floats is a float. -/
theorem float_eq (h : v.HasTy facts .float) : ∃ x, v = .float x := by
  cases v <;> simp [hasTy_list_iff, hasTy_function, Facts.signature] at h ⊢

/-- A value of the type of bools is a bool. -/
theorem bool_eq (h : v.HasTy facts .bool) : ∃ b, v = .bool b := by
  cases v <;> simp [hasTy_list_iff, hasTy_function, Facts.signature] at h ⊢

/-- A value of the type of strings is a string. -/
theorem str_eq (h : v.HasTy facts .str) : ∃ s, v = .str s := by
  cases v <;> simp [hasTy_list_iff, hasTy_function, Facts.signature] at h ⊢

/-- A value of a list type is a list, with items of the type of the items. -/
theorem list_eq (h : v.HasTy facts (.list t)) :
    ∃ items, v = .list items ∧ ∀ w ∈ items, w.HasTy facts t := by
  cases v with
  | list items => exact ⟨items, rfl, hasTy_list.mp h⟩
  | _ => simp [hasTy_function, Facts.signature] at h

end HasTy

/-! ### Operations -/

/-- A result has a type, or it is a fault that is not about types. -/
def ResultHasTy (facts : Facts) (t : Ty) : Except Fault Value → Prop
  | .ok v => v.HasTy facts t
  | .error k => k.isTypeFault = false

/-- A unary operation on a value of the right type gives its result type. Its faults are not about
types. -/
theorem HasTy.unary {op : UnaryOp} {result : Ty} (hv : v.HasTy facts t) (h : op.Types t result) :
    ResultHasTy facts result (v.unary op) := by
  cases op with
  | neg =>
      obtain ⟨hn, rfl⟩ := h
      cases result with
      | int =>
          obtain ⟨n, rfl⟩ := hv.int_eq
          exact rfl
      | float =>
          obtain ⟨x, rfl⟩ := hv.float_eq
          exact rfl
      | _ => simp [Ty.isNumeric] at hn
  | not =>
      obtain ⟨rfl, rfl⟩ := h
      obtain ⟨b, rfl⟩ := hv.bool_eq
      exact rfl

/-- The types that arithmetic and comparison are made for. Faults may come of the values, as a
division by zero does, but none comes of the types. -/
theorem HasTy.binary {op : StrictOp} {result : Ty} (hv : v.HasTy facts t) (hw : w.HasTy facts t)
    (h : op.toBinary.Types t result) : ResultHasTy facts result (Value.binary op.toBinary v w) := by
  have hop : op.toBinary.isLogical = false := by cases op <;> rfl
  rw [BinaryOp.Types, if_neg (by simp [hop])] at h
  obtain ⟨hacc, rfl⟩ := h
  have hcases : op = .eq ∨ op = .ne ∨ (t = .int ∨ t = .float) ∨ t = .str := by
    cases op <;> cases t <;> simp [Analyze.operatorAccepts, Ty.isOrdered, Ty.isNumeric,
      StrictOp.toBinary] at hacc ⊢
  rcases hcases with rfl | rfl | (rfl | rfl) | rfl
  · exact rfl
  · exact rfl
  · obtain ⟨a, rfl⟩ := hv.int_eq
    obtain ⟨b, rfl⟩ := hw.int_eq
    cases op <;> simp only [StrictOp.toBinary, Value.binary, Value.binaryInt, Value.order?,
      BinaryOp.isComparison, Bool.false_eq_true, if_false, if_true]
    all_goals first
      | exact rfl
      | split <;> exact rfl
  · obtain ⟨a, rfl⟩ := hv.float_eq
    obtain ⟨b, rfl⟩ := hw.float_eq
    cases op <;> simp only [StrictOp.toBinary, Value.binary, Value.binaryFloat, Value.order?,
      BinaryOp.isComparison, Bool.false_eq_true, if_false, if_true]
    all_goals first
      | exact rfl
      | split <;> exact rfl
  · obtain ⟨a, rfl⟩ := hv.str_eq
    obtain ⟨b, rfl⟩ := hw.str_eq
    cases op <;> simp [Analyze.operatorAccepts, Ty.isOrdered, Ty.isNumeric,
      StrictOp.toBinary] at hacc <;> exact rfl

/-- A cast gives the target type, or it fails for the value. -/
theorem cast_hasTy {target : Scalar} : ResultHasTy facts target.toTy (v.cast target) := by
  unfold Value.cast
  split
  · next w hw =>
      unfold Value.cast? at hw
      split at hw <;> simp only [Option.map_eq_some_iff, Option.some.injEq, reduceCtorEq] at hw
      all_goals first
        | (subst hw; exact rfl)
        | (obtain ⟨_, _, rfl⟩ := hw; exact rfl)
  · exact rfl

/-- An integer fails as an index only because it is out of range. -/
theorem checkedIndex_isTypeFault {k : Fault} {n : Nat} (hv : v.HasTy facts .int)
    (h : v.checkedIndex n = .error k) : k.isTypeFault = false := by
  obtain ⟨i, rfl⟩ := hv.int_eq
  unfold Value.checkedIndex at h
  dsimp only at h
  split at h <;> cases h
  rfl

/-- An index that passes is in range. -/
theorem checkedIndex_lt {i n : Nat} (h : v.checkedIndex n = .ok i) : i < n := by
  unfold Value.checkedIndex at h
  split at h
  · split at h
    · cases h
      omega
    · cases h
  · cases h

/-- Reading an item gives the type of the items. Its faults are not about types. -/
theorem HasTy.getItem {index : Value} {result : Ty} (hv : v.HasTy facts t)
    (hi : index.HasTy facts .int) (h : t.Items result) :
    ResultHasTy facts result (v.getItem index) := by
  cases t with
  | list item =>
      obtain rfl : result = item := h
      obtain ⟨items, rfl, hitems⟩ := hv.list_eq
      unfold Value.getItem
      dsimp only
      cases hc : index.checkedIndex items.length with
      | error k => exact checkedIndex_isTypeFault hi hc
      | ok i =>
          have hlt := checkedIndex_lt hc
          change (items.getD i .unit).HasTy facts result
          rw [List.getD_eq_getElem?_getD, List.getElem?_eq_getElem hlt]
          exact hitems _ (List.getElem_mem hlt)
  | str =>
      obtain rfl : result = .str := h
      obtain ⟨s, rfl⟩ := hv.str_eq
      unfold Value.getItem
      dsimp only
      cases hc : index.checkedIndex s.toList.length with
      | error k => exact checkedIndex_isTypeFault hi hc
      | ok i => exact rfl
  | _ => exact h.elim

/-- Setting an item keeps the type of the list. Its faults are not about types. -/
theorem HasTy.setItem {index : Value} (hv : v.HasTy facts (.list t)) (hi : index.HasTy facts .int)
    (hw : w.HasTy facts t) : ResultHasTy facts (.list t) (v.setItem index w) := by
  obtain ⟨items, rfl, hitems⟩ := hv.list_eq
  unfold Value.setItem
  dsimp only
  cases hc : index.checkedIndex items.length with
  | error k => exact checkedIndex_isTypeFault hi hc
  | ok i =>
      refine hasTy_list.mpr fun u hu => ?_
      rcases List.mem_or_eq_of_mem_set hu with hu | rfl
      · exact hitems u hu
      · exact hw

/-- Adding an item keeps the type of the list. -/
theorem HasTy.push (hv : v.HasTy facts (.list t)) (hw : w.HasTy facts t) :
    ResultHasTy facts (.list t) (v.push w) := by
  obtain ⟨items, rfl, hitems⟩ := hv.list_eq
  refine hasTy_list.mpr fun u hu => ?_
  rcases List.mem_append.mp hu with hu | hu
  · exact hitems u hu
  · rwa [List.mem_singleton.mp hu]

end Value

/-! ### Builtins -/

/-- An input is a string. A fault is about its index. -/
theorem Machine.input_hasTy {facts : Facts} {m : Machine} (index : Int64) :
    Value.ResultHasTy facts .str (m.input index) := by
  unfold Machine.input
  dsimp only
  split
  · exact rfl
  · exact rfl

/-- The calls of builtins that have a type. -/
theorem Ty.Calls.builtin_cases {b : Builtin} {tys : List Ty} {result : Ty}
    (h : (Ty.builtin b).Calls tys result) :
    (b = .print ∧ ∃ t, tys = [t] ∧ result = .unit) ∨
    (b = .len ∧ (tys = [.str] ∨ ∃ t, tys = [.list t]) ∧ result = .int) ∨
    (b = .arg ∧ tys = [.int] ∧ result = .str) ∨
    (b = .argCount ∧ tys = [] ∧ result = .int) ∨
    b = .push ∧ ∃ t, tys = [.list t, t] ∧ result = .list t := by
  unfold Ty.Calls at h
  split at h
  all_goals simp_all

/-- **Builtins.** A call of a builtin gives a value of the result type, or a fault. The arguments
have the types that the judgement asks for. -/
theorem Machine.callBuiltin_hasTy {facts : Facts} {b : Builtin} {args : List Value} {tys : List Ty}
    {result : Ty} (m : Machine) (hargs : List.Forall₂ (Value.HasTy facts) args tys)
    (h : (Ty.builtin b).Calls tys result) :
    Value.ResultHasTy facts result (m.callBuiltin b args).2 := by
  obtain ⟨rfl, t, rfl, rfl⟩ | ⟨rfl, htys, rfl⟩ | ⟨rfl, rfl, rfl⟩ | ⟨rfl, rfl, rfl⟩ |
    ⟨rfl, t, rfl, rfl⟩ := h.builtin_cases
  · obtain ⟨v, _, -, hrest, rfl⟩ := List.forall₂_cons_right_iff.mp hargs
    obtain rfl := List.forall₂_nil_right_iff.mp hrest
    rw [Machine.callBuiltin]
    cases hw : (m.output.writeLine v.display).2 with
    | true =>
        simp only [hw]
        exact rfl
    | false =>
        simp only [hw]
        exact rfl
  · rcases htys with rfl | ⟨t, rfl⟩
    · obtain ⟨v, _, hv, hrest, rfl⟩ := List.forall₂_cons_right_iff.mp hargs
      obtain rfl := List.forall₂_nil_right_iff.mp hrest
      obtain ⟨s, rfl⟩ := hv.str_eq
      exact rfl
    · obtain ⟨v, _, hv, hrest, rfl⟩ := List.forall₂_cons_right_iff.mp hargs
      obtain rfl := List.forall₂_nil_right_iff.mp hrest
      obtain ⟨items, rfl, -⟩ := hv.list_eq
      exact rfl
  · obtain ⟨v, _, hv, hrest, rfl⟩ := List.forall₂_cons_right_iff.mp hargs
    obtain rfl := List.forall₂_nil_right_iff.mp hrest
    obtain ⟨n, rfl⟩ := hv.int_eq
    exact Machine.input_hasTy n
  · obtain rfl := List.forall₂_nil_right_iff.mp hargs
    exact rfl
  · obtain ⟨v, _, hv, hrest, rfl⟩ := List.forall₂_cons_right_iff.mp hargs
    obtain ⟨w, _, hw, hrest', rfl⟩ := List.forall₂_cons_right_iff.mp hrest
    obtain rfl := List.forall₂_nil_right_iff.mp hrest'
    exact hv.push hw

end Parlance
