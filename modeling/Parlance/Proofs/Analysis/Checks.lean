import Mathlib.Data.List.Basic
import Parlance.Proofs.Analysis.Judgements
import Parlance.Proofs.Analysis.Passes

/-!
# Checks of types

What the checks of analysis say when they report nothing. The error type agrees with every
type, so these are facts about types in which it does not occur: there, agreement is equality.

## Main results

* `Ty.eq_of_compatible`: types that agree are equal.
* `Analyze.passes_callType`: what a call that passes has as its type.
-/

namespace Parlance

mutual

/-- **Agreement is equality** for types without errors. Only the error type agrees with everything,
and it does so at any depth, so the induction is on both types. -/
theorem Ty.eq_of_compatible : ∀ {a b : Ty}, a.isError = false → b.isError = false →
    a.compatible b = true → a = b
  | .error, _, ha, _, _ => by simp [Ty.isError] at ha
  | _, .error, _, hb, _ => by simp [Ty.isError] at hb
  | .list a, .list b, ha, hb, h => by
      rw [Ty.isError] at ha hb
      rw [Ty.compatible] at h
      rw [Ty.eq_of_compatible ha hb h]
  | .function ps r, .function qs t, ha, hb, h => by
      simp only [Ty.isError, Bool.or_eq_false_iff] at ha hb
      simp only [Ty.compatible, Bool.and_eq_true] at h
      rw [Ty.eq_of_compatibleAll ha.1 hb.1 h.1, Ty.eq_of_compatible ha.2 hb.2 h.2]
  | .int, b, _, _, h => by cases b <;> simp_all [Ty.compatible, Ty.isError]
  | .float, b, _, _, h => by cases b <;> simp_all [Ty.compatible, Ty.isError]
  | .bool, b, _, _, h => by cases b <;> simp_all [Ty.compatible, Ty.isError]
  | .str, b, _, _, h => by cases b <;> simp_all [Ty.compatible, Ty.isError]
  | .unit, b, _, _, h => by cases b <;> simp_all [Ty.compatible, Ty.isError]
  | .builtin _, b, _, _, h => by cases b <;> simp_all [Ty.compatible, Ty.isError]
  | .list _, .int, _, _, h | .list _, .float, _, _, h | .list _, .bool, _, _, h
  | .list _, .str, _, _, h | .list _, .unit, _, _, h | .list _, .function _ _, _, _, h
  | .list _, .builtin _, _, _, h => by simp [Ty.compatible] at h
  | .function _ _, .int, _, _, h | .function _ _, .float, _, _, h | .function _ _, .bool, _, _, h
  | .function _ _, .str, _, _, h | .function _ _, .unit, _, _, h | .function _ _, .list _, _, _, h
  | .function _ _, .builtin _, _, _, h => by simp [Ty.compatible] at h

/-- Types without errors are compatible only with themselves, one by one. -/
theorem Ty.eq_of_compatibleAll : ∀ {as bs : List Ty}, Ty.anyError as = false →
    Ty.anyError bs = false → Ty.compatibleAll as bs = true → as = bs
  | [], [], _, _, _ => rfl
  | a :: as, b :: bs, ha, hb, h => by
      simp only [Ty.anyError, Bool.or_eq_false_iff] at ha hb
      simp only [Ty.compatibleAll, Bool.and_eq_true] at h
      rw [Ty.eq_of_compatible ha.1 hb.1 h.1, Ty.eq_of_compatibleAll ha.2 hb.2 h.2]
  | [], _ :: _, _, _, h | _ :: _, [], _, _, h => by simp [Ty.compatibleAll] at h

end

/-- An expression has a type without errors, and it is the wanted one. -/
def Expr.Suits (want : Option Ty) (e : Expr) : Prop :=
  e.ty.isError = false ∧ ∀ t, want = some t → e.ty = t

/-- The wanted type has no errors. -/
def Wanted (want : Option Ty) : Prop :=
  ∀ t, want = some t → t.isError = false

/-- No type is wanted, so nothing is wrong with the wanted one. -/
@[simp] theorem wanted_none : Wanted none :=
  nofun

/-- A wanted type is one without errors. -/
@[simp] theorem wanted_some {t : Ty} : Wanted (some t) ↔ t.isError = false := by
  simp [Wanted]

/-- An expression suits a wanted type if that is its type. -/
@[simp] theorem Expr.suits_some {t : Ty} {e : Expr} :
    e.Suits (some t) ↔ e.ty.isError = false ∧ e.ty = t := by
  simp only [Expr.Suits, Option.some.injEq, forall_eq']

namespace Analyze

variable {s s' : AnalysisState} {range : Range} {ty : Ty}

/-- **Wanted types.** An expression that passes the comparison with the wanted type suits it.
Without errors the comparison changes neither the expression nor the state. -/
theorem passes_settle {want : Option Ty} {e e' : Expr} (h : Passes (settle want e) s e' s')
    (hw : Wanted want) (he : e.ty.isError = false) : e' = e ∧ s = s' ∧ e.Suits want := by
  unfold settle at h
  split at h
  · obtain ⟨rfl, rfl, -⟩ := passes_pure.mp h
    exact ⟨rfl, rfl, he, by simp⟩
  · next t =>
      split at h
      · exact absurd h (not_passes_report_bind fun _ => keeps_pure)
      · next hc =>
          obtain ⟨rfl, rfl, -⟩ := passes_pure.mp h
          refine ⟨rfl, rfl, he, ?_⟩
          rintro _ ⟨⟩
          exact Ty.eq_of_compatible he (hw t rfl) (by simpa using hc)

/-- A refused operand with a type is an error, so the analysis does not pass it. -/
theorem not_passes_invalidOperand {operator : String} {ty' : Ty} (ht : ty.isError = false) :
    ¬ Passes (invalidOperand operator ty range) s ty' s' := by
  intro h
  unfold invalidOperand at h
  split at h
  · next he => simp [he, Ty.isError] at ht
  · exact not_passes_report_bind (fun _ => keeps_pure) h

section

variable {operand : Ty} (ho : operand.isError = false)

include ho

/-- Negation takes numbers and keeps their type. -/
theorem passes_negationType (h : Passes (negationType operand range) s ty s') :
    s = s' ∧ ty = operand ∧ operand.isNumeric = true := by
  unfold negationType at h
  split at h
  · next hn =>
      obtain ⟨rfl, rfl, -⟩ := passes_pure.mp h
      refine ⟨rfl, rfl, ?_⟩
      rcases Bool.or_eq_true_iff.mp hn with hn | he
      · exact hn
      · simp only [decide_eq_true_eq] at he
        simp [he, Ty.isError] at ho
  · exact absurd h (not_passes_invalidOperand ho)

/-- A binary operator accepts its operands, and gives their type or a boolean. -/
theorem passes_binaryType {op : BinaryOp} (h : Passes (binaryType op operand range) s ty s') :
    s = s' ∧ operatorAccepts op operand = true ∧
      ty = if op.isComparison then .bool else operand := by
  unfold binaryType at h
  dsimp only at h
  split at h
  · next he => simp [he, Ty.isError] at ho
  · split at h
    · next ha =>
        rw [pure_bind] at h
        obtain ⟨rfl, rfl, -⟩ := passes_pure.mp h
        exact ⟨rfl, ha, rfl⟩
    · obtain ⟨_, _, h, -⟩ := h.bind fun _ => keeps_pure
      exact absurd h (not_passes_invalidOperand ho)

/-- Only what has items may be indexed. -/
theorem passes_itemType (h : Passes (itemType operand range) s ty s') :
    s = s' ∧ operand.Items ty ∧ ty.isError = false := by
  unfold itemType at h
  split at h
  · obtain ⟨rfl, rfl, -⟩ := passes_pure.mp h
    exact ⟨rfl, rfl, ho⟩
  · obtain ⟨rfl, rfl, -⟩ := passes_pure.mp h
    exact ⟨rfl, rfl, rfl⟩
  · simp [Ty.isError] at ho
  · exact absurd h (not_passes_invalidOperand ho)

/-- Only the items of lists may be assigned to. -/
theorem passes_assignedItemType (h : Passes (assignedItemType operand range) s ty s') :
    s = s' ∧ operand = .list ty ∧ ty.isError = false := by
  unfold assignedItemType at h
  split at h
  · obtain ⟨rfl, rfl, -⟩ := passes_pure.mp h
    exact ⟨rfl, rfl, ho⟩
  · simp [Ty.isError] at ho
  · exact absurd h (not_passes_invalidOperand ho)

/-- Only scalars may be cast. -/
theorem passes_checkCast {u : Unit} (h : Passes (checkCast operand range) s u s') :
    s = s' ∧ operand.scalar?.isSome = true := by
  unfold checkCast at h
  split at h
  · obtain ⟨_, _, h, -⟩ := h.bind fun _ => keeps_pure
    exact absurd h (not_passes_invalidOperand ho)
  · next hs =>
      obtain ⟨-, rfl, -⟩ := passes_pure.mp h
      refine ⟨rfl, ?_⟩
      cases hsc : operand.scalar? with
      | none => simp [hsc] at hs
      | some _ => rfl

end

/-! ### Calls -/

/-- The types of arguments that were checked in a certain way. -/
def ArgMode.Checked : ArgMode → List Expr → Prop
  | .params tys, args => args.map Expr.ty = tys
  | .all want, args => ∀ e ∈ args, e.Suits want
  | .push, args => ∀ a b item, args = [a, b] → a.ty = .list item → b.ty = item

/-- The way the arguments of a callee are checked if there are as many as it takes. -/
def argModeOf : Ty → ArgMode
  | .function params _ => .params params
  | .builtin .arg => .all (some .int)
  | .builtin .push => .push
  | _ => .all none

/-- Arguments that are compared with parameters are those of a function. -/
theorem argModeOf_eq_params {callee : Ty} {tys : List Ty} (h : argModeOf callee = .params tys) :
    ∃ returns, callee = .function tys returns := by
  unfold argModeOf at h
  split at h
  · next params returns =>
      cases h
      exact ⟨returns, rfl⟩
  all_goals cases h

/-- The one type that is wanted for all arguments has no errors. -/
theorem wanted_of_argModeOf {callee : Ty} {want : Option Ty} (h : argModeOf callee = .all want) :
    Wanted want := by
  unfold argModeOf at h
  split at h <;> cases h
  · exact wanted_some.mpr rfl
  · exact wanted_none

/-- A callee takes so many arguments, if it takes any. -/
def Takes (callee : Ty) (count : Nat) : Prop :=
  match callee with
  | .function params _ => params.length = count
  | .builtin b => b.arity = count
  | _ => True

/-- A callee whose number of arguments is right has them checked in the way that its type says. -/
theorem passes_argMode {callee : Ty} {count : Nat} {mode : ArgMode}
    (h : Passes (argMode callee count range) s mode s') :
    s = s' ∧ mode = argModeOf callee ∧ Takes callee count := by
  cases callee with
  | function params returns =>
      rw [argMode] at h
      split at h
      · next hl =>
          obtain ⟨rfl, rfl, -⟩ := passes_pure.mp h
          exact ⟨rfl, rfl, hl⟩
      · exact absurd h (not_passes_report_bind fun _ => keeps_pure)
  | builtin b =>
      unfold argMode at h
      dsimp only at h
      split at h
      · next hb => cases b <;> obtain ⟨rfl, rfl, -⟩ := passes_pure.mp h <;> exact ⟨rfl, rfl, hb⟩
      · exact absurd h (not_passes_report_bind fun _ => keeps_pure)
  | _ =>
      obtain ⟨rfl, rfl, -⟩ := passes_pure.mp h
      exact ⟨rfl, rfl, trivial⟩

/-- A call of a builtin that passes has the type that the judgement gives it. Arguments of an error
type would pass as well, so they are excluded. -/
theorem passes_builtinType {b : Builtin} {args : List Expr}
    (h : Passes (builtinType b args) s ty s') (hl : args.length = b.arity)
    (hc : (argModeOf (.builtin b)).Checked args) (hargs : ∀ e ∈ args, e.ty.isError = false) :
    s = s' ∧ (Ty.builtin b).Calls (args.map Expr.ty) ty ∧ ty.isError = false := by
  cases b with
  | print =>
      obtain ⟨a, rfl⟩ := List.length_eq_one_iff.mp hl
      obtain ⟨rfl, rfl, -⟩ := passes_pure.mp h
      exact ⟨rfl, rfl, rfl⟩
  | len =>
      obtain ⟨a, rfl⟩ := List.length_eq_one_iff.mp hl
      have ha := hargs a (by simp)
      rw [builtinType] at h
      split at h
      · next item hty =>
          obtain ⟨rfl, rfl, -⟩ := passes_pure.mp h
          exact ⟨rfl, by simp [hty, Ty.Calls], rfl⟩
      · next hty =>
          obtain ⟨rfl, rfl, -⟩ := passes_pure.mp h
          exact ⟨rfl, by simp [hty, Ty.Calls], rfl⟩
      · next hty => simp [hty, Ty.isError] at ha
      · obtain ⟨_, _, h, -⟩ := h.bind fun _ => keeps_pure
        exact absurd h (not_passes_invalidOperand ha)
  | arg =>
      obtain ⟨a, rfl⟩ := List.length_eq_one_iff.mp hl
      obtain ⟨rfl, rfl, -⟩ := passes_pure.mp h
      exact ⟨rfl, ⟨(Expr.suits_some.mp (hc a (by simp))).2, rfl⟩, rfl⟩
  | argCount =>
      obtain rfl := List.length_eq_zero_iff.mp hl
      obtain ⟨rfl, rfl, -⟩ := passes_pure.mp h
      exact ⟨rfl, rfl, rfl⟩
  | push =>
      obtain ⟨a, c, rfl⟩ := List.length_eq_two.mp hl
      have ha := hargs a (by simp)
      rw [builtinType] at h
      split at h
      · next item hty =>
          obtain ⟨rfl, rfl, -⟩ := passes_pure.mp h
          have hitem := hc a c item rfl hty
          refine ⟨rfl, ?_, by rw [← hty]; exact ha⟩
          simp only [List.map_cons, List.map_nil, hty, hitem]
          exact ⟨rfl, rfl⟩
      · next hty => simp [hty, Ty.isError] at ha
      · exact absurd h (not_passes_invalidOperand ha)

/-- A call that passes has the type that the judgement gives it. -/
theorem passes_callType {callee : Ty} {args : List Expr}
    (h : Passes (callType callee args range) s ty s') (hcallee : callee.isError = false)
    (hl : Takes callee args.length) (hc : (argModeOf callee).Checked args)
    (hargs : ∀ e ∈ args, e.ty.isError = false) :
    s = s' ∧ callee.Calls (args.map Expr.ty) ty ∧ ty.isError = false := by
  cases callee with
  | function params returns =>
      obtain ⟨rfl, rfl, -⟩ := passes_pure.mp h
      simp only [Ty.isError, Bool.or_eq_false_iff] at hcallee
      exact ⟨rfl, ⟨hc, rfl⟩, hcallee.2⟩
  | builtin b =>
      rw [callType, if_pos (Eq.symm hl)] at h
      exact passes_builtinType h (Eq.symm hl) hc hargs
  | error => simp [Ty.isError] at hcallee
  | _ => exact absurd h (not_passes_invalidOperand hcallee)

end Analyze

end Parlance
