import Mathlib.Tactic.Common
import Parlance.Code.Image

/-!
# What verification promises

`Image.verify` checks an image in one pass and stops at the first error. This module reads
its success back as facts about every constant, every routine and every instruction.

## Main results

* `verifyEach_eq_ok_iff`: a list passes exactly when each of its items does.
* `Image.verify_eq_ok_iff`: an image passes exactly when it has an entry without parameters
  and captures and all its constants and routines pass.
* `Instr.Refers` and `Routine.Verified`: what the operand of an instruction has to refer to,
  and what a verified routine looks like.
* `Routine.Verified.succ_lt_size`: an instruction that hands control to the next one is never
  the last of its routine.
-/

namespace Parlance

/-! ### Checks -/

/-- A requirement is met exactly when its condition holds. -/
theorem require_eq_ok_iff {condition : Bool} {e : VerifyError} :
    require condition e = .ok () ↔ condition = true := by
  unfold require
  split <;> simp_all

/-- Two checks pass one after the other exactly when both pass. -/
theorem andThen_eq_ok_iff {a b : Except VerifyError Unit} :
    (a >>= fun _ => b) = .ok () ↔ a = .ok () ∧ b = .ok () := by
  cases a <;> simp [bind, Except.bind]

/-- A list passes a check exactly when every item passes it at its position. The check starts
counting where the list does. -/
theorem verifyEach_eq_ok_iff {α : Type} {check : Nat → α → Except VerifyError Unit}
    {start : Nat} {as : List α} :
    verifyEach check start as = .ok () ↔
      ∀ i a, as[i]? = some a → check (start + i) a = .ok () := by
  induction as generalizing start with
  | nil => simp [verifyEach]
  | cons a as ih =>
      constructor
      · intro h i b hb
        unfold verifyEach at h
        split at h
        · next hc =>
            cases i with
            | zero =>
                simp only [List.getElem?_cons_zero, Option.some.injEq] at hb
                subst hb
                exact hc
            | succ i =>
                have := ih.mp h i b (by simpa using hb)
                rwa [show start + (i + 1) = start + 1 + i by omega]
        · simp at h
      · intro h
        unfold verifyEach
        have ha : check start a = .ok () := h 0 a rfl
        rw [ha]
        refine ih.mpr fun i b hb => ?_
        have := h (i + 1) b (by simpa using hb)
        rwa [show start + (i + 1) = start + 1 + i by omega] at this

/-! ### Instructions -/

/-- What the operand of an instruction refers to exists: a constant, a slot of the frame or
of the program, a capture, a routine, or an offset of the routine's code. -/
def Instr.Refers (image : Image) (r : Routine) : Instr → Prop
  | .loadConst i => i < image.consts.size
  | .loadLocal i | .storeLocal i => i < r.slots
  | .loadGlobal i | .storeGlobal i => i < image.globals
  | .loadCapture i => i < r.captures
  | .closure i => i < image.routines.size
  | .jump t | .jumpIfFalse t | .jumpIfTrueOrPop t | .jumpIfFalseOrPop t => t < r.code.size
  | _ => True

/-- The check of an instruction is that of its operand. -/
theorem Image.verifyInstr_eq_ok_iff {image : Image} {function pc : Nat} {r : Routine}
    {i : Instr} : image.verifyInstr function r pc i = .ok () ↔ i.Refers image r := by
  cases i <;> simp [Image.verifyInstr, Instr.Refers, require_eq_ok_iff]

/-! ### Constants, routines and images -/

/-- A function of the constant pool exists and captures nothing. -/
def Const.Refers (image : Image) : Const → Prop
  | .function f => ∃ r, image.routines[f]? = some r ∧ r.captures = 0
  | _ => True

/-- The check of a constant is that of the function it may be. -/
theorem Image.verifyConst_eq_ok_iff {image : Image} {index : Nat} {c : Const} :
    image.verifyConst index c = .ok () ↔ c.Refers image := by
  cases c with
  | function f =>
      simp only [Image.verifyConst, Const.Refers]
      cases image.routines[f]? with
      | none => simp
      | some r => simp [require_eq_ok_iff]
  | _ => simp [Image.verifyConst, Const.Refers]

/-- A routine has room for its parameters, ends with a return or a jump, and every
instruction refers to something that exists. -/
structure Routine.Verified (image : Image) (r : Routine) : Prop where
  params_le : r.params ≤ r.slots
  ends : ∃ i, r.code.back? = some i ∧ i.isFinal = true
  refers : ∀ (pc : Nat) (i : Instr), r.code[pc]? = some i → i.Refers image r

/-- A routine passes the checks of an image exactly if it is verified. -/
theorem Image.verifyRoutine_eq_ok_iff {image : Image} {function : Nat} {r : Routine} :
    image.verifyRoutine function r = .ok () ↔ r.Verified image := by
  simp only [Image.verifyRoutine, andThen_eq_ok_iff, require_eq_ok_iff, verifyEach_eq_ok_iff,
    Image.verifyInstr_eq_ok_iff, Array.getElem?_toList]
  constructor
  · rintro ⟨hp, he, hi⟩
    refine ⟨by simpa using hp, ?_, hi⟩
    cases hb : r.code.back? with
    | none => simp [hb] at he
    | some i => exact ⟨i, rfl, by simpa [hb] using he⟩
  · rintro ⟨hp, ⟨i, hb, hf⟩, hi⟩
    exact ⟨by simpa using hp, by simpa [hb] using hf, hi⟩

/-- An image passes exactly when it has an entry without parameters and captures, and all
its constants and routines pass. -/
theorem Image.verify_eq_ok_iff {image : Image} :
    image.verify = .ok () ↔
      (∃ entry, image.routines[0]? = some entry ∧ entry.params = 0 ∧ entry.captures = 0) ∧
      (∀ (i : Nat) (c : Const), image.consts[i]? = some c → c.Refers image) ∧
      ∀ (f : Nat) (r : Routine), image.routines[f]? = some r → r.Verified image := by
  unfold Image.verify
  cases h : image.routines[0]? with
  | none => simp
  | some entry =>
      simp [andThen_eq_ok_iff, require_eq_ok_iff, verifyEach_eq_ok_iff, Image.verifyConst_eq_ok_iff,
        Image.verifyRoutine_eq_ok_iff, and_assoc]

/-- An instruction that hands control to the next one is not the last of its routine. -/
theorem Routine.Verified.succ_lt_size {image : Image} {r : Routine} (h : r.Verified image)
    {pc : Nat} {i : Instr} (hi : r.code[pc]? = some i) (hf : i.isFinal = false) :
    pc + 1 < r.code.size := by
  obtain ⟨last, hb, hl⟩ := h.ends
  have hlt : pc < r.code.size := (Array.getElem?_eq_some_iff.mp hi).1
  by_contra hge
  have hpc : pc = r.code.size - 1 := by omega
  rw [Array.back?_eq_getElem?, ← hpc, hi, Option.some.injEq] at hb
  rw [hb, hl] at hf
  exact Bool.noConfusion hf

end Parlance
