import Mathlib.Data.Int.ModEq
import Mathlib.Data.Nat.Size
import Mathlib.Tactic.Ring
import Parlance.Value.Ops

/-!
# Integer powers

`**` on integers multiplies by squaring, in 64 bits. Every product wraps around, and so do the
squares, the last of which is not used. Still the result is the power, up to a multiple of
`2 ^ 64`: each round keeps the product of what is multiplied up so far and the power that is left,
and it halves the exponent.

## Main definitions

* `Squaring.next`: one round.

## Main results

* `Squaring.next_modEq`: a round keeps the product modulo `2 ^ 64`.
* `Squaring.powAux_eq`: the rounds are those of `Value.powAux`.
* `Value.binary_pow`: powers of integers.
-/

namespace Parlance

/-- Between two rounds of squaring. -/
structure Squaring where
  /-- What is multiplied up so far. -/
  product : Int64
  square : Int64
  /-- The exponent that is left. -/
  exponent : Nat

namespace Squaring

/-- Before the first round. -/
def start (base : Int64) (exponent : Nat) : Squaring :=
  { product := 1, square := base, exponent }

/-- One round: the lowest bit of the exponent says whether the square is multiplied in. -/
def next (s : Squaring) : Squaring :=
  { product := if s.exponent % 2 = 1 then s.product * s.square else s.product
    square := s.square * s.square
    exponent := s.exponent / 2 }

/-- The squaring ends after just so many rounds. -/
def EndsAfter (s : Squaring) (k : Nat) : Prop :=
  (next^[k] s).exponent = 0 ∧ ∀ j < k, (next^[j] s).exponent ≠ 0

/-! ### The number of rounds -/

/-- Each round halves the exponent. -/
theorem exponent_iterate (s : Squaring) (k : Nat) :
    (next^[k] s).exponent = s.exponent / 2 ^ k := by
  induction k with
  | zero => simp
  | succ k ih =>
      rw [Function.iterate_succ_apply', next, ih, Nat.div_div_eq_div_mul, pow_succ]

/-- There are as many rounds as the exponent has bits. -/
theorem endsAfter_size (s : Squaring) : s.EndsAfter s.exponent.size := by
  constructor
  · rw [exponent_iterate]
    exact Nat.div_eq_of_lt (Nat.lt_size_self s.exponent)
  · intro j hj
    rw [exponent_iterate]
    exact (Nat.div_pos (Nat.lt_size.mp hj) (Nat.two_pow_pos j)).ne'

/-- A squaring that ends after one more round ends after its first round so much earlier. -/
theorem EndsAfter.tail {s : Squaring} {k : Nat} (h : s.EndsAfter (k + 1)) : s.next.EndsAfter k :=
  ⟨h.1, fun j hj => h.2 (j + 1) (by omega)⟩

/-- `Value.powAux` makes these rounds, if it is allowed as many. -/
theorem powAux_eq {s : Squaring} {k fuel : Nat} (h : s.EndsAfter k) (hk : k ≤ fuel) :
    Value.powAux fuel s.product s.square s.exponent = (next^[k] s).product := by
  induction k generalizing s fuel with
  | zero =>
      have h0 : s.exponent = 0 := h.1
      cases fuel with
      | zero => rfl
      | succ fuel =>
          rw [Value.powAux, if_pos h0]
          rfl
  | succ k ih =>
      have h0 : s.exponent ≠ 0 := h.2 0 (by omega)
      obtain ⟨fuel, rfl⟩ := Nat.exists_eq_add_of_le' (show 1 ≤ fuel by omega)
      rw [Value.powAux, if_neg h0, Function.iterate_succ_apply]
      exact ih h.tail (by omega)

/-! ### The invariant -/

/-- Products of integers of 64 bits are those of the integers, up to multiples of `2 ^ 64`. -/
theorem toInt_mul_modEq (a b : Int64) : (a * b).toInt ≡ a.toInt * b.toInt [ZMOD 2 ^ 64] := by
  rw [Int64.toInt_mul]
  exact Int.bmod_emod

/-- **One round.** What is multiplied up and the power that is left have the same product as
before. -/
theorem next_modEq (s : Squaring) :
    s.next.product.toInt * s.next.square.toInt ^ s.next.exponent ≡
      s.product.toInt * s.square.toInt ^ s.exponent [ZMOD 2 ^ 64] := by
  have hsquare : s.next.square.toInt ^ s.next.exponent ≡
      s.square.toInt ^ (2 * (s.exponent / 2)) [ZMOD 2 ^ 64] := by
    rw [pow_mul, sq]
    exact (toInt_mul_modEq s.square s.square).pow _
  rcases Nat.mod_two_eq_zero_or_one s.exponent with h | h
  · have hproduct : s.next.product = s.product := by simp [next, h]
    have he : 2 * (s.exponent / 2) = s.exponent := by omega
    rw [hproduct]
    rw [he] at hsquare
    exact hsquare.mul_left _
  · have hproduct : s.next.product = s.product * s.square := by simp [next, h]
    have he : s.exponent = 2 * (s.exponent / 2) + 1 := by omega
    calc s.next.product.toInt * s.next.square.toInt ^ s.next.exponent
        ≡ s.product.toInt * s.square.toInt * s.square.toInt ^ (2 * (s.exponent / 2))
          [ZMOD 2 ^ 64] := by
          rw [hproduct]
          exact (toInt_mul_modEq s.product s.square).mul hsquare
      _ = s.product.toInt * s.square.toInt ^ s.exponent := by
          conv_rhs => rw [he]
          ring

/-- **All rounds.** -/
theorem iterate_modEq (s : Squaring) (k : Nat) :
    (next^[k] s).product.toInt * (next^[k] s).square.toInt ^ (next^[k] s).exponent ≡
      s.product.toInt * s.square.toInt ^ s.exponent [ZMOD 2 ^ 64] := by
  induction k with
  | zero => exact .rfl
  | succ k ih =>
      rw [Function.iterate_succ_apply']
      exact (next_modEq _).trans ih

/-- At the end, the power is multiplied up. -/
theorem EndsAfter.modEq {base : Int64} {exponent k : Nat} (h : (start base exponent).EndsAfter k) :
    (next^[k] (start base exponent)).product.toInt ≡ base.toInt ^ exponent [ZMOD 2 ^ 64] := by
  have hk := iterate_modEq (start base exponent) k
  rw [h.1, pow_zero, mul_one] at hk
  simpa [start] using hk

end Squaring

/-- A 64-bit integer is known by its value modulo `2 ^ 64`. -/
theorem int64_eq_of_modEq {a b : Int64} (h : a.toInt ≡ b.toInt [ZMOD 2 ^ 64]) : a = b := by
  apply Int64.toInt_inj.mp
  have ha := a.le_toInt
  have ha' := a.toInt_lt
  have hb := b.le_toInt
  have hb' := b.toInt_lt
  obtain ⟨c, hc⟩ := h.dvd
  omega

namespace Value

/-- **Powers of integers.** To an exponent that is not negative, the power of an integer is the
one 64-bit integer that differs from the exact power by a multiple of `2 ^ 64`. It is multiplied
up in at most 64 rounds of squaring, and a higher bound on the rounds changes nothing. -/
theorem binary_pow (base : Int64) {exponent : Int64} (h : 0 ≤ exponent) :
    ∃ r : Int64, binary .pow (.int base) (.int exponent) = .ok (.int r) ∧
      (∀ w : Int64, w.toInt ≡ base.toInt ^ exponent.toInt.toNat [ZMOD 2 ^ 64] ↔ w = r) ∧
      ∃ k ≤ 64, (Squaring.start base exponent.toInt.toNat).EndsAfter k ∧
        (Squaring.next^[k] (.start base exponent.toInt.toNat)).product = r ∧
        ∀ fuel, k ≤ fuel → powAux fuel 1 base exponent.toInt.toNat = r := by
  have hlt : exponent.toInt.toNat < 2 ^ 64 := by
    have := exponent.toInt_lt
    omega
  have hk := Squaring.endsAfter_size (.start base exponent.toInt.toNat)
  have hsize : exponent.toInt.toNat.size ≤ 64 := Nat.size_le.mpr hlt
  refine ⟨_, ?_, fun w => ⟨fun hw => int64_eq_of_modEq (hw.trans hk.modEq.symm), ?_⟩,
    _, hsize, hk, rfl, fun fuel hfuel => Squaring.powAux_eq hk hfuel⟩
  · have hpow : intPow base exponent.toInt.toNat = _ := Squaring.powAux_eq hk hsize
    rw [← hpow]
    simp only [binary, binaryInt, if_neg (Int64.not_lt.mpr h)]
  · rintro rfl
    exact hk.modEq

/-- A negative power that does not fit wraps around to a positive integer. -/
theorem binary_pow_wraps :
    (0 : Int64) ≤ 41 ∧ binary .pow (.int (-3)) (.int 41) = .ok (.int 420491770248316829) := by
  obtain ⟨r, hr, hunique, -⟩ := binary_pow (-3) (show (0 : Int64) ≤ 41 by decide)
  obtain rfl := (hunique 420491770248316829).mp (by decide)
  exact ⟨by decide, hr⟩

end Value

end Parlance
