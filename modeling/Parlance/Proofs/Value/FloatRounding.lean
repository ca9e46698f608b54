import Mathlib
import Parlance.Binary64.Text

/-!
# Rounding and the shortest decimals

A text is read as the number nearest to its value, and a number is written as the shortest decimal
around it. Both are computed with natural numbers; here they are put in terms of rationals.

The reals that are rounded to a number form an interval, half of the last place to each side. Below
a power of two the numbers are twice as dense, so there it reaches only half as far; this is the
one place where the grid on which a fraction is rounded is not the grid of the number. Decimals in
the interval are read as the number (`ofDecimal_of_contains`), and the shortest decimal is one of
them (`contains_shortest`): the grid of seventeen digits is finer than the interval.

## Main definitions

* `Binary64.value`: the value of a finite number.
* `RoundingInterval.Contains`: the reals of a rounding interval.

## Main results

* `ofRatio_of_contains`: fractions are rounded to the number in whose interval they lie.
* `ofDecimal_of_contains`: decimals are read as the number in whose interval they lie.
* `contains_shortest`: the shortest decimal lies in the interval of its number.
-/

namespace Parlance.Binary64

/-! ### Fields and values -/

section

variable (x : Binary64)

/-- The fraction has 52 bits. -/
theorem fractionField_lt : x.fractionField < 2 ^ 52 :=
  Nat.mod_lt _ (by decide)

/-- The mantissa has 53 bits, one of them implied. -/
theorem mantissa_lt : x.mantissa < 2 ^ 53 := by
  have hf := x.fractionField_lt
  have hw : exponentWeight = 2 ^ 52 := by decide
  rw [mantissa]
  split <;> omega

/-- The least scale is that of subnormal numbers. -/
theorem le_scale : -1074 ≤ x.scale := by
  rw [scale]
  omega

/-- Above the least scale there are no numbers with a small mantissa. -/
theorem le_mantissa (h : x.scale ≠ -1074) : 2 ^ 52 ≤ x.mantissa := by
  have hw : exponentWeight = 2 ^ 52 := by decide
  rw [scale] at h
  rw [mantissa, if_neg (by omega)]
  omega

/-- The pattern of a number without its sign counts the numbers below it. -/
theorem magnitude_eq : x.magnitude = x.mantissa + (x.scale + 1074).toNat * 2 ^ 52 := by
  have hw : exponentWeight = 2 ^ 52 := by decide
  have hparts := Nat.div_add_mod x.magnitude exponentWeight
  change exponentWeight * x.exponentField + x.fractionField = x.magnitude at hparts
  rw [← hparts, mantissa, scale, hw]
  split <;> omega

/-- Only zero has no mantissa. -/
theorem mantissa_pos (h : x.isZero = false) : 0 < x.mantissa := by
  have hne : x.magnitude ≠ 0 := by simpa [isZero] using h
  rw [magnitude_eq] at hne
  by_contra hzero
  have hscale : x.scale = -1074 := by
    by_contra hs
    have := x.le_mantissa hs
    omega
  rw [hscale] at hne
  omega

/-- The scale of a finite number has an upper bound. -/
theorem scale_le (h : x.isFinite = true) : x.scale ≤ 971 := by
  have hw : exponentWeight = 2 ^ 52 := by decide
  have hlt : x.magnitude < 0x7ff * exponentWeight := of_decide_eq_true h
  have he : x.exponentField < 0x7ff := by
    rw [exponentField]
    exact (Nat.div_lt_iff_lt_mul (by decide)).mpr hlt
  rw [scale]
  omega

/-- A number is built from its sign and its magnitude. -/
theorem ofMagnitude_magnitude : ofMagnitude x.isNegative x.magnitude = x := by
  have hs : signWeight = 2 ^ 63 := by decide
  have hlt := x.bits.toNat_lt
  have hbits : (if x.isNegative = true then signWeight + x.magnitude else x.magnitude) =
      x.bits.toNat := by
    rw [isNegative, magnitude, hs]
    split <;> simp_all
    omega
  rw [ofMagnitude, hbits, UInt64.ofNat_toNat]

/-- The value of a finite number without its sign. -/
def value : ℚ :=
  x.mantissa * 2 ^ x.scale

end

/-! ### Rounding -/

section

variable {num den n d q : Nat}

/-- The nearest integer to a fraction, a tie to the even one. The two bounds say that `q` is at most
a half away. -/
theorem nearest_eq (hlow : 2 * q * d ≤ 2 * n + d) (hhigh : 2 * n ≤ 2 * q * d + d) (hd : 0 < d)
    (htie : q % 2 = 1 → 2 * q * d ≠ 2 * n + d ∧ 2 * n ≠ 2 * q * d + d) :
    (if 2 * (n % d) < d then n / d else if d < 2 * (n % d) then n / d + 1
      else n / d + n / d % 2) = q := by
  have hn := Nat.div_add_mod n d
  have hr := Nat.mod_lt n hd
  generalize n / d = k at hn ⊢
  generalize n % d = r at hn hr ⊢
  subst hn
  have hle : k ≤ q := by
    by_contra hlt
    have := Nat.mul_le_mul_right d (Nat.succ_le_of_lt (Nat.lt_of_not_le hlt))
    rw [Nat.succ_mul] at this
    nlinarith
  have hge : q ≤ k + 1 := by
    by_contra hlt
    have := Nat.mul_le_mul_right d (Nat.succ_le_of_lt (Nat.lt_of_not_le hlt))
    rw [Nat.succ_mul, Nat.add_mul] at this
    nlinarith
  have hcases : q = k ∨ q = k + 1 := by omega
  rcases hcases with rfl | rfl
  · have : 2 * q * d = 2 * (d * q) := by ring
    split
    · rfl
    · split <;> omega
  · have : 2 * (k + 1) * d = 2 * (d * k) + 2 * d := by ring
    split
    · omega
    · split <;> omega

/-- **Rounding on a grid.** A fraction is rounded to the multiple of `2 ^ e` in whose half of the
grid it lies, which has its ends if it is even. -/
theorem roundAt_eq {e : Int} (hden : 0 < den)
    (hlow : (q - 1 / 2 : ℚ) * 2 ^ e ≤ num / den) (hhigh : (num / den : ℚ) ≤ (q + 1 / 2) * 2 ^ e)
    (htie : q % 2 = 1 → (q - 1 / 2 : ℚ) * 2 ^ e ≠ num / den ∧
      (num / den : ℚ) ≠ (q + 1 / 2) * 2 ^ e) :
    roundAt num den e = q := by
  have hden' : (den : ℚ) ≠ 0 := by exact_mod_cast hden.ne'
  have he : (0 : ℚ) < 2 ^ e := by positivity
  -- on the grid the fraction is `n / d`
  have hgrid : ∀ n d : ℕ, 0 < d → (num / den : ℚ) = n / d * 2 ^ e →
      (if 2 * (n % d) < d then n / d else if d < 2 * (n % d) then n / d + 1
        else n / d + n / d % 2) = q := by
    intro n d hd heq
    have hd' : (0 : ℚ) < d := by exact_mod_cast hd
    rw [heq] at hlow hhigh htie
    refine nearest_eq ?_ ?_ hd fun hodd => ?_
    · have h := (le_div_iff₀ hd').mp (le_of_mul_le_mul_right hlow he)
      have h' : (2 * q * d : ℚ) ≤ 2 * n + d := by linarith
      exact_mod_cast h'
    · have h := (div_le_iff₀ hd').mp (le_of_mul_le_mul_right hhigh he)
      have h' : (2 * n : ℚ) ≤ 2 * q * d + d := by linarith
      exact_mod_cast h'
    · obtain ⟨hlow', hhigh'⟩ := htie hodd
      refine ⟨fun h => hlow' ?_, fun h => hhigh' ?_⟩
      · have h' : (2 * q * d : ℚ) = 2 * n + d := by exact_mod_cast h
        rw [mul_left_inj' he.ne', eq_div_iff hd'.ne']
        linarith
      · have h' : (2 * n : ℚ) = 2 * q * d + d := by exact_mod_cast h
        rw [mul_left_inj' he.ne', div_eq_iff hd'.ne']
        linarith
  rw [roundAt]
  by_cases hsign : 0 ≤ e
  · obtain ⟨k, rfl⟩ := Int.eq_ofNat_of_zero_le hsign
    rw [if_pos hsign]
    refine hgrid _ _ (by simpa [Nat.shiftLeft_eq] using hden) ?_
    have hk : (2 : ℚ) ^ k ≠ 0 := by positivity
    rw [Nat.shiftLeft_eq, Int.toNat_natCast, zpow_natCast]
    push_cast
    field_simp
  · obtain ⟨k, rfl⟩ : ∃ k : ℕ, e = -k := ⟨e.natAbs, by omega⟩
    rw [if_neg hsign]
    refine hgrid _ _ hden ?_
    have hk : (2 : ℚ) ^ k ≠ 0 := by positivity
    rw [Nat.shiftLeft_eq, neg_neg, Int.toNat_natCast, zpow_neg, zpow_natCast]
    push_cast
    field_simp

/-- The grid of a fraction has room for 53 bits, and all of them are needed unless it is the finest
one. -/
theorem gridExponent_spec (hnum : 0 < num) (hden : 0 < den) :
    -1074 ≤ gridExponent num den ∧ (num / den : ℚ) < 2 ^ (gridExponent num den + 53) ∧
      (gridExponent num den = -1074 ∨ (2 : ℚ) ^ (gridExponent num den + 52) ≤ num / den) := by
  have hden' : (0 : ℚ) < den := by exact_mod_cast hden
  obtain ⟨a, ha⟩ : ∃ a, num.log2 = a := ⟨_, rfl⟩
  obtain ⟨b, hb⟩ : ∃ b, den.log2 = b := ⟨_, rfl⟩
  obtain ⟨guess, hguess⟩ : ∃ guess : ℤ, (a : ℤ) - b - 52 = guess := ⟨_, rfl⟩
  have hnumLow : (2 : ℚ) ^ a ≤ num := by exact_mod_cast ha ▸ Nat.log2_self_le hnum.ne'
  have hnumHigh : (num : ℚ) < 2 ^ (a + 1) := by exact_mod_cast ha ▸ Nat.lt_log2_self
  have hdenLow : (2 : ℚ) ^ b ≤ den := by exact_mod_cast hb ▸ Nat.log2_self_le hden.ne'
  have hdenHigh : (den : ℚ) < 2 ^ (b + 1) := by exact_mod_cast hb ▸ Nat.lt_log2_self
  have hlow : (2 : ℚ) ^ (guess + 51) ≤ num / den := by
    have heq : (2 : ℚ) ^ (guess + 51) = 2 ^ a / 2 ^ (b + 1) := by
      rw [← zpow_natCast, ← zpow_natCast, ← zpow_sub₀ two_ne_zero]
      congr 1
      push_cast
      omega
    rw [heq]
    exact div_le_div₀ (Nat.cast_nonneg _) hnumLow hden' hdenHigh.le
  have hhigh : (num / den : ℚ) < 2 ^ (guess + 53) := by
    have heq : (2 : ℚ) ^ (guess + 53) = 2 ^ (a + 1) / 2 ^ b := by
      rw [← zpow_natCast, ← zpow_natCast, ← zpow_sub₀ two_ne_zero]
      congr 1
      push_cast
      omega
    rw [heq]
    exact div_lt_div₀ hnumHigh hdenLow (by positivity) (by positivity)
  -- the guess is tested for being too large
  have hsmall : (if 0 ≤ guess then decide (num < den <<< (guess.toNat + 52))
      else decide (num <<< (-guess).toNat < den <<< 52)) =
        decide ((num / den : ℚ) < 2 ^ (guess + 52)) := by
    by_cases hsign : 0 ≤ guess
    · obtain ⟨k, rfl⟩ := Int.eq_ofNat_of_zero_le hsign
      have hpow : (2 : ℚ) ^ ((k : ℤ) + 52) = 2 ^ (k + 52) := by exact_mod_cast rfl
      rw [if_pos hsign, decide_eq_decide, Nat.shiftLeft_eq, Int.toNat_natCast, hpow,
        div_lt_iff₀' hden']
      exact_mod_cast Iff.rfl
    · obtain ⟨k, rfl⟩ : ∃ k : ℕ, guess = -k := ⟨guess.natAbs, by omega⟩
      have hk : (0 : ℚ) < 2 ^ k := by positivity
      have hpow : (2 : ℚ) ^ (-(k : ℤ) + 52) = 2 ^ 52 / 2 ^ k := by
        rw [zpow_add₀ two_ne_zero, zpow_neg, zpow_natCast, div_eq_inv_mul]
        norm_cast
      rw [if_neg hsign, decide_eq_decide, Nat.shiftLeft_eq, Nat.shiftLeft_eq, neg_neg,
        Int.toNat_natCast, hpow, div_lt_div_iff₀ hden' hk, mul_comm ((2 : ℚ) ^ 52)]
      exact_mod_cast Iff.rfl
  have hgrid : gridExponent num den =
      max (if (num / den : ℚ) < 2 ^ (guess + 52) then guess - 1 else guess) (-1074) := by
    rw [gridExponent, ha, hb, hguess]
    rw [hsmall]
    simp only [decide_eq_true_eq]
  have hmono : ∀ {k l : ℤ}, k ≤ l → (2 : ℚ) ^ k ≤ 2 ^ l := fun h =>
    zpow_le_zpow_right₀ one_le_two h
  rw [hgrid]
  split
  · next hlt =>
      refine ⟨le_max_right _ _, lt_of_lt_of_le hlt (hmono (by omega)), ?_⟩
      rcases le_total (guess - 1) (-1074) with hle | hle
      · exact .inl (max_eq_right hle)
      · rw [max_eq_left hle]
        exact .inr (by rwa [show guess - 1 + 52 = guess + 51 by ring])
  · next hge =>
      refine ⟨le_max_right _ _, lt_of_lt_of_le hhigh (hmono (by omega)), ?_⟩
      rcases le_total guess (-1074) with hle | hle
      · exact .inl (max_eq_right hle)
      · rw [max_eq_left hle]
        exact .inr (le_of_not_gt hge)

end

/-! ### The numbers around a number -/

/-- The reals of a rounding interval. -/
def RoundingInterval.Contains (i : RoundingInterval) (v : ℚ) : Prop :=
  i.low * 2 ^ i.exponent ≤ v ∧ v ≤ i.high * 2 ^ i.exponent ∧
    (i.closed = false → i.low * 2 ^ i.exponent ≠ v ∧ v ≠ i.high * 2 ^ i.exponent)

section

variable {x : Binary64} {v : ℚ} {num den : Nat}

/-- A quarter of the last place. -/
theorem unit_roundingInterval (x : Binary64) :
    (2 : ℚ) ^ x.roundingInterval.exponent = 2 ^ x.scale / 4 := by
  change (2 : ℚ) ^ (x.scale - 2) = _
  rw [zpow_sub₀ two_ne_zero]
  norm_num

/-- The lower end of a rounding interval is half a unit below the number, or a quarter of one if the
number is a power of two. -/
theorem low_roundingInterval (h : 0 < x.mantissa) :
    (x.roundingInterval.low : ℚ) = 4 * x.mantissa - 1 ∧ x.mantissa = 2 ^ 52 ∨
      (x.roundingInterval.low : ℚ) = 4 * x.mantissa - 2 ∧
        (x.mantissa = 2 ^ 52 → x.scale = -1074) := by
  have hw : exponentWeight = 2 ^ 52 := by decide
  change (((4 * x.mantissa - if x.fractionField = 0 ∧ 1 < x.exponentField then 1 else 2 : ℕ)) : ℚ) =
    _ ∧ _ ∨ (((4 * x.mantissa - if x.fractionField = 0 ∧ 1 < x.exponentField then 1 else 2 : ℕ)) : ℚ)
      = _ ∧ _
  split
  · next hpower =>
      refine .inl ⟨by rw [Nat.cast_sub (by omega)]; push_cast; ring, ?_⟩
      rw [mantissa, if_neg (by omega), hpower.1, hw, Nat.add_zero]
  · next hpower =>
      refine .inr ⟨by rw [Nat.cast_sub (by omega)]; push_cast; ring, fun hm => ?_⟩
      rw [scale]
      rw [mantissa, hw] at hm
      have := x.fractionField_lt
      split at hm <;> omega

/-- What lies in a rounding interval is half of the last place away at most, and only a quarter of
it below a power of two. -/
theorem RoundingInterval.Contains.bounds (h : x.roundingInterval.Contains v)
    (hm : 0 < x.mantissa) :
    (x.mantissa - 1 / 2 : ℚ) * 2 ^ x.scale ≤ v ∧ v ≤ (x.mantissa + 1 / 2) * 2 ^ x.scale ∧
      (x.mantissa % 2 = 1 → (x.mantissa - 1 / 2 : ℚ) * 2 ^ x.scale ≠ v ∧
        v ≠ (x.mantissa + 1 / 2) * 2 ^ x.scale) ∧
      (x.mantissa = 2 ^ 52 → x.scale ≠ -1074 → (x.mantissa - 1 / 4 : ℚ) * 2 ^ x.scale ≤ v) := by
  obtain ⟨hlow, hhigh, hends⟩ := h
  have hs : (0 : ℚ) < 2 ^ x.scale := by positivity
  have hhighEq : (x.roundingInterval.high : ℚ) = 4 * x.mantissa + 2 := by
    change ((4 * x.mantissa + 2 : ℕ) : ℚ) = _
    push_cast
    rfl
  have hclosed : x.mantissa % 2 = 1 → x.roundingInterval.closed = false := fun hodd => by
    change (x.mantissa % 2 == 0) = false
    rw [hodd]
    rfl
  rw [unit_roundingInterval] at hlow hhigh hends
  rw [hhighEq] at hhigh hends
  rcases low_roundingInterval hm with ⟨hlowEq, hpower⟩ | ⟨hlowEq, hpower⟩
  · rw [hlowEq] at hlow hends
    have hodd : x.mantissa % 2 ≠ 1 := by rw [hpower]; decide
    exact ⟨by nlinarith, by linarith, fun h => absurd h hodd, fun _ _ => by linarith⟩
  · rw [hlowEq] at hlow hends
    refine ⟨by linarith, by linarith, fun hodd => ?_, fun h hne => absurd (hpower h) hne⟩
    obtain ⟨hl, hh⟩ := hends (hclosed hodd)
    exact ⟨fun he => hl (by linarith), fun he => hh (by linarith)⟩

/-- **Rounding.** A fraction in the rounding interval of a number is rounded to the number. The grid
that the fraction is rounded on is that of the number, or, right below a power of two, the next
finer one; there it is rounded up to the power. -/
theorem ofRatio_of_contains (hfinite : x.isFinite = true) (hzero : x.isZero = false)
    (hden : 0 < den) (h : x.roundingInterval.Contains (num / den)) (negative : Bool) :
    ofRatio negative num den = ofMagnitude negative x.magnitude := by
  have hm := x.mantissa_pos hzero
  have hmlt := x.mantissa_lt
  have hscale := x.le_scale
  have hs : (0 : ℚ) < 2 ^ x.scale := by positivity
  have hm' : (1 : ℚ) ≤ x.mantissa := by exact_mod_cast hm
  have hmlt' : (x.mantissa + 1 : ℚ) ≤ 2 ^ 53 := by exact_mod_cast hmlt
  obtain ⟨hlow, hhigh, htie, hpower⟩ := h.bounds hm
  have hnum : 0 < num := by
    rcases Nat.eq_zero_or_pos num with rfl | hpos
    · simp only [Nat.cast_zero, zero_div] at hlow
      nlinarith
    · exact hpos
  have hsucc : ∀ k : ℤ, (2 : ℚ) ^ (k + 1) = 2 * 2 ^ k := fun k => by
    rw [zpow_add_one₀ two_ne_zero, mul_comm]
  have hplus : ∀ (k : ℤ) (j : ℕ), (2 : ℚ) ^ (k + j) = 2 ^ j * 2 ^ k := fun k j => by
    rw [zpow_add₀ two_ne_zero, zpow_natCast, mul_comm]
  have hmono : ∀ {k l : ℤ}, (2 : ℚ) ^ k < 2 ^ l ↔ k < l := zpow_lt_zpow_iff_right₀ one_lt_two
  obtain ⟨hleast, hroom, hneeded⟩ := gridExponent_spec hnum hden
  obtain ⟨e, he⟩ : ∃ e, gridExponent num den = e := ⟨_, rfl⟩
  rw [he] at hleast hroom hneeded
  have hle : e ≤ x.scale := by
    by_contra hlt
    have hbig := hneeded.resolve_left (by omega)
    have : (2 : ℚ) ^ (e + 52) < 2 ^ (x.scale + 53) := by
      rw [show (53 : ℤ) = (53 : ℕ) by rfl, hplus]
      nlinarith
    have := hmono.mp this
    omega
  have hmagnitude : roundAt num den e + (e + 1074).toNat * exponentWeight = x.magnitude := by
    have hw : exponentWeight = 2 ^ 52 := by decide
    rw [magnitude_eq, hw]
    rcases hle.eq_or_lt with rfl | hlt
    · rw [roundAt_eq hden hlow hhigh htie]
    · -- below a power of two the grid is finer, and the fraction is rounded up to the power
      have hne : x.scale ≠ -1074 := by omega
      have hbig := x.le_mantissa hne
      have hroom' : (num / den : ℚ) < 2 ^ 52 * 2 ^ x.scale := by
        have := (zpow_le_zpow_iff_right₀ (one_lt_two (α := ℚ))).mpr
          (show e + 53 ≤ x.scale + (52 : ℕ) by push_cast; omega)
        rw [hplus] at this
        exact lt_of_lt_of_le hroom this
      have hpow : x.mantissa = 2 ^ 52 := by
        have : (x.mantissa - 1 / 2 : ℚ) < 2 ^ 52 :=
          lt_of_mul_lt_mul_right (lt_of_le_of_lt hlow hroom') hs.le
        have : (x.mantissa : ℚ) < (2 ^ 52 + 1 : ℕ) := by push_cast; linarith
        have := Nat.cast_lt.mp this
        omega
      have hquarter := hpower hpow hne
      rw [hpow] at hquarter
      have hexact : e = x.scale - 1 := by
        have : (2 : ℚ) ^ (x.scale + (51 : ℕ)) < 2 ^ (e + 53) := by
          rw [hplus]
          push_cast at hquarter
          nlinarith
        have := hmono.mp this
        push_cast at this
        omega
      have hhalf : (2 : ℚ) ^ x.scale = 2 * 2 ^ e := by
        rw [← hsucc, hexact, sub_add_cancel]
      rw [hhalf] at hquarter hroom'
      have hround : roundAt num den e = 2 ^ 53 := by
        refine roundAt_eq hden ?_ ?_ fun hodd => absurd hodd (by decide)
        · push_cast at hquarter ⊢
          linarith
        · have : (0 : ℚ) < 2 ^ e := by positivity
          push_cast
          linarith
      rw [hround, hpow]
      omega
  have hinf : x.magnitude < infiniteMagnitude := of_decide_eq_true hfinite
  rw [ofRatio, if_neg (by simp; omega), he]
  dsimp only
  rw [hmagnitude, Nat.min_eq_left hinf.le]

end

/-! ### Decimals -/

/-- The value of a decimal. -/
def Decimal.value (d : Decimal) : ℚ :=
  d.digits * 10 ^ d.exponent

namespace RoundingInterval

variable {i : RoundingInterval} {p : Int} {c : Nat}

/-- A power of a base, as a numerator and a denominator. -/
theorem exists_power (b : ℕ) (hb : 0 < b) (e : Int) : ∃ k : ℚ, 0 < k ∧
    ((if 0 ≤ e then b ^ e.toNat else 1 : ℕ) : ℚ) = b ^ e * k ∧
      ((if e < 0 then b ^ (-e).toNat else 1 : ℕ) : ℚ) = k := by
  have hb' : (b : ℚ) ≠ 0 := by exact_mod_cast hb.ne'
  by_cases he : 0 ≤ e
  · obtain ⟨k, rfl⟩ := Int.eq_ofNat_of_zero_le he
    refine ⟨1, one_pos, ?_, ?_⟩
    · rw [if_pos he, Int.toNat_natCast, mul_one, zpow_natCast, Nat.cast_pow]
    · rw [if_neg (by omega), Nat.cast_one]
  · obtain ⟨k, rfl⟩ : ∃ k : ℕ, e = -k := ⟨e.natAbs, by omega⟩
    have hk : (b : ℚ) ^ k ≠ 0 := pow_ne_zero _ hb'
    refine ⟨b ^ k, by positivity, ?_, ?_⟩
    · rw [if_neg he, zpow_neg, zpow_natCast, inv_mul_cancel₀ hk, Nat.cast_one]
    · rw [if_pos (by omega), neg_neg, Int.toNat_natCast, Nat.cast_pow]

/-- The test of `nearest?` for a point of the grid. -/
def inside (i : RoundingInterval) (a b c : Nat) : Bool :=
  if i.closed then i.low * a ≤ c * b && c * b ≤ i.high * a
  else i.low * a < c * b && c * b < i.high * a

/-- The choice of `nearest?` between the neighbours of the middle. -/
def choose (i : RoundingInterval) (a b : Nat) : Option Nat :=
  let down := i.mid * a / b
  match i.inside a b down, i.inside a b (down + 1) with
  | false, false => none
  | true, false => some down
  | false, true => some (down + 1)
  | true, true =>
    some (if i.mid * a - down * b < (down + 1) * b - i.mid * a then down else down + 1)

/-- Ends of the interval and points of the grid are compared as natural numbers. -/
theorem exists_nearest?_eq (i : RoundingInterval) (p : Int) : ∃ (a b : Nat) (k : ℚ), 0 < k ∧
    (a : ℚ) = 2 ^ i.exponent * k ∧ (b : ℚ) = 10 ^ p * k ∧ i.nearest? p = i.choose a b := by
  obtain ⟨k, hk, hup, hdown⟩ := exists_power 2 two_pos i.exponent
  obtain ⟨l, hl, hup', hdown'⟩ := exists_power 10 (by decide) p
  refine ⟨_, _, k * l, mul_pos hk hl, ?_, ?_, rfl⟩
  · simp only [Nat.shiftLeft_eq, one_mul, Nat.pow_eq]
    rw [Nat.cast_mul, hup, hdown']
    push_cast
    ring
  · simp only [Nat.shiftLeft_eq, one_mul, Nat.pow_eq]
    rw [Nat.cast_mul, hup', hdown]
    push_cast
    ring

section

variable {a b : Nat} {k : ℚ} (hk : 0 < k) (ha : (a : ℚ) = 2 ^ i.exponent * k)
  (hb : (b : ℚ) = 10 ^ p * k)

include hk ha hb

/-- Points of the grid are compared with the ends of an interval by integers. -/
theorem mul_le_iff (u c : Nat) :
    (u * a ≤ c * b ↔ (u * 2 ^ i.exponent : ℚ) ≤ c * 10 ^ p) ∧
      (c * b ≤ u * a ↔ (c * 10 ^ p : ℚ) ≤ u * 2 ^ i.exponent) := by
  rw [← Nat.cast_le (α := ℚ), ← Nat.cast_le (α := ℚ)]
  push_cast
  rw [ha, hb, ← mul_assoc, ← mul_assoc, mul_le_mul_iff_left₀ hk, mul_le_mul_iff_left₀ hk]
  exact ⟨Iff.rfl, Iff.rfl⟩

/-- The test of the search is exact: it says whether a point of the grid is in the interval. -/
theorem inside_iff (c : Nat) : i.inside a b c = true ↔ i.Contains (c * 10 ^ p) := by
  have hlow := mul_le_iff hk ha hb i.low c
  have hhigh := mul_le_iff hk ha hb i.high c
  rw [inside, Contains]
  cases hclosed : i.closed with
  | true => simp [hlow.1, hhigh.2]
  | false =>
      simp only [Bool.false_eq_true, if_false, Bool.and_eq_true, decide_eq_true_eq, forall_const,
        ← Nat.not_le, hlow.2, hhigh.1, not_le]
      constructor
      · exact fun h => ⟨h.1.le, h.2.le, h.1.ne, h.2.ne⟩
      · exact fun h => ⟨lt_of_le_of_ne h.1 h.2.2.1, lt_of_le_of_ne h.2.1 h.2.2.2⟩

end

/-- **Points of the grid.** A decimal that is found lies in the interval. -/
theorem contains_of_nearest? (h : i.nearest? p = some c) : i.Contains (c * 10 ^ p) := by
  obtain ⟨a, b, k, hk, ha, hb, hchoose⟩ := i.exists_nearest?_eq p
  rw [hchoose, choose] at h
  rw [← inside_iff hk ha hb]
  split at h <;> cases h
  · assumption
  · assumption
  · split <;> assumption

/-- On a grid that is finer than the interval a decimal is found. Otherwise both neighbours of the
middle would lie outside, and they are closer together than the ends. -/
theorem exists_nearest? (hlow : i.low < i.mid) (hhigh : i.mid < i.high)
    (h : (10 : ℚ) ^ p < (i.high - i.low) * 2 ^ i.exponent) : ∃ c, i.nearest? p = some c := by
  obtain ⟨a, b, k, hk, ha, hb, hchoose⟩ := i.exists_nearest?_eq p
  have hunit : (0 : ℚ) < 2 ^ i.exponent := by positivity
  have hlow' : (i.low : ℚ) < i.mid := by exact_mod_cast hlow
  have hhigh' : (i.mid : ℚ) < i.high := by exact_mod_cast hhigh
  have hbpos : 0 < b := by
    have : (0 : ℚ) < b := by rw [hb]; positivity
    exact_mod_cast this
  rw [hchoose, choose]
  obtain ⟨down, hdown⟩ : ∃ down, i.mid * a / b = down := ⟨_, rfl⟩
  have hbelow := (mul_le_iff hk ha hb i.mid down).2.mp (hdown ▸ Nat.div_mul_le_self _ _)
  have habove : (i.mid * 2 ^ i.exponent : ℚ) ≤ (down + 1 : ℕ) * 10 ^ p :=
    (mul_le_iff hk ha hb i.mid (down + 1)).1.mp
      (hdown ▸ (Nat.lt_mul_of_div_lt (Nat.lt_succ_self _) hbpos).le)
  rw [hdown]
  split
  · next houtside houtside' =>
      -- both neighbours lie outside, so they are as far apart as the ends
      rw [Bool.eq_false_iff, ne_eq, inside_iff hk ha hb] at houtside houtside'
      have hdownLow : (down * 10 ^ p : ℚ) ≤ i.low * 2 ^ i.exponent := by
        by_contra hlt
        rw [not_le] at hlt
        have : (down * 10 ^ p : ℚ) < i.high * 2 ^ i.exponent := by nlinarith
        exact houtside ⟨hlt.le, this.le, fun _ => ⟨hlt.ne, this.ne⟩⟩
      have hupHigh : (i.high * 2 ^ i.exponent : ℚ) ≤ (down + 1 : ℕ) * 10 ^ p := by
        by_contra hlt
        rw [not_le] at hlt
        have : (i.low * 2 ^ i.exponent : ℚ) < (down + 1 : ℕ) * 10 ^ p := by nlinarith
        exact houtside' ⟨this.le, hlt.le, fun _ => ⟨this.ne, hlt.ne⟩⟩
      push_cast at hupHigh
      nlinarith
  · exact ⟨_, rfl⟩
  · exact ⟨_, rfl⟩
  · exact ⟨_, rfl⟩

/-- The search ends at the first grid with a decimal. Coarser grids are looked at first, and the
induction is on how many are left. -/
theorem search_eq (i : RoundingInterval) (point : Int) : ∀ fuel count k : Nat, count ≤ k →
    k ≤ count + fuel → (∃ c, i.nearest? (point - k) = some c) →
      i.nearest? (i.search point fuel count).exponent = some (i.search point fuel count).digits := by
  intro fuel
  induction fuel with
  | zero =>
      intro count k hle hge ⟨c, hc⟩
      obtain rfl : k = count := by omega
      simp only [search, hc, Option.getD_some]
  | succ fuel ih =>
      intro count k hle hge hk
      rw [search]
      split
      · next c hc => exact hc
      · next hnone =>
          rcases hle.eq_or_lt with rfl | hlt
          · obtain ⟨c, hc⟩ := hk
            rw [hc] at hnone
            cases hnone
          · exact ih (count + 1) k hlt (by omega) hk

end RoundingInterval

/-- Trailing zeros do not change the value. -/
theorem Decimal.value_strip (fuel : Nat) (d : Decimal) : (d.strip fuel).value = d.value := by
  induction fuel generalizing d with
  | zero => rfl
  | succ fuel ih =>
      rw [strip]
      split
      · next h =>
          rw [ih, value, value]
          dsimp only
          have hdiv : ((d.digits / 10 : ℕ) : ℚ) * 10 = d.digits := by
            exact_mod_cast Nat.div_mul_cancel (Nat.dvd_of_mod_eq_zero h.2)
          rw [zpow_add_one₀ (by norm_num), ← hdiv]
          ring
      · rfl

/-- A number with so many digits. -/
theorem pow_le_of_digitCount {n : Nat} (h : 0 < n) : 10 ^ (digitCount n - 1) ≤ n := by
  rcases Nat.eq_zero_or_pos (digitCount n - 1) with hzero | hpos
  · rw [hzero]
    exact h
  · by_contra hlt
    have := (Nat.length_toDigits_le_iff (by decide) hpos).mpr (Nat.lt_of_not_le hlt)
    change digitCount n ≤ _ at this
    omega

/-- A number is less than the power of ten with as many zeros as it has digits. -/
theorem lt_pow_digitCount (n : Nat) : n < 10 ^ digitCount n :=
  (Nat.length_toDigits_le_iff (by decide) Nat.length_toDigits_pos).mp (Nat.le_refl _)

section

variable {x : Binary64}

/-- The decimal point stands right behind the first digit or further right, so the power of ten in
front of it is a lower bound. -/
theorem pow_le_value (h : x.isZero = false) : (10 : ℚ) ^ (x.decimalPoint - 1) ≤ x.value := by
  have hm := x.mantissa_pos h
  have hscale := x.le_scale
  obtain ⟨n, hn, hpos, hle⟩ : ∃ n : ℕ, x.decimalPoint = digitCount n - 400 ∧ 0 < n ∧
      (n : ℚ) ≤ x.value * 10 ^ 400 := by
    refine ⟨_, rfl, ?_⟩
    obtain ⟨places, hplaces⟩ : ∃ places, places = 400 := ⟨_, rfl⟩
    rw [value, ← hplaces, Nat.pow_eq]
    by_cases hsign : 0 ≤ x.scale
    · obtain ⟨k, hk⟩ := Int.eq_ofNat_of_zero_le hsign
      rw [if_pos hsign, hk, Int.toNat_natCast, Nat.shiftLeft_eq, zpow_natCast]
      refine ⟨by positivity, le_of_eq ?_⟩
      push_cast
      ring
    · obtain ⟨k, hk⟩ : ∃ k : ℕ, x.scale = -k := ⟨x.scale.natAbs, by omega⟩
      have hpow : 2 ^ k ≤ x.mantissa * 10 ^ places :=
        calc 2 ^ k ≤ 2 ^ (3 * places) := Nat.pow_le_pow_right two_pos (by omega)
          _ = (2 ^ 3) ^ places := pow_mul 2 3 places
          _ ≤ 10 ^ places := Nat.pow_le_pow_left (by decide) places
          _ ≤ x.mantissa * 10 ^ places := Nat.le_mul_of_pos_left _ hm
      rw [if_neg hsign, hk, neg_neg, Int.toNat_natCast, Nat.shiftRight_eq_div_pow, zpow_neg,
        zpow_natCast]
      refine ⟨Nat.div_pos hpow (by positivity), Nat.cast_div_le.trans (le_of_eq ?_)⟩
      push_cast
      ring
  have hdigits : (10 : ℚ) ^ (digitCount n - 1) ≤ n := by exact_mod_cast pow_le_of_digitCount hpos
  have hcount : 0 < digitCount n := Nat.length_toDigits_pos
  have hsplit : (10 : ℚ) ^ (digitCount n - 1) = 10 ^ (x.decimalPoint - 1) * 10 ^ 400 := by
    rw [hn, ← zpow_natCast, ← zpow_natCast, ← zpow_add₀ (by norm_num)]
    congr 1
    omega
  rw [hsplit] at hdigits
  exact le_of_mul_le_mul_right (hdigits.trans hle) (by positivity)

/-- **Seventeen digits suffice.** The shortest decimal of a number lies in its rounding interval.
With seventeen digits the grid is finer than the interval, so the search ends with a decimal in it.
-/
theorem contains_shortest (hzero : x.isZero = false) :
    x.roundingInterval.Contains x.shortest.value := by
  have hm := x.mantissa_pos hzero
  have hs : (0 : ℚ) < 2 ^ x.scale := by positivity
  have hm' : (x.mantissa : ℚ) < 2 ^ 53 := by exact_mod_cast x.mantissa_lt
  have hlow : x.roundingInterval.low < x.roundingInterval.mid := by
    change 4 * x.mantissa - (if _ then 1 else 2) < 4 * x.mantissa
    split <;> omega
  have hhigh : x.roundingInterval.mid < x.roundingInterval.high := by
    change 4 * x.mantissa < 4 * x.mantissa + 2
    omega
  have hhighEq : (x.roundingInterval.high : ℚ) = 4 * x.mantissa + 2 := by
    change ((4 * x.mantissa + 2 : ℕ) : ℚ) = _
    push_cast
    rfl
  have hgrid : (10 : ℚ) ^ (x.decimalPoint - (17 : ℕ)) * 10 ^ 16 ≤ x.mantissa * 2 ^ x.scale := by
    refine le_trans (le_of_eq ?_) (pow_le_value hzero)
    rw [← zpow_natCast, ← zpow_add₀ (by norm_num)]
    congr 1
    push_cast
    ring
  have hfine : (10 : ℚ) ^ (x.decimalPoint - (17 : ℕ)) <
      (x.roundingInterval.high - x.roundingInterval.low) * 2 ^ x.roundingInterval.exponent := by
    have hlt := mul_lt_mul_of_pos_right hm' hs
    rw [unit_roundingInterval, hhighEq]
    generalize (10 : ℚ) ^ (x.decimalPoint - (17 : ℕ)) = grid at hgrid ⊢
    rcases low_roundingInterval hm with ⟨hlowEq, hpower⟩ | ⟨hlowEq, -⟩
    · rw [hlowEq]
      rw [hpower] at hgrid
      push_cast at hgrid
      linarith
    · rw [hlowEq]
      linarith
  have hfound := x.roundingInterval.search_eq x.decimalPoint 17 1 17 (by omega) (by omega)
    (RoundingInterval.exists_nearest? hlow hhigh hfine)
  rw [shortest, Decimal.value_strip]
  exact RoundingInterval.contains_of_nearest? hfound

/-- A number lies in its rounding interval. -/
theorem contains_value (hzero : x.isZero = false) : x.roundingInterval.Contains x.value := by
  have hm := x.mantissa_pos hzero
  have hs : (0 : ℚ) < 2 ^ x.scale := by positivity
  have hhighEq : (x.roundingInterval.high : ℚ) = 4 * x.mantissa + 2 := by
    change ((4 * x.mantissa + 2 : ℕ) : ℚ) = _
    push_cast
    rfl
  have hlow : (x.roundingInterval.low : ℚ) ≤ 4 * x.mantissa - 1 := by
    rcases low_roundingInterval hm with ⟨h, -⟩ | ⟨h, -⟩ <;> linarith
  have hlt : (x.roundingInterval.low * (2 ^ x.scale / 4) : ℚ) < x.mantissa * 2 ^ x.scale := by
    nlinarith
  have hlt' : (x.mantissa * 2 ^ x.scale : ℚ) < (4 * x.mantissa + 2) * (2 ^ x.scale / 4) := by
    nlinarith
  rw [RoundingInterval.Contains, unit_roundingInterval, hhighEq, value]
  exact ⟨hlt.le, hlt'.le, fun _ => ⟨hlt.ne, hlt'.ne⟩⟩

/-- **Decimals.** A decimal in the rounding interval of a number is read as the number. It is
neither so large nor so small that the reader gives up early, and otherwise it is a fraction. -/
theorem ofDecimal_of_contains (hfinite : x.isFinite = true) (hzero : x.isZero = false)
    {digits : Nat} {exponent : Int} (h : x.roundingInterval.Contains (digits * 10 ^ exponent))
    (negative : Bool) : ofDecimal negative digits exponent = ofMagnitude negative x.magnitude := by
  have hm := x.mantissa_pos hzero
  have hm' : (1 : ℚ) ≤ x.mantissa := by exact_mod_cast hm
  have hmlt : (x.mantissa + 1 : ℚ) ≤ 2 ^ 53 := by exact_mod_cast x.mantissa_lt
  have hs : (0 : ℚ) < 2 ^ x.scale := by positivity
  have ht : (0 : ℚ) < 10 ^ exponent := by positivity
  obtain ⟨hlow, hhigh, -⟩ := h.bounds hm
  have hdigits : 0 < digits := by
    rcases Nat.eq_zero_or_pos digits with rfl | hpos
    · rw [Nat.cast_zero, zero_mul] at hlow
      nlinarith
    · exact hpos
  -- the value is neither too large nor too small for the reader
  have hpoint : ∀ k : ℤ, ((digitCount digits : ℤ) + exponent ≤ k →
      (x.mantissa - 1 / 2 : ℚ) * 2 ^ x.scale < 10 ^ k) ∧
        (k < digitCount digits + exponent →
          (10 : ℚ) ^ k ≤ (x.mantissa + 1 / 2) * 2 ^ x.scale) := by
    have hlt : (digits : ℚ) < 10 ^ digitCount digits := by exact_mod_cast lt_pow_digitCount digits
    have hle : (10 : ℚ) ^ (digitCount digits - 1) ≤ digits := by
      exact_mod_cast pow_le_of_digitCount hdigits
    have hcount : 0 < digitCount digits := Nat.length_toDigits_pos
    refine fun k => ⟨fun hk => ?_, fun hk => ?_⟩
    · calc (x.mantissa - 1 / 2 : ℚ) * 2 ^ x.scale ≤ digits * 10 ^ exponent := hlow
        _ < 10 ^ digitCount digits * 10 ^ exponent := mul_lt_mul_of_pos_right hlt ht
        _ = 10 ^ (digitCount digits + exponent) := by
            rw [zpow_add₀ (by norm_num), zpow_natCast]
        _ ≤ 10 ^ k := zpow_le_zpow_right₀ (by norm_num) hk
    · calc (10 : ℚ) ^ k ≤ 10 ^ (((digitCount digits - 1 : ℕ) : ℤ) + exponent) :=
            zpow_le_zpow_right₀ (by norm_num) (by omega)
        _ = 10 ^ (digitCount digits - 1) * 10 ^ exponent := by
            rw [zpow_add₀ (by norm_num), zpow_natCast]
        _ ≤ digits * 10 ^ exponent := mul_le_mul_of_nonneg_right hle ht.le
        _ ≤ (x.mantissa + 1 / 2) * 2 ^ x.scale := hhigh
  have hlarge : (digitCount digits : ℤ) + exponent ≤ 400 := by
    by_contra hlt
    refine absurd ((hpoint 400).2 (by omega)) (not_le_of_gt ?_)
    calc (x.mantissa + 1 / 2 : ℚ) * 2 ^ x.scale ≤ 2 ^ 53 * 2 ^ (971 : ℤ) :=
          mul_le_mul (by linarith) (zpow_le_zpow_right₀ one_le_two (x.scale_le hfinite)) hs.le
            (by positivity)
      _ = 2 ^ ((53 : ℕ) + (971 : ℤ)) := by rw [zpow_add₀ two_ne_zero, zpow_natCast]
      _ < 2 ^ ((3 : ℤ) * 400) := zpow_lt_zpow_right₀ one_lt_two (by decide)
      _ = (2 ^ (3 : ℤ)) ^ (400 : ℤ) := zpow_mul 2 3 400
      _ ≤ 10 ^ (400 : ℤ) := zpow_le_zpow_left₀ (by decide) (by norm_num) (by norm_num)
  have hsmall : -400 ≤ (digitCount digits : ℤ) + exponent := by
    by_contra hlt
    refine absurd ((hpoint (-401)).1 (by omega)) (not_lt_of_ge ?_)
    calc (10 : ℚ) ^ (-401 : ℤ) = (10 ^ (401 : ℤ))⁻¹ := zpow_neg 10 401
      _ ≤ ((2 ^ (3 : ℤ)) ^ (401 : ℤ))⁻¹ :=
          inv_anti₀ (by positivity) (zpow_le_zpow_left₀ (by decide) (by norm_num) (by norm_num))
      _ = (2 ^ ((3 : ℤ) * 401))⁻¹ := by rw [zpow_mul]
      _ = 2 ^ (-((3 : ℤ) * 401)) := (zpow_neg 2 _).symm
      _ ≤ 2 ^ (-1 + -1074 : ℤ) := zpow_le_zpow_right₀ one_le_two (by decide)
      _ = 1 / 2 * 2 ^ (-1074 : ℤ) := by rw [zpow_add₀ two_ne_zero, zpow_neg_one, one_div]
      _ ≤ (x.mantissa - 1 / 2) * 2 ^ x.scale :=
          mul_le_mul (by linarith) (zpow_le_zpow_right₀ one_le_two x.le_scale) (by positivity)
            (by linarith)
  rw [ofDecimal, if_neg hdigits.ne']
  dsimp only
  rw [if_neg (by omega), if_neg (by omega)]
  by_cases hsign : 0 ≤ exponent
  · obtain ⟨k, rfl⟩ := Int.eq_ofNat_of_zero_le hsign
    rw [if_pos hsign]
    refine ofRatio_of_contains hfinite hzero one_pos ?_ negative
    rw [Int.toNat_natCast, Nat.pow_eq]
    push_cast
    rwa [div_one, ← zpow_natCast]
  · obtain ⟨k, rfl⟩ : ∃ k : ℕ, exponent = -k := ⟨exponent.natAbs, by omega⟩
    rw [if_neg hsign]
    refine ofRatio_of_contains hfinite hzero (Nat.pow_pos (by decide)) ?_ negative
    rw [neg_neg, Int.toNat_natCast]
    push_cast
    rwa [div_eq_mul_inv, ← zpow_natCast, ← zpow_neg]

end

end Parlance.Binary64
