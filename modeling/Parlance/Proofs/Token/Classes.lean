import Parlance.Text.CharClass

/-!
# Facts about character classes

What the proofs about tokens need to know of the classes of characters is collected here. Nearly all
of it is about ASCII. Of the tables beyond ASCII one fact is used: the few blanks there are no
letters. So a change of the tables leaves the rest of the theory as it is.

## Main results

* `isBlank_of_isDigit`, `isIdStart_of_isDigit`, `isIdContinue_of_isDigit`: the classes of digits.
* `isBlank_of_isIdStart`: blanks are no letters.
-/

namespace Parlance

variable {c : Char}

/-! ### Digits -/

/-- The codes of the digits are those from 48 to 57. -/
theorem toNat_of_isDigit (h : c.isDigit = true) : 48 ≤ c.toNat ∧ c.toNat ≤ 57 :=
  Char.isDigit_iff_toNat.mp h

/-- A digit is no blank. -/
theorem isBlank_of_isDigit (h : c.isDigit = true) : isBlank c = false := by
  have hrange := toNat_of_isDigit h
  simp [isBlank]
  omega

/-- Nor is it any other white space. -/
theorem isSpace_of_isDigit (h : c.isDigit = true) : isSpace c = false := by
  have hrange := toNat_of_isDigit h
  simp only [isSpace, Bool.or_eq_false_iff, Bool.and_eq_false_iff, decide_eq_false_iff_not,
    beq_eq_false_iff_ne]
  omega

/-- A digit begins no word. -/
theorem isIdStart_of_isDigit (h : c.isDigit = true) : isIdStart c = false := by
  have hrange := toNat_of_isDigit h
  have hletter : c.isAlpha = false := by
    delta Char.isAlpha Char.isUpper Char.isLower
    simp [UInt32.le_iff_toNat_le]
    omega
  have hline : c ≠ '_' := by
    rintro rfl
    exact absurd h (by decide)
  rw [isIdStart, if_pos (by omega), hletter]
  simpa using hline

/-- A word goes on with a digit. -/
theorem isIdContinue_of_isDigit (h : c.isDigit = true) : isIdContinue c = true := by
  have hrange := toNat_of_isDigit h
  rw [isIdContinue, if_pos (by omega), Char.isAlphanum, h, Bool.or_true, Bool.true_or]

/-! ### Blanks and symbols -/

/-- No identifier begins with a blank. This is the one fact about the tables. -/
theorem isBlank_of_isIdStart (h : isIdStart c = true) : isBlank c = false := by
  rw [← Bool.not_eq_true]
  intro hblank
  have hmem : c.toNat ∈ [9, 10, 11, 12, 13, 0x20, 0x85, 0x200e, 0x200f, 0x2028, 0x2029] := by
    simp only [isBlank, Bool.or_eq_true, Bool.and_eq_true, decide_eq_true_eq, beq_iff_eq] at hblank
    simp only [List.mem_cons, List.not_mem_nil, or_false]
    omega
  have hnone : ∀ n ∈ [9, 10, 11, 12, 13, 0x20, 0x85, 0x200e, 0x200f, 0x2028, 0x2029],
      isIdStart (Char.ofNat n) = false := by
    decide +kernel
  rw [← Char.ofNat_toNat c, hnone _ hmem] at h
  cases h

/-- A word ends at a space. -/
theorem isIdContinue_space : isIdContinue ' ' = false := by
  decide

/-- What begins with a digit or a letter goes on with no symbol. -/
theorem ne_of_isIdContinue (h : isIdContinue c = true) : c ≠ '>' ∧ c ≠ '=' :=
  ⟨by rintro rfl; exact absurd h (by decide), by rintro rfl; exact absurd h (by decide)⟩

/-- No word begins as a comment does. -/
theorem ne_slash_of_isIdStart (h : isIdStart c = true) : c ≠ '/' := by
  rintro rfl
  exact absurd h (by decide)

end Parlance
