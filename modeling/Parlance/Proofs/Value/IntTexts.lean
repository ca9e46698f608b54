import Mathlib.Data.List.DropRight
import Parlance.Proofs.Json.RoundTrip
import Parlance.Proofs.Token.Literals
import Parlance.Value.Ops

/-!
# Integers and their texts

An integer is cast to its decimal text, and a text to the integer that it spells. More is read than
is written: white space at both ends is left out, and a plus sign and zeros may stand in front. So
the texts that are read are described on their own, as a `SignedNumeral` with white space around
it, and what is written is one of them.

The 64-bit integers reach further below zero than above it. The digits are read as a natural number
of any size, and only the number with its sign has to be in range: the least integer is read back
although its digits alone are out of range.

## Main definitions

* `Padded`: a text with white space around it.
* `SignedNumeral`: digits with an optional sign.

## Main results

* `padded_trim`, `Padded.trim_eq`: trimming takes the white space away that padding adds.
* `readInt?_eq_some_iff`: a signed numeral is read as its value, and nothing else is read.
* `exists_numeral_toString`: an integer is written as a numeral of its value.
* `Value.int_text_exact`: integers are cast to texts and back, and every numeral exactly.
-/

namespace Parlance

/-! ### Trimming -/

/-- A text with any amount of white space on its two sides. -/
def Padded (cs padded : List Char) : Prop :=
  ∃ before after : List Char, (∀ c ∈ before, isSpace c = true) ∧ (∀ c ∈ after, isSpace c = true) ∧
    padded = before ++ (cs ++ after)

/-- A text is padded with nothing. -/
theorem padded_self (cs : List Char) : Padded cs cs :=
  ⟨[], [], by simp⟩

/-- What is trimmed away is white space. -/
theorem padded_trim (cs : List Char) : Padded (trim cs) cs := by
  refine ⟨cs.takeWhile isSpace, (cs.dropWhile isSpace).rtakeWhile isSpace,
    fun c hc => List.mem_takeWhile_imp hc, fun c hc => List.mem_rtakeWhile_imp hc, ?_⟩
  have hright : trim cs ++ (cs.dropWhile isSpace).rtakeWhile isSpace = cs.dropWhile isSpace :=
    List.rdropWhile_append_rtakeWhile
  rw [hright, List.takeWhile_append_dropWhile]

/-- White space around a text without any is trimmed away. -/
theorem Padded.trim_eq {cs padded : List Char} (h : Padded cs padded) (hne : cs ≠ [])
    (hcs : ∀ c ∈ cs, isSpace c = false) : trim padded = cs := by
  obtain ⟨before, after, hbefore, hafter, rfl⟩ := h
  have hleft : (before ++ (cs ++ after)).dropWhile isSpace = cs ++ after := by
    refine dropWhile_append_of_head hbefore fun c hc => hcs c ?_
    rw [List.head?_append_of_ne_nil _ hne] at hc
    exact List.mem_of_mem_head? hc
  have hright : (after.reverse ++ cs.reverse).dropWhile isSpace = cs.reverse :=
    dropWhile_append_of_head (fun c hc => hafter c (List.mem_reverse.mp hc))
      fun c hc => hcs c (List.mem_reverse.mp (List.mem_of_mem_head? hc))
  rw [trim, hleft, List.reverse_append, hright, List.reverse_reverse]

/-! ### Digits -/

/-- The digits of a decimal numeral. -/
abbrev DecimalDigit : Type :=
  Digit IntBase.decimal.radix

namespace DecimalDigit

/-- Decimal digits stand in order from `'0'` on. -/
theorem toNat_char : ∀ d : DecimalDigit, d.char.toNat - '0'.toNat = d.value.val := by
  have h : ∀ (value : Fin IntBase.decimal.radix) (upper : Bool),
      (Digit.char ⟨value, upper⟩).toNat - '0'.toNat = value.val := by
    decide
  exact fun d => h d.value d.upper

/-- A digit character is the character of a digit. -/
theorem exists_char {c : Char} (h : c.isDigit = true) : ∃ d : DecimalDigit, d.char = c := by
  have hrange := toNat_of_isDigit h
  have hchar : ∀ k : Fin 10, Digit.char ⟨k, false⟩ = Char.ofNat (48 + k.val) := by
    decide
  refine ⟨⟨(⟨c.toNat - 48, by omega⟩ : Fin 10), false⟩, (hchar _).trans ?_⟩
  rw [Nat.add_sub_cancel' hrange.1, Char.ofNat_toNat]

/-- The digits that a text of digits spells. -/
theorem exists_chars {cs : List Char} (h : ∀ c ∈ cs, c.isDigit = true) :
    ∃ digits : List DecimalDigit, digits.map Digit.char = cs := by
  induction cs with
  | nil => exact ⟨[], rfl⟩
  | cons c cs ih =>
      obtain ⟨d, rfl⟩ := exists_char (h c (by simp))
      obtain ⟨digits, rfl⟩ := ih fun c hc => h c (by simp [hc])
      exact ⟨d :: digits, rfl⟩

/-- From left to right, every digit multiplies what stands before it by ten. At the end, that is
the positional value. -/
theorem ofDigitChars_chars (digits : List DecimalDigit) :
    Nat.ofDigitChars 10 (digits.map Digit.char) 0 = positional digits := by
  induction digits with
  | nil => rfl
  | cons d digits ih =>
      have hhead := toNat_char d
      rw [List.map_cons, Nat.ofDigitChars_cons, Nat.ofDigitChars_eq_ofDigitChars_zero, ih,
        Digit.positional_cons, List.length_map, hhead, Nat.mul_zero, Nat.zero_add]
      exact Nat.add_comm _ _

end DecimalDigit

/-! ### Reading -/

/-- The reader of digits takes texts of digits, and nothing else, and the value is the one that they
have in base ten. -/
theorem digitsValue_eq_some_iff {cs : List Char} {n : Nat} :
    Binary64.digitsValue cs = some n ↔
      (∀ c ∈ cs, c.isDigit = true) ∧ Nat.ofDigitChars 10 cs 0 = n := by
  -- the fold goes on with what it has read, so it is taken from any number
  have hfold : ∀ (cs : List Char) (m : Nat),
      cs.foldlM (fun n c => if c.isDigit then some (10 * n + (c.toNat - '0'.toNat)) else none) m =
          some n ↔
        (∀ c ∈ cs, c.isDigit = true) ∧ Nat.ofDigitChars 10 cs m = n := by
    intro cs
    induction cs with
    | nil => simp
    | cons c cs ih =>
        intro m
        rw [List.foldlM_cons, Nat.ofDigitChars_cons, List.forall_mem_cons, and_assoc]
        by_cases hc : c.isDigit = true
        · rw [if_pos hc, ← ih, Option.bind_eq_bind, Option.bind_some]
          exact (and_iff_right hc).symm
        · rw [if_neg hc, Option.bind_eq_bind, Option.bind_none]
          simp [hc]
  exact hfold cs 0

/-- The texts that are read as natural numbers are the digits, at least one, and the number is their
positional value. -/
theorem readNat?_eq_some_iff {cs : List Char} {n : Nat} :
    readNat? cs = some n ↔
      ∃ digits : List DecimalDigit, digits ≠ [] ∧ digits.map Digit.char = cs ∧
        positional digits = n := by
  constructor
  · intro h
    have hne : cs ≠ [] := by
      rintro rfl
      cases h
    rw [readNat?] at h
    · obtain ⟨hdigit, hvalue⟩ := digitsValue_eq_some_iff.mp h
      obtain ⟨digits, rfl⟩ := DecimalDigit.exists_chars hdigit
      refine ⟨digits, by simpa using hne, rfl, ?_⟩
      rw [← DecimalDigit.ofDigitChars_chars, hvalue]
    · exact hne
  · rintro ⟨digits, hne, rfl, rfl⟩
    rw [readNat?]
    · refine digitsValue_eq_some_iff.mpr ⟨fun c hc => ?_, DecimalDigit.ofDigitChars_chars digits⟩
      obtain ⟨d, -, rfl⟩ := List.mem_map.mp hc
      exact Digit.isDigit_char .decimal d
    · simpa using hne

/-- What stands in front of the digits of a signed numeral. -/
inductive Sign where
  | unsigned
  | plus
  | minus
  deriving DecidableEq, Repr

namespace Sign

def mark : Sign → List Char
  | .unsigned => []
  | .plus => ['+']
  | .minus => ['-']

/-- The number with a sign and a magnitude. -/
def apply : Sign → Nat → Int
  | .unsigned, n => n
  | .plus, n => n
  | .minus, n => -n

end Sign

/-- A decimal numeral with an optional sign. -/
structure SignedNumeral where
  sign : Sign
  digits : List DecimalDigit
  nonempty : digits ≠ []

namespace SignedNumeral

def text (l : SignedNumeral) : List Char :=
  l.sign.mark ++ l.digits.map Digit.char

def value (l : SignedNumeral) : Int :=
  l.sign.apply (positional l.digits)

/-- Digits do not begin with another character. -/
theorem chars_ne_cons {digits : List DecimalDigit} {c : Char} (hc : digitValue? 10 c = none)
    (rest : List Char) : digits.map Digit.char ≠ c :: rest := by
  intro h
  obtain ⟨d, -, -, hd, -⟩ := List.map_eq_cons_iff.mp h
  exact d.char_ne hc hd

/-- Digits behind a sign are read without it. -/
theorem readInt?_mark (sign : Sign) (digits : List DecimalDigit) :
    readInt? (sign.mark ++ digits.map Digit.char) =
      (readNat? (digits.map Digit.char)).map sign.apply := by
  cases sign with
  | unsigned =>
      rw [Sign.mark, List.nil_append, readInt?]
      · rfl
      · exact chars_ne_cons (by decide)
      · exact chars_ne_cons (by decide)
  | plus => rfl
  | minus => rfl

/-- **Numerals are read.** -/
theorem readInt?_text (l : SignedNumeral) : readInt? l.text = some l.value := by
  have hdigits : readNat? (l.digits.map Digit.char) = some (positional l.digits) :=
    readNat?_eq_some_iff.mpr ⟨l.digits, l.nonempty, rfl, rfl⟩
  rw [text, readInt?_mark, hdigits]
  rfl

/-- What is read behind a sign completes a numeral. -/
theorem exists_behind (sign : Sign) {cs : List Char} {n : Int}
    (h : (readNat? cs).map sign.apply = some n) :
    ∃ l : SignedNumeral, l.text = sign.mark ++ cs ∧ l.value = n := by
  obtain ⟨m, hm, rfl⟩ := Option.map_eq_some_iff.mp h
  obtain ⟨digits, hne, rfl, rfl⟩ := readNat?_eq_some_iff.mp hm
  exact ⟨⟨sign, digits, hne⟩, rfl, rfl⟩

/-- **Only numerals are read.** -/
theorem exists_of_readInt? {cs : List Char} {n : Int} (h : readInt? cs = some n) :
    ∃ l : SignedNumeral, l.text = cs ∧ l.value = n := by
  unfold readInt? at h
  split at h
  · exact exists_behind .minus h
  · exact exists_behind .plus h
  · exact exists_behind .unsigned h

/-- A numeral is not empty. -/
theorem text_ne_nil (l : SignedNumeral) : l.text ≠ [] := by
  simp [text, l.nonempty]

/-- There is no white space inside a numeral. -/
theorem isSpace_text (l : SignedNumeral) : ∀ c ∈ l.text, isSpace c = false := by
  have hsign : ∀ s : Sign, ∀ c ∈ s.mark, isSpace c = false := by
    have hplus : isSpace '+' = false := rfl
    have hminus : isSpace '-' = false := rfl
    rintro (_ | _ | _)
    all_goals simp [Sign.mark, hplus, hminus]
  intro c hc
  rcases List.mem_append.mp hc with hc | hc
  · exact hsign l.sign c hc
  · obtain ⟨d, -, rfl⟩ := List.mem_map.mp hc
    exact isSpace_of_isDigit (Digit.isDigit_char .decimal d)

end SignedNumeral

/-- The texts that are read as integers are the signed numerals. -/
theorem readInt?_eq_some_iff {cs : List Char} {n : Int} :
    readInt? cs = some n ↔ ∃ l : SignedNumeral, l.text = cs ∧ l.value = n := by
  constructor
  · exact SignedNumeral.exists_of_readInt?
  · rintro ⟨l, rfl, rfl⟩
    exact l.readInt?_text

/-- With white space around it, a numeral is still read, and nothing else is. -/
theorem readInt?_trim_eq_some_iff {cs : List Char} {n : Int} :
    readInt? (trim cs) = some n ↔ ∃ l : SignedNumeral, Padded l.text cs ∧ l.value = n := by
  constructor
  · intro h
    obtain ⟨l, htext, hvalue⟩ := readInt?_eq_some_iff.mp h
    exact ⟨l, htext ▸ padded_trim cs, hvalue⟩
  · rintro ⟨l, hpad, rfl⟩
    rw [hpad.trim_eq l.text_ne_nil l.isSpace_text]
    exact l.readInt?_text

/-- A text spells one integer at most. -/
theorem Padded.value_unique {l l' : SignedNumeral} {cs : List Char} (h : Padded l.text cs)
    (h' : Padded l'.text cs) : l.value = l'.value := by
  have hread : readInt? (trim cs) = some l.value := readInt?_trim_eq_some_iff.mpr ⟨l, h, rfl⟩
  have hread' : readInt? (trim cs) = some l'.value := readInt?_trim_eq_some_iff.mpr ⟨l', h', rfl⟩
  exact Option.some.inj (hread.symm.trans hread')

/-! ### Writing -/

/-- **Integers are written as numerals.** -/
theorem exists_numeral_toString (n : Int) :
    ∃ l : SignedNumeral, l.text = (toString n).toList ∧ l.value = n := by
  have hdigit : ∀ c ∈ Nat.toDigits 10 n.natAbs, c.isDigit = true := fun c hc =>
    Nat.isDigit_of_mem_toDigits (by decide) (by decide) hc
  obtain ⟨digits, hdigits⟩ := DecimalDigit.exists_chars hdigit
  have hvalue : positional digits = n.natAbs := by
    rw [← DecimalDigit.ofDigitChars_chars, hdigits, Nat.ofDigitChars_ten_toDigits]
  have hne : digits ≠ [] := by
    rintro rfl
    exact Nat.toDigits_ne_nil hdigits.symm
  rw [Json.toList_toString, ← hdigits]
  by_cases hneg : n < 0
  · refine ⟨⟨.minus, digits, hne⟩, ?_, ?_⟩
    · rw [if_pos hneg]
      rfl
    · rw [SignedNumeral.value, Sign.apply, hvalue]
      omega
  · refine ⟨⟨.unsigned, digits, hne⟩, ?_, ?_⟩
    · rw [if_neg hneg]
      rfl
    · rw [SignedNumeral.value, Sign.apply, hvalue]
      omega

/-! ### Casts -/

/-- A number becomes an integer of 64 bits if there is one with this value. -/
theorem toInt64?_eq_some_iff {n : Int} {v : Int64} : toInt64? n = some v ↔ n = v.toInt := by
  have hmin : Int64.minValue.toInt = -2 ^ 63 := by decide
  have hmax : Int64.maxValue.toInt = 2 ^ 63 - 1 := by decide
  rw [toInt64?, hmin, hmax]
  constructor
  · intro h
    by_cases hrange : -2 ^ 63 ≤ n ∧ n ≤ 2 ^ 63 - 1
    · rw [if_pos hrange] at h
      cases h
      exact (Int64.toInt_ofInt_of_le hrange.1 (by omega)).symm
    · rw [if_neg hrange] at h
      cases h
  · rintro rfl
    have hle := v.le_toInt
    have hlt := v.toInt_lt
    rw [if_pos ⟨hle, by omega⟩, Int64.ofInt_toInt]

namespace Value

/-- A numeral is cast to the integer that has its value. -/
theorem cast_of_padded {l : SignedNumeral} {s : String} {v : Int64} (hs : Padded l.text s.toList)
    (hv : l.value = v.toInt) : cast (.str s) .int = .ok (.int v) := by
  have hread : readInt? (trim s.toList) = some l.value := readInt?_trim_eq_some_iff.mpr ⟨l, hs, rfl⟩
  have hrange : toInt64? l.value = some v := toInt64?_eq_some_iff.mpr hv
  rw [cast, cast?, hread, Option.bind_some, hrange]
  rfl

/-- A text that spells no 64-bit integer is not cast. -/
theorem cast_of_not_padded {s : String}
    (hs : ∀ (l : SignedNumeral) (v : Int64), Padded l.text s.toList → l.value ≠ v.toInt) :
    cast (.str s) .int = .error (.invalidCast (quote s) .int) := by
  have hread : (readInt? (trim s.toList)).bind toInt64? = none := by
    rw [Option.bind_eq_none_iff]
    intro n hn
    obtain ⟨l, hpad, rfl⟩ := readInt?_trim_eq_some_iff.mp hn
    exact Option.eq_none_iff_forall_ne_some.mpr fun v hv => hs l v hpad (toInt64?_eq_some_iff.mp hv)
  rw [cast, cast?, hread]
  rfl

/-- **Integers and texts.** Every integer is cast to a text, and that text with any white space
around it is cast back to the integer. A signed numeral, with any white space around it, is cast to
the integer of its value, if there is one among the 64-bit integers, and otherwise is an invalid
cast; so is every text that is not such a numeral. -/
theorem int_text_exact :
    (∀ v : Int64, ∃ t : String, cast (.int v) .str = .ok (.str t) ∧
      cast (.str t) .int = .ok (.int v) ∧
      ∀ s : String, Padded t.toList s.toList → cast (.str s) .int = .ok (.int v)) ∧
    (∀ (l : SignedNumeral) (s : String), Padded l.text s.toList →
      (-2 ^ 63 ≤ l.value → l.value < 2 ^ 63 →
        ∃ v : Int64, v.toInt = l.value ∧ cast (.str s) .int = .ok (.int v)) ∧
      (l.value < -2 ^ 63 ∨ 2 ^ 63 ≤ l.value →
        cast (.str s) .int = .error (.invalidCast (quote s) .int))) ∧
    ∀ s : String, (∀ l : SignedNumeral, ¬ Padded l.text s.toList) →
      cast (.str s) .int = .error (.invalidCast (quote s) .int) := by
  refine ⟨fun v => ?_, fun l s hs => ⟨fun hle hlt => ?_, fun hrange => ?_⟩, fun s hs => ?_⟩
  · obtain ⟨l, htext, hvalue⟩ := exists_numeral_toString v.toInt
    refine ⟨toString v.toInt, rfl, cast_of_padded (l := l) ?_ hvalue, fun s hs =>
      cast_of_padded (l := l) ?_ hvalue⟩
    · exact htext ▸ padded_self _
    · exact htext ▸ hs
  · have hv : (Int64.ofInt l.value).toInt = l.value := Int64.toInt_ofInt_of_le hle hlt
    exact ⟨_, hv, cast_of_padded hs hv.symm⟩
  · -- the text may be a numeral in more than one way, but all of them have one value
    refine cast_of_not_padded fun l' v hs' hv => ?_
    have hvalue := hs.value_unique hs'
    have hle := v.le_toInt
    have hlt := v.toInt_lt
    omega
  · exact cast_of_not_padded fun l _ hl _ => hs l hl

/-- The magnitude of the least integer, with zeros and a sign in front. -/
def leastMagnitude (sign : Sign) : SignedNumeral where
  sign
  digits :=
    ([0, 0, 9, 2, 2, 3, 3, 7, 2, 0, 3, 6, 8, 5, 4, 7, 7, 5, 8, 0, 8] : List (Fin 10)).map
      (⟨·, false⟩)
  nonempty := by decide

/-- The least integer goes to a text and back. The same digits behind a plus sign are out of range,
and a minus sign with a blank behind it begins no numeral. -/
theorem least_exact :
    cast (.int Int64.minValue) .str = .ok (.str "-9223372036854775808") ∧
    Padded "-9223372036854775808".toList "\t-9223372036854775808\u3000\n".toList ∧
    cast (.str "\t-9223372036854775808\u3000\n") .int = .ok (.int Int64.minValue) ∧
    Padded (leastMagnitude .minus).text " -009223372036854775808".toList ∧
    (leastMagnitude .minus).value = -2 ^ 63 ∧
    cast (.str " -009223372036854775808") .int = .ok (.int Int64.minValue) ∧
    Padded (leastMagnitude .plus).text "+009223372036854775808".toList ∧
    (leastMagnitude .plus).value = 2 ^ 63 ∧
    cast (.str "+009223372036854775808") .int =
      .error (.invalidCast "\"+009223372036854775808\"" .int) ∧
    readInt? (trim "- 1".toList) = none ∧
    cast (.str "- 1") .int = .error (.invalidCast "\"- 1\"" .int) := by
  have hwritten : Padded "-9223372036854775808".toList "\t-9223372036854775808\u3000\n".toList :=
    ⟨['\t'], ['\u3000', '\n'], by simp [isSpace], by simp [isSpace], by cbv⟩
  have hminus : Padded (leastMagnitude .minus).text " -009223372036854775808".toList :=
    ⟨[' '], [], by simp [isSpace], by simp, by cbv⟩
  have hplus : Padded (leastMagnitude .plus).text "+009223372036854775808".toList :=
    ⟨[], [], by simp, by simp, by cbv⟩
  have hleast : (leastMagnitude .minus).value = -2 ^ 63 := by decide +kernel
  have hpast : (leastMagnitude .plus).value = 2 ^ 63 := by decide +kernel
  have hblank : readInt? (trim "- 1".toList) = none := by decide
  refine ⟨rfl, hwritten, ?_, hminus, hleast, ?_, hplus, hpast, ?_, hblank, ?_⟩
  · obtain ⟨t, ht, -, hback⟩ := int_text_exact.1 Int64.minValue
    cases ht
    exact hback _ hwritten
  · obtain ⟨v, hv, hcast⟩ := (int_text_exact.2.1 _ _ hminus).1 hleast.ge (by omega)
    obtain rfl : v = Int64.minValue := Int64.toInt_inj.mp ((hv.trans hleast).trans (by decide))
    exact hcast
  · exact (int_text_exact.2.1 _ _ hplus).2 (.inr hpast.ge)
  · refine int_text_exact.2.2 _ fun l hl => ?_
    rw [readInt?_trim_eq_some_iff.mpr ⟨l, hl, rfl⟩] at hblank
    cases hblank

end Value

end Parlance
