import Parlance.Proofs.Value.FloatRounding
import Parlance.Proofs.Value.IntTexts

/-!
# Floats and their texts

A number is written as a decimal and read as the number nearest to a decimal. What is written is
read back: the decimal lies in the rounding interval of the number, either as its exact value with
one decimal, or as the shortest decimal around it.

Texts and decimals are brought together by a relation of their own (`DecimalText`), since a decimal
has many texts, and what is written of the shortest decimal may be another decimal of its value.

## Main definitions

* `Binary64.DecimalText`: the texts of decimals.

## Main results

* `Binary64.exists_decimal`: a finite number is written as a decimal that is read as the number.
* `Binary64.read?_render`: a number is read from its text.
* `Value.float_text_exact`: floats are cast to texts and back.
-/

namespace Parlance

namespace Binary64

/-! ### Texts of decimals -/

/-- The text of a decimal: digits, or digits around a point. -/
inductive DecimalText : List Char → Decimal → Prop where
  | whole {ds : List Char} : ds ≠ [] → (∀ c ∈ ds, c.isDigit = true) →
    DecimalText ds ⟨Nat.ofDigitChars 10 ds 0, 0⟩
  | point {ds fs : List Char} : ds ≠ [] → (∀ c ∈ ds, c.isDigit = true) → fs ≠ [] →
    (∀ c ∈ fs, c.isDigit = true) →
    DecimalText (ds ++ '.' :: fs) ⟨Nat.ofDigitChars 10 (ds ++ fs) 0, -fs.length⟩

section

variable {cs : List Char} {d : Decimal}

/-- The text of a decimal begins with a digit. -/
theorem DecimalText.exists_head (h : DecimalText cs d) :
    ∃ c rest, cs = c :: rest ∧ c.isDigit = true := by
  cases h with
  | whole hne hdigits =>
      obtain ⟨c, rest, rfl⟩ := List.exists_cons_of_ne_nil hne
      exact ⟨c, rest, rfl, hdigits c List.mem_cons_self⟩
  | point hne hdigits =>
      obtain ⟨c, rest, rfl⟩ := List.exists_cons_of_ne_nil hne
      exact ⟨c, _, rfl, hdigits c List.mem_cons_self⟩

/-- The text of a decimal is read as the decimal, whether it has a point, an exponent or neither. -/
theorem DecimalText.readDecimal? (h : DecimalText cs d) (negative : Bool) :
    readDecimal? negative cs = some (ofDecimal negative d.digits d.exponent) := by
  cases h with
  | whole hne hdigits =>
      have hvalue : digitsValue cs = some (Nat.ofDigitChars 10 cs 0) :=
        digitsValue_eq_some_iff.mpr ⟨hdigits, rfl⟩
      have htake : cs.takeWhile Char.isDigit = cs := List.takeWhile_eq_self_iff.mpr hdigits
      have hdrop : cs.dropWhile Char.isDigit = [] := List.dropWhile_eq_nil_iff.mpr hdigits
      rw [Binary64.readDecimal?, htake, hdrop]
      simp [hne, hvalue]
  | @point ds fs hne hdigits hne' hdigits' =>
      have hvalue : digitsValue (ds ++ fs) = some (Nat.ofDigitChars 10 (ds ++ fs) 0) :=
        digitsValue_eq_some_iff.mpr ⟨List.forall_mem_append.mpr ⟨hdigits, hdigits'⟩, rfl⟩
      have hhead : ∀ c ∈ ('.' :: fs).head?, Char.isDigit c = false := by
        rintro c ⟨⟩
        rfl
      rw [Binary64.readDecimal?, takeWhile_append_of_head hdigits hhead,
        dropWhile_append_of_head hdigits hhead]
      simp [hne, hvalue, List.takeWhile_eq_self_iff.mpr hdigits',
        List.dropWhile_eq_nil_iff.mpr hdigits']

/-- The text of a decimal with its digits and the number of its places given. -/
theorem DecimalText.of_point {ds fs : List Char} {n k : Nat} (hne : ds ≠ [])
    (hds : ∀ c ∈ ds, c.isDigit = true) (hfs : ∀ c ∈ fs, c.isDigit = true) (hk : fs.length = k)
    (hpos : 0 < k) (hn : Nat.ofDigitChars 10 (ds ++ fs) 0 = n) :
    DecimalText (ds ++ '.' :: fs) ⟨n, -k⟩ := by
  subst hk hn
  exact .point hne hds (List.ne_nil_of_length_pos hpos) hfs

/-- A decimal is written with its value, and with a point if it has places behind one. Zeros are
added behind the digits or in front of them where the point stands beyond them. -/
theorem Decimal.text_positional (d : Decimal) : ∃ d' : Decimal,
    DecimalText d.positional.toList d' ∧ d'.value = d.value ∧
      (d.exponent < 0 → d'.exponent < 0) := by
  have hdigit : ∀ c ∈ Nat.toDigits 10 d.digits, c.isDigit = true := fun c hc =>
    Nat.isDigit_of_mem_toDigits (by decide) (by decide) hc
  have hne : Nat.toDigits 10 d.digits ≠ [] := Nat.toDigits_ne_nil
  have hzeros : ∀ k, ∀ c ∈ List.replicate k '0', c.isDigit = true := fun k c hc => by
    rw [List.eq_of_mem_replicate hc]
    rfl
  have hvalue : Nat.ofDigitChars 10 (Nat.toDigits 10 d.digits) 0 = d.digits :=
    Nat.ofDigitChars_ten_toDigits
  generalize hds : Nat.toDigits 10 d.digits = ds at hdigit hne hvalue
  obtain ⟨digits, exponent⟩ := d
  dsimp only at hds hvalue
  unfold positional
  dsimp only
  rw [hds]
  by_cases hsign : 0 ≤ exponent
  · obtain ⟨k, rfl⟩ := Int.eq_ofNat_of_zero_le hsign
    rw [if_pos hsign, Int.toNat_natCast, String.toList_ofList]
    refine ⟨_, .whole (by simp [hne]) (List.forall_mem_append.mpr ⟨hdigit, hzeros k⟩), ?_,
      fun h => absurd h (by omega)⟩
    rw [value, value, Nat.ofDigitChars_append, hvalue, Nat.ofDigitChars_replicate_zero]
    push_cast
    rw [zpow_natCast, mul_one, mul_comm]
  · obtain ⟨k, rfl⟩ : ∃ k : ℕ, exponent = -k := ⟨exponent.natAbs, by omega⟩
    have hpos : 0 < k := by omega
    refine ⟨⟨digits, -k⟩, ?_, rfl, id⟩
    rw [if_neg hsign, neg_neg, Int.toNat_natCast]
    split
    · next hlt =>
        have htake : ds.take (ds.length - k) ≠ [] := by
          refine List.ne_nil_of_length_pos ?_
          rw [List.length_take]
          omega
        rw [String.toList_ofList]
        refine .of_point htake (fun c hc => hdigit c (List.mem_of_mem_take hc))
          (fun c hc => hdigit c (List.mem_of_mem_drop hc)) ?_ hpos ?_
        · rw [List.length_drop]
          omega
        · rw [List.take_append_drop, hvalue]
    · next hge =>
        rw [String.toList_ofList]
        change DecimalText (['0'] ++ '.' :: (List.replicate (k - ds.length) '0' ++ ds)) _
        refine .of_point (by simp) (hzeros 1)
          (List.forall_mem_append.mpr ⟨hzeros _, hdigit⟩) ?_ hpos ?_
        · rw [List.length_append, List.length_replicate]
          omega
        · rw [Nat.ofDigitChars_append, Nat.ofDigitChars_append, Nat.ofDigitChars_replicate_zero]
          exact (congrArg _ (Nat.mul_zero _)).trans hvalue

/-- A decimal has digits. -/
theorem DecimalText.ne_nil (h : DecimalText cs d) : cs ≠ [] := by
  obtain ⟨c, rest, rfl, -⟩ := h.exists_head
  exact List.cons_ne_nil c rest

/-- A decimal has no white space. -/
theorem DecimalText.isSpace_eq_false (h : DecimalText cs d) : ∀ c ∈ cs, isSpace c = false := by
  cases h with
  | whole _ hdigits => exact fun c hc => isSpace_of_isDigit (hdigits c hc)
  | point _ hdigits _ hdigits' =>
      refine List.forall_mem_append.mpr ⟨fun c hc => isSpace_of_isDigit (hdigits c hc), ?_⟩
      exact List.forall_mem_cons.mpr ⟨rfl, fun c hc => isSpace_of_isDigit (hdigits' c hc)⟩

/-! ### Reading what is written -/

/-- A digit has no lower case. -/
theorem toLower_of_isDigit {c : Char} (h : c.isDigit = true) : c.toLower = c := by
  have hrange := toNat_of_isDigit h
  unfold Char.toLower
  rw [dif_neg]
  rintro ⟨hupper, -⟩
  have : 65 ≤ c.toNat := UInt32.le_iff_toNat_le.mp hupper
  omega

/-- What stands behind the sign of a text that is read. -/
def readUnsigned? (negative : Bool) (cs : List Char) : Option Binary64 :=
  match String.ofList (cs.map Char.toLower) with
  | "inf" => some (infinity negative)
  | "infinity" => some (infinity negative)
  | "nan" => some nan
  | _ => Binary64.readDecimal? negative cs

/-- A text with a minus sign is read behind it as a negative number. -/
theorem read?_minus {text : String} {rest : List Char} (h : text.toList = '-' :: rest) :
    read? text = readUnsigned? true rest := by
  rw [read?, h]
  rfl

/-- A text without a sign is read as a positive number. -/
theorem read?_unsigned {text : String} (h : ∀ c ∈ text.toList.head?, c ≠ '-' ∧ c ≠ '+') :
    read? text = readUnsigned? false text.toList := by
  unfold read?
  split
  next negative cs hsign =>
    split at hsign
    · next heq => exact absurd rfl (h '-' (by rw [heq]; rfl)).1
    · next heq => exact absurd rfl (h '+' (by rw [heq]; rfl)).2
    · cases hsign
      rfl

/-- A text that begins with a digit is none of the words. -/
theorem readUnsigned?_digit {c : Char} (hc : c.isDigit = true) (negative : Bool)
    (rest : List Char) :
    readUnsigned? negative (c :: rest) = Binary64.readDecimal? negative (c :: rest) := by
  have hword : ∀ {w : String}, String.ofList ((c :: rest).map Char.toLower) = w →
      ∀ d ∈ w.toList.head?, d.isDigit = true := by
    rintro _ rfl d hd
    rw [String.toList_ofList, List.map_cons, toLower_of_isDigit hc] at hd
    cases hd
    exact hc
  unfold readUnsigned?
  split
  · next h => exact absurd (hword h 'i' rfl) (by decide)
  · next h => exact absurd (hword h 'i' rfl) (by decide)
  · next h => exact absurd (hword h 'n' rfl) (by decide)
  · rfl

/-- A decimal is read as the nearest number. -/
theorem DecimalText.readUnsigned? (h : DecimalText cs d) (negative : Bool) :
    readUnsigned? negative cs = some (ofDecimal negative d.digits d.exponent) := by
  obtain ⟨c, rest, rfl, hc⟩ := h.exists_head
  rw [readUnsigned?_digit hc, h.readDecimal?]

/-- The text of a number behind its sign. -/
def body (x : Binary64) : String :=
  if x.isInfinite then "inf"
  else if x.isIntegral && x.truncate.natAbs < Nat.pow 10 16 then
    toString x.truncate.natAbs ++ ".0"
  else x.shortest.positional

/-- A number is printed as its sign and its body. -/
theorem render_eq {x : Binary64} (h : x.isNaN = false) :
    x.render = (if x.isNegative then "-" else "") ++ x.body := by
  rw [render, h]
  rfl

/-- The value of an integral number. -/
theorem value_eq_truncate {x : Binary64} (h : x.isIntegral = true) :
    x.value = x.truncate.natAbs := by
  have habs : x.truncate.natAbs = if 0 ≤ x.scale then x.mantissa <<< x.scale.toNat
      else x.mantissa >>> (-x.scale).toNat := by
    rw [truncate]
    split
    · rw [Int.natAbs_neg, Int.natAbs_natCast]
    · rw [Int.natAbs_natCast]
  rw [value, habs]
  by_cases hs : 0 ≤ x.scale
  · obtain ⟨k, hk⟩ := Int.eq_ofNat_of_zero_le hs
    rw [if_pos hs, Nat.shiftLeft_eq, hk, Int.toNat_natCast]
    push_cast
    rw [zpow_natCast]
  · obtain ⟨k, hk⟩ : ∃ k : ℕ, x.scale = -k := ⟨x.scale.natAbs, by omega⟩
    have hk' : k ≠ 0 := by omega
    have hdvd : 2 ^ k ∣ x.mantissa := by
      have : x.mantissa % 2 ^ k = 0 := by
        simpa [isIntegral, hk, hk', Nat.shiftLeft_eq] using h
      exact Nat.dvd_of_mod_eq_zero this
    rw [if_neg hs, Nat.shiftRight_eq_div_pow, hk, neg_neg, Int.toNat_natCast,
      Nat.cast_div hdvd (by positivity)]
    push_cast
    rw [zpow_neg, zpow_natCast, div_eq_mul_inv]

/-- The mantissa of zero is zero. -/
theorem mantissa_eq_zero {x : Binary64} (h : x.isZero = true) : x.mantissa = 0 := by
  have hmagnitude : x.magnitude = 0 := by simpa [isZero] using h
  simp [mantissa, exponentField, fractionField, hmagnitude]

/-- No integer rounds to a number that is none. The gaps between numbers are powers of two, at most
one half where numbers are not integers. -/
theorem natCast_not_contains {x : Binary64} (h : x.isIntegral = false) (hzero : x.isZero = false)
    (n : Nat) : ¬ x.roundingInterval.Contains n := by
  intro hcontains
  have hs : ¬ 0 ≤ x.scale := fun hs => by simp [isIntegral, hs] at h
  obtain ⟨k, hk⟩ : ∃ k : ℕ, x.scale = -k := ⟨x.scale.natAbs, by omega⟩
  obtain ⟨hlow, hhigh, -⟩ := hcontains.bounds (x.mantissa_pos hzero)
  rw [hk, zpow_neg, zpow_natCast, ← div_eq_mul_inv] at hlow hhigh
  rw [div_le_iff₀ (by positivity)] at hlow
  rw [le_div_iff₀ (by positivity)] at hhigh
  -- The mantissa is within a half of the multiple of the power, so it is the multiple.
  have hlow' : (2 * x.mantissa : ℚ) ≤ (2 * (n * 2 ^ k) + 1 : ℕ) := by
    push_cast
    linarith
  have hhigh' : ((2 * (n * 2 ^ k) : ℕ) : ℚ) ≤ (2 * x.mantissa + 1 : ℕ) := by
    push_cast
    linarith
  have hlow'' : 2 * x.mantissa ≤ 2 * (n * 2 ^ k) + 1 := by exact_mod_cast hlow'
  have hhigh'' : 2 * (n * 2 ^ k) ≤ 2 * x.mantissa + 1 := by exact_mod_cast hhigh'
  have hm : x.mantissa = n * 2 ^ k := by omega
  rw [isIntegral, hm, hk, neg_neg, Int.toNat_natCast, Nat.shiftLeft_eq, one_mul,
    Nat.mul_mod_left] at h
  simp at h

/-- **Writing.** A finite number is written as a decimal that rounds to it, and with a point if it
is below `10 ^ 16`. -/
theorem exists_decimal {x : Binary64} (hfinite : x.isFinite = true) :
    ∃ d, DecimalText x.body.toList d ∧
      (∀ negative, ofDecimal negative d.digits d.exponent = ofMagnitude negative x.magnitude) ∧
      (x.truncate.natAbs < 10 ^ 16 → d.exponent < 0) := by
  have hinf : x.isInfinite = false := by
    have := of_decide_eq_true hfinite
    simp [isInfinite, this.ne]
  have hround : ∀ {d : Decimal}, x.isZero = false → x.roundingInterval.Contains d.value →
      ∀ negative, ofDecimal negative d.digits d.exponent = ofMagnitude negative x.magnitude :=
    fun hzero h => ofDecimal_of_contains hfinite hzero h
  rw [body, if_neg (by simp [hinf])]
  split
  · next h =>
      obtain ⟨hintegral, -⟩ := Bool.and_eq_true_iff.mp h
      generalize hn : x.truncate.natAbs = n
      have htext : (toString n ++ ".0").toList = Nat.toDigits 10 n ++ '.' :: ['0'] := by
        rw [String.toList_append]
        exact congrArg (· ++ _) String.toList_ofList
      refine ⟨⟨10 * n, -1⟩, ?_, ?_, fun _ => by simp⟩
      · rw [htext]
        refine .of_point Nat.toDigits_ne_nil
          (fun c hc => Nat.isDigit_of_mem_toDigits (by decide) (by decide) hc)
          (List.forall_mem_singleton.mpr rfl) rfl Nat.one_pos ?_
        rw [Nat.ofDigitChars_append, Nat.ofDigitChars_ten_toDigits]
        rfl
      · cases hzero : x.isZero with
        | false =>
            refine hround (d := ⟨10 * n, -1⟩) hzero ?_
            have hvalue : (⟨10 * n, -1⟩ : Decimal).value = x.value := by
              rw [value_eq_truncate hintegral, hn, Decimal.value]
              push_cast
              rw [zpow_neg_one]
              ring
            exact hvalue ▸ contains_value hzero
        | true =>
            have hvalue : x.value = 0 := by rw [value, mantissa_eq_zero hzero, Nat.cast_zero, zero_mul]
            have hn0 : n = 0 := by
              rw [value_eq_truncate hintegral, hn] at hvalue
              exact_mod_cast hvalue
            intro negative
            rw [hn0, eq_of_beq hzero]
            rfl
  · next h =>
      have hzero : x.isZero = false := by
        rw [← Bool.not_eq_true]
        intro hzero
        refine h ?_
        have hm := mantissa_eq_zero hzero
        have hintegral : x.isIntegral = true := by simp [isIntegral, hm]
        have hvalue := value_eq_truncate hintegral
        rw [value, hm, Nat.cast_zero, zero_mul, eq_comm, Nat.cast_eq_zero] at hvalue
        rw [hintegral, hvalue]
        rfl
      obtain ⟨d, hd, hvalue, hpoint⟩ := x.shortest.text_positional
      refine ⟨d, hd, hround hzero (hvalue ▸ contains_shortest hzero), fun hsmall => hpoint ?_⟩
      have hintegral : x.isIntegral = false := by
        rw [← Bool.not_eq_true]
        exact fun hintegral => h (by simp [hintegral]; exact hsmall)
      by_contra hexponent
      obtain ⟨k, hk⟩ := Int.eq_ofNat_of_zero_le (not_lt.mp hexponent)
      refine natCast_not_contains hintegral hzero (x.shortest.digits * 10 ^ k) ?_
      have : x.shortest.value = (x.shortest.digits * 10 ^ k : ℕ) := by
        rw [Decimal.value, hk]
        push_cast
        rw [zpow_natCast]
      exact this ▸ contains_shortest hzero

/-- A number is infinite or finite. -/
theorem body_cases {x : Binary64} (h : x.isNaN = false) :
    (x.magnitude = infiniteMagnitude ∧ x.body = "inf") ∨
      ∃ d, DecimalText x.body.toList d ∧
        ∀ negative, ofDecimal negative d.digits d.exponent = ofMagnitude negative x.magnitude := by
  cases hinf : x.isInfinite with
  | true => exact .inl ⟨eq_of_beq hinf, by rw [body, if_pos hinf]⟩
  | false =>
      have hfinite : x.isFinite = true := by
        simp only [isNaN, isInfinite, isFinite, decide_eq_false_iff_not, beq_eq_false_iff_ne,
          decide_eq_true_eq] at h hinf ⊢
        omega
      obtain ⟨d, hd, hround, -⟩ := exists_decimal hfinite
      exact .inr ⟨d, hd, hround⟩

/-- What stands behind the sign is read as the number, and begins with no sign. -/
theorem readUnsigned?_body {x : Binary64} (h : x.isNaN = false) :
    (∀ c ∈ x.body.toList.head?, c ≠ '-' ∧ c ≠ '+') ∧
      readUnsigned? x.isNegative x.body.toList = some x := by
  rcases body_cases h with ⟨hmagnitude, hbody⟩ | ⟨d, hd, hround⟩
  · rw [hbody]
    refine ⟨?_, ?_⟩
    · rintro c ⟨⟩
      exact ⟨by decide, by decide⟩
    · change some (ofMagnitude x.isNegative infiniteMagnitude) = some x
      rw [← hmagnitude, ofMagnitude_magnitude]
  · refine ⟨?_, by rw [hd.readUnsigned?, hround, ofMagnitude_magnitude]⟩
    obtain ⟨c, rest, hcs, hc⟩ := hd.exists_head
    rw [hcs]
    rintro _ ⟨⟩
    exact ⟨by rintro rfl; exact absurd hc (by decide), by rintro rfl; exact absurd hc (by decide)⟩

/-- **Reading what is written.** A number is read from its text, except that all not-a-numbers are
one. -/
theorem read?_render (x : Binary64) : read? x.render = some x.canonical := by
  cases hnan : x.isNaN with
  | true =>
      have hsign : ∀ c ∈ "NaN".toList.head?, c ≠ '-' ∧ c ≠ '+' := by
        rintro c ⟨⟩
        exact ⟨by decide, by decide⟩
      rw [render, canonical, hnan, if_pos rfl, if_pos rfl, read?_unsigned hsign]
      rfl
  | false =>
      obtain ⟨hsign, hbody⟩ := readUnsigned?_body hnan
      rw [canonical, hnan, if_neg (by decide), render_eq hnan]
      cases hnegative : x.isNegative with
      | true =>
          have htext : ("-" ++ x.body).toList = '-' :: x.body.toList := by
            rw [String.toList_append]
            rfl
          rw [if_pos rfl, read?_minus htext, ← hnegative, hbody]
      | false =>
          rw [if_neg (by decide), String.empty_append, read?_unsigned hsign, ← hnegative, hbody]

/-- A number is written without white space. -/
theorem isSpace_render (x : Binary64) :
    x.render.toList ≠ [] ∧ ∀ c ∈ x.render.toList, isSpace c = false := by
  cases hnan : x.isNaN with
  | true =>
      rw [render, hnan, if_pos rfl]
      exact ⟨by simp, by simp [isSpace]⟩
  | false =>
      have hbody : x.body.toList ≠ [] ∧ ∀ c ∈ x.body.toList, isSpace c = false := by
        rcases body_cases hnan with ⟨-, hbody⟩ | ⟨d, hd, -⟩
        · rw [hbody]
          exact ⟨by simp, by simp [isSpace]⟩
        · exact ⟨hd.ne_nil, hd.isSpace_eq_false⟩
      rw [render_eq hnan, String.toList_append]
      refine ⟨List.append_ne_nil_of_right_ne_nil _ hbody.1, List.forall_mem_append.mpr ⟨?_, hbody.2⟩⟩
      split <;> simp [isSpace]

end

end Binary64

/-- **Floats and texts.** Every float is cast to a text, and that text with any white space around it
is cast back to the float, except that all not-a-numbers become one. -/
theorem Value.float_text_exact (x : Binary64) :
    ∃ t : String, cast (.float x) .str = .ok (.str t) ∧
      ∀ s : String, Padded t.toList s.toList → cast (.str s) .float = .ok (.float x.canonical) := by
  refine ⟨x.render, rfl, fun s hs => ?_⟩
  obtain ⟨hne, hspace⟩ := x.isSpace_render
  have htrim : trim s.toList = x.render.toList := hs.trim_eq hne hspace
  rw [cast, cast?, htrim, String.ofList_toList, x.read?_render]
  rfl

example : Binary64.render ⟨0x3fb999999999999a⟩ = "0.1" := by
  decide +kernel

end Parlance
