import Parlance.Value.Ops

/-!
# The one not-a-number

Literals stand for numbers with one pattern for all not-a-numbers, and no operation on such
numbers gives another pattern. So an operation on literals has a value that is again the value of
a literal, and nothing is lost when the literal is written in its place.

## Main results

* `Value.IsCanonical.unary`, `Value.IsCanonical.binary`, `Value.IsCanonical.cast`,
  `Value.IsCanonical.getItem`: operations on literals.
* `Value.toValue_of_toLit?`: the literal of a value has this value.
-/

namespace Parlance

namespace Binary64

/-- A number that is the only not-a-number, if it is one. -/
def IsCanonical (x : Binary64) : Prop :=
  x.canonical = x

/-- The canonical form of a number is canonical. -/
theorem isCanonical_canonical (x : Binary64) : x.canonical.IsCanonical :=
  x.canonical_canonical

/-- The one not-a-number is canonical. -/
theorem isCanonical_nan : nan.IsCanonical := by
  unfold IsCanonical
  decide

/-- Numbers are canonical. -/
theorem isCanonical_of_not_isNaN {x : Binary64} (h : x.isNaN = false) : x.IsCanonical := by
  rw [IsCanonical, canonical, h]
  rfl

/-- A canonical number other than the one not-a-number is a number. -/
theorem IsCanonical.magnitude_le {x : Binary64} (h : x.IsCanonical) (hx : x ≠ nan) :
    x.magnitude ≤ infiniteMagnitude := by
  refine Nat.le_of_not_lt fun hlt => ?_
  have hnan : x.isNaN = true := decide_eq_true hlt
  rw [IsCanonical, canonical, if_pos hnan] at h
  exact hx h.symm

/-- A magnitude up to that of infinity is kept by the pattern that is built from it. -/
theorem magnitude_ofMagnitude {negative : Bool} {m : Nat} (h : m ≤ infiniteMagnitude) :
    (ofMagnitude negative m).magnitude = m := by
  have hinf : infiniteMagnitude = 9218868437227405312 := by decide
  have hsign : signWeight = 9223372036854775808 := by decide
  rw [hinf] at h
  simp only [ofMagnitude, magnitude, UInt64.toNat_ofNat', hsign]
  cases negative with
  | false =>
      rw [if_neg Bool.false_ne_true]
      omega
  | true =>
      rw [if_pos rfl]
      omega

/-- Numbers up to infinity are canonical. -/
theorem isCanonical_ofMagnitude {negative : Bool} {m : Nat} (h : m ≤ infiniteMagnitude) :
    (ofMagnitude negative m).IsCanonical := by
  refine isCanonical_of_not_isNaN ?_
  rw [isNaN, magnitude_ofMagnitude h]
  exact decide_eq_false (Nat.not_lt_of_le h)

/-- Both zeros are canonical. -/
theorem isCanonical_zero (negative : Bool) : (zero negative).IsCanonical :=
  isCanonical_ofMagnitude (Nat.zero_le _)

/-- A rounded quotient is canonical. -/
theorem isCanonical_ofRatio (negative : Bool) (num den : Nat) :
    (ofRatio negative num den).IsCanonical := by
  unfold ofRatio
  split
  · exact isCanonical_zero negative
  · exact isCanonical_ofMagnitude (Nat.min_le_right _ _)

/-- A negated canonical number is canonical, since negation leaves the one not-a-number as it is. -/
theorem IsCanonical.neg {x : Binary64} (h : x.IsCanonical) : x.neg.IsCanonical := by
  unfold Binary64.neg
  split
  · exact isCanonical_nan
  · next hx => exact isCanonical_ofMagnitude (h.magnitude_le hx)

/-- A remainder of a canonical number is canonical. -/
theorem IsCanonical.rem {x : Binary64} (h : x.IsCanonical) (y : Binary64) :
    (x.rem y).IsCanonical := by
  unfold Binary64.rem
  split
  · exact isCanonical_nan
  · split
    · exact h
    · dsimp only
      split
      · exact isCanonical_ofRatio _ _ _
      · exact isCanonical_ofRatio _ _ _

/-- A rounded decimal is canonical. -/
theorem isCanonical_ofDecimal (negative : Bool) (digits : Nat) (exponent : Int) :
    (ofDecimal negative digits exponent).IsCanonical := by
  unfold ofDecimal
  dsimp only
  split
  · exact isCanonical_zero negative
  · split
    · exact isCanonical_ofMagnitude (Nat.le_refl _)
    · split
      · exact isCanonical_zero negative
      · split
        · exact isCanonical_ofRatio _ _ _
        · exact isCanonical_ofRatio _ _ _

/-- What is read from a text is canonical. -/
theorem isCanonical_of_readDecimal? {negative : Bool} {cs : List Char} {x : Binary64}
    (h : readDecimal? negative cs = some x) : x.IsCanonical := by
  have hbind : ∀ (exponent : Option Int) (cs : List Char) (places : Nat),
      (do let e ← exponent
          let digits ← digitsValue cs
          pure (ofDecimal negative digits (e - places))) = some x → x.IsCanonical := by
    intro exponent cs places h
    obtain ⟨e, -, h⟩ := Option.bind_eq_some_iff.mp h
    obtain ⟨digits, -, h⟩ := Option.bind_eq_some_iff.mp h
    cases h
    exact isCanonical_ofDecimal _ _ _
  simp only [readDecimal?] at h
  split at h
  all_goals
    split at h
    · cases h
    · split at h
      · exact hbind _ _ _ h
      · split at h
        · exact hbind _ _ _ h
        · exact hbind _ _ _ h

/-- Whatever is read from a text is canonical. -/
theorem isCanonical_of_read? {text : String} {x : Binary64} (h : read? text = some x) :
    x.IsCanonical := by
  simp only [read?] at h
  split at h
  · cases h
    exact isCanonical_ofMagnitude (Nat.le_refl _)
  · cases h
    exact isCanonical_ofMagnitude (Nat.le_refl _)
  · cases h
    exact isCanonical_nan
  · exact isCanonical_of_readDecimal? h

end Binary64

open Binary64

namespace Value

/-- A number has the pattern that literals have. -/
def IsCanonical : Value → Prop
  | .float x => x.IsCanonical
  | _ => True

/-- A literal stands for a canonical value. -/
theorem isCanonical_toValue (w : Lit) : w.toValue.IsCanonical := by
  cases w with
  | float x => exact isCanonical_canonical x
  | _ => trivial

/-- The literal of a canonical value has this value. -/
theorem toValue_of_toLit? {v : Value} {w : Lit} (h : v.toLit? = some w) (hv : v.IsCanonical) :
    w.toValue = v := by
  cases v with
  | float x =>
      cases h
      exact congrArg Value.float hv
  | int n => cases h; rfl
  | bool b => cases h; rfl
  | str s => cases h; rfl
  | unit => cases h
  | list items => cases h
  | function tag index captures => cases h
  | builtin b => cases h

/-- Prefix operators keep values canonical. -/
theorem IsCanonical.unary {v w : Value} {op : UnaryOp} (hv : v.IsCanonical)
    (h : v.unary op = .ok w) : w.IsCanonical := by
  unfold Value.unary at h
  split at h
  · cases h; trivial
  · cases h
    exact Binary64.IsCanonical.neg hv
  · cases h; trivial
  · cases h

/-- Results on integers are canonical, as they hold no float. -/
theorem isCanonical_of_binaryInt {op : BinaryOp} {a b : Int64} {w : Value}
    (h : binaryInt op a b = .ok w) : w.IsCanonical := by
  unfold binaryInt at h
  split at h
  case h_4 | h_5 | h_6 =>
    split at h
    · cases h
    · cases h; trivial
  all_goals cases h; try trivial

/-- Results on floats are canonical. Only a remainder by infinity gives its left operand back, hence
the assumption on that one. -/
theorem isCanonical_of_binaryFloat {op : BinaryOp} {a b : Binary64} {w : Value}
    (ha : a.IsCanonical) (h : binaryFloat op a b = .ok w) : w.IsCanonical := by
  unfold binaryFloat at h
  split at h
  · cases h; exact isCanonical_canonical _
  · cases h; exact isCanonical_canonical _
  · cases h; exact isCanonical_canonical _
  · split at h
    · cases h
    · cases h; exact isCanonical_canonical _
  · split at h
    · cases h
    · cases h; exact ha.rem b
  · cases h; exact isCanonical_canonical _
  · cases h

/-- Operators keep values canonical. -/
theorem IsCanonical.binary {op : BinaryOp} {l r w : Value} (hl : l.IsCanonical)
    (h : Value.binary op l r = .ok w) : w.IsCanonical := by
  unfold Value.binary at h
  split at h
  · cases h; trivial
  · cases h; trivial
  iterate 4
    · split at h
      · cases h; trivial
      · cases h
  · split at h
    · exact isCanonical_of_binaryInt h
    · exact isCanonical_of_binaryFloat hl h
    · split at h
      · cases h; trivial
      · cases h
    · split at h
      · cases h; trivial
      · cases h; trivial
      · cases h
    · cases h

/-- Casts keep values canonical. -/
theorem IsCanonical.cast? {v w : Value} {target : Scalar} (hv : v.IsCanonical)
    (h : v.cast? target = some w) : w.IsCanonical := by
  unfold Value.cast? at h
  split at h
  case h_2 | h_10 =>
    cases h
    exact isCanonical_ofRatio _ _ _
  case h_6 =>
    cases h
    exact hv
  case h_14 =>
    obtain ⟨x, hx, rfl⟩ := Option.map_eq_some_iff.mp h
    exact isCanonical_of_read? hx
  case h_5 | h_13 | h_15 =>
    obtain ⟨x, -, rfl⟩ := Option.map_eq_some_iff.mp h
    trivial
  all_goals cases h; try trivial

/-- Casts keep values canonical, also those that may fail. -/
theorem IsCanonical.cast {v w : Value} {target : Scalar} (hv : v.IsCanonical)
    (h : v.cast target = .ok w) : w.IsCanonical := by
  unfold Value.cast at h
  split at h
  · next u hu =>
      cases h
      exact hv.cast? hu
  · cases h

/-- The items of a literal are strings. -/
theorem isCanonical_of_getItem {l : Lit} {i w : Value} (h : l.toValue.getItem i = .ok w) :
    w.IsCanonical := by
  cases l with
  | str s =>
      change (do let k ← checkedIndex i s.toList.length; return Value.str _) = _ at h
      cases hk : checkedIndex i s.toList.length with
      | error k => rw [hk] at h; cases h
      | ok k => rw [hk] at h; cases h; trivial
  | int n => cases h
  | float x => cases h
  | bool b => cases h

end Value

end Parlance
