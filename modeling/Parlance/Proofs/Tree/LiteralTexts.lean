import Parlance.Proofs.Tree.TypeTexts
import Parlance.Proofs.Value.FloatTexts
import Parlance.Tree.Parser

/-!
# The texts of literals and symbols

Under the usual grammar, the texts of literals, keywords and operators have one token each, if what
follows stands apart from them. The token of a literal is read as the literal again: integers and
floats have no sign there, since a sign is an operator, and a float has to print with a point, or
else its text is that of an integer.

In the other direction, a name in a text is a word that is neither a keyword nor an operator, and
a literal in a text has no sign.

## Main definitions

* `Grammar.Apart`: texts that go on with no word and no fraction.
* `Lit.Written`: the literals that print as they are read.

## Main results

* `Lit.Written.spells`: the text of a literal has its token.
* `Lit.Written.literal`: the token of a literal is read as the literal.
* `Scanned.ident`, `Scanned.unsigned`: the names and literals of a text.
-/

namespace Parlance

/-! ### Texts of numbers -/

namespace Grammar

/-- The text goes on neither with a word or number nor with the fraction of a number. -/
def Apart (rest : List Char) : Prop :=
  ∀ c ∈ rest.head?, isIdContinue c = false ∧ c ≠ '.'

/-- A text apart does not go on with a word or number, so it is clear too. -/
theorem Apart.clear {rest : List Char} (h : Apart rest) : Clear rest :=
  fun c hc => (h c hc).1

/-- Punctuation stands apart. -/
theorem apart_punct (p : Punct) (rest : List Char) : Apart (p.name.toList ++ rest) := by
  cases p <;> exact fun _ h => by cases h; exact ⟨rfl, by decide⟩

/-- A space stands apart. -/
theorem apart_space (rest : List Char) : Apart (' ' :: rest) := by
  rintro c ⟨⟩
  exact ⟨rfl, by decide⟩

section

variable {cs rest : List Char} {d : Binary64.Decimal}

/-- Digits end where the text goes on otherwise. -/
theorem eatDigits_append {digits : List Char} (hdigits : ∀ c ∈ digits, c.isDigit = true)
    (hrest : ∀ c ∈ rest.head?, (c.isDigit || c == '_') = false) :
    (eatDigits Char.isDigit (digits ++ rest)).2 = rest := by
  refine dropWhile_append_of_head (p := fun c => c.isDigit || c == '_') (fun c hc => ?_) hrest
  rw [hdigits c hc, Bool.true_or]

/-- Behind a number that stands apart there is no digit and no underscore. -/
theorem Apart.inside (h : Apart rest) : ∀ c ∈ rest.head?, (c.isDigit || c == '_') = false := by
  intro c hc
  have hcontinue := (h c hc).1
  rw [Bool.or_eq_false_iff]
  constructor
  · rw [← Bool.not_eq_true]
    intro hdigit
    rw [isIdContinue_of_isDigit hdigit] at hcontinue
    cases hcontinue
  · rw [beq_eq_false_iff_ne]
    rintro rfl
    cases hcontinue

/-- Where no letter follows, there is no exponent. -/
theorem Apart.eatExponentPart (h : Apart rest) (allowed : Bool) :
    eatExponentPart allowed rest = .ok (false, rest) := by
  refine eatExponentPart_none fun c hc => ?_
  have hcontinue := (h c hc).1
  rw [Bool.and_eq_false_iff, Bool.or_eq_false_iff]
  refine .inr ⟨beq_eq_false_iff_ne.mpr ?_, beq_eq_false_iff_ne.mpr ?_⟩
  all_goals
    rintro rfl
    exact absurd hcontinue (by decide)

/-- Digits are the integer part of a decimal number: none of them marks a base, nor does what
follows. -/
theorem eatWhole_digits {digits : List Char} (hne : digits ≠ [])
    (hdigits : ∀ c ∈ digits, c.isDigit = true)
    (hrest : ∀ c ∈ rest.head?, (c.isDigit || c == '_') = false)
    (hmark : ∀ c ∈ rest.head?, c ∉ ['b', 'o', 'x']) :
    eatWhole (digits ++ rest) = .ok (true, rest) := by
  rw [eatWhole_decimal, eatDigits_append hdigits hrest]
  intro base hbase hp
  obtain ⟨c, digits, rfl⟩ := List.exists_cons_of_ne_nil hne
  rw [List.cons_append, List.cons_prefix_cons] at hp
  obtain ⟨tail, htail⟩ := hp.2
  cases digits with
  | nil => exact hmark base (congrArg List.head? htail).symm hbase
  | cons c' digits =>
      have hhead : base = c' := by
        rw [List.cons_append] at htail
        exact (List.cons.inj htail).1
      have hdigit := hdigits c' (by simp)
      rw [← hhead] at hdigit
      fin_cases hbase <;> exact absurd hdigit (by decide)

/-- Behind a number that stands apart there is no letter of another base. -/
theorem Apart.mark (h : Apart rest) : ∀ c ∈ rest.head?, c ∉ ['b', 'o', 'x'] := by
  intro c hc hmem
  have hcontinue := (h c hc).1
  fin_cases hmem <;> exact absurd hcontinue (by decide)

/-- **The extent of a decimal.** The text of a decimal is a number, with a fraction if the decimal
has places behind the point. -/
theorem eatNumber_decimal (h : Binary64.DecimalText cs d) (hrest : Apart rest) :
    eatNumber (cs ++ rest) = .ok (true, decide (d.exponent < 0), rest) := by
  have hend : rest.head?.any isIdContinue = false := by
    cases rest with
    | nil => rfl
    | cons c rest => exact (hrest c rfl).1
  cases h with
  | whole hne hdigits =>
      have hfraction : eatFraction true rest = .ok (false, rest) := by
        rw [eatFraction_none fun d hd hpoint => absurd rfl (hrest '.' hpoint).2,
          hrest.eatExponentPart]
      rw [eatNumber, eatWhole_digits hne hdigits hrest.inside hrest.mark]
      simp only [bind, Except.bind, hfraction, hend]
      rfl
  | @point ds fs hne hdigits hne' hdigits' =>
      obtain ⟨f, fs, rfl⟩ := List.exists_cons_of_ne_nil hne'
      have hpoint : eatWhole (ds ++ ('.' :: f :: fs ++ rest)) = .ok (true, '.' :: f :: fs ++ rest) := by
        refine eatWhole_digits hne hdigits ?_ ?_
        · rintro c ⟨⟩
          rfl
        · rintro c ⟨⟩
          decide
      have hfraction : eatFraction true ('.' :: f :: fs ++ rest) = .ok (true, rest) := by
        rw [List.cons_append, List.cons_append, eatFraction_point (hdigits' f (by simp)),
          ← List.cons_append, eatDigits_append hdigits' hrest.inside, hrest.eatExponentPart]
      rw [List.append_assoc, eatNumber, hpoint]
      have hplaces : (-((f :: fs).length : Int)) < 0 := by
        rw [List.length_cons]
        omega
      simp only [bind, Except.bind, hfraction, hend, hplaces, decide_true]
      rfl

/-- A decimal text is scanned as one number up to what stands apart from it. -/
theorem scanNumber_decimal (h : Binary64.DecimalText cs d) (hrest : Apart rest) :
    scanNumber (cs ++ rest) = (numberKind true (decide (d.exponent < 0)) cs, rest) := by
  rw [scanNumber, eatNumber_decimal h hrest]
  dsimp only
  rw [consumed_append]

/-- A number, where nothing goes on with it. -/
theorem spells_number {kind : TokenKind} {contents : List Content} (h : Binary64.DecimalText cs d)
    (hkind : numberKind true (decide (d.exponent < 0)) cs = .ok kind) (hrest : Apart rest)
    (hs : Spells standard rest contents) : Spells standard (cs ++ rest) ((kind, cs) :: contents) := by
  obtain ⟨c, l, rfl, hc⟩ := h.exists_head
  have hblank := isBlank_of_isDigit hc
  have hword := isIdStart_of_isDigit hc
  have hbare : Bare standard (c :: (l ++ rest)) := bare_standard hblank (by
    rintro rfl
    exact absurd hc (by decide))
  have hfound : Found standard c (l ++ rest) kind rest :=
    .number hword hc (by rw [← List.cons_append, scanNumber_decimal h hrest, hkind])
  exact .token (hbare.skipTrivia _) rfl (found_iff.mp hfound) hs

/-- A string, whatever follows it. -/
theorem spells_quote (s : String) {contents : List Content} (hs : Spells standard rest contents) :
    Spells standard ((quote s).toList ++ rest) ((.lit .str, (quote s).toList) :: contents) := by
  have hscan : scanString ((quote s).toList ++ rest) = (.ok (.lit .str), rest) := by
    have hclose : closeString? (((quote s).toList ++ rest).drop 1) = some rest := by
      rw [toList_quote, List.cons_append, List.append_assoc]
      exact closeString?_escape s.toList rest
    rw [scanString, hclose]
    dsimp only
    rw [consumed_append, readStringLiteral_quote]
  rw [toList_quote] at hscan ⊢
  have hbare : Bare standard ('"' :: (escape s.toList ++ ['"'] ++ rest)) :=
    bare_standard rfl (by decide)
  exact .token (hbare.skipTrivia _) rfl (found_iff.mp (.string rfl hscan)) hs

end

end Grammar

/-! ### Keywords and operators -/

/-- The content of a keyword. -/
def Keyword.content (kw : Keyword) : Content :=
  (.keyword kw, kw.name.toList)

/-- The content of an operator. -/
def Operator.content (op : Operator) : Content :=
  (.operator op, op.name.toList)

/-- The operator that a prefix operator is written with. -/
def UnaryOp.toOperator : UnaryOp → Operator
  | .neg => .sub
  | .not => .not

namespace Grammar

variable {rest : List Char} {contents : List Content}

/-- A keyword, where the word does not go on. -/
theorem spells_keyword (kw : Keyword) (hrest : Clear rest) (h : Spells standard rest contents) :
    Spells standard (kw.name.toList ++ rest) (kw.content :: contents) := by
  obtain ⟨c, l, hname, hblank, hslash⟩ : ∃ c l, kw.name.toList = c :: l ∧ isBlank c = false ∧
      c ≠ '/' := by
    cases kw <;> exact ⟨_, _, rfl, rfl, by decide⟩
  have hword : isWord kw.name.toList = true := by
    cases kw <;> rfl
  have hkind : standard.wordKind kw.name.toList = .keyword kw := by
    rw [standard_eq]
    cases kw <;> rfl
  refine spells_word hword hkind ?_ hrest h
  rw [hname]
  exact bare_standard hblank hslash

/-- An operator in front of a space. -/
theorem spells_operator (op : Operator) (h : Spells standard (' ' :: rest) contents) :
    Spells standard (op.name.toList ++ ' ' :: rest) (op.content :: contents) := by
  obtain ⟨c, l, hname, hbare, hscan⟩ : ∃ c l, op.name.toList = c :: l ∧
      Bare standard (c :: (l ++ ' ' :: rest)) ∧
      scanToken standard c (l ++ ' ' :: rest) = (.ok (.operator op), ' ' :: rest) := by
    rw [standard_eq]
    cases op <;> exact ⟨_, _, rfl, bare_iff.mpr ⟨rfl, rfl, rfl⟩, rfl⟩
  rw [Operator.content, hname]
  exact .token (hbare.skipTrivia _) rfl hscan h

/-- A prefix operator in front of a character that goes on with none of the longer symbols, which
are `->` and `!=`. -/
theorem spells_unary (op : UnaryOp) {c : Char} (harrow : c ≠ '>') (heq : c ≠ '=')
    (h : Spells standard (c :: rest) contents) :
    Spells standard (op.name.toList ++ c :: rest) (op.toOperator.content :: contents) := by
  obtain ⟨o, hname, hbare, hclass, hmem, hlonger⟩ : ∃ o, op.name.toList = [o] ∧
      Bare standard (o :: c :: rest) ∧ (isIdStart o = false ∧ o.isDigit = false ∧ o ≠ '"') ∧
      ([o], .operator op.toOperator) ∈ standard.symbols ∧
      ∀ t ∈ standard.symbols, t.1.head? = some o → t.1 ∈ [[o], [o, '>'], [o, '=']] := by
    rw [standard_eq]
    cases op <;> exact ⟨_, rfl, bare_iff.mpr ⟨rfl, rfl, rfl⟩, by decide, by decide, by decide⟩
  have hlongest : Longest (o :: c :: rest) standard.symbols ([o], .operator op.toOperator) := by
    refine ⟨hmem, ⟨c :: rest, rfl⟩, fun t ht hp => ?_⟩
    cases htext : t.1 with
    | nil => exact List.nil_prefix
    | cons o' l =>
        rw [htext, List.cons_prefix_cons] at hp
        have hl := hlonger t ht (by rw [htext, hp.1]; rfl)
        rw [htext] at hl
        rw [hp.1] at hl ⊢
        obtain ⟨-, tail, htail⟩ := hp
        simp only [List.mem_cons, List.cons.injEq, true_and, List.not_mem_nil, or_false] at hl
        rcases hl with rfl | rfl | rfl
        · exact List.prefix_refl _
        · exact absurd (List.cons.inj htail).1.symm harrow
        · exact absurd (List.cons.inj htail).1.symm heq
  have hvalid : standard.Valid := (validate_eq_ok_iff.mp validate_standard_sorted).1
  have hfound : Found standard o (c :: rest) _ _ :=
    .symbol hclass.1 hclass.2.1 hclass.2.2 (hvalid.symbol?_eq_some_iff.mpr hlongest)
  rw [Operator.content, hname]
  have htext : op.toOperator.name.toList = [o] := by
    rw [← hname]
    cases op <;> rfl
  rw [htext]
  exact .token (hbare.skipTrivia _) rfl (found_iff.mp hfound) h

end Grammar

/-! ### Literals -/

namespace Lit

/-- What kind of token a literal is written as. -/
def kind : Lit → TokenKind
  | .int _ => .lit .int
  | .float _ => .lit .float
  | .bool b => .keyword (if b then .trueKw else .falseKw)
  | .str _ => .lit .str

/-- The content of a literal. -/
def content (v : Lit) : Content :=
  (v.kind, v.render.toList)

/-- A literal has no sign: that is an operator in front of it. -/
def Unsigned : Lit → Prop
  | .int n => 0 ≤ n.toInt
  | .float x => x.isNegative = false
  | .bool _ | .str _ => True

/-- Whether a float is written with a point. Other literals are always written as they are read. -/
def isPlain : Lit → Bool
  | .float x => x.isFinite && x.truncate.natAbs < 10 ^ 16
  | _ => true

/-- The literals that are written as they are read. -/
def Written (v : Lit) : Prop :=
  v.Unsigned ∧ v.isPlain = true

end Lit

/-- A digit is no underscore. -/
theorem bne_underscore_of_isDigit {c : Char} (h : c.isDigit = true) : (c != '_') = true := by
  rw [bne_iff_ne]
  rintro rfl
  exact absurd h (by decide)

/-- There are no separators in the text of a decimal. -/
theorem dropSeparators_decimal {cs : List Char} {d : Binary64.Decimal}
    (h : Binary64.DecimalText cs d) : dropSeparators cs = cs := by
  refine List.filter_eq_self.mpr ?_
  cases h with
  | whole _ hdigits => exact fun c hc => bne_underscore_of_isDigit (hdigits c hc)
  | point _ hdigits _ hdigits' =>
      refine List.forall_mem_append.mpr ⟨fun c hc => bne_underscore_of_isDigit (hdigits c hc), ?_⟩
      exact List.forall_mem_cons.mpr ⟨by decide, fun c hc => bne_underscore_of_isDigit (hdigits' c hc)⟩

/-- A nonnegative integer is written as its digits, and these are read as the integer. The text is a
numeral of base ten without separators. -/
theorem int_written {n : Int64} (h : 0 ≤ n.toInt) :
    Binary64.DecimalText (toString n.toInt).toList ⟨n.toInt.toNat, 0⟩ ∧
      readIntLiteral (toString n.toInt).toList = .ok n := by
  have htext : (toString n.toInt).toList = Nat.toDigits 10 n.toInt.toNat := by
    rw [Json.toList_toString, if_neg (by omega), List.nil_append]
    congr 1
    omega
  have hdigit : ∀ c ∈ Nat.toDigits 10 n.toInt.toNat, c.isDigit = true := fun c hc =>
    Nat.isDigit_of_mem_toDigits (by decide) (by decide) hc
  have hvalue : Nat.ofDigitChars 10 (Nat.toDigits 10 n.toInt.toNat) 0 = n.toInt.toNat :=
    Nat.ofDigitChars_ten_toDigits
  obtain ⟨digits, hdigits⟩ := DecimalDigit.exists_chars hdigit
  have hne : digits ≠ [] := by
    rintro rfl
    exact Nat.toDigits_ne_nil hdigits.symm
  rw [← hdigits, DecimalDigit.ofDigitChars_chars] at hvalue
  rw [← hdigits] at htext hdigit
  have hne' : digits.map Digit.char ≠ [] := by simpa using hne
  rw [htext]
  refine ⟨?_, ?_⟩
  · have hwhole := Binary64.DecimalText.whole hne' hdigit
    rwa [DecimalDigit.ofDigitChars_chars, hvalue] at hwhole
  · let l : IntNumeral :=
      { base := .decimal, digits, body := digits.map Digit.char, nonempty := hne
        spelled := List.filter_eq_self.mpr fun c hc => bne_underscore_of_isDigit (hdigit c hc)
        lead := fun _ hhead => by
          have := hdigit '_' (List.mem_of_mem_head? hhead)
          exact absurd this (by decide) }
    have hread : readIntLiteral (digits.map Digit.char) = _ := l.readIntLiteral_text
    have hlt := n.toInt_lt
    have hlimit : l.value < 2 ^ 63 := by
      change positional digits < _
      omega
    rw [hread, if_pos hlimit]
    change Except.ok (Int64.ofNat (positional digits)) = _
    have hback : Int64.ofNat n.toInt.toNat = n := by
      rw [← Int64.toInt_inj, Int64.toInt_ofNat_of_lt (by omega)]
      omega
    rw [hvalue, hback]

/-- A float below `10 ^ 16` is written with a point, and read from its text. -/
theorem float_written {x : Binary64} (h : (Lit.float x).Written) :
    ∃ d, Binary64.DecimalText x.render.toList d ∧ d.exponent < 0 ∧
      readFloatLiteral x.render.toList = .ok x := by
  obtain ⟨hnegative, hplain⟩ := h
  obtain ⟨hfinite, hsmall⟩ := Bool.and_eq_true_iff.mp hplain
  have hsmall := of_decide_eq_true hsmall
  have hnegative : x.isNegative = false := hnegative
  have hnan : x.isNaN = false := by
    have := of_decide_eq_true hfinite
    simp only [Binary64.isNaN, decide_eq_false_iff_not]
    omega
  obtain ⟨d, hd, -, hpoint⟩ := Binary64.exists_decimal hfinite
  have htext : x.render = x.body := by
    rw [Binary64.render_eq hnan, hnegative, if_neg (by decide), String.empty_append]
  refine ⟨d, htext ▸ hd, hpoint hsmall, ?_⟩
  rw [readFloatLiteral, dropSeparators_decimal (htext ▸ hd), String.ofList_toList, x.read?_render,
    Binary64.canonical, hnan]
  rfl

namespace Lit

variable {v : Lit}

/-- **A written literal is read back.** -/
theorem Written.literal (h : v.Written) {t : Token} (ht : t.content = v.content) :
    Parse.literal t = some (.ok v) := by
  obtain ⟨hkind, htext⟩ := Prod.mk.inj ht
  rw [Parse.literal, hkind]
  cases v with
  | int n =>
      change some (Lit.int <$> readIntLiteral t.text) = _
      rw [htext, render, (int_written h.1).2]
      rfl
  | float x =>
      obtain ⟨-, -, -, hread⟩ := float_written h
      change some (Lit.float <$> readFloatLiteral t.text) = _
      rw [htext, render, hread]
      rfl
  | bool b => cases b <;> rfl
  | str s =>
      change some (Lit.str <$> readStringLiteral t.text) = _
      rw [htext, render, readStringLiteral_quote]
      rfl

/-- **The text of a literal** is its token, if it stands apart from what follows. Literals that the
parser makes are not negative, so the text has no sign. -/
theorem Written.spells (h : v.Written) {rest : List Char} {contents : List Content}
    (hrest : Grammar.Apart rest) (hs : Spells .standard rest contents) :
    Spells .standard (v.render.toList ++ rest) (v.content :: contents) := by
  cases v with
  | int n =>
      obtain ⟨hdecimal, hread⟩ := int_written h.1
      refine Grammar.spells_number hdecimal ?_ hrest hs
      change (fun _ => TokenKind.lit .int) <$> readIntLiteral _ = _
      rw [render, hread]
      rfl
  | float x =>
      obtain ⟨d, hdecimal, hpoint, hread⟩ := float_written h
      refine Grammar.spells_number hdecimal ?_ hrest hs
      rw [decide_eq_true hpoint]
      change (fun _ => TokenKind.lit .float) <$> readFloatLiteral _ = _
      rw [render, hread]
      rfl
  | bool b =>
      cases b with
      | true => exact Grammar.spells_keyword .trueKw hrest.clear hs
      | false => exact Grammar.spells_keyword .falseKw hrest.clear hs
  | str s => exact Grammar.spells_quote s hs

end Lit

/-! ### What is read -/

section

variable {cs ds : List Char}

/-- Digits that can be read stay below the limit, however many there are. -/
theorem readDigits_le {base limit : Nat} {n m : Nat} (hn : n ≤ limit)
    (h : readDigits base limit n ds = .ok m) : m ≤ limit := by
  induction ds generalizing n with
  | nil =>
      rw [readDigits] at h
      cases h
      exact hn
  | cons c ds ih =>
      rw [readDigits] at h
      split at h
      · cases h
      · split at h
        · next hle => exact ih hle h
        · cases h

/-- Without a minus sign, what is read is nonnegative. Digits that stand for more than 63 bits are
an error and do not wrap. -/
theorem readSigned_nonneg {base : Nat} {n : Int64} (hminus : '-' ∉ ds)
    (h : readSigned base ds = .ok n) : 0 ≤ n.toInt := by
  have hread : ∀ {ds : List Char},
      (fun n : Int => Int64.ofInt n) <$> (do
        let m ← readDigits base (int64Magnitude - 1) 0 ds
        return (m : Int)) = .ok n →
      0 ≤ n.toInt := by
    intro ds h
    cases hdigits : readDigits base (int64Magnitude - 1) 0 ds with
    | error e =>
        rw [hdigits] at h
        cases h
    | ok m =>
        rw [hdigits] at h
        cases h
        have hlimit : int64Magnitude - 1 = 2 ^ 63 - 1 := by decide
        have hle := readDigits_le (Nat.zero_le _) hdigits
        rw [Int64.toInt_ofInt_of_le (by omega) (by omega)]
        exact Int.natCast_nonneg m
  unfold readSigned at h
  split at h
  · cases h
  · cases h
  · cases h
  · exact hread h
  · exact absurd List.mem_cons_self hminus
  · exact hread h

/-- A text without a minus sign is never read as a negative integer, so its literal has no sign. -/
theorem readIntLiteral_nonneg {n : Int64} (hminus : '-' ∉ cs) (h : readIntLiteral cs = .ok n) :
    0 ≤ n.toInt := by
  have hdrop : '-' ∉ dropSeparators cs := fun hmem => hminus (List.mem_of_mem_filter hmem)
  unfold readIntLiteral at h
  split at h
  · next heq => exact readSigned_nonneg (fun hmem => hdrop (by rw [heq]; simp [hmem])) h
  · next heq => exact readSigned_nonneg (fun hmem => hdrop (by rw [heq]; simp [hmem])) h
  · next heq => exact readSigned_nonneg (fun hmem => hdrop (by rw [heq]; simp [hmem])) h
  · exact readSigned_nonneg hdrop h

namespace Binary64

/-- A magnitude up to that of infinity does not reach the sign bit. -/
theorem isNegative_ofMagnitude {m : Nat} (h : m ≤ infiniteMagnitude) :
    (ofMagnitude false m).isNegative = false := by
  have hlimit : infiniteMagnitude < 2 ^ 63 := by decide
  have hweight : signWeight = 2 ^ 63 := by decide
  rw [isNegative, ofMagnitude, decide_eq_false_iff_not, if_neg (by decide), UInt64.toNat_ofNat',
    Nat.mod_eq_of_lt (by omega)]
  omega

/-- Rounding a decimal does not change its sign. -/
theorem isNegative_ofDecimal (digits : Nat) (exponent : Int) :
    (ofDecimal false digits exponent).isNegative = false := by
  have hratio : ∀ num den, (ofRatio false num den).isNegative = false := by
    intro num den
    rw [ofRatio]
    split
    · exact isNegative_ofMagnitude (Nat.zero_le _)
    · exact isNegative_ofMagnitude (Nat.min_le_right _ _)
  rw [ofDecimal]
  split
  · exact isNegative_ofMagnitude (Nat.zero_le _)
  · dsimp only
    split
    · exact isNegative_ofMagnitude (Nat.le_refl _)
    split
    · exact isNegative_ofMagnitude (Nat.zero_le _)
    split
    · exact hratio _ _
    · exact hratio _ _

/-- What is read without a sign has none. -/
theorem isNegative_of_readDecimal? {x : Binary64} (h : Binary64.readDecimal? false cs = some x) :
    x.isNegative = false := by
  have hread : ∀ {exponent? : Option Int} {ds : List Char} {places : Nat},
      (do
        let exponent ← exponent?
        let digits ← digitsValue ds
        return ofDecimal false digits (exponent - places)) = some x → x.isNegative = false := by
    intro exponent? ds places h
    obtain ⟨exponent, -, h⟩ := Option.bind_eq_some_iff.mp h
    obtain ⟨digits, -, h⟩ := Option.bind_eq_some_iff.mp h
    cases h
    exact isNegative_ofDecimal _ _
  unfold Binary64.readDecimal? at h
  dsimp only at h
  -- with or without a fraction
  split at h
  all_goals
    dsimp only at h
    split at h
    · cases h
    split at h
    · exact hread h
    split at h
    · exact hread h
    · exact hread h

end Binary64

/-- What begins with a digit is read without a sign. -/
theorem readFloatLiteral_nonneg {c : Char} (hc : c.isDigit = true) {x : Binary64}
    (h : readFloatLiteral (c :: cs) = .ok x) : x.isNegative = false := by
  have hdrop : dropSeparators (c :: cs) = c :: dropSeparators cs :=
    List.filter_cons_of_pos (bne_underscore_of_isDigit hc)
  have hread : Binary64.read? (String.ofList (dropSeparators (c :: cs))) =
      Binary64.readDecimal? false (c :: dropSeparators cs) := by
    rw [hdrop, Binary64.read?_unsigned, String.toList_ofList, Binary64.readUnsigned?_digit hc]
    rw [String.toList_ofList]
    rintro _ ⟨⟩
    exact ⟨by rintro rfl; exact absurd hc (by decide), by rintro rfl; exact absurd hc (by decide)⟩
  rw [readFloatLiteral, hread] at h
  split at h
  · next hx =>
      cases h
      exact Binary64.isNegative_of_readDecimal? hx
  · cases h

/-! #### Tokens -/

/-- Digits never contain a minus sign. -/
theorem eatDigits_minus {isDigit : Char → Bool} (hminus : isDigit '-' = false) (cs : List Char) :
    ∃ body, cs = body ++ (eatDigits isDigit cs).2 ∧ '-' ∉ body := by
  refine ⟨_, List.takeWhile_append_dropWhile.symm, fun hmem => ?_⟩
  have hinside := List.mem_takeWhile_imp hmem
  rw [hminus] at hinside
  cases hinside

/-- There is no minus sign in the integer part of a number. -/
theorem eatWhole_minus {decimal : Bool} {rest : List Char} (h : eatWhole cs = .ok (decimal, rest)) :
    ∃ body, cs = body ++ rest ∧ '-' ∉ body := by
  have hbase : ∀ (mark : List Char) {isDigit : Char → Bool} {digits : List Char} {found : Bool},
      isDigit '-' = false → '-' ∉ mark → eatDigits isDigit digits = (found, rest) →
      ∃ body, mark ++ digits = body ++ rest ∧ '-' ∉ body := by
    intro mark isDigit digits found hminus hmark heat
    obtain ⟨body, hbody, hnot⟩ := eatDigits_minus hminus digits
    rw [heat] at hbody
    refine ⟨mark ++ body, by rw [List.append_assoc, ← hbody], ?_⟩
    simp [hmark, hnot]
  unfold eatWhole at h
  split at h
  · split at h
    · next heat =>
        cases h
        exact hbase ['0', 'b'] rfl (by decide) heat
    · cases h
  · split at h
    · next heat =>
        cases h
        exact hbase ['0', 'o'] rfl (by decide) heat
    · cases h
  · split at h
    · next heat =>
        cases h
        exact hbase ['0', 'x'] (by decide) (by decide) heat
    · cases h
  · cases h
    exact eatDigits_minus rfl cs

/-- Where there is no exponent, nothing was taken for one. -/
theorem eatExponentPart_false {allowed : Bool} {rest : List Char}
    (h : eatExponentPart allowed cs = .ok (false, rest)) : rest = cs := by
  unfold eatExponentPart at h
  split at h
  · split at h
    · split at h <;> cases h
    · cases h
      rfl
  · cases h
    rfl

/-- Where there is no fraction, nothing was taken for one. -/
theorem eatFraction_false {decimal : Bool} {rest : List Char}
    (h : eatFraction decimal cs = .ok (false, rest)) : rest = cs := by
  unfold eatFraction at h
  split at h
  · split at h
    · split at h <;> cases h
    · cases h
      rfl
  · exact eatExponentPart_false h

/-- There is no minus sign in an integer literal. -/
theorem scanNumber_int {rest : List Char} (h : scanNumber cs = (.ok (.lit .int), rest)) :
    ∃ body, cs = body ++ rest ∧ '-' ∉ body := by
  unfold scanNumber at h
  split at h
  · cases h
  · next decimal fractional after heat =>
      obtain ⟨hkind, rfl⟩ := Prod.mk.inj h
      unfold eatNumber at heat
      simp only [bind, Except.bind] at heat
      split at heat
      · cases heat
      next whole hwhole =>
      split at heat
      · cases heat
      next fraction hfraction =>
      split at heat
      · cases heat
      cases heat
      obtain ⟨fractional, after⟩ := fraction
      cases fractional with
      | false =>
          obtain rfl := eatFraction_false hfraction
          exact eatWhole_minus hwhole
      | true =>
          rw [numberKind, if_pos rfl] at hkind
          split at hkind
          · generalize consumed cs after = text at hkind
            cases hread : readFloatLiteral text <;> rw [hread] at hkind <;> cases hkind
          · cases hkind

/-- What begins with a quote is a string if it is a token at all. -/
theorem scanString_kind {kind : TokenKind} (h : (scanString cs).1 = .ok kind) :
    kind = .lit .str := by
  unfold scanString at h
  split at h
  · cases h
  · split at h <;> cases h
    rfl

/-- A symbol of the grammar is no literal. -/
theorem symbol?_ne_lit {g : Grammar} {symbol : List Char} {l : LitKind} :
    g.symbol? cs ≠ some (symbol, .lit l) := by
  intro h
  rcases eq_or_eq_of_longer h with h | h
  · obtain ⟨r, -, he⟩ := List.mem_map.mp (longestMatch_mem h).1
    cases he
  · obtain ⟨r, -, he⟩ := List.mem_map.mp (longestMatch_mem h).1
    cases he

/-- A symbol of the grammar is no identifier. -/
theorem symbol?_ne_ident {g : Grammar} {symbol : List Char} :
    g.symbol? cs ≠ some (symbol, .ident) := by
  intro h
  rcases eq_or_eq_of_longer h with h | h
  · obtain ⟨r, -, he⟩ := List.mem_map.mp (longestMatch_mem h).1
    cases he
  · obtain ⟨r, -, he⟩ := List.mem_map.mp (longestMatch_mem h).1
    cases he

end

section

variable {g : Grammar} {c : Char} {cs rest : List Char}

/-- Only a word is found as an identifier, and it takes all characters of the word. -/
theorem Found.of_ident (h : Found g c cs .ident rest) :
    isIdStart c = true ∧ g.wordKind (c :: cs.takeWhile isIdContinue) = .ident ∧
      rest = cs.dropWhile isIdContinue := by
  generalize hkind : TokenKind.ident = kind at h
  cases h with
  | word hc => exact ⟨hc, rfl, rfl⟩
  | number _ _ h =>
      obtain ⟨l, rfl⟩ := scanNumber_lit (congrArg Prod.fst h)
      cases hkind
  | string _ h =>
      obtain rfl := scanString_kind (congrArg Prod.fst h)
      cases hkind
  | symbol _ _ _ h =>
      subst hkind
      exact absurd h symbol?_ne_ident

/-- Only a number is found as a literal that is no string. -/
theorem Found.of_lit {l : LitKind} (h : Found g c cs (.lit l) rest) (hl : l ≠ .str) :
    c.isDigit = true ∧ scanNumber (c :: cs) = (.ok (.lit l), rest) := by
  generalize hkind : TokenKind.lit l = kind at h
  cases h with
  | word hc =>
      unfold Grammar.wordKind at hkind
      split at hkind <;> cases hkind
  | number _ hc h => exact ⟨hc, hkind ▸ h⟩
  | string _ h =>
      obtain rfl := scanString_kind (congrArg Prod.fst h)
      cases hkind
      exact absurd rfl hl
  | symbol _ _ _ h =>
      subst hkind
      exact absurd h symbol?_ne_lit

end

/-- A name in a text is a word that is neither a keyword nor an operator. -/
theorem Scanned.ident {g : Grammar} {text : List Char} {t : Token} (h : Scanned g text t)
    (ht : t.kind = .ident) : isWord t.text = true ∧ g.wordKind t.text = .ident := by
  obtain @⟨before, after, cs, c, -, hlexeme, -, -, hscan⟩ := h
  rw [ht] at hscan
  obtain ⟨hc, hkind, rfl⟩ := (found_iff.mpr hscan).of_ident
  have hwhole : t.text = c :: cs.takeWhile isIdContinue := by
    refine (List.append_left_inj (cs.dropWhile isIdContinue)).mp ?_
    rw [← hlexeme, List.cons_append, List.takeWhile_append_dropWhile]
  rw [hwhole]
  exact ⟨by rw [isWord, hc, List.all_takeWhile]; rfl, hkind⟩

/-- A literal in a text has no sign. A minus sign is an operator of its own, and no number begins
with one. -/
theorem Scanned.unsigned {g : Grammar} (hg : g.Usable) {text : List Char} {t : Token}
    (h : Scanned g text t) {v : Lit} (hv : Parse.literal t = some (.ok v)) : v.Unsigned := by
  obtain @⟨before, after, cs, c, -, hlexeme, -, -, hscan⟩ := h
  have hfound := found_iff.mpr hscan
  rw [Parse.literal] at hv
  split at hv
  · cases hv
    trivial
  · cases hv
    trivial
  · next hkind =>
      rw [hkind] at hfound
      obtain ⟨body, hbody, hminus⟩ := scanNumber_int (hfound.of_lit (by decide)).2
      obtain rfl := List.append_cancel_right (hlexeme.symm.trans hbody)
      cases hread : readIntLiteral t.text with
      | error e => rw [hread] at hv; cases hv
      | ok n =>
          rw [hread] at hv
          cases hv
          exact readIntLiteral_nonneg hminus hread
  · next hkind =>
      rw [hkind] at hfound
      have hc := (hfound.of_lit (by decide)).1
      obtain ⟨l, htext, -⟩ := scanToken_lexeme hg hscan hlexeme
      rw [htext] at hv
      cases hread : readFloatLiteral (c :: l) with
      | error e => rw [hread] at hv; cases hv
      | ok x =>
          rw [hread] at hv
          cases hv
          exact readFloatLiteral_nonneg hc hread
  · next hkind =>
      cases hread : readStringLiteral t.text with
      | error e => rw [hread] at hv; cases hv
      | ok s =>
          rw [hread] at hv
          cases hv
          trivial
  · cases hv

end Parlance
