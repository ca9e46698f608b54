import Mathlib.Data.Nat.Digits.Defs
import Mathlib.Tactic.Ring
import Parlance.Proofs.Token.Locations
import Parlance.Proofs.Token.Relexing

/-!
# What literals denote

A literal is read twice: the scanner looks for its extent, then a reader computes its value from
the characters of that extent. The two have to agree on where a literal ends.

For strings a third function takes part, the one that writes a string between quotes. A written
character is either itself, and none of the characters that mean something to the scanner or the
reader, or a backslash with one character behind it, `escapeChar_cases`; all that is said of the
written text follows from these two cases.

For integers the scanner accepts more digits than a base has, and the reader finds the base again
in the text without its separators. `IntNumeral` is a numeral as it is meant: a base, digits of
that base and a text that spells them.

## Main definitions

* `IntNumeral`: an integer literal with its base, its digits and the text of them.
* `IntNumeral.value`: the positional value of the digits.

## Main results

* `lexItems_quote`: a written string is one string literal, which is read as the string.
* `lexItems_intNumeral`: a numeral is one integer literal with its positional value, or out of
  range.
-/

namespace Parlance

/-! ### Texts of one item -/

/-- The end of the input behind a text. -/
def Token.ending (text : List Char) : Token :=
  ⟨.eof, [], ⟨byteLength text, byteLength text⟩, .behind text⟩

/-- The items behind an error that ends the text. -/
def Recovery.ending (recovery : Recovery) (text : List Char) : List LexItem :=
  match recovery with
  | .halt => []
  | .skip => [.ok (.ending text)]

/-- The item of what the scanner gives for a lexeme between two places. -/
def LexItem.found (lexeme : List Char) (start stop : Location) :
    Except (LexFault × LexRule) TokenKind → LexItem
  | .ok kind => .ok ⟨kind, lexeme, ⟨start.offset, stop.offset⟩, start⟩
  | .error (fault, rule) => .error ⟨fault, rule, ⟨start.offset, stop.offset⟩, start⟩

/-- A text is bare if its first character is no blank and begins no comment. -/
theorem bare_of_head {g : Grammar} {c : Char} (hblank : isBlank c = false)
    (hline : g.lineComment.toList.head? ≠ some c)
    (hblock : g.blockComment.1.toList.head? ≠ some c) (cs : List Char) : Bare g (c :: cs) := by
  have hprefix : ∀ {d : List Char}, d.head? ≠ some c → d ≠ [] → ¬ d <+: c :: cs := by
    rintro d hd hne ⟨rest, hrest⟩
    cases d with
    | nil => exact hne rfl
    | cons e d =>
        cases hrest
        exact hd rfl
  exact ⟨by simpa using hblank, hprefix hline, hprefix hblock⟩

namespace Lexer

variable {lexer : Lexer} {c : Char} {cs left : List Char}

/-- A lexer that does not move stays the same. -/
theorem moveTo_rest : lexer.moveTo lexer.rest = lexer := by
  simp [moveTo, consumed]

/-- What a lexer finds at a place without blanks and comments. -/
theorem scan_bare {result : Except (LexFault × LexRule) TokenKind} (hrest : lexer.rest = c :: cs)
    (hbare : Bare lexer.grammar (c :: cs)) (hscan : scanToken lexer.grammar c cs = (result, left)) :
    lexer.scan =
      (.found (consumed (c :: cs) left) lexer.location (lexer.moveTo left).location result,
        lexer.moveTo left) := by
  have hself : lexer.moveTo (c :: cs) = lexer := hrest ▸ moveTo_rest
  unfold scan
  rw [hrest, hbare.skipTrivia]
  dsimp only
  rw [hself, hscan]
  cases result with
  | ok kind => rfl
  | error e => rfl

/-- A lexer at the end of its text gives the end of the input and nothing more. -/
theorem takeItems_ending {text : List Char} (hrest : lexer.rest = [])
    (hloc : lexer.location = .behind text) (hdone : lexer.done = false) (fuel : Nat) :
    (takeItems (fuel + 1) lexer).1 = [.ok (.ending text)] := by
  have hself : lexer.moveTo [] = lexer := hrest ▸ moveTo_rest
  have hscan : lexer.scan = (.ok (.ending text), lexer) := by
    unfold scan
    rw [hrest, bare_nil.skipTrivia]
    dsimp only
    rw [hself, hloc]
    rfl
  have hsettle : lexer.settle (.ok (.ending text)) = { lexer with done := true } := by
    rw [settle]
    exact if_pos rfl
  rw [takeItems_succ hdone, hscan, hsettle, takeItems_of_done rfl]

end Lexer

section

variable {g : Grammar} {c : Char} {cs : List Char}

/-- The place of a lexer that has taken all of its text. -/
theorem Lexer.location_moveTo_nil (g : Grammar) (recovery : Recovery) (text : List Char) :
    ((Lexer.ofText g recovery text).moveTo []).location = .behind text := by
  have htaken : consumed text [] = text := by simp [consumed]
  rw [moveTo, ofText, htaken]
  exact Location.foldl_advance_behind [] text

/-- **One token.** A text that the scanner takes as a whole is one token. -/
theorem lexItems_of_token {kind : TokenKind} (hbare : Bare g (c :: cs)) (hk : kind ≠ .eof)
    (hscan : scanToken g c cs = (.ok kind, [])) (recovery : Recovery) :
    lexItems g recovery (c :: cs) =
      [.ok ⟨kind, c :: cs, ⟨0, byteLength (c :: cs)⟩, .first⟩, .ok (.ending (c :: cs))] := by
  have hloc := Lexer.location_moveTo_nil g recovery (c :: cs)
  have hfirst := (Lexer.ofText g recovery (c :: cs)).scan_bare rfl hbare hscan
  rw [hloc] at hfirst
  have hall : consumed (c :: cs) [] = c :: cs := by simp [consumed]
  rw [lexItems, Lexer.remaining, Lexer.takeItems_succ rfl, hfirst]
  dsimp only [LexItem.found]
  rw [Lexer.settle, if_neg hk, hall]
  exact congrArg _ (Lexer.takeItems_ending rfl hloc rfl _)

/-- **One error.** A text in which the scanner finds something wrong up to its end. -/
theorem lexItems_of_error {fault : LexFault} {rule : LexRule} (hbare : Bare g (c :: cs))
    (hscan : scanToken g c cs = (.error (fault, rule), [])) (recovery : Recovery) :
    lexItems g recovery (c :: cs) =
      .error ⟨fault, rule, ⟨0, byteLength (c :: cs)⟩, .first⟩ :: recovery.ending (c :: cs) := by
  have hloc := Lexer.location_moveTo_nil g recovery (c :: cs)
  have hfirst := (Lexer.ofText g recovery (c :: cs)).scan_bare rfl hbare hscan
  rw [hloc] at hfirst
  rw [lexItems, Lexer.remaining, Lexer.takeItems_succ rfl, hfirst]
  refine congrArg (List.cons _) ?_
  cases recovery with
  | halt => exact congrArg _ (Lexer.takeItems_of_done rfl _)
  | skip => exact Lexer.takeItems_ending rfl hloc rfl _

end

/-! ### Strings -/

/-- **Written characters.** A character is written as itself, or as a backslash and a letter that
is read as the character. -/
theorem escapeChar_cases (c : Char) :
    (escapeChar c = [c] ∧ c ≠ '\\' ∧ c ≠ '"' ∧ c ≠ '\r') ∨
      ∃ d, escapeChar c = ['\\', d] ∧ simpleEscape? d = some c ∧ d ≠ '\n' ∧ d ≠ 'x' ∧ d ≠ 'u' := by
  unfold escapeChar
  split
  · exact .inr ⟨'0', rfl, rfl, by decide⟩
  · exact .inr ⟨'t', rfl, rfl, by decide⟩
  · exact .inr ⟨'r', rfl, rfl, by decide⟩
  · exact .inr ⟨'n', rfl, rfl, by decide⟩
  · exact .inr ⟨'\\', rfl, rfl, by decide⟩
  · exact .inr ⟨'"', rfl, rfl, by decide⟩
  · next hreturn _ hslash hquote => exact .inl ⟨rfl, hslash, hquote, hreturn⟩

/-- Characters are escaped one by one. -/
theorem escape_cons (c : Char) (cs : List Char) : escape (c :: cs) = escapeChar c ++ escape cs :=
  List.flatMap_cons

/-- The scanner goes over a written string up to its quote. -/
theorem closeString?_escape (cs rest : List Char) :
    closeString? (escape cs ++ '"' :: rest) = some rest := by
  induction cs with
  | nil => rfl
  | cons c cs ih =>
      rw [escape_cons, List.append_assoc]
      rcases escapeChar_cases c with ⟨hc, hslash, hquote, -⟩ | ⟨d, hc, -⟩
      · rw [hc, List.singleton_append, closeString?, ih]
        · exact hquote
        · exact fun _ _ he _ => hslash he
      · rw [hc]
        exact ih

/-- A simple escape is read back as the character that it stands for. -/
theorem unescapeAfterSlash_simple {c d : Char} (h : simpleEscape? d = some c) (hline : d ≠ '\n')
    (hx : d ≠ 'x') (hu : d ≠ 'u') (cs : List Char) :
    unescapeAfterSlash (d :: cs) = (c :: ·) <$> unescape cs := by
  rw [unescapeAfterSlash, h]
  · exact hline
  · exact hx
  · exact hu

/-- The reader takes back a written string. -/
theorem unescape_escape (cs : List Char) : unescape (escape cs) = .ok cs := by
  induction cs with
  | nil => rw [escape, List.flatMap_nil, unescape]
  | cons c cs ih =>
      rw [escape_cons]
      rcases escapeChar_cases c with ⟨hc, hslash, -, hreturn⟩ | ⟨d, hc, hd, hline, hx, hu⟩
      · rw [hc, List.singleton_append, unescape, if_neg hreturn, ih]
        · rfl
        · exact hslash
      · rw [hc, List.cons_append, List.singleton_append, unescape,
          unescapeAfterSlash_simple hd hline hx hu, ih]
        rfl

/-- The quotes around a text are taken off. -/
theorem stripQuotes?_quoted (body : List Char) : stripQuotes? ('"' :: (body ++ ['"'])) = some body := by
  rw [stripQuotes?, if_pos (by simp), List.dropLast_concat]

/-- A quoted string is the escaped one between quotes. -/
theorem toList_quote (s : String) : (quote s).toList = '"' :: (escape s.toList ++ ['"']) := by
  simp [quote]

/-- **Strings.** A quoted string is read back as itself. -/
theorem readStringLiteral_quote (s : String) : readStringLiteral (quote s).toList = .ok s := by
  rw [toList_quote, readStringLiteral, stripQuotes?_quoted]
  dsimp only
  rw [unescape_escape]
  dsimp only
  rw [String.ofList_toList]

/-- A quoted string is one token, since no quote inside it stands unescaped. -/
theorem scanString_quote (s : String) : scanString (quote s).toList = (.ok (.lit .str), []) := by
  have hclose : closeString? ((quote s).toList.drop 1) = some [] := by
    rw [toList_quote]
    exact closeString?_escape s.toList []
  have hall : consumed (quote s).toList [] = (quote s).toList := by simp [consumed]
  rw [scanString, hclose]
  dsimp only
  rw [hall, readStringLiteral_quote]

/-- **Strings.** For every string, the text that `quote` writes is one string literal and the end
of the input, whatever happens after errors; the value of the literal is the string. The text is
one whose positions fit into 32 bits, and so do those of the two items. -/
theorem lexItems_quote (s : String) (hs : Addressable (quote s).toList) (recovery : Recovery) :
    lexItems Grammar.standard recovery (quote s).toList =
      [.ok ⟨.lit .str, (quote s).toList, ⟨0, byteLength (quote s).toList⟩, .first⟩,
        .ok (.ending (quote s).toList)] ∧
    (∀ item ∈ lexItems Grammar.standard recovery (quote s).toList, LexItem.Fits item) ∧
    readStringLiteral (quote s).toList = .ok s := by
  refine ⟨?_, lexItems_fits _ recovery hs, readStringLiteral_quote s⟩
  have hscan := scanString_quote s
  rw [toList_quote] at hscan ⊢
  refine lexItems_of_token (bare_of_head (by decide) (by decide) (by decide) _) (by decide) ?_ recovery
  rw [scanToken, if_neg (by decide), if_neg (by decide), if_pos rfl, hscan]
  rfl

/-- A quote, a backslash, a line break and a NUL before a digit, written and read again. -/
theorem lexItems_quote_escapes :
    Addressable (quote "\"\\n\n\x000").toList ∧
    ∃ item, lexItems Grammar.standard .halt (quote "\"\\n\n\x000").toList =
        [.ok item, .ok (.ending (quote "\"\\n\n\x000").toList)] ∧
      readStringLiteral item.text = .ok "\"\\n\n\x000" := by
  have hs : Addressable (quote "\"\\n\n\x000").toList := addressable_of_lt (by decide)
  obtain ⟨hitems, -, hread⟩ := lexItems_quote "\"\\n\n\x000" hs .halt
  exact ⟨hs, _, hitems, hread⟩

/-! ### Integers -/

/-- A base of integer literals. -/
inductive IntBase where
  | binary
  | octal
  | decimal
  | hexadecimal
  deriving DecidableEq, Repr

namespace IntBase

def radix : IntBase → Nat
  | .binary => 2
  | .octal => 8
  | .decimal => 10
  | .hexadecimal => 16

/-- What stands in front of the digits. -/
def mark : IntBase → List Char
  | .binary => ['0', 'b']
  | .octal => ['0', 'o']
  | .decimal => []
  | .hexadecimal => ['0', 'x']

/-- The characters that the scanner takes for digits of the base. -/
def isDigit : IntBase → Char → Bool
  | .hexadecimal => isHexDigit
  | _ => Char.isDigit

end IntBase

/-- A digit: its value, and whether it is in upper case if it is a letter. -/
structure Digit (radix : Nat) where
  value : Fin radix
  upper : Bool
  deriving DecidableEq, Repr

def Digit.char {radix : Nat} (d : Digit radix) : Char :=
  if d.upper then (Nat.digitChar d.value).toUpper else Nat.digitChar d.value

/-- The positional value of digits, the last of which counts once. -/
def positional {radix : Nat} (digits : List (Digit radix)) : Nat :=
  Nat.ofDigits radix (digits.map fun d => d.value.val).reverse

/-- An integer literal: digits of a base with separators anywhere between them, but none in front
of a decimal numeral. -/
structure IntNumeral where
  base : IntBase
  digits : List (Digit base.radix)
  /-- The digits with their separators. -/
  body : List Char
  nonempty : digits ≠ []
  spelled : body.filter (· != '_') = digits.map Digit.char
  lead : base = .decimal → body.head? ≠ some '_'

namespace Digit

variable {base : IntBase}

/-- The character of a digit has the value of the digit. -/
theorem digitValue?_char : ∀ (base : IntBase) (d : Digit base.radix),
    digitValue? base.radix d.char = some d.value.val := by
  have h : ∀ (base : IntBase) (value : Fin base.radix) (upper : Bool),
      digitValue? base.radix (char ⟨value, upper⟩) = some value.val := by
    rintro (_ | _ | _ | _)
    all_goals decide
  exact fun base d => h base d.value d.upper

/-- The scanner takes the character of a digit for one. -/
theorem isDigit_char : ∀ (base : IntBase) (d : Digit base.radix), base.isDigit d.char = true := by
  have h : ∀ (base : IntBase) (value : Fin base.radix) (upper : Bool),
      base.isDigit (char ⟨value, upper⟩) = true := by
    rintro (_ | _ | _ | _)
    all_goals decide
  exact fun base d => h base d.value d.upper

/-- A character that has no value in a base is no digit of it. -/
theorem char_ne (d : Digit base.radix) {c : Char} (hc : digitValue? base.radix c = none) :
    d.char ≠ c := by
  rintro rfl
  rw [digitValue?_char] at hc
  cases hc

/-- One more digit in front counts with the power of its place. -/
theorem positional_cons (d : Digit base.radix) (digits : List (Digit base.radix)) :
    positional (d :: digits) = positional digits + base.radix ^ digits.length * d.value := by
  rw [positional, List.map_cons, Nat.ofDigits_reverse_cons, List.length_map]
  rfl

/-- **Digits.** What is read from digits, after others of the value `n`, is the positional value of
all of them, as long as it stays within the limit. -/
theorem readDigits_chars {limit n : Nat} (hn : n ≤ limit) (digits : List (Digit base.radix)) :
    readDigits base.radix limit n (digits.map char) =
      if base.radix ^ digits.length * n + positional digits ≤ limit then
        .ok (base.radix ^ digits.length * n + positional digits)
      else .error .intOutOfRange := by
  induction digits generalizing n with
  | nil =>
      have hvalue : base.radix ^ 0 * n + positional ([] : List (Digit base.radix)) = n := by
        simp [positional]
      rw [List.length_nil, hvalue, if_pos hn]
      rfl
  | cons d digits ih =>
      have hvalue : base.radix ^ (d :: digits).length * n + positional (d :: digits) =
          base.radix ^ digits.length * (base.radix * n + d.value) + positional digits := by
        rw [positional_cons, List.length_cons]
        ring
      rw [hvalue, List.map_cons, readDigits, digitValue?_char]
      dsimp only
      split
      · next hle => exact ih hle
      · next hgt =>
          -- further digits do not make the value smaller
          have hpos : 0 < base.radix ^ digits.length := Nat.pow_pos (by cases base <;> decide)
          have := Nat.le_mul_of_pos_left (base.radix * n + d.value) hpos
          rw [if_neg (by omega)]

end Digit

namespace IntNumeral

variable (l : IntNumeral)

def text : List Char :=
  l.base.mark ++ l.body

def value : Nat :=
  positional l.digits

/-- The characters behind the mark are digits and separators. -/
theorem mem_body {c : Char} (hc : c ∈ l.body) : c = '_' ∨ ∃ d ∈ l.digits, d.char = c := by
  by_cases hsep : c = '_'
  · exact .inl hsep
  · have hmem : c ∈ l.body.filter (· != '_') := List.mem_filter.mpr ⟨hc, by simpa using hsep⟩
    rw [l.spelled] at hmem
    exact .inr (List.mem_map.mp hmem)

/-- The characters of the digits are in the body of the numeral. -/
theorem char_mem_body {d : Digit l.base.radix} (hd : d ∈ l.digits) : d.char ∈ l.body := by
  have hmem : d.char ∈ l.body.filter (· != '_') := l.spelled ▸ List.mem_map_of_mem hd
  exact List.mem_of_mem_filter hmem

/-- The scanner goes over all digits and separators, and finds a digit. -/
theorem eatDigits_body : eatDigits l.base.isDigit l.body = (true, []) := by
  have hinside : ∀ c ∈ l.body, (l.base.isDigit c || c == '_') = true := by
    intro c hc
    rcases l.mem_body hc with rfl | ⟨d, -, rfl⟩
    · simp
    · rw [Digit.isDigit_char, Bool.true_or]
  obtain ⟨d, hd⟩ := List.exists_mem_of_ne_nil l.digits l.nonempty
  have hany : l.body.any l.base.isDigit = true :=
    List.any_eq_true.mpr ⟨d.char, l.char_mem_body hd, Digit.isDigit_char l.base d⟩
  simp only [eatDigits]
  rw [List.takeWhile_eq_self_iff.mpr hinside, List.dropWhile_eq_nil_iff.mpr hinside, hany]

/-- A decimal numeral has no letter. -/
theorem not_mem_body (hbase : l.base = .decimal) {c : Char} (hsep : c ≠ '_')
    (hc : digitValue? 10 c = none) : c ∉ l.body := by
  intro hmem
  rcases l.mem_body hmem with hc' | ⟨d, -, hd⟩
  · exact hsep hc'
  · refine d.char_ne ?_ hd
    rw [hbase]
    exact hc

/-- A numeral is taken as a whole. -/
theorem eatWhole_text : eatWhole l.text = .ok (l.base == .decimal, []) := by
  have hdigits := l.eatDigits_body
  rw [text]
  cases hbase : l.base with
  | decimal =>
      rw [hbase] at hdigits
      rw [IntBase.mark, List.nil_append, eatWhole_decimal]
      · have hrest : (eatDigits Char.isDigit l.body).2 = [] := congrArg (·.2) hdigits
        rw [hrest]
        rfl
      · intro mark hmark hprefix
        have hmem : mark ∈ l.body := hprefix.mem (by simp)
        refine l.not_mem_body hbase ?_ ?_ hmem
        · fin_cases hmark <;> decide
        · fin_cases hmark <;> decide
  | binary | octal | hexadecimal =>
      rw [hbase] at hdigits
      simp only [IntBase.isDigit] at hdigits
      simp only [IntBase.mark, List.cons_append, List.nil_append, eatWhole, hdigits]
      rfl

/-- The scanner takes a numeral as a whole, whatever its value. -/
theorem scanNumber_text :
    scanNumber l.text = ((fun _ => .lit .int) <$> readIntLiteral l.text, []) := by
  have hnumber : eatNumber l.text = .ok (l.base == .decimal, false, []) := by
    rw [eatNumber, l.eatWhole_text]
    cases l.base <;> rfl
  have hall : consumed l.text [] = l.text := by simp [consumed]
  rw [scanNumber, hnumber]
  dsimp only
  rw [hall]
  rfl

end IntNumeral

/-- Without a sign, digits are read as they are. -/
theorem Digit.readSigned_chars {base : IntBase} {digits : List (Digit base.radix)}
    (hne : digits ≠ []) :
    readSigned base.radix (digits.map char) =
      (fun n : Nat => Int64.ofInt n) <$>
        readDigits base.radix (int64Magnitude - 1) 0 (digits.map char) := by
  obtain ⟨d, digits, rfl⟩ := List.exists_cons_of_ne_nil hne
  have hplus : d.char ≠ '+' := d.char_ne (by cases base <;> decide)
  have hminus : d.char ≠ '-' := d.char_ne (by cases base <;> decide)
  rw [List.map_cons]
  unfold readSigned
  split <;> simp_all

/-- The reader finds the base in front of the digits. -/
theorem readIntLiteral_mark {base : IntBase} {cs digits : List Char}
    (hcs : dropSeparators cs = base.mark ++ digits)
    (hdecimal : base = .decimal → ∀ mark ∈ ['b', 'o', 'x'], mark ∉ digits) :
    readIntLiteral cs = readSigned base.radix digits := by
  rw [readIntLiteral, hcs]
  cases base with
  | binary | octal | hexadecimal => rfl
  | decimal =>
      have hno := hdecimal rfl
      rw [IntBase.mark, List.nil_append]
      split
      · exact absurd (by simp) (hno 'x' (by decide))
      · exact absurd (by simp) (hno 'o' (by decide))
      · exact absurd (by simp) (hno 'b' (by decide))
      · rfl

namespace IntNumeral

variable (l : IntNumeral)

/-- **Values.** A numeral is read as its positional value, if that is a 64-bit integer, and as an
error otherwise. Underscores and the sign of the base have no part in it. -/
theorem readIntLiteral_text :
    readIntLiteral l.text =
      if l.value < 2 ^ 63 then .ok (Int64.ofNat l.value) else .error .intOutOfRange := by
  have hdrop : dropSeparators l.text = l.base.mark ++ l.digits.map Digit.char := by
    rw [← l.spelled, dropSeparators, text, List.filter_append]
    cases l.base <;> rfl
  have hdecimal : l.base = .decimal → ∀ mark ∈ ['b', 'o', 'x'], mark ∉ l.digits.map Digit.char := by
    intro hbase mark hmark hmem
    obtain ⟨d, -, hd⟩ := List.mem_map.mp hmem
    refine d.char_ne ?_ hd
    rw [hbase]
    fin_cases hmark <;> decide
  have hlimit : int64Magnitude - 1 = 2 ^ 63 - 1 := by decide
  rw [readIntLiteral_mark hdrop hdecimal, Digit.readSigned_chars l.nonempty,
    Digit.readDigits_chars (Nat.zero_le _), Nat.mul_zero, Nat.zero_add, hlimit]
  change _ <$> (if l.value ≤ _ then _ else _) = _
  by_cases hvalue : l.value < 2 ^ 63
  · rw [if_pos (by omega), if_pos hvalue]
    rfl
  · rw [if_neg (by omega), if_neg hvalue]
    rfl

/-- A numeral begins with a decimal digit. -/
theorem exists_head : ∃ c cs, l.text = c :: cs ∧ c.isDigit = true := by
  have hbody : l.body ≠ [] := by
    obtain ⟨d, hd⟩ := List.exists_mem_of_ne_nil l.digits l.nonempty
    exact List.ne_nil_of_mem (l.char_mem_body hd)
  rw [text]
  cases hbase : l.base with
  | binary | octal | hexadecimal => exact ⟨'0', _, rfl, rfl⟩
  | decimal =>
      obtain ⟨c, cs, hcs⟩ := List.exists_cons_of_ne_nil hbody
      refine ⟨c, cs, hcs, ?_⟩
      rcases l.mem_body (hcs ▸ List.mem_cons_self) with rfl | ⟨d, -, rfl⟩
      · exact absurd (congrArg List.head? hcs) (l.lead hbase)
      · have hclass : l.base.isDigit = Char.isDigit := by
          rw [hbase]
          rfl
        rw [← hclass]
        exact Digit.isDigit_char l.base d

end IntNumeral

/-- **Integers.** For every base, all digits of it and all separators between them, the numeral
alone is one integer literal, whose value is the positional value of the digits, if that is below
`2 ^ 63`. Otherwise the numeral is one error, that the literal is out of range. The numeral is one
whose positions fit into 32 bits, and so do those of the items. -/
theorem lexItems_intNumeral (l : IntNumeral) (hl : Addressable l.text) (recovery : Recovery) :
    (∀ item ∈ lexItems Grammar.standard recovery l.text, LexItem.Fits item) ∧
    (l.value < 2 ^ 63 →
      lexItems Grammar.standard recovery l.text =
        [.ok ⟨.lit .int, l.text, ⟨0, byteLength l.text⟩, .first⟩, .ok (.ending l.text)] ∧
      ∃ v, readIntLiteral l.text = .ok v ∧ v.toInt = l.value) ∧
    (2 ^ 63 ≤ l.value →
      lexItems Grammar.standard recovery l.text =
        .error ⟨.intOutOfRange, .number, ⟨0, byteLength l.text⟩, .first⟩ ::
          recovery.ending l.text ∧
      readIntLiteral l.text = .error .intOutOfRange) := by
  obtain ⟨c, cs, htext, hc⟩ := l.exists_head
  have hblank := isBlank_of_isDigit hc
  have hstart := isIdStart_of_isDigit hc
  have hslash : c ≠ '/' := by
    rintro rfl
    exact absurd hc (by decide)
  have hbare : Bare Grammar.standard (c :: cs) := by
    refine bare_of_head hblank (fun he => hslash ?_) (fun he => hslash ?_) cs
    · exact (Option.some.inj he).symm
    · exact (Option.some.inj he).symm
  have hscan : scanToken Grammar.standard c cs =
      (((fun _ => .lit .int) <$> readIntLiteral l.text).mapError (·, .number), []) := by
    rw [scanToken, if_neg (by simp [hstart]), if_pos hc, ← htext, l.scanNumber_text]
  refine ⟨lexItems_fits _ recovery hl,
    fun hvalue => ⟨?_, _, (l.readIntLiteral_text).trans (if_pos hvalue), ?_⟩,
    fun hvalue => ⟨?_, (l.readIntLiteral_text).trans (if_neg (Nat.not_lt.mpr hvalue))⟩⟩
  · rw [l.readIntLiteral_text, if_pos hvalue] at hscan
    rw [htext]
    exact lexItems_of_token hbare TokenKind.noConfusion hscan recovery
  · exact Int64.toInt_ofNat_of_lt hvalue
  · rw [l.readIntLiteral_text, if_neg (Nat.not_lt.mpr hvalue)] at hscan
    rw [htext]
    exact lexItems_of_error hbare hscan recovery

/-- The greatest integer, in hexadecimal. -/
def greatestNumeral : IntNumeral where
  base := .hexadecimal
  digits := ⟨(7 : Fin 16), false⟩ ::
    (List.replicate 7 ⟨(15 : Fin 16), false⟩ ++ List.replicate 8 ⟨(15 : Fin 16), true⟩)
  body := "_7fff_ffff_FFFF_FFFF".toList
  nonempty := by decide
  spelled := by decide
  lead := nofun

/-- One more than the greatest integer, in octal. -/
def pastNumeral : IntNumeral where
  base := .octal
  digits := ⟨(1 : Fin 8), false⟩ :: List.replicate 21 ⟨(0 : Fin 8), false⟩
  body := "1_000_000_000_000_000_000_000_".toList
  nonempty := by decide
  spelled := by decide
  lead := nofun

/-- The greatest integer is read in hexadecimal, and the next number is refused in octal. -/
theorem numerals_at_limit :
    greatestNumeral.value < 2 ^ 63 ∧ 2 ^ 63 ≤ pastNumeral.value ∧
    (∃ v, readIntLiteral greatestNumeral.text = .ok v ∧ v.toInt = 2 ^ 63 - 1) ∧
    readIntLiteral pastNumeral.text = .error .intOutOfRange := by
  have hgreatest : greatestNumeral.value = 2 ^ 63 - 1 := by decide +kernel
  have hpast : pastNumeral.value = 2 ^ 63 := by decide +kernel
  have hlt : greatestNumeral.value < 2 ^ 63 := by omega
  obtain ⟨v, hread, hv⟩ :=
    ((lexItems_intNumeral greatestNumeral (addressable_of_lt (by decide)) .halt).2.1 hlt).2
  refine ⟨hlt, hpast.ge, ⟨v, hread, ?_⟩, ((lexItems_intNumeral pastNumeral
    (addressable_of_lt (by decide)) .halt).2.2 hpast.ge).2⟩
  rw [hv, hgreatest]
  decide

end Parlance
