import Mathlib.Data.List.Basic
import Mathlib.Data.List.TakeWhile
import Mathlib.Tactic.Common
import Parlance.Token.Lexer

/-!
# What scanning takes from a text

Every scanning function gives an ending of the text it is given, and a token takes at least one
character. What lies between two tokens is a gap: blanks and complete comments, one after the
other. `Lexer.scan_scans` says this about one item of a lexer, so that nobody has to open the
scanning functions again.

## Main definitions

* `Nested`: the text from inside a comment up to its end.
* `Gap`: blanks and complete comments.
* `Lexer.At`: the place of a lexer in a text.

## Main results

* `Lexer.scan_scans`: the three ways in which an item is found.
* `Grammar.usable_of_validate`: the symbols of a validated grammar are not empty.
-/

namespace Parlance

/-! ### Bytes -/

/-- Lengths in bytes add up. -/
theorem byteLength_append (cs ds : List Char) :
    byteLength (cs ++ ds) = byteLength cs + byteLength ds := by
  induction cs with
  | nil => simp [byteLength]
  | cons c cs ih =>
      simp only [byteLength, List.cons_append, List.foldr_cons] at ih ⊢
      omega

/-- Only the empty text takes no byte. -/
theorem byteLength_pos {cs : List Char} (h : cs ≠ []) : 0 < byteLength cs := by
  cases cs with
  | nil => exact absurd rfl h
  | cons c cs =>
      have hc := Char.utf8Size_pos c
      simp only [byteLength, List.foldr_cons]
      omega

/-- Walking over characters moves the offset by their length. -/
theorem offset_foldl_advance (l : Location) (cs : List Char) :
    (cs.foldl Location.advance l).offset = l.offset + byteLength cs := by
  induction cs generalizing l with
  | nil => rfl
  | cons c cs ih =>
      have hc : (l.advance c).offset = l.offset + c.utf8Size := by
        unfold Location.advance
        split <;> rfl
      rw [List.foldl_cons, ih, hc]
      simp only [byteLength, List.foldr_cons]
      omega

/-- What was consumed of a text in front of `rest` is the part in front of it. -/
@[simp] theorem consumed_append (cs rest : List Char) : consumed (cs ++ rest) rest = cs := by
  simp [consumed]

/-! ### Gaps -/

/-- The text of a comment that is open `depth + 1` deep, up to its end. At each place a closing
delimiter counts first, then an opening one; a character that begins neither is passed over. -/
inductive Nested (opening closing : List Char) : Nat → List Char → Prop
  | close (hc : closing ≠ []) : Nested opening closing 0 closing
  | leave {depth : Nat} {t : List Char} (hc : closing ≠ []) (h : Nested opening closing depth t) :
    Nested opening closing (depth + 1) (closing ++ t)
  | enter {depth : Nat} {t : List Char} (ho : opening ≠ [])
    (hn : closing ≠ [] → ¬ closing <+: opening ++ t)
    (h : Nested opening closing (depth + 1) t) : Nested opening closing depth (opening ++ t)
  | pass {depth : Nat} {c : Char} {t : List Char} (hn : closing ≠ [] → ¬ closing <+: c :: t)
    (hm : opening ≠ [] → ¬ opening <+: c :: t) (h : Nested opening closing depth t) :
    Nested opening closing depth (c :: t)

/-- Blanks and complete comments in front of `rest`. A line comment goes on to the end of its
line. -/
inductive Gap (g : Grammar) (rest : List Char) : List Char → Prop
  | nil : Gap g rest []
  | blank {c : Char} {t : List Char} (hc : isBlank c = true) (h : Gap g rest t) :
    Gap g rest (c :: t)
  | lineComment {body t : List Char} (hg : g.lineComment.toList ≠ []) (hb : '\n' ∉ body)
    (ht : ∀ c ∈ (t ++ rest).head?, c = '\n') (h : Gap g rest t) :
    Gap g rest (g.lineComment.toList ++ body ++ t)
  | blockComment {body t : List Char} (hg : g.blockComment.1.toList ≠ [])
    (hb : Nested g.blockComment.1.toList g.blockComment.2.toList 0 body) (h : Gap g rest t) :
    Gap g rest (g.blockComment.1.toList ++ body ++ t)

/-- More blanks in front of a gap make a gap. -/
theorem Gap.blanks {g : Grammar} {rest bs t : List Char} (hb : ∀ c ∈ bs, isBlank c = true)
    (h : Gap g rest t) : Gap g rest (bs ++ t) := by
  induction bs with
  | nil => exact h
  | cons c bs ih =>
      exact .blank (hb c List.mem_cons_self) (ih fun d hd => hb d (List.mem_cons_of_mem c hd))

/-- A symbol is taken from a text exactly if it is not empty and the text begins with it. -/
theorem eatSymbol?_eq_some {symbol cs rest : List Char} :
    eatSymbol? symbol cs = some rest ↔ symbol ≠ [] ∧ cs = symbol ++ rest := by
  unfold eatSymbol?
  constructor
  · intro h
    split at h
    · next hs =>
        simp only [Bool.and_eq_true, Bool.not_eq_true', List.isEmpty_eq_false_iff,
          List.isPrefixOf_iff_prefix] at hs
        obtain ⟨hne, t, rfl⟩ := hs
        refine ⟨hne, ?_⟩
        simpa using h
    · cases h
  · rintro ⟨hne, rfl⟩
    simp [hne, List.isPrefixOf_iff_prefix]

section

variable {opening closing : List Char}

/-- Whether a delimiter stands here. -/
theorem startsWith_iff {symbol cs : List Char} :
    (!symbol.isEmpty && symbol.isPrefixOf cs) = true ↔ symbol ≠ [] ∧ symbol <+: cs := by
  simp [List.isPrefixOf_iff_prefix]

/-- A delimiter that does not stand in a text does not stand in a beginning of it. -/
theorem not_prefix_of_append {symbol cs rest : List Char}
    (h : ¬ (!symbol.isEmpty && symbol.isPrefixOf (cs ++ rest)) = true) :
    symbol ≠ [] → ¬ symbol <+: cs :=
  fun hne hp => h (startsWith_iff.mpr ⟨hne, hp.trans (List.prefix_append cs rest)⟩)

/-- The text behind a delimiter that stands at its first character. -/
theorem drop_delimiter {symbol t : List Char} {c : Char} {cs : List Char} (hne : symbol ≠ [])
    (h : symbol ++ t = c :: cs) : cs.drop (symbol.length - 1) = t := by
  obtain ⟨d, symbol, rfl⟩ := List.exists_cons_of_ne_nil hne
  rw [List.cons_append, List.cons.injEq] at h
  rw [← h.2]
  simp

/-- **Comments.** The text up to where a comment closes, behind the `skip` characters of a
delimiter that was just met. -/
theorem closeComment?_nested {skip depth : Nat} {cs rest : List Char}
    (h : closeComment? opening closing skip depth cs = some rest) :
    ∃ body, cs.drop skip = body ++ rest ∧ Nested opening closing depth body := by
  induction cs generalizing skip depth with
  | nil => simp [closeComment?] at h
  | cons c cs ih =>
      cases skip with
      | succ skip =>
          rw [closeComment?] at h
          exact ih h
      | zero =>
          rw [closeComment?.eq_def] at h
          dsimp only at h
          rw [List.drop_zero]
          split at h
          · next hc =>
              obtain ⟨hne, t, ht⟩ := startsWith_iff.mp hc
              cases depth with
              | zero =>
                  rw [← ht, List.drop_left, Option.some.injEq] at h
                  exact ⟨closing, by rw [← ht, h], .close hne⟩
              | succ depth =>
                  obtain ⟨body, hb, hn⟩ := ih h
                  rw [drop_delimiter hne ht] at hb
                  exact ⟨closing ++ body, by rw [← ht, hb, List.append_assoc], .leave hne hn⟩
          · next hc =>
              split at h
              · next ho =>
                  obtain ⟨hne, t, ht⟩ := startsWith_iff.mp ho
                  obtain ⟨body, hb, hn⟩ := ih h
                  rw [drop_delimiter hne ht] at hb
                  have heq : c :: cs = (opening ++ body) ++ rest := by
                    rw [← ht, hb, List.append_assoc]
                  rw [heq] at hc ⊢
                  exact ⟨opening ++ body, rfl, .enter hne (not_prefix_of_append hc) hn⟩
              · next ho =>
                  obtain ⟨body, hb, hn⟩ := ih h
                  rw [List.drop_zero] at hb
                  subst hb
                  exact ⟨c :: body, rfl, .pass (not_prefix_of_append hc) (not_prefix_of_append ho) hn⟩

end

section

variable {g : Grammar}

/-- What was left out of a text is a gap, in front of the rest or of a comment that does not
end. -/
def Skips (g : Grammar) (cs : List Char) : Except (List Char) (List Char) → Prop
  | .ok rest => ∃ gap, cs = gap ++ rest ∧ Gap g rest gap
  | .error comment => comment ≠ [] ∧ ∃ gap, cs = gap ++ comment ∧ Gap g comment gap

/-- What one round takes goes in front of the gap that the later rounds take. -/
theorem Skips.append {taken cs : List Char} {result : Except (List Char) (List Char)}
    (htaken : ∀ rest gap, cs = gap ++ rest → Gap g rest gap → Gap g rest (taken ++ gap))
    (h : Skips g cs result) : Skips g (taken ++ cs) result := by
  cases result with
  | ok rest =>
      obtain ⟨gap, hcs, hg⟩ := h
      exact ⟨taken ++ gap, by rw [hcs, List.append_assoc], htaken rest gap hcs hg⟩
  | error comment =>
      obtain ⟨hne, gap, hcs, hg⟩ := h
      exact ⟨hne, taken ++ gap, by rw [hcs, List.append_assoc], htaken comment gap hcs hg⟩

/-- A line comment goes on to the end of its line. -/
theorem Gap.line {rest gap after : List Char} (hg : g.lineComment.toList ≠ [])
    (hafter : after.dropWhile (· != '\n') = gap ++ rest) (h : Gap g rest gap) :
    Gap g rest (g.lineComment.toList ++ after.takeWhile (· != '\n') ++ gap) := by
  refine .lineComment hg (fun hn => ?_) (fun c hc => ?_) h
  · simpa using List.mem_takeWhile_imp hn
  · have hhead := List.head?_dropWhile_not (· != '\n') after
    rw [hafter, Option.mem_def.mp hc] at hhead
    simpa using hhead

/-- **Trivia.** What is left out in front of a token is a gap. Blanks and comments may follow one
another in any order, so the induction is on the fuel. -/
theorem skipTrivia_skips (fuel : Nat) (cs : List Char) : Skips g cs (skipTrivia g fuel cs) := by
  induction fuel generalizing cs with
  | zero => exact ⟨[], rfl, .nil⟩
  | succ fuel ih =>
      rw [skipTrivia]
      split
      · have h : Skips g (cs.takeWhile isBlank ++ cs.dropWhile isBlank) _ :=
          (ih (cs.dropWhile isBlank)).append fun _ _ _ hg =>
            hg.blanks fun _ hc => List.mem_takeWhile_imp hc
        rwa [List.takeWhile_append_dropWhile] at h
      · split
        · next rest hline =>
            obtain ⟨hne, hcs⟩ := eatSymbol?_eq_some.mp hline
            have h := (ih (rest.dropWhile (· != '\n'))).append fun _ _ => Gap.line hne
            rwa [List.append_assoc, List.takeWhile_append_dropWhile, ← hcs] at h
        · split
          · next rest hblock =>
              obtain ⟨hne, hcs⟩ := eatSymbol?_eq_some.mp hblock
              split
              · next after hclose =>
                  obtain ⟨body, hb, hn⟩ := closeComment?_nested hclose
                  have h := (ih after).append fun _ _ _ hg => Gap.blockComment hne hn hg
                  rwa [List.append_assoc, ← hb, List.drop_zero, ← hcs] at h
              · exact ⟨fun he => hne (List.append_eq_nil_iff.mp (hcs.symm.trans he)).1, [], rfl, .nil⟩
          · exact ⟨[], rfl, .nil⟩

end

/-! ### Numbers and strings -/

/-- Digits are taken from the front of a text. -/
theorem eatDigits_suffix (isDigit : Char → Bool) (cs : List Char) :
    (eatDigits isDigit cs).2 <:+ cs :=
  List.dropWhile_suffix _

/-- An exponent is taken from the front of a text. -/
theorem eatExponent_suffix (cs : List Char) : (eatExponent cs).2 <:+ cs := by
  unfold eatExponent
  split
  · exact (eatDigits_suffix _ _).trans (List.suffix_cons _ _)
  · exact (eatDigits_suffix _ _).trans (List.suffix_cons _ _)
  · exact eatDigits_suffix _ _

/-- The rest that a part of a number leaves, also when it is wrong. -/
def restOf {α : Type} : Except (LexFault × List Char) (α × List Char) → List Char
  | .ok (_, rest) => rest
  | .error (_, rest) => rest

/-- A number takes its first digit. -/
theorem eatWhole_suffix {c : Char} {cs : List Char} (hc : c.isDigit = true) :
    restOf (eatWhole (c :: cs)) <:+ cs := by
  unfold eatWhole
  split
  · next rest heq =>
      cases heq
      have h := (eatDigits_suffix Char.isDigit rest).trans (List.suffix_cons 'b' rest)
      split <;> simp_all [restOf]
  · next rest heq =>
      cases heq
      have h := (eatDigits_suffix Char.isDigit rest).trans (List.suffix_cons 'o' rest)
      split <;> simp_all [restOf]
  · next rest heq =>
      cases heq
      have h := (eatDigits_suffix isHexDigit rest).trans (List.suffix_cons 'x' rest)
      split <;> simp_all [restOf]
  · simp only [restOf, eatDigits, List.dropWhile_cons, hc, Bool.true_or, if_true]
    exact List.dropWhile_suffix _

/-- Also the part with the letter of the exponent is taken from the front, whether it is right or
wrong. -/
theorem eatExponentPart_suffix (allowed : Bool) (cs : List Char) :
    restOf (eatExponentPart allowed cs) <:+ cs := by
  unfold eatExponentPart
  split
  · next c rest =>
      have h := (eatExponent_suffix rest).trans (List.suffix_cons c rest)
      split
      · split <;> simp_all [restOf]
      · exact List.suffix_refl _
  · exact List.suffix_refl _

/-- A fraction is taken from the front of a text, whether it is right or wrong. -/
theorem eatFraction_suffix (decimal : Bool) (cs : List Char) :
    restOf (eatFraction decimal cs) <:+ cs := by
  unfold eatFraction
  split
  · next d rest =>
      split
      · have h := ((eatExponentPart_suffix true (eatDigits Char.isDigit (d :: rest)).2).trans
          (eatDigits_suffix _ _)).trans (List.suffix_cons '.' (d :: rest))
        split <;> simp_all [restOf]
      · exact List.suffix_refl _
  · exact eatExponentPart_suffix decimal _

/-- A number takes at least its first digit, so what is left is a suffix of what follows it, also
where the number is malformed. -/
theorem scanNumber_suffix {c : Char} {cs : List Char} (hc : c.isDigit = true) :
    (scanNumber (c :: cs)).2 <:+ cs := by
  have hw : restOf (eatWhole (c :: cs)) <:+ cs := eatWhole_suffix hc
  unfold scanNumber eatNumber
  cases hwhole : eatWhole (c :: cs) with
  | error e =>
      rw [hwhole] at hw
      exact hw
  | ok r =>
      obtain ⟨decimal, rest⟩ := r
      rw [hwhole] at hw
      have hf := (eatFraction_suffix decimal rest).trans hw
      simp only [bind, Except.bind]
      cases hfrac : eatFraction decimal rest with
      | error e =>
          rw [hfrac] at hf
          exact hf
      | ok r =>
          obtain ⟨fractional, rest'⟩ := r
          rw [hfrac] at hf
          dsimp only
          split
          · next heq =>
              split at heq
              · cases heq
                exact (List.dropWhile_suffix _).trans hf
              · cases heq
          · next heq =>
              split at heq
              · cases heq
              · cases heq
                exact hf

/-- The end of a string is looked for in order, and what is left stands behind it. -/
theorem closeString?_suffix {cs rest : List Char} (h : closeString? cs = some rest) :
    rest <:+ cs := by
  fun_induction closeString? cs with
  | case1 => cases h
  | case2 rest' =>
      cases h
      exact List.suffix_cons _ _
  | case3 d rest' ih => exact ((ih h).trans (List.suffix_cons _ _)).trans (List.suffix_cons _ _)
  | case4 d rest' _ _ ih => exact (ih h).trans (List.suffix_cons _ _)

/-- A string takes at least its quote, also one without an end. -/
theorem scanString_suffix (c : Char) (cs : List Char) : (scanString (c :: cs)).2 <:+ cs := by
  unfold scanString
  split
  · exact List.nil_suffix
  · next rest hclose =>
      have h := closeString?_suffix hclose
      split
      · exact h
      · exact h

/-! ### Symbols -/

/-- The longer of two matches is one of them. -/
theorem eq_or_eq_of_longer {a b : Option (List Char × TokenKind)} {s : List Char × TokenKind}
    (h : longer a b = some s) : a = some s ∨ b = some s := by
  unfold longer at h
  split at h
  · split at h
    · exact .inr h
    · exact .inl h
  · exact .inl h
  · exact .inr h

/-- A symbol that was matched is one of the symbols, and the text starts with it. -/
theorem longestMatch_mem {cs : List Char} {symbols : List (List Char × TokenKind)}
    {s : List Char × TokenKind} (h : longestMatch cs symbols = some s) :
    s ∈ symbols ∧ s.1 <+: cs := by
  have hfold : ∀ l : List (List Char × TokenKind),
      l.foldr (fun s best => longer best (some s)) none = some s → s ∈ l := by
    intro l
    induction l with
    | nil => exact nofun
    | cons a l ih =>
        intro h
        rcases eq_or_eq_of_longer h with hb | hb
        · exact List.mem_cons_of_mem a (ih hb)
        · cases hb
          exact List.mem_cons_self
  obtain ⟨hmem, hp⟩ := List.mem_filter.mp (hfold _ h)
  exact ⟨hmem, List.isPrefixOf_iff_prefix.mp hp⟩

namespace Grammar

/-- The symbols of a grammar are not empty, so that each of them takes something. -/
def Usable (g : Grammar) : Prop :=
  (∀ r ∈ g.operators, r.symbol.toList ≠ []) ∧ ∀ r ∈ g.punctuation, r.symbol.toList ≠ []

/-- The check of a grammar refuses empty symbols. -/
theorem checkSymbols_ne_nil {seen symbols : List String} (h : checkSymbols seen symbols = .ok ())
    {s : String} (hs : s ∈ symbols) : s.toList ≠ [] := by
  induction symbols generalizing seen with
  | nil => cases hs
  | cons t rest ih =>
      rw [checkSymbols] at h
      split at h
      · cases h
      · next ht =>
          split at h
          · cases h
          · rcases List.mem_cons.mp hs with rfl | hs
            · intro he
              simp [isSymbol, he] at ht
            · exact ih h hs

/-- A grammar is accepted if its symbols pass the check, and is then sorted and not changed
otherwise. -/
theorem validate_eq_ok {g g' : Grammar} (h : g.validate = .ok g') :
    checkSymbols (g.keywords.map (·.1))
      (g.operators.map (·.symbol) ++ g.punctuation.map (·.symbol)) = .ok () ∧
    g' = g.sortSymbols := by
  unfold validate at h
  simp only [bind, Except.bind] at h
  split at h
  · cases h
  split at h
  · cases h
  split at h
  · cases h
  split at h
  · cases h
  next u hsymbols =>
    refine ⟨hsymbols, ?_⟩
    repeat (split at h; · cases h)
    cases h
    rfl

/-- **Validation.** The grammar that validation gives is usable. -/
theorem usable_of_validate {g g' : Grammar} (h : g.validate = .ok g') : g'.Usable := by
  obtain ⟨hsymbols, rfl⟩ := validate_eq_ok h
  constructor
  · intro r hr
    have hmem : r ∈ g.operators := List.mem_mergeSort.mp hr
    exact checkSymbols_ne_nil hsymbols (List.mem_append_left _ (List.mem_map_of_mem hmem))
  · intro r hr
    have hmem : r ∈ g.punctuation := List.mem_mergeSort.mp hr
    exact checkSymbols_ne_nil hsymbols (List.mem_append_right _ (List.mem_map_of_mem hmem))

/-- The symbol that is found is not empty, and the text starts with it. -/
theorem Usable.symbol? {g : Grammar} (hg : g.Usable) {cs : List Char}
    {s : List Char × TokenKind} (h : g.symbol? cs = some s) : s.1 ≠ [] ∧ s.1 <+: cs := by
  rcases eq_or_eq_of_longer h with h | h
  · obtain ⟨hmem, hp⟩ := longestMatch_mem h
    obtain ⟨r, hr, rfl⟩ := List.mem_map.mp hmem
    exact ⟨hg.1 r (List.mem_filter.mp hr).1, hp⟩
  · obtain ⟨hmem, hp⟩ := longestMatch_mem h
    obtain ⟨r, hr, rfl⟩ := List.mem_map.mp hmem
    exact ⟨hg.2 r hr, hp⟩

end Grammar

/-! ### Tokens -/

/-- A word is never the end of the text. -/
theorem wordKind_ne_eof (g : Grammar) (word : List Char) : g.wordKind word ≠ .eof := by
  unfold Grammar.wordKind
  split <;> simp

/-- A number is never the end of the text. -/
theorem numberKind_ne_eof (decimal fractional : Bool) (text : List Char) :
    numberKind decimal fractional text ≠ .ok .eof := by
  unfold numberKind
  split
  · split
    · cases readFloatLiteral text <;> simp [Functor.map, Except.map]
    · simp
  · cases readIntLiteral text <;> simp [Functor.map, Except.map]

/-- What begins with a digit is never the end of the text. -/
theorem scanNumber_ne_eof (cs : List Char) : (scanNumber cs).1 ≠ .ok .eof := by
  unfold scanNumber
  split
  · simp
  · exact numberKind_ne_eof _ _ _

/-- What begins with a quote is never the end of the text. -/
theorem scanString_ne_eof (cs : List Char) : (scanString cs).1 ≠ .ok .eof := by
  unfold scanString
  split
  · simp
  · split <;> simp

/-- A symbol of the grammar is never the end of the text. -/
theorem symbol?_ne_eof {g : Grammar} {cs symbol : List Char} : g.symbol? cs ≠ some (symbol, .eof) := by
  intro h
  rcases eq_or_eq_of_longer h with h | h
  · obtain ⟨r, -, he⟩ := List.mem_map.mp (longestMatch_mem h).1
    cases he
  · obtain ⟨r, -, he⟩ := List.mem_map.mp (longestMatch_mem h).1
    cases he

/-- **Tokens.** A token takes its first character, also when it is wrong, and is never the end of
the input. -/
theorem scanToken_takes {g : Grammar} (hg : g.Usable) (c : Char) (cs : List Char) :
    (∃ lexeme, lexeme ≠ [] ∧ c :: cs = lexeme ++ (scanToken g c cs).2) ∧
      (scanToken g c cs).1 ≠ .ok .eof := by
  have hsuffix : ∀ {rest : List Char}, rest <:+ cs →
      ∃ lexeme, lexeme ≠ [] ∧ c :: cs = lexeme ++ rest := by
    rintro rest ⟨t, rfl⟩
    exact ⟨c :: t, List.cons_ne_nil _ _, rfl⟩
  have hmap : ∀ {r : Except LexFault TokenKind} {rule : LexRule}, r ≠ .ok .eof →
      r.mapError (·, rule) ≠ .ok .eof := by
    intro r rule hr
    cases r with
    | ok k => simpa [Except.mapError] using hr
    | error e => simp [Except.mapError]
  unfold scanToken
  split
  · exact ⟨hsuffix (List.dropWhile_suffix _), by simpa using wordKind_ne_eof g _⟩
  · split
    · next hd => exact ⟨hsuffix (scanNumber_suffix hd), hmap (scanNumber_ne_eof _)⟩
    · split
      · exact ⟨hsuffix (scanString_suffix c cs), hmap (scanString_ne_eof _)⟩
      · split
        · next symbol kind hs =>
            obtain ⟨hne, t, ht⟩ := hg.symbol? hs
            refine ⟨⟨symbol, hne, ?_⟩, fun he => ?_⟩
            · dsimp only
              rw [← ht, List.drop_left]
            · cases he
              exact symbol?_ne_eof hs
        · exact ⟨hsuffix (List.suffix_refl _), by simp⟩

/-! ### Items -/

/-- The range of an item. -/
def LexItem.range : LexItem → Range
  | .ok t => t.range
  | .error e => e.range

/-- The range of what stands between two parts of a text. -/
def Range.between (before lexeme : List Char) : Range :=
  ⟨byteLength before, byteLength (before ++ lexeme)⟩

namespace Lexer

/-- A lexer has `before` behind it. -/
def At (lexer : Lexer) (before : List Char) : Prop :=
  lexer.location.offset = byteLength before

/-- A lexer that moves past a part of the text has that part behind it as well. -/
theorem At.moveTo {lexer : Lexer} {before taken rest : List Char} (h : lexer.At before)
    (hr : lexer.rest = taken ++ rest) : (lexer.moveTo rest).At (before ++ taken) := by
  unfold At Lexer.moveTo
  rw [hr, consumed_append, offset_foldl_advance, h, byteLength_append]

/-- The item that a lexer finds with `before` behind it, and the lexer after it. -/
inductive Scans (lexer : Lexer) (before : List Char) : LexItem → Lexer → Prop
  /-- Nothing but a gap is left. -/
  | eof {gap : List Char} {t : Token} {after : Lexer} (hr : lexer.rest = gap)
    (hg : Gap lexer.grammar [] gap) (hk : t.kind = .eof) (ht : t.text = [])
    (hrange : t.range = .between (before ++ gap) []) (hafter : after.rest = []) :
    Scans lexer before (.ok t) after
  /-- A token behind a gap. -/
  | token {gap rest : List Char} {t : Token} {after : Lexer}
    (hr : lexer.rest = gap ++ t.text ++ rest)
    (hg : Gap lexer.grammar (t.text ++ rest) gap) (hk : t.kind ≠ .eof) (ht : t.text ≠ [])
    (hrange : t.range = .between (before ++ gap) t.text) (hafter : after.rest = rest)
    (hat : after.At (before ++ gap ++ t.text)) : Scans lexer before (.ok t) after
  /-- Something wrong behind a gap. -/
  | error {gap wrong rest : List Char} {e : LexError} {after : Lexer}
    (hr : lexer.rest = gap ++ wrong ++ rest) (hg : Gap lexer.grammar (wrong ++ rest) gap)
    (hw : wrong ≠ []) (hrange : e.range = .between (before ++ gap) wrong)
    (hafter : after.rest = rest) (hat : after.At (before ++ gap ++ wrong)) :
    Scans lexer before (.error e) after

/-- **One item.** What a scan gives is the end behind a gap, or a token or an error behind one, and
it has the range of what was taken. The gap is blanks and comments. -/
theorem scan_scans {lexer : Lexer} {before : List Char} (hg : lexer.grammar.Usable)
    (hat : lexer.At before) : lexer.Scans before lexer.scan.1 lexer.scan.2 := by
  have hskip : Skips lexer.grammar lexer.rest _ := skipTrivia_skips (lexer.rest.length + 1) lexer.rest
  unfold scan
  cases htrivia : skipTrivia lexer.grammar (lexer.rest.length + 1) lexer.rest with
  | error comment =>
      rw [htrivia] at hskip
      obtain ⟨hne, gap, hr, hgap⟩ := hskip
      have hstart := hat.moveTo hr
      have hend : ((lexer.moveTo comment).moveTo []).At (before ++ gap ++ comment) :=
        hstart.moveTo (List.append_nil comment).symm
      have hr' : lexer.rest = gap ++ comment ++ [] := by rw [hr, List.append_nil]
      refine .error hr' (by rwa [List.append_nil]) hne ?_ rfl hend
      rw [Range.between, ← hstart, ← hend]
  | ok rest =>
      rw [htrivia] at hskip
      obtain ⟨gap, hr, hgap⟩ := hskip
      have hstart := hat.moveTo hr
      cases rest with
      | nil =>
          refine .eof (hr.trans (List.append_nil gap)) hgap rfl rfl ?_ rfl
          rw [Range.between, List.append_nil, ← hstart]
      | cons c cs =>
          obtain ⟨⟨lexeme, hne, hlex⟩, hkind⟩ := scanToken_takes hg c cs
          have htext : consumed (c :: cs) (scanToken lexer.grammar c cs).2 = lexeme := by
            rw [hlex, consumed_append]
          dsimp only
          rw [htext]
          generalize scanToken lexer.grammar c cs = scanned at hlex hkind ⊢
          obtain ⟨result, left⟩ := scanned
          have hend : ((lexer.moveTo (c :: cs)).moveTo left).At (before ++ gap ++ lexeme) :=
            hstart.moveTo hlex
          have hr' : lexer.rest = gap ++ lexeme ++ left := by rw [hr, hlex, List.append_assoc]
          rw [hlex] at hgap
          have hrange : (⟨(lexer.moveTo (c :: cs)).location.offset,
              ((lexer.moveTo (c :: cs)).moveTo left).location.offset⟩ : Range) =
              .between (before ++ gap) lexeme := by
            rw [Range.between, ← hstart, ← hend]
          cases result with
          | ok kind =>
              exact .token hr' hgap (fun he => hkind (congrArg Except.ok he)) hne hrange rfl hend
          | error e => exact .error hr' hgap hne hrange rfl hend

/-- Recovery goes on at an ending of the text. -/
theorem skipToBoundary_suffix (g : Grammar) (cs : List Char) : skipToBoundary g cs <:+ cs := by
  induction cs with
  | nil => exact List.suffix_refl _
  | cons c cs ih =>
      rw [skipToBoundary]
      split
      · exact List.suffix_refl _
      · exact ih.trans (List.suffix_cons c cs)

end Lexer

end Parlance
