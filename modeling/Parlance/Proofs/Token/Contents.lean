import Parlance.Proofs.Token.Coverage

/-!
# The contents of a text

The content of a token is its kind and its lexeme. A text without lexical errors spells a
sequence of contents: at each place blanks and comments are left out, and the token that begins
there is taken. `Spells` says so without lexers, places and items, and `lexes_iff_spells` says
that this is what the lexer finds. So what is proved by induction on `Spells` holds of the tokens
that the lexer gives.

## Main definitions

* `Bare`: a text that begins with no blank and no comment.
* `Scanned`: a token at its place in a text.
* `Spells`: the contents of a text.
* `Lexes`: the lexer gives these contents and the end of the input.

## Main results

* `lexItems_scanned`: every token of a text was scanned at its place.
* `lexes_iff_spells`: the lexer gives the contents of the text.
-/

namespace Parlance

/-! ### Where trivia end -/

/-- A symbol is not taken from a text exactly if it is empty or the text does not begin with it. -/
theorem eatSymbol?_eq_none_iff {symbol cs : List Char} :
    eatSymbol? symbol cs = none ↔ (symbol ≠ [] → ¬ symbol <+: cs) := by
  rw [← not_iff_not, ← ne_eq, Option.ne_none_iff_exists']
  simp only [eatSymbol?_eq_some, Classical.not_imp, not_not]
  exact ⟨fun ⟨rest, hne, h⟩ => ⟨hne, rest, h.symm⟩, fun ⟨hne, rest, h⟩ => ⟨rest, hne, h.symm⟩⟩

/-- A text that begins with no blank and no comment. -/
structure Bare (g : Grammar) (cs : List Char) : Prop where
  blank : ∀ c ∈ cs.head?, isBlank c = false
  lineComment : g.lineComment.toList ≠ [] → ¬ g.lineComment.toList <+: cs
  blockComment : g.blockComment.1.toList ≠ [] → ¬ g.blockComment.1.toList <+: cs

section

variable {g : Grammar} {cs rest : List Char}

/-- The empty text is bare. -/
theorem bare_nil : Bare g [] :=
  ⟨nofun, fun hne hp => hne (List.prefix_nil.mp hp), fun hne hp => hne (List.prefix_nil.mp hp)⟩

/-- A text is bare if the lexer finds no blank and no comment in front of it. -/
theorem bare_iff : Bare g cs ↔ cs.head?.any isBlank = false ∧
    eatSymbol? g.lineComment.toList cs = none ∧ eatSymbol? g.blockComment.1.toList cs = none := by
  have hblank : cs.head?.any isBlank = false ↔ ∀ c ∈ cs.head?, isBlank c = false := by
    cases cs <;> simp
  rw [hblank, eatSymbol?_eq_none_iff, eatSymbol?_eq_none_iff]
  exact ⟨fun ⟨hb, hl, ho⟩ => ⟨hb, hl, ho⟩, fun ⟨hb, hl, ho⟩ => ⟨hb, hl, ho⟩⟩

instance : Decidable (Bare g cs) :=
  decidable_of_iff _ bare_iff.symm

/-- Nothing is left out of a bare text. -/
theorem Bare.skipTrivia (h : Bare g cs) (fuel : Nat) : skipTrivia g fuel cs = .ok cs := by
  obtain ⟨hblank, hline, hblock⟩ := bare_iff.mp h
  cases fuel with
  | zero => rfl
  | succ fuel =>
      rw [Parlance.skipTrivia, hblank, hline, hblock]
      rfl

/-- What is left after blanks and comments is bare. Each round takes a character at least, so fuel
beyond the length of the text does not run out before there is nothing more to skip. -/
theorem bare_of_skipTrivia {fuel : Nat} (h : skipTrivia g fuel cs = .ok rest)
    (hfuel : cs.length < fuel) : Bare g rest := by
  induction fuel generalizing cs with
  | zero => exact absurd hfuel (Nat.not_lt_zero _)
  | succ fuel ih =>
      rw [skipTrivia] at h
      split at h
      · next hblank =>
          refine ih h ?_
          cases cs with
          | nil => cases hblank
          | cons c cs =>
              have hc : isBlank c = true := by simpa using hblank
              rw [List.dropWhile_cons_of_pos hc]
              have := (List.dropWhile_suffix isBlank (l := cs)).length_le
              rw [List.length_cons] at hfuel
              omega
      · next hblank =>
          split at h
          · next after hline =>
              obtain ⟨hne, rfl⟩ := eatSymbol?_eq_some.mp hline
              refine ih h ?_
              have := (List.dropWhile_suffix (· != '\n') (l := after)).length_le
              have := List.length_pos_iff.mpr hne
              rw [List.length_append] at hfuel
              omega
          · next hline =>
              split at h
              · next after hblock =>
                  obtain ⟨hne, rfl⟩ := eatSymbol?_eq_some.mp hblock
                  split at h
                  · next after' hclose =>
                      obtain ⟨body, hbody, -⟩ := closeComment?_nested hclose
                      rw [List.drop_zero] at hbody
                      refine ih h ?_
                      have := List.length_pos_iff.mpr hne
                      rw [List.length_append, hbody, List.length_append] at hfuel
                      omega
                  · cases h
              · next hblock =>
                  cases h
                  exact bare_iff.mpr ⟨Bool.eq_false_iff.mpr hblank, hline, hblock⟩

end

/-! ### One item -/

namespace Lexer

variable {lexer : Lexer} {before : List Char}

/-- The end of the input behind blanks and comments. -/
theorem scan_eof (h : skipTrivia lexer.grammar (lexer.rest.length + 1) lexer.rest = .ok []) :
    ∃ t, lexer.scan = (.ok t, lexer.moveTo []) ∧ t.kind = .eof := by
  unfold scan
  rw [h]
  exact ⟨_, rfl, rfl⟩

/-- A token behind blanks and comments. -/
theorem scan_token {c : Char} {cs left : List Char} {kind : TokenKind}
    (h : skipTrivia lexer.grammar (lexer.rest.length + 1) lexer.rest = .ok (c :: cs))
    (hs : scanToken lexer.grammar c cs = (.ok kind, left)) :
    ∃ t, lexer.scan = (.ok t, (lexer.moveTo (c :: cs)).moveTo left) ∧ t.kind = kind ∧
      t.text = consumed (c :: cs) left := by
  unfold scan
  rw [h]
  dsimp only
  rw [hs]
  exact ⟨_, rfl, rfl, rfl⟩

/-- How an item that is no error was found: behind blanks and comments stands the end of the text,
or a character at which a token was scanned. -/
theorem skipTrivia_of_scan {t : Token} (h : lexer.scan.1 = .ok t) :
    (skipTrivia lexer.grammar (lexer.rest.length + 1) lexer.rest = .ok [] ∧ t.kind = .eof) ∨
    ∃ c cs, skipTrivia lexer.grammar (lexer.rest.length + 1) lexer.rest = .ok (c :: cs) ∧
      scanToken lexer.grammar c cs = (.ok t.kind, lexer.scan.2.rest) := by
  cases htrivia : skipTrivia lexer.grammar (lexer.rest.length + 1) lexer.rest with
  | error comment =>
      unfold scan at h
      rw [htrivia] at h
      cases h
  | ok rest =>
      cases rest with
      | nil =>
          obtain ⟨t', hscan, hk⟩ := scan_eof htrivia
          rw [hscan] at h
          cases h
          exact .inl ⟨rfl, hk⟩
      | cons c cs =>
          refine .inr ⟨c, cs, rfl, ?_⟩
          cases hs : scanToken lexer.grammar c cs with
          | mk result left =>
              cases result with
              | ok kind =>
                  obtain ⟨t', hscan, hk, -⟩ := scan_token htrivia hs
                  rw [hscan] at h ⊢
                  cases h
                  rw [hk]
                  rfl
              | error e =>
                  unfold scan at h
                  rw [htrivia] at h
                  dsimp only at h
                  rw [hs] at h
                  cases h

end Lexer

/-! ### Tokens at their places -/

/-- A token that was scanned at its place in a text. -/
inductive Scanned (g : Grammar) (text : List Char) (t : Token) : Prop
  | mk {before after cs : List Char} {c : Char} (htext : text = before ++ c :: cs)
    (hlexeme : c :: cs = t.text ++ after) (hrange : t.range = .between before t.text)
    (hbare : Bare g (c :: cs)) (hscan : scanToken g c cs = (.ok t.kind, after)) : Scanned g text t

namespace Lexer

variable {lexer : Lexer} {before : List Char}

/-- A token that a lexer finds was scanned at its place. What was taken before it is a prefix of the
text, so the place is known from the text alone. -/
theorem scanned_of_scan (hg : lexer.grammar.Usable) (hat : lexer.At before) {t : Token}
    (h : lexer.scan.1 = .ok t) (hk : t.kind ≠ .eof) :
    Scanned lexer.grammar (before ++ lexer.rest) t := by
  rcases skipTrivia_of_scan h with ⟨-, heof⟩ | ⟨c, cs, htrivia, hscan⟩
  · exact absurd heof hk
  · have hskip := skipTrivia_skips (g := lexer.grammar) (lexer.rest.length + 1) lexer.rest
    rw [htrivia] at hskip
    obtain ⟨gap, hrest, -⟩ := hskip
    obtain ⟨⟨lexeme, -, hlexeme⟩, -⟩ := scanToken_takes hg c cs
    rw [hscan] at hlexeme
    have hscans := lexer.scan_scans hg hat
    rw [h] at hscans
    cases hscans with
    | eof _ _ heof => exact absurd heof hk
    | @token gap' rest _ _ hr _ _ _ hrange hafter _ =>
        -- the item is what stands in front of the rest, and so is the lexeme
        obtain ⟨t', ht', -, htext⟩ := scan_token htrivia hscan
        rw [ht'] at h
        cases h
        rw [hlexeme, consumed_append] at htext
        have hgap : gap = gap' := by
          rw [hrest, hlexeme, hafter, htext, List.append_assoc] at hr
          exact List.append_cancel_right hr
        exact .mk (by rw [hrest, List.append_assoc]) (htext ▸ hlexeme) (hgap ▸ hrange)
          (bare_of_skipTrivia htrivia (Nat.lt_succ_self _)) hscan

/-- After an item a lexer stands at a later place of the same text, or it is done. After an error it
stands at the next boundary, if it goes on at all. -/
theorem settle_at (hg : lexer.grammar.Usable) (hat : lexer.At before) :
    (lexer.scan.2.settle lexer.scan.1).done = true ∨
    ∃ taken, taken ≠ [] ∧ lexer.rest = taken ++ (lexer.scan.2.settle lexer.scan.1).rest ∧
      (lexer.scan.2.settle lexer.scan.1).At (before ++ taken) ∧
      (lexer.scan.2.settle lexer.scan.1).grammar = lexer.grammar := by
  have hscan := lexer.scan_scans hg hat
  have hgrammar : lexer.scan.2.grammar = lexer.grammar := by rw [lexer.scan_moves]
  generalize lexer.scan = scanned at hscan hgrammar ⊢
  obtain ⟨item, after⟩ := scanned
  dsimp only at hscan hgrammar ⊢
  cases hscan with
  | eof _ _ hk => exact .inl (by rw [settle, if_pos hk])
  | @token gap rest t _ hr hgap hk ht _ hafter hnext =>
      rw [settle, if_neg hk]
      refine .inr ⟨gap ++ t.text, fun he => ht (List.append_eq_nil_iff.mp he).2, ?_, ?_, hgrammar⟩
      · rw [hr, hafter]
      · rwa [← List.append_assoc]
  | @error gap wrong rest e _ hr hgap hw _ hafter hnext =>
      dsimp only [settle]
      split
      · exact .inl rfl
      · obtain ⟨skipped, hskipped⟩ := skipToBoundary_suffix after.grammar after.rest
        have hrest : rest = skipped ++ skipToBoundary after.grammar after.rest := by
          rw [hskipped, hafter]
        refine .inr ⟨gap ++ wrong ++ skipped, fun he => hw ?_, ?_, ?_, hgrammar⟩
        · exact (List.append_eq_nil_iff.mp (List.append_eq_nil_iff.mp he).1).2
        · rw [hr, hrest, ← List.append_assoc]
          rfl
        · have := hnext.moveTo hskipped.symm
          simpa using this

/-- Every token that a lexer gives was scanned at its place. -/
theorem takeItems_scanned (fuel : Nat) (hg : lexer.grammar.Usable) (hat : lexer.At before)
    {t : Token} (ht : .ok t ∈ (takeItems fuel lexer).1) (hk : t.kind ≠ .eof) :
    Scanned lexer.grammar (before ++ lexer.rest) t := by
  induction fuel generalizing lexer before with
  | zero => cases ht
  | succ fuel ih =>
      by_cases hdone : lexer.done = true
      · rw [takeItems_of_done hdone] at ht
        cases ht
      · rw [takeItems_succ (Bool.eq_false_iff.mpr hdone)] at ht
        rcases List.mem_cons.mp ht with ht | ht
        · exact scanned_of_scan hg hat ht.symm hk
        · rcases settle_at hg hat with hend | ⟨taken, -, hrest, hat', hgrammar⟩
          · rw [takeItems_of_done hend] at ht
            cases ht
          · have h := ih (hgrammar ▸ hg) hat' ht
            rwa [hgrammar, List.append_assoc, ← hrest] at h

end Lexer

/-- Every token of a text was scanned at its place. -/
theorem lexItems_scanned {g : Grammar} (hg : g.Usable) {recovery : Recovery} {text : List Char}
    {t : Token} (ht : .ok t ∈ lexItems g recovery text) (hk : t.kind ≠ .eof) :
    Scanned g text t := by
  have hat : (Lexer.ofText g recovery text).At [] := rfl
  have h := Lexer.takeItems_scanned (text.length + 1) hg hat ht hk
  rwa [List.nil_append] at h

/-! ### Contents -/

/-- What a token is, and its lexeme. -/
abbrev Content := TokenKind × List Char

def Token.content (t : Token) : Content :=
  (t.kind, t.text)

/-- The contents of a text: each token begins where the blanks and comments in front of it end,
and after the last one nothing else is left. -/
inductive Spells (g : Grammar) : List Char → List Content → Prop
  | done {cs : List Char} (htrivia : skipTrivia g (cs.length + 1) cs = .ok []) : Spells g cs []
  | token {text cs lexeme rest : List Char} {c : Char} {kind : TokenKind} {contents : List Content}
    (htrivia : skipTrivia g (text.length + 1) text = .ok (c :: cs))
    (hlexeme : c :: cs = lexeme ++ rest) (hscan : scanToken g c cs = (.ok kind, rest))
    (h : Spells g rest contents) : Spells g text ((kind, lexeme) :: contents)

/-! #### Blanks -/

/-- Fuel beyond the length of the text makes no difference, since each blank or comment that is
skipped takes a character at least. -/
theorem skipTrivia_succ {g : Grammar} {cs : List Char} {fuel : Nat} (hfuel : cs.length < fuel) :
    skipTrivia g (fuel + 1) cs = skipTrivia g fuel cs := by
  induction fuel generalizing cs with
  | zero => exact absurd hfuel (Nat.not_lt_zero _)
  | succ fuel ih =>
      conv_lhs => rw [skipTrivia]
      conv_rhs => rw [skipTrivia]
      split
      · next hblank =>
          refine ih ?_
          cases cs with
          | nil => cases hblank
          | cons c cs =>
              have hc : isBlank c = true := by simpa using hblank
              rw [List.dropWhile_cons_of_pos hc]
              have := (List.dropWhile_suffix isBlank (l := cs)).length_le
              rw [List.length_cons] at hfuel
              omega
      · split
        · next after hline =>
            obtain ⟨hne, rfl⟩ := eatSymbol?_eq_some.mp hline
            refine ih ?_
            have := (List.dropWhile_suffix (· != '\n') (l := after)).length_le
            have := List.length_pos_iff.mpr hne
            rw [List.length_append] at hfuel
            omega
        · split
          · next after hblock =>
              obtain ⟨hne, rfl⟩ := eatSymbol?_eq_some.mp hblock
              split
              · next after' hclose =>
                  obtain ⟨body, hbody, -⟩ := closeComment?_nested hclose
                  rw [List.drop_zero] at hbody
                  refine ih ?_
                  have := List.length_pos_iff.mpr hne
                  rw [List.length_append, hbody, List.length_append] at hfuel
                  omega
              · rfl
          · rfl

/-- All blanks at the front are left out at once. -/
theorem skipTrivia_of_blank {g : Grammar} {c : Char} (hc : isBlank c = true) (fuel : Nat)
    (cs : List Char) : skipTrivia g (fuel + 1) (c :: cs) = skipTrivia g fuel (cs.dropWhile isBlank) := by
  rw [skipTrivia, List.dropWhile_cons_of_pos hc, if_pos]
  exact hc

/-- A blank is passed over. -/
theorem skipTrivia_cons {g : Grammar} {c : Char} (hc : isBlank c = true) (cs : List Char) :
    skipTrivia g ((c :: cs).length + 1) (c :: cs) = skipTrivia g (cs.length + 1) cs := by
  rw [List.length_cons, skipTrivia_of_blank hc]
  cases cs with
  | nil => rfl
  | cons d cs =>
      cases hd : isBlank d with
      | false =>
          rw [List.dropWhile_cons_of_neg]
          exact Bool.eq_false_iff.mp hd
      | true =>
          rw [List.length_cons, skipTrivia_of_blank hd, List.dropWhile_cons_of_pos hd]
          exact skipTrivia_succ (Nat.lt_succ_of_le (List.dropWhile_suffix isBlank).length_le)

/-- A blank is left out. -/
theorem Spells.blank {g : Grammar} {c : Char} {cs : List Char} {contents : List Content}
    (hc : isBlank c = true) (h : Spells g cs contents) : Spells g (c :: cs) contents := by
  cases h with
  | done htrivia => exact .done ((skipTrivia_cons hc cs).trans htrivia)
  | token htrivia hlexeme hscan h =>
      exact .token ((skipTrivia_cons hc cs).trans htrivia) hlexeme hscan h

/-- A space in front of a text changes no token. -/
theorem Spells.space {g : Grammar} {cs : List Char} {contents : List Content}
    (h : Spells g cs contents) : Spells g (' ' :: cs) contents :=
  h.blank rfl

/-- A new line in front of a text changes no token. -/
theorem Spells.line {g : Grammar} {cs : List Char} {contents : List Content}
    (h : Spells g cs contents) : Spells g ('\n' :: cs) contents :=
  h.blank rfl

/-- The lexer gives tokens with these contents, then the end of the input, and no error. -/
def Lexes (g : Grammar) (recovery : Recovery) (text : List Char) (contents : List Content) : Prop :=
  ∃ tokens eof, lexItems g recovery text = (tokens ++ [eof]).map .ok ∧ eof.kind = .eof ∧
    tokens.map Token.content = contents

section

variable {g : Grammar} {text : List Char} {contents : List Content}

/-- Each token has a character of its own. -/
theorem Spells.length_le (hg : g.Usable) (h : Spells g text contents) :
    contents.length ≤ text.length := by
  induction h with
  | done => exact Nat.zero_le _
  | @token text cs lexeme rest c kind contents htrivia hlexeme hscan h ih =>
      have hskip := skipTrivia_skips (g := g) (text.length + 1) text
      rw [htrivia] at hskip
      obtain ⟨gap, rfl, -⟩ := hskip
      obtain ⟨⟨lexeme', hne, hlexeme'⟩, -⟩ := scanToken_takes hg c cs
      rw [hscan] at hlexeme'
      dsimp only at hlexeme'
      have := List.length_pos_iff.mpr hne
      rw [hlexeme', List.length_append, List.length_append, List.length_cons]
      omega

/-- A lexer gives the contents of its text, and the end behind them. The induction follows the
tokens that the text spells, and each of them is one item. -/
theorem Lexer.takeItems_of_spells (hg : g.Usable) (h : Spells g text contents) (fuel : Nat)
    (lexer : Lexer) (hgrammar : lexer.grammar = g) (hrest : lexer.rest = text)
    (hdone : lexer.done = false) (hfuel : contents.length < fuel) :
    ∃ tokens eof, (takeItems fuel lexer).1 = (tokens ++ [eof]).map .ok ∧ eof.kind = .eof ∧
      tokens.map Token.content = contents := by
  induction h generalizing fuel lexer with
  | done htrivia =>
      subst hgrammar hrest
      obtain ⟨fuel, rfl⟩ := Nat.exists_eq_succ_of_ne_zero (Nat.ne_of_gt hfuel)
      obtain ⟨t, hscan, hk⟩ := scan_eof htrivia
      rw [takeItems_succ hdone, hscan, settle, if_pos hk, takeItems_of_done rfl]
      exact ⟨[], t, rfl, hk, rfl⟩
  | @token text cs lexeme rest c kind contents htrivia hlexeme hscan h ih =>
      subst hgrammar hrest
      obtain ⟨fuel, rfl⟩ := Nat.exists_eq_succ_of_ne_zero (Nat.ne_zero_of_lt hfuel)
      obtain ⟨t, hitem, hk, htext⟩ := scan_token htrivia hscan
      have hne : t.kind ≠ .eof := by
        have := (scanToken_takes hg c cs).2
        rw [hscan] at this
        exact fun he => this (by rw [← hk, he])
      rw [hlexeme, consumed_append] at htext
      rw [takeItems_succ hdone, hitem]
      dsimp only
      rw [settle, if_neg hne]
      have hfuel' : contents.length < fuel := Nat.lt_of_succ_lt_succ hfuel
      obtain ⟨tokens, eof, htokens, heof, hcontents⟩ :=
        ih fuel ((lexer.moveTo (c :: cs)).moveTo rest) rfl rfl hdone hfuel'
      refine ⟨t :: tokens, eof, ?_, heof, ?_⟩
      · rw [htokens]
        rfl
      · rw [List.map_cons, hcontents, Token.content, hk, htext]

/-- A lexer that finds no error finds the contents of its text. The induction is on the fuel, and
each item leaves less text. -/
theorem Lexer.spells_of_takeItems (fuel : Nat) (lexer : Lexer) (before : List Char)
    (hg : lexer.grammar.Usable) (hat : lexer.At before) (hdone : lexer.done = false)
    (hfuel : lexer.rest.length < fuel) (herr : ∀ e, .error e ∉ (takeItems fuel lexer).1) :
    ∃ contents, Spells lexer.grammar lexer.rest contents := by
  induction fuel generalizing lexer before with
  | zero => exact absurd hfuel (Nat.not_lt_zero _)
  | succ fuel ih =>
      rw [takeItems_succ hdone] at herr
      obtain ⟨t, ht⟩ : ∃ t, lexer.scan.1 = .ok t := by
        cases hitem : lexer.scan.1 with
        | ok t => exact ⟨t, rfl⟩
        | error e => exact absurd (by rw [hitem]; exact List.mem_cons_self) (herr e)
      rcases skipTrivia_of_scan ht with ⟨htrivia, -⟩ | ⟨c, cs, htrivia, hscan⟩
      · exact ⟨[], .done htrivia⟩
      · obtain ⟨⟨lexeme, -, hlexeme⟩, hkind⟩ := scanToken_takes hg c cs
        rw [hscan] at hlexeme hkind
        have hne : t.kind ≠ .eof := fun he => hkind (by rw [he])
        have hsettle : lexer.scan.2.settle lexer.scan.1 = lexer.scan.2 := by
          rw [ht, settle, if_neg hne]
        have hgo : lexer.scan.2.done = false := by rw [lexer.scan_moves]; exact hdone
        rcases settle_at hg hat with hend | ⟨taken, hnil, hrest, hat', hgrammar⟩
        · rw [hsettle, hgo] at hend
          cases hend
        · rw [hsettle] at hrest hat' hgrammar herr
          have hlen : lexer.scan.2.rest.length < fuel := by
            have := List.length_pos_iff.mpr hnil
            rw [hrest, List.length_append] at hfuel
            omega
          obtain ⟨contents, h⟩ := ih _ _ (hgrammar ▸ hg) hat' hgo hlen fun e he =>
            herr e (List.mem_cons_of_mem _ he)
          exact ⟨_, .token htrivia hlexeme hscan (hgrammar ▸ h)⟩

/-- **Contents.** The lexer gives the contents of the text. -/
theorem lexes_of_spells (hg : g.Usable) (recovery : Recovery) (h : Spells g text contents) :
    Lexes g recovery text contents :=
  Lexer.takeItems_of_spells hg h (text.length + 1) (.ofText g recovery text) rfl rfl rfl
    (Nat.lt_succ_of_le (h.length_le hg))

/-- A text without lexical errors has contents. -/
theorem exists_spells {recovery : Recovery} (hg : g.Usable)
    (herr : ∀ e, .error e ∉ lexItems g recovery text) : ∃ contents, Spells g text contents :=
  Lexer.spells_of_takeItems (text.length + 1) (.ofText g recovery text) [] hg rfl rfl
    (Nat.lt_succ_self _) herr

/-- A text has one list of tokens. -/
theorem Lexes.unique {recovery : Recovery} {contents' : List Content}
    (h : Lexes g recovery text contents) (h' : Lexes g recovery text contents') : contents = contents' := by
  obtain ⟨tokens, eof, hitems, -, rfl⟩ := h
  obtain ⟨tokens', eof', hitems', -, rfl⟩ := h'
  have heq : tokens ++ [eof] = tokens' ++ [eof'] :=
    List.map_injective_iff.mpr (fun _ _ he => Except.ok.inj he) (hitems.symm.trans hitems')
  rw [(List.append_inj' heq rfl).1]

/-- A text that is lexed has no faulty item. -/
theorem Lexes.error_notMem {recovery : Recovery} (h : Lexes g recovery text contents) :
    ∀ e, .error e ∉ lexItems g recovery text := by
  obtain ⟨tokens, eof, hitems, -, -⟩ := h
  intro e he
  rw [hitems] at he
  obtain ⟨t, -, ht⟩ := List.mem_map.mp he
  cases ht

/-- What the lexer gives are the contents of the text, and nothing else. -/
theorem lexes_iff_spells {recovery : Recovery} (hg : g.Usable) :
    Lexes g recovery text contents ↔ Spells g text contents := by
  refine ⟨fun h => ?_, lexes_of_spells hg recovery⟩
  obtain ⟨contents', h'⟩ := exists_spells hg h.error_notMem
  rwa [h.unique (lexes_of_spells hg recovery h')]

end

end Parlance
