import Parlance.Proofs.Token.Matching

/-!
# The spellings of a grammar as texts

A rule of a grammar gives a keyword, an operator or a punctuation mark its spelling. Validation
does not make sure that the lexer can read each spelling: it knows one class of white space and the
lexer skips another one, it does not look at the delimiters of comments, and it accepts a word for a
punctuation mark, where the lexer looks words up among keywords and operators only. These are the
only ways in which it fails: every other spelling is one token of its kind.

## Main definitions

* `Grammar.rules`: what the grammar spells, and how.

## Main results

* `lexes_spelling_iff`: which spellings the lexer reads as what they stand for.
-/

namespace Parlance

namespace Grammar

/-- The spellings of a grammar, with what they stand for. -/
def rules (g : Grammar) : List (String × TokenKind) :=
  g.keywords.map (fun e => (e.1, .keyword e.2)) ++
    g.operators.map (fun r => (r.symbol, .operator r.operator)) ++
    g.punctuation.map fun r => (r.symbol, .punct r.punct)

variable {g : Grammar} {symbol : List Char} {spelling : String} {kind : TokenKind}

/-- A rule is one for a keyword, an operator or a punctuation mark. -/
theorem mem_rules : (spelling, kind) ∈ g.rules ↔
    (∃ e ∈ g.keywords, e.1 = spelling ∧ .keyword e.2 = kind) ∨
    (∃ r ∈ g.operators, r.symbol = spelling ∧ .operator r.operator = kind) ∨
    ∃ r ∈ g.punctuation, r.symbol = spelling ∧ .punct r.punct = kind := by
  simp [rules]

/-- The keyword of a spelling, if no two keywords are spelled alike. -/
theorem lookup_spelling {table : List (String × Keyword)} (hd : (table.map (·.1)).Nodup)
    {e : String × Keyword} (he : e ∈ table) : table.lookup e.1 = some e.2 := by
  obtain ⟨before, after, rfl⟩ := List.append_of_mem he
  refine List.lookup_eq_some_iff.mpr ⟨before, after, rfl, fun p hp => ?_⟩
  rw [List.map_append, List.nodup_append] at hd
  exact bne_iff_ne.mpr (Ne.symm (hd.2.2 _ (List.mem_map_of_mem hp) _ List.mem_cons_self))

/-- A keyword, or an operator that is a word, is found among the words. -/
theorem Valid.wordKind (hg : g.Valid) (hd : (g.keywords.map (·.1)).Nodup)
    (hr : (spelling, kind) ∈ g.rules) (hkind : ∀ p, kind ≠ .punct p) :
    g.wordKind spelling.toList = kind := by
  unfold Grammar.wordKind word?
  rw [String.ofList_toList]
  rcases mem_rules.mp hr with ⟨e, he, rfl, rfl⟩ | ⟨r, hmem, rfl, rfl⟩ | ⟨r, -, -, rfl⟩
  · rw [lookup_spelling hd he]
  · have hnone : g.keywords.lookup r.symbol = none := by
      have hapart := hg.apart _ (List.mem_append_left _ (List.mem_map_of_mem hmem))
      refine List.lookup_eq_none_iff.mpr fun e he => bne_iff_ne.mpr fun h => hapart ?_
      exact h ▸ List.mem_map_of_mem he
    rw [hnone, (find?_symbol_eq_some_iff hg.nodup_operators).mpr ⟨hmem, rfl⟩]
    rfl
  · exact absurd rfl (hkind r.punct)

/-- The spelling of a rule is a word or a symbol that begins like no word, number or string. This is
what validation has looked for. -/
theorem Valid.word_or_symbol (hg : g.Valid) (hr : (spelling, kind) ∈ g.rules) :
    isWord spelling.toList = true ∨
    (spelling.toList, kind) ∈ g.symbols ∧ ∃ c cs, spelling.toList = c :: cs ∧
      isIdStart c = false ∧ c.isDigit = false ∧ c ≠ '"' := by
  -- what validation finds out about the spelling of an operator or a punctuation mark
  have hshape : spelling ∈ g.spellings → isWord spelling.toList = true ∨
      ∃ c cs, spelling.toList = c :: cs ∧ isIdStart c = false ∧ c.isDigit = false ∧ c ≠ '"' := by
    intro hmem
    have h := hg.symbols _ hmem
    unfold isSymbol at h
    split at h
    · cases h
    · next c cs heq =>
        simp only [Bool.and_eq_true, Bool.or_eq_true, Bool.not_eq_true', bne_iff_ne] at h
        obtain ⟨⟨⟨⟨-, hdigit⟩, hquote⟩, -⟩, hstart⟩ := h
        rcases hstart with hstart | hword
        · exact .inr ⟨c, cs, heq, hstart, hdigit, hquote⟩
        · exact .inl (heq ▸ hword)
  rcases mem_rules.mp hr with ⟨e, he, rfl, rfl⟩ | ⟨r, hmem, rfl, rfl⟩ | ⟨r, hmem, rfl, rfl⟩
  · exact .inl (hg.words e he)
  · refine (hshape (List.mem_append_left _ (List.mem_map_of_mem hmem))).imp_right fun h => ⟨?_, h⟩
    obtain ⟨c, cs, heq, hstart, -⟩ := h
    refine List.mem_append_left _ (List.mem_map.mpr ⟨r, List.mem_filter.mpr ⟨hmem, ?_⟩, rfl⟩)
    simp [heq, hstart]
  · refine (hshape (List.mem_append_right _ (List.mem_map_of_mem hmem))).imp_right fun h => ⟨?_, h⟩
    exact List.mem_append_right _ (List.mem_map_of_mem hmem)

end Grammar

section

variable {g g' : Grammar} {spelling : String} {kind : TokenKind}

/-- A bare spelling is scanned as what it stands for, unless it is a word for a punctuation mark.
Those pass validation, but words are only looked up among keywords and operators. -/
theorem scanToken_spelling (hg : g.Valid) (hd : (g.keywords.map (·.1)).Nodup)
    (hr : (spelling, kind) ∈ g.rules)
    (hword : (∃ p, kind = .punct p) → isWord spelling.toList = false) :
    ∃ c cs, spelling.toList = c :: cs ∧ scanToken g c cs = (.ok kind, []) := by
  rcases hg.word_or_symbol hr with h | ⟨hmem, c, cs, heq, hstart, hdigit, hquote⟩
  · have hkind := hg.wordKind hd hr fun p hp => by
      rw [hword ⟨p, hp⟩] at h
      cases h
    generalize spelling.toList = symbol at h hkind
    cases symbol with
    | nil => cases h
    | cons c cs =>
        obtain ⟨hc, hcs⟩ := Bool.and_eq_true_iff.mp h
        have hall := List.all_eq_true.mp hcs
        refine ⟨c, cs, rfl, ?_⟩
        have hfound : Found g c cs _ _ := .word hc
        rw [List.takeWhile_eq_self_iff.mpr hall, List.dropWhile_eq_nil_iff.mpr hall,
          hkind] at hfound
        exact found_iff.mp hfound
  · have hlongest : Longest (c :: cs) g.symbols (spelling.toList, kind) :=
      ⟨hmem, by rw [heq], fun t _ ht => by rwa [heq]⟩
    have hfound := Found.symbol hstart hdigit hquote (hg.symbol?_eq_some_iff.mpr hlongest)
    rw [heq, List.drop_length] at hfound
    exact ⟨c, cs, heq, found_iff.mp hfound⟩

/-- **Which spellings can be read.** In a validated grammar whose keywords are spelled differently,
the lexer reads a spelling as the one token that it stands for, exactly if it begins with no blank
and no comment, and is no word for a punctuation mark. -/
theorem lexes_spelling_iff (hg : g.validate = .ok g') (hd : (g'.keywords.map (·.1)).Nodup)
    (recovery : Recovery) (hr : (spelling, kind) ∈ g'.rules) :
    Lexes g' recovery spelling.toList [(kind, spelling.toList)] ↔
      Bare g' spelling.toList ∧ ((∃ p, kind = .punct p) → isWord spelling.toList = false) := by
  have hu := Grammar.usable_of_validate hg
  have hvalid := Grammar.valid_of_validate hg
  rw [lexes_iff_spells hu]
  constructor
  · intro h
    cases h with
    | @token _ cs _ rest c _ _ htrivia hlexeme hscan h =>
        -- no character is left for a gap
        have hall : spelling.toList = c :: cs := by
          have hskip := skipTrivia_skips (g := g') (spelling.toList.length + 1) spelling.toList
          rw [htrivia] at hskip
          obtain ⟨gap, hgap, -⟩ := hskip
          have hlen := congrArg List.length hgap
          rw [hlexeme, List.length_append, List.length_append] at hlen
          obtain rfl : gap = [] := List.length_eq_zero_iff.mp (by omega)
          exact hgap
        refine ⟨hall ▸ bare_of_skipTrivia htrivia (Nat.lt_succ_self _), ?_⟩
        rintro ⟨p, rfl⟩
        refine Bool.eq_false_iff.mpr fun hword => ?_
        rw [hall] at hword
        rw [scanToken, if_pos (Bool.and_eq_true_iff.mp hword).1] at hscan
        exact wordKind_ne_punct _ p (Except.ok.inj (Prod.mk.inj hscan).1)
  · rintro ⟨hbare, hword⟩
    obtain ⟨c, cs, heq, hscan⟩ := scanToken_spelling hvalid hd hr hword
    rw [heq] at hbare ⊢
    exact .token (hbare.skipTrivia _) (List.append_nil _).symm hscan (.done (bare_nil.skipTrivia _))

/-- The lexer reads each spelling of the standard grammar. -/
theorem lexes_standard (recovery : Recovery)
    (hr : (spelling, kind) ∈ Grammar.standard.sortSymbols.rules) :
    Lexes Grammar.standard.sortSymbols recovery spelling.toList [(kind, spelling.toList)] := by
  have hd : (Grammar.standard.sortSymbols.keywords.map (·.1)).Nodup := by decide
  refine (lexes_spelling_iff validate_standard_sorted hd recovery hr).mpr ?_
  rcases Grammar.mem_rules.mp hr with ⟨e, he, rfl, rfl⟩ | ⟨r, hmem, rfl, rfl⟩ | ⟨r, hmem, rfl, rfl⟩
  · obtain ⟨kw, -, rfl⟩ := List.mem_map.mp he
    exact ⟨by cases kw <;> decide, nofun⟩
  · obtain ⟨op, -, rfl⟩ := List.mem_map.mp (List.mem_mergeSort.mp (List.mem_mergeSort.mp hmem))
    exact ⟨by cases op <;> decide, nofun⟩
  · obtain ⟨p, -, rfl⟩ := List.mem_map.mp (List.mem_mergeSort.mp (List.mem_mergeSort.mp hmem))
    exact ⟨by cases p <;> decide, fun _ => by cases p <;> decide⟩

end

/-- The standard grammar with a word for its semicolon. -/
def wordSemicolon : Grammar :=
  { Grammar.standard with
    operators := Operator.all.map fun op => ⟨op.name, op⟩
    punctuation := Punct.all.map fun p => ⟨if p = .semicolon then "end" else p.name, p⟩ }

/-- The grammar `wordSemicolon` passes all checks. -/
theorem wordSemicolon_valid : wordSemicolon.Valid where
  spelled := by decide
  words := by decide
  marked := by decide
  symbols := by decide
  distinct := by decide
  apart := by decide
  binary := by decide
  unary := by decide
  operators := by decide

/-- A grammar that is accepted, though its semicolon can not be read. -/
theorem validate_wordSemicolon : ∃ g', wordSemicolon.validate = .ok g' ∧
    ∀ recovery, ¬ Lexes g' recovery "end".toList [(.punct .semicolon, "end".toList)] := by
  have hg : wordSemicolon.validate = .ok wordSemicolon.sortSymbols :=
    Grammar.validate_eq_ok_iff.mpr ⟨wordSemicolon_valid, rfl⟩
  refine ⟨_, hg, fun recovery hlexes => ?_⟩
  have hmem : ⟨"end", .semicolon⟩ ∈ wordSemicolon.sortSymbols.punctuation :=
    List.mem_mergeSort.mpr (by decide)
  have hr : ("end", .punct .semicolon) ∈ wordSemicolon.sortSymbols.rules :=
    Grammar.mem_rules.mpr (.inr (.inr ⟨_, hmem, rfl, rfl⟩))
  have hd : (wordSemicolon.sortSymbols.keywords.map (·.1)).Nodup := by decide
  have hword := ((lexes_spelling_iff hg hd recovery hr).mp hlexes).2 ⟨_, rfl⟩
  exact absurd hword (by decide)

end Parlance
