import Parlance.Proofs.Token.Contents

/-!
# Which symbol is matched

Where no word, number or string begins, the lexer takes the longest operator or punctuation
mark that the text starts with. The symbols of a validated grammar are distinct, so the set of
symbols alone determines what is taken. The order of the tables makes no difference, neither
there nor in the look-up of words and in recovery.

## Main definitions

* `Grammar.Valid`: what validation checks.
* `Longest`: the longest of some symbols that a text starts with.
* `Grammar.Alike`: two grammars that the lexer can not tell apart.

## Main results

* `Grammar.validate_eq_ok_iff`: validation accepts exactly the valid grammars.
* `Grammar.Valid.symbol?_eq_some_iff`: the symbol that is matched is the longest one.
* `lexItems_anyOrder`: the order of the tables makes no difference.
-/

namespace Parlance

/-! ### Validation -/

namespace Grammar

/-- The spellings of the operators and punctuation marks. -/
def spellings (g : Grammar) : List String :=
  g.operators.map (·.symbol) ++ g.punctuation.map (·.symbol)

/-- What validation checks. -/
structure Valid (g : Grammar) : Prop where
  spelled : ∀ kw ∈ Keyword.all, ∃ e ∈ g.keywords, e.2 = kw
  words : ∀ e ∈ g.keywords, isWord e.1.toList = true
  marked : ∀ p ∈ Punct.all, ∃ r ∈ g.punctuation, r.punct = p
  symbols : ∀ s ∈ g.spellings, isSymbol s = true
  distinct : g.spellings.Nodup
  /-- No symbol spells a keyword. -/
  apart : ∀ s ∈ g.spellings, s ∉ g.keywords.map (·.1)
  binary : checkBinary [] g.binary = .ok ()
  unary : ∀ op ∈ g.unary, op = .sub ∨ op = .not
  operators : ∀ op ∈ g.binary.map (·.operator) ++ g.unary, ∃ r ∈ g.operators, r.operator = op

/-- A check of all items passes exactly if each item does. -/
theorem checkAll_eq_ok_iff {α : Type} {ok : α → Bool} {fault : α → GrammarError} {items : List α} :
    checkAll ok fault items = .ok () ↔ ∀ a ∈ items, ok a = true := by
  unfold checkAll
  split
  · next a h =>
      have hmem := List.mem_of_find?_eq_some h
      have hok := List.find?_some h
      simp only [Bool.not_eq_true', reduceCtorEq, false_iff] at hok ⊢
      exact fun hall => by simp [hall a hmem] at hok
  · next h => simpa using h

/-- The check of spellings passes exactly if each is a symbol, and none occurs twice or was seen
before. -/
theorem checkSymbols_eq_ok_iff {seen symbols : List String} :
    checkSymbols seen symbols = .ok () ↔
      (∀ s ∈ symbols, isSymbol s = true) ∧ symbols.Nodup ∧ ∀ s ∈ symbols, s ∉ seen := by
  induction symbols generalizing seen with
  | nil => simp [checkSymbols]
  | cons s rest ih =>
      rw [checkSymbols]
      by_cases hs : isSymbol s = true
      · by_cases hseen : s ∈ seen
        · simp [hs, hseen]
        · have hcons : (∀ t ∈ rest, t ∉ s :: seen) ↔ s ∉ rest ∧ ∀ t ∈ rest, t ∉ seen := by
            simp only [List.mem_cons, not_or, forall_and]
            exact and_congr_left fun _ => ⟨fun h hm => h s hm rfl, fun h t ht he => h (he ▸ ht)⟩
          simp only [hs, Bool.not_true, Bool.false_eq_true, if_false, List.contains_eq_mem,
            decide_eq_true_eq, hseen, ih, hcons, List.forall_mem_cons, List.nodup_cons]
          tauto
      · simp [hs]

/-- Two checks in a row pass exactly if both do. -/
theorem andThen_eq_ok_iff {α : Type} {check : Except GrammarError Unit}
    {rest : Except GrammarError α} {a : α} :
    (check >>= fun _ => rest) = .ok a ↔ check = .ok () ∧ rest = .ok a := by
  cases check <;> simp [bind, Except.bind]

/-- **Validation.** Exactly the valid grammars are accepted, with their symbols sorted. -/
theorem validate_eq_ok_iff {g g' : Grammar} :
    g.validate = .ok g' ↔ g.Valid ∧ g' = g.sortSymbols := by
  simp only [validate, andThen_eq_ok_iff, checkAll_eq_ok_iff, checkSymbols_eq_ok_iff,
    List.any_eq_true, beq_iff_eq, Bool.or_eq_true, List.forall_mem_map]
  constructor
  · rintro ⟨hk, hw, hp, ⟨hs, hd, ha⟩, hb, hu, ho, heq⟩
    exact ⟨⟨hk, hw, hp, hs, hd, ha, hb, hu, ho⟩, (Except.ok.inj heq).symm⟩
  · rintro ⟨⟨hk, hw, hp, hs, hd, ha, hb, hu, ho⟩, rfl⟩
    exact ⟨hk, hw, hp, ⟨hs, hd, ha⟩, hb, hu, ho, rfl⟩

/-- The grammar with its tables in another order. -/
def withTables (g : Grammar) (operators : List OperatorRule) (punctuation : List PunctRule) :
    Grammar :=
  { g with operators, punctuation }

/-- Sorting changes only the order of the tables. -/
theorem sortSymbols_eq_withTables (g : Grammar) : ∃ operators punctuation,
    operators.Perm g.operators ∧ punctuation.Perm g.punctuation ∧
      g.sortSymbols = g.withTables operators punctuation :=
  ⟨_, _, List.mergeSort_perm _ _, List.mergeSort_perm _ _, rfl⟩

section

variable {g : Grammar} {operators : List OperatorRule} {punctuation : List PunctRule}

/-- The spellings are the same in another order of the tables. -/
theorem spellings_withTables (ho : operators.Perm g.operators)
    (hp : punctuation.Perm g.punctuation) :
    (g.withTables operators punctuation).spellings.Perm g.spellings :=
  (ho.map _).append (hp.map _)

/-- Validation does not depend on the order of the tables. -/
theorem Valid.withTables (h : g.Valid) (ho : operators.Perm g.operators)
    (hp : punctuation.Perm g.punctuation) : (g.withTables operators punctuation).Valid where
  spelled := h.spelled
  words := h.words
  marked p hall := by
    obtain ⟨r, hr, he⟩ := h.marked p hall
    exact ⟨r, hp.mem_iff.mpr hr, he⟩
  symbols s hs := h.symbols s ((spellings_withTables ho hp).mem_iff.mp hs)
  distinct := (spellings_withTables ho hp).nodup_iff.mpr h.distinct
  apart s hs := h.apart s ((spellings_withTables ho hp).mem_iff.mp hs)
  binary := h.binary
  unary := h.unary
  operators op hop := by
    obtain ⟨r, hr, he⟩ := h.operators op hop
    exact ⟨r, ho.mem_iff.mpr hr, he⟩

end

/-- The grammar that validation gives is valid itself. -/
theorem valid_of_validate {g g' : Grammar} (h : g.validate = .ok g') : g'.Valid := by
  obtain ⟨hvalid, rfl⟩ := validate_eq_ok_iff.mp h
  obtain ⟨operators, punctuation, ho, hp, heq⟩ := sortSymbols_eq_withTables g
  rw [heq]
  exact hvalid.withTables ho hp

end Grammar

/-! ### The longest symbol -/

/-- A proper beginning of a text is shorter, as every character takes up a byte at least. -/
theorem byteLength_lt_of_prefix {s t : List Char} (h : s <+: t) (hne : s ≠ t) :
    byteLength s < byteLength t := by
  obtain ⟨u, rfl⟩ := h
  have hu : u ≠ [] := fun he => hne (by rw [he, List.append_nil])
  have := byteLength_pos hu
  rw [byteLength_append]
  omega

/-- Of two beginnings of a text, one that is not longer is a beginning of the other. -/
theorem prefix_of_byteLength_le {s t cs : List Char} (hs : s <+: cs) (ht : t <+: cs)
    (h : byteLength s ≤ byteLength t) : s <+: t := by
  rcases List.prefix_or_prefix_of_prefix hs ht with hst | hts
  · exact hst
  · by_cases he : t = s
    · exact he ▸ List.prefix_refl t
    · have := byteLength_lt_of_prefix hts he
      omega

/-- The longest of some symbols that a text starts with, with its kind. The others are
beginnings of it. -/
structure Longest (cs : List Char) (symbols : List (List Char × TokenKind))
    (s : List Char × TokenKind) : Prop where
  mem : s ∈ symbols
  starts : s.1 <+: cs
  longest : ∀ t ∈ symbols, t.1 <+: cs → t.1 <+: s.1

section

variable {cs : List Char} {symbols : List (List Char × TokenKind)} {s : List Char × TokenKind}

/-- The longer one of two matches is as long as each of them. Lengths are in bytes, as they are in
the lexer. -/
theorem byteLength_le_longer {a b : Option (List Char × TokenKind)} {t : List Char × TokenKind}
    (h : longer a b = some s) (ht : a = some t ∨ b = some t) :
    byteLength t.1 ≤ byteLength s.1 := by
  unfold longer at h
  split at h
  · next x y =>
      split at h
      · next hlt =>
          rcases ht with ht | ht <;> cases h <;> cases ht <;> omega
      · next hle =>
          rcases ht with ht | ht <;> cases h <;> cases ht <;> omega
  · rcases ht with ht | ht
    · cases h
      cases ht
      exact Nat.le_refl _
    · cases ht
  · rcases ht with ht | ht
    · cases ht
    · rw [h] at ht
      cases ht
      exact Nat.le_refl _

/-- The longer one of two matches is missing only if both are. -/
theorem longer_eq_none_iff {a b : Option (List Char × TokenKind)} :
    longer a b = none ↔ a = none ∧ b = none := by
  cases a with
  | none => simp [longer]
  | some x =>
      cases b with
      | none => simp [longer]
      | some y =>
          simp only [longer, reduceCtorEq, false_and, iff_false]
          split <;> simp

/-- Among some matches there is a longest one, unless there are none. -/
theorem foldr_longer_eq_none_iff {l : List (List Char × TokenKind)} :
    l.foldr (fun s best => longer best (some s)) none = none ↔ l = [] := by
  cases l with
  | nil => simp
  | cons a l => simp [longer_eq_none_iff]

/-- A walk that keeps the longer match comes to one that is as long as each it met. -/
theorem byteLength_le_foldr_longer {l : List (List Char × TokenKind)} {t : List Char × TokenKind}
    (h : l.foldr (fun s best => longer best (some s)) none = some s) (ht : t ∈ l) :
    byteLength t.1 ≤ byteLength s.1 := by
  induction l generalizing s with
  | nil => cases ht
  | cons a l ih =>
      rw [List.foldr_cons] at h
      rcases List.mem_cons.mp ht with rfl | ht
      · exact byteLength_le_longer h (.inr rfl)
      · obtain ⟨u, hu⟩ : ∃ u, l.foldr (fun s best => longer best (some s)) none = some u := by
          rw [← Option.ne_none_iff_exists', ne_eq, foldr_longer_eq_none_iff]
          exact List.ne_nil_of_mem ht
        exact Nat.le_trans (ih hu ht) (byteLength_le_longer h (.inl hu))

/-- Nothing matches exactly if the text starts with no symbol. -/
theorem longestMatch_eq_none_iff :
    longestMatch cs symbols = none ↔ ∀ s ∈ symbols, ¬ s.1 <+: cs := by
  simp [longestMatch, foldr_longer_eq_none_iff, List.filter_eq_nil_iff,
    List.isPrefixOf_iff_prefix]

/-- Every symbol that the text starts with is at most as long as the longest match. -/
theorem byteLength_le_longestMatch {t : List Char × TokenKind}
    (h : longestMatch cs symbols = some s) (ht : t ∈ symbols) (hp : t.1 <+: cs) :
    byteLength t.1 ≤ byteLength s.1 :=
  byteLength_le_foldr_longer h (List.mem_filter.mpr ⟨ht, List.isPrefixOf_iff_prefix.mpr hp⟩)

/-- Two longest symbols are the same, if no two symbols are spelled alike. -/
theorem Longest.unique {t : List Char × TokenKind} (h : Longest cs symbols s)
    (ht : Longest cs symbols t) (hd : (symbols.map (·.1)).Nodup) : s = t := by
  have hst := ht.longest s h.mem h.starts
  have hts := h.longest t ht.mem ht.starts
  have heq : s.1 = t.1 := hst.eq_of_length_le hts.length_le
  exact List.inj_on_of_nodup_map hd h.mem ht.mem heq

end

namespace Grammar

/-- What the lexer matches where no word, number or string begins: the operators that are not
words, and the punctuation marks. -/
def symbols (g : Grammar) : List (List Char × TokenKind) :=
  g.symbolOperators ++ g.symbolPuncts

variable {g : Grammar} {cs : List Char} {s : List Char × TokenKind}

/-- The grammar finds no symbol exactly if the text starts with none of the operators and
punctuation marks. -/
theorem symbol?_eq_none_iff : g.symbol? cs = none ↔ ∀ s ∈ g.symbols, ¬ s.1 <+: cs := by
  simp [symbol?, longer_eq_none_iff, longestMatch_eq_none_iff, symbols, or_imp, forall_and]

/-- **Longest match.** A symbol that is matched is the longest of both tables. -/
theorem symbol?_longest (h : g.symbol? cs = some s) : Longest cs g.symbols s := by
  have hmem : s ∈ g.symbols ∧ s.1 <+: cs := by
    rcases eq_or_eq_of_longer h with hs | hs
    · exact ⟨List.mem_append_left _ (longestMatch_mem hs).1, (longestMatch_mem hs).2⟩
    · exact ⟨List.mem_append_right _ (longestMatch_mem hs).1, (longestMatch_mem hs).2⟩
  -- a symbol of either table is not longer than the match in that table
  have hle : ∀ {table : List (List Char × TokenKind)} {t : List Char × TokenKind},
      (∀ u, longestMatch cs table = some u → byteLength u.1 ≤ byteLength s.1) → t ∈ table →
      t.1 <+: cs → byteLength t.1 ≤ byteLength s.1 := by
    intro table t htable ht hp
    obtain ⟨u, hu⟩ : ∃ u, longestMatch cs table = some u := by
      rw [← Option.ne_none_iff_exists', ne_eq, longestMatch_eq_none_iff]
      exact fun hall => hall t ht hp
    exact Nat.le_trans (byteLength_le_longestMatch hu ht hp) (htable u hu)
  refine ⟨hmem.1, hmem.2, fun t ht hp => prefix_of_byteLength_le hp hmem.2 ?_⟩
  rcases List.mem_append.mp ht with ht | ht
  · exact hle (fun u hu => byteLength_le_longer h (.inl hu)) ht hp
  · exact hle (fun u hu => byteLength_le_longer h (.inr hu)) ht hp

/-- In a valid grammar no spelling has two kinds. -/
theorem Valid.nodup_symbols (hg : g.Valid) : (g.symbols.map (·.1)).Nodup := by
  have hsub : (g.symbols.map (·.1)).Sublist (g.spellings.map String.toList) := by
    simp only [Grammar.symbols, symbolOperators, symbolPuncts, spellings, List.map_append,
      List.map_map]
    exact (List.filter_sublist.map _).append (List.Sublist.refl _)
  exact (hg.distinct.map fun _ _ => String.toList_inj.mp).sublist hsub

/-- The symbol that is matched is the longest of both tables. -/
theorem Valid.symbol?_eq_some_iff (hg : g.Valid) :
    g.symbol? cs = some s ↔ Longest cs g.symbols s := by
  refine ⟨symbol?_longest, fun h => ?_⟩
  cases hm : g.symbol? cs with
  | none => exact absurd h.starts (symbol?_eq_none_iff.mp hm s h.mem)
  | some t => rw [(symbol?_longest hm).unique h hg.nodup_symbols]

/-! ### The order of the tables -/

/-- The rule of a symbol, if no two rules have one symbol. -/
theorem find?_symbol_eq_some_iff {rules : List OperatorRule} {word : String} {r : OperatorRule}
    (hd : (rules.map (·.symbol)).Nodup) :
    (rules.find? fun r => r.symbol == word) = some r ↔ r ∈ rules ∧ r.symbol = word := by
  constructor
  · intro h
    exact ⟨List.mem_of_find?_eq_some h, by simpa using List.find?_some h⟩
  · rintro ⟨hr, rfl⟩
    cases hf : rules.find? fun r' => r'.symbol == r.symbol with
    | none => simpa using List.find?_eq_none.mp hf r hr
    | some t =>
        have ht : t.symbol = r.symbol := by simpa using List.find?_some hf
        rw [List.inj_on_of_nodup_map hd (List.mem_of_find?_eq_some hf) hr ht]

/-- In a valid grammar no operator occurs twice. -/
theorem Valid.nodup_operators (hg : g.Valid) : (g.operators.map (·.symbol)).Nodup :=
  hg.distinct.of_append_left

/-- Two grammars that the lexer can not tell apart. -/
structure Alike (g h : Grammar) : Prop where
  lineComment : h.lineComment = g.lineComment
  blockComment : h.blockComment = g.blockComment
  wordKind : ∀ word, h.wordKind word = g.wordKind word
  symbol? : ∀ cs, h.symbol? cs = g.symbol? cs
  atBoundary : ∀ cs, Lexer.atBoundary h cs = Lexer.atBoundary g cs

/-- The order of the tables makes no difference to look-up: no word stands in the table of operators
twice, and of the symbols that a text starts with one is the longest. -/
theorem Valid.alike {operators : List OperatorRule} {punctuation : List PunctRule} (hg : g.Valid)
    (ho : operators.Perm g.operators) (hp : punctuation.Perm g.punctuation) :
    g.Alike (g.withTables operators punctuation) where
  lineComment := rfl
  blockComment := rfl
  wordKind word := by
    have hd : (operators.map (·.symbol)).Nodup := (hg.withTables ho hp).nodup_operators
    have hfind : (operators.find? fun r => r.symbol == String.ofList word) =
        g.operators.find? fun r => r.symbol == String.ofList word := by
      ext r
      rw [find?_symbol_eq_some_iff hg.nodup_operators, find?_symbol_eq_some_iff hd, ho.mem_iff]
    simp only [Grammar.wordKind, word?, Grammar.withTables, hfind]
  symbol? cs := by
    have hperm : (g.withTables operators punctuation).symbols.Perm g.symbols :=
      ((ho.filter _).map _).append (hp.map _)
    ext s
    rw [hg.symbol?_eq_some_iff, (hg.withTables ho hp).symbol?_eq_some_iff]
    constructor
    · exact fun h =>
        ⟨hperm.mem_iff.mp h.mem, h.starts, fun t ht => h.longest t (hperm.mem_iff.mpr ht)⟩
    · exact fun h =>
        ⟨hperm.mem_iff.mpr h.mem, h.starts, fun t ht => h.longest t (hperm.mem_iff.mp ht)⟩
  atBoundary cs := by
    cases cs with
    | nil => rfl
    | cons c cs =>
        have hany : punctuation.any (fun r => r.symbol.toList.isPrefixOf (c :: cs)) =
            g.punctuation.any fun r => r.symbol.toList.isPrefixOf (c :: cs) := by
          rw [Bool.eq_iff_iff, List.any_eq_true, List.any_eq_true]
          simp only [hp.mem_iff]
        simp only [Lexer.atBoundary, Grammar.withTables, hany]

end Grammar

section

variable {g h : Grammar}

/-- Grammars that are alike skip the same blanks and comments. -/
theorem skipTrivia_alike (hgh : g.Alike h) (fuel : Nat) (cs : List Char) :
    skipTrivia h fuel cs = skipTrivia g fuel cs := by
  induction fuel generalizing cs with
  | zero => rfl
  | succ fuel ih => simp only [skipTrivia, hgh.lineComment, hgh.blockComment, ih]

/-- Grammars that are alike find the same token at the start of a text. -/
theorem scanToken_alike (hgh : g.Alike h) (c : Char) (cs : List Char) :
    scanToken h c cs = scanToken g c cs := by
  simp only [scanToken, hgh.wordKind, hgh.symbol?]

namespace Lexer

/-- Grammars that are alike skip equally much after an error. -/
theorem skipToBoundary_alike (hgh : g.Alike h) (cs : List Char) :
    skipToBoundary h cs = skipToBoundary g cs := by
  induction cs with
  | nil => rfl
  | cons c cs ih => simp only [skipToBoundary, hgh.atBoundary, ih]

/-- Grammars that are alike give the same item from the same place. -/
theorem scan_alike {lexer : Lexer} (hh : lexer.grammar.Alike h) :
    ({ lexer with grammar := h } : Lexer).scan =
      (lexer.scan.1, { lexer.scan.2 with grammar := h }) := by
  unfold scan
  simp only [skipTrivia_alike hh]
  split
  · rfl
  · split
    · rfl
    · simp only [scanToken_alike hh]
      split <;> rfl

/-- Grammars that are alike go on from the same place after an item. -/
theorem settle_alike {lexer : Lexer} (hh : lexer.grammar.Alike h) (item : LexItem) :
    ({ lexer with grammar := h } : Lexer).settle item =
      { lexer.settle item with grammar := h } := by
  cases item with
  | ok t =>
      dsimp only [settle]
      split <;> rfl
  | error e =>
      dsimp only [settle]
      split
      · rfl
      · rw [skipToBoundary_alike hh]
        rfl

/-- Grammars that are alike give the same items. The induction is on the fuel, and the lexers stay
at the same place. -/
theorem takeItems_alike (fuel : Nat) (lexer : Lexer) (hh : lexer.grammar.Alike h) :
    (takeItems fuel { lexer with grammar := h }).1 = (takeItems fuel lexer).1 := by
  induction fuel generalizing lexer with
  | zero => rfl
  | succ fuel ih =>
      by_cases hdone : lexer.done = true
      · have hdone' : ({ lexer with grammar := h } : Lexer).done = true := hdone
        rw [takeItems_of_done hdone, takeItems_of_done hdone']
      · have hgo : lexer.done = false := Bool.eq_false_iff.mpr hdone
        have hgo' : ({ lexer with grammar := h } : Lexer).done = false := hgo
        have hmoves : lexer.scan.2.grammar = lexer.grammar := by rw [lexer.scan_moves]
        rw [takeItems_succ hgo, takeItems_succ hgo', scan_alike hh]
        dsimp only
        rw [settle_alike (hmoves ▸ hh), ih]
        have hsettle : (lexer.scan.2.settle lexer.scan.1).grammar = lexer.scan.2.grammar := by
          unfold settle
          split
          · split <;> rfl
          · split <;> rfl
        rw [hsettle, hmoves]
        exact hh

end Lexer

end

/-! ### Symbols in a text -/

/-- A punctuation mark, or an operator that is not a word. -/
def Token.IsSymbol (t : Token) : Prop :=
  (∃ p, t.kind = .punct p) ∨ (∃ op, t.kind = .operator op) ∧ isWord t.text = false

section

variable {g : Grammar}

/-- A word is never a punctuation mark, even if it is spelled like one. -/
theorem wordKind_ne_punct (word : List Char) (p : Punct) : g.wordKind word ≠ .punct p := by
  unfold Grammar.wordKind
  split <;> simp

/-- A number is a literal. -/
theorem scanNumber_lit {cs : List Char} {kind : TokenKind} (h : (scanNumber cs).1 = .ok kind) :
    ∃ l, kind = .lit l := by
  unfold scanNumber at h
  split at h
  · cases h
  · next decimal fractional rest hnumber =>
      dsimp only at h
      generalize consumed cs rest = text at h
      unfold numberKind at h
      split at h
      · split at h
        · cases hread : readFloatLiteral text <;> rw [hread] at h <;> cases h
          exact ⟨_, rfl⟩
        · cases h
      · cases hread : readIntLiteral text <;> rw [hread] at h <;> cases h
        exact ⟨_, rfl⟩

/-- A string is a literal. -/
theorem scanString_lit {cs : List Char} {kind : TokenKind} (h : (scanString cs).1 = .ok kind) :
    ∃ l, kind = .lit l := by
  unfold scanString at h
  split at h
  · cases h
  · split at h
    · cases h
      exact ⟨_, rfl⟩
    · cases h

/-- Another error does not change a success. -/
theorem mapError_eq_ok_iff {ε ε' α : Type} {f : ε → ε'} {result : Except ε α} {a : α} :
    result.mapError f = .ok a ↔ result = .ok a := by
  cases result <;> simp [Except.mapError]

/-- The ways a token is found: as a word, a number, a string or a symbol. -/
inductive Found (g : Grammar) (c : Char) (cs : List Char) : TokenKind → List Char → Prop
  | word (hc : isIdStart c = true) :
    Found g c cs (g.wordKind (c :: cs.takeWhile isIdContinue)) (cs.dropWhile isIdContinue)
  | number {kind : TokenKind} {after : List Char} (hword : isIdStart c = false)
    (hc : c.isDigit = true) (h : scanNumber (c :: cs) = (.ok kind, after)) : Found g c cs kind after
  | string {kind : TokenKind} {after : List Char} (hc : c = '"')
    (h : scanString (c :: cs) = (.ok kind, after)) : Found g c cs kind after
  | symbol {symbol : List Char} {kind : TokenKind} (hword : isIdStart c = false)
    (hnumber : c.isDigit = false) (hstring : c ≠ '"')
    (h : g.symbol? (c :: cs) = some (symbol, kind)) :
    Found g c cs kind ((c :: cs).drop symbol.length)

/-- What was consumed is what is missing in front of the rest. -/
theorem consumed_dropWhile (p : Char → Bool) (c : Char) (cs : List Char) :
    consumed (c :: cs) (cs.dropWhile p) = c :: cs.takeWhile p := by
  have h := consumed_append (c :: cs.takeWhile p) (cs.dropWhile p)
  rwa [List.cons_append, List.takeWhile_append_dropWhile] at h

/-- A token is found in one of these ways exactly if scanning gives it. The ways exclude one
another, by the character that the token begins with. -/
theorem found_iff {c : Char} {cs after : List Char} {kind : TokenKind} :
    Found g c cs kind after ↔ scanToken g c cs = (.ok kind, after) := by
  constructor
  · intro h
    unfold scanToken
    cases h with
    | word hc =>
        rw [if_pos hc]
        dsimp only
        rw [consumed_dropWhile]
    | number hword hc h =>
        rw [if_neg (Bool.eq_false_iff.mp hword), if_pos hc, h]
        rfl
    | string hc h =>
        subst hc
        rw [if_neg (by decide), if_neg (by decide), if_pos rfl, h]
        rfl
    | symbol hword hnumber hstring h =>
        rw [if_neg (Bool.eq_false_iff.mp hword), if_neg (Bool.eq_false_iff.mp hnumber),
          if_neg hstring, h]
  · intro h
    unfold scanToken at h
    split at h
    · next hc =>
        dsimp only at h
        rw [consumed_dropWhile] at h
        cases h
        exact .word hc
    · next hword =>
        have hword := Bool.eq_false_iff.mpr hword
        split at h
        · next hc =>
            obtain ⟨hkind, rfl⟩ := Prod.mk.inj h
            exact .number hword hc (Prod.ext (mapError_eq_ok_iff.mp hkind) rfl)
        · next hnumber =>
            split at h
            · next hc =>
                obtain ⟨hkind, rfl⟩ := Prod.mk.inj h
                exact .string hc (Prod.ext (mapError_eq_ok_iff.mp hkind) rfl)
            · next hstring =>
                split at h
                · next symbol kind' hs =>
                    cases h
                    exact .symbol hword (Bool.eq_false_iff.mpr hnumber) hstring hs
                · cases h

/-- The lexeme of a symbol in a text is the longest symbol that the text starts with there.
Operators that are words are no symbols, since they are found as words. -/
theorem Scanned.longest (hg : g.Usable) {text : List Char} {t : Token} (h : Scanned g text t)
    (ht : t.IsSymbol) :
    ∃ before after, text = before ++ t.text ++ after ∧ t.range = .between before t.text ∧
      Longest (t.text ++ after) g.symbols (t.text, t.kind) := by
  obtain @⟨before, after, cs, c, htext, hlexeme, hrange, -, hscan⟩ := h
  refine ⟨before, after, by rw [htext, hlexeme, List.append_assoc], hrange, ?_⟩
  have hlit : ∀ l, t.kind ≠ .lit l := by
    intro l hl
    rcases ht with ⟨p, hp⟩ | ⟨⟨op, hop⟩, -⟩
    · rw [hl] at hp
      cases hp
    · rw [hl] at hop
      cases hop
  generalize hkind : t.kind = kind at hscan
  cases found_iff.mpr hscan with
  | word hc =>
      rcases ht with ⟨p, hp⟩ | ⟨-, hword⟩
      · exact absurd (hkind.symm.trans hp) (wordKind_ne_punct _ p)
      · -- a word that is an operator is not a symbol
        have hwhole : t.text = c :: cs.takeWhile isIdContinue := by
          refine (List.append_left_inj (cs.dropWhile isIdContinue)).mp ?_
          rw [← hlexeme, List.cons_append, List.takeWhile_append_dropWhile]
        rw [hwhole, isWord, hc, Bool.true_and] at hword
        exact absurd List.all_takeWhile (Bool.eq_false_iff.mp hword)
  | number _ _ h =>
      obtain ⟨l, hl⟩ := scanNumber_lit (congrArg Prod.fst h)
      exact absurd (hkind.trans hl) (hlit l)
  | string _ h =>
      obtain ⟨l, hl⟩ := scanString_lit (congrArg Prod.fst h)
      exact absurd (hkind.trans hl) (hlit l)
  | @symbol symbol _ _ _ _ h =>
      obtain ⟨rest, hrest⟩ := (hg.symbol? h).2
      have hwhole : t.text = symbol := by
        refine (List.append_left_inj ((c :: cs).drop symbol.length)).mp ?_
        rw [← hlexeme, ← hrest, List.drop_left]
      rw [← hlexeme, hwhole]
      exact Grammar.symbol?_longest h

end

/-! ### The order of the tables in a text -/

/-- **The order of the tables makes no difference.** A validated grammar gives the same items when
its operators and its punctuation marks come in another order, whether it is validated again or
not. Of several symbols that a text starts with, the lexer takes the longest.

Offsets count on without bound, and texts of less than `2 ^ 32 - 1` bytes have only those that fit
into 32 bits. Which symbol is matched depends on the characters that are left, never on an
offset. -/
theorem lexItems_anyOrder {g g' : Grammar} (hg : g.validate = .ok g')
    {operators : List OperatorRule} {punctuation : List PunctRule}
    (ho : operators.Perm g'.operators) (hp : punctuation.Perm g'.punctuation) (recovery : Recovery)
    (text : List Char) :
    let h := g'.withTables operators punctuation
    lexItems h recovery text = lexItems g' recovery text ∧
    (∃ h', h.validate = .ok h' ∧ lexItems h' recovery text = lexItems g' recovery text) ∧
    ∀ t, .ok t ∈ lexItems g' recovery text → t.IsSymbol →
      ∃ before after, text = before ++ t.text ++ after ∧ t.range = .between before t.text ∧
        Longest (t.text ++ after) g'.symbols (t.text, t.kind) := by
  have hvalid := Grammar.valid_of_validate hg
  have hsame : ∀ {operators' : List OperatorRule} {punctuation' : List PunctRule},
      operators'.Perm g'.operators → punctuation'.Perm g'.punctuation →
      lexItems (g'.withTables operators' punctuation') recovery text = lexItems g' recovery text :=
    fun ho' hp' => Lexer.takeItems_alike (text.length + 1) (.ofText g' recovery text)
      (hvalid.alike ho' hp')
  refine ⟨hsame ho hp, ?_, fun t ht hsymbol => ?_⟩
  · refine ⟨_, Grammar.validate_eq_ok_iff.mpr ⟨hvalid.withTables ho hp, rfl⟩, ?_⟩
    exact hsame ((List.mergeSort_perm _ _).trans ho) ((List.mergeSort_perm _ _).trans hp)
  · have hk : t.kind ≠ .eof := by
      intro hk
      rcases hsymbol with ⟨p, hp⟩ | ⟨⟨op, hop⟩, -⟩
      · rw [hk] at hp
        cases hp
      · rw [hk] at hop
        cases hop
    have hu := Grammar.usable_of_validate hg
    exact (lexItems_scanned hu ht hk).longest hu hsymbol

def powerBound : List Char :=
  "x**2<=y".toList

/-- The usual grammar is valid, and validation sorts its symbols. -/
theorem validate_standard_sorted :
    Grammar.standard.validate = .ok Grammar.standard.sortSymbols := by
  have h := validate_standard
  cases hv : Grammar.standard.validate with
  | error e => simp [hv, Except.toOption] at h
  | ok g' => rw [(Grammar.validate_eq_ok_iff.mp hv).2]

/-- The power sign, not the multiplication sign, also when that comes first. -/
theorem lexItems_powerBound :
    let g' := Grammar.standard.sortSymbols
    let h := g'.withTables g'.operators.reverse g'.punctuation.reverse
    lexItems h .skip powerBound = lexItems g' .skip powerBound ∧
      .ok ⟨.operator .pow, "**".toList, ⟨1, 3⟩, ⟨1, 2, 1⟩⟩ ∈ lexItems g' .skip powerBound ∧
      Longest "**2<=y".toList g'.symbols ("**".toList, .operator .pow) := by
  obtain ⟨hsame, -, hlongest⟩ := lexItems_anyOrder validate_standard_sorted
    (List.reverse_perm _) (List.reverse_perm _) .skip powerBound
  have hmem : .ok ⟨.operator .pow, "**".toList, ⟨1, 3⟩, ⟨1, 2, 1⟩⟩ ∈
      lexItems Grammar.standard.sortSymbols .skip powerBound := by
    refine List.mem_of_getElem? (i := 1) ?_
    cbv
  refine ⟨hsame, hmem, ?_⟩
  obtain ⟨before, after, htext, hrange, hl⟩ := hlongest _ hmem (.inr ⟨⟨_, rfl⟩, by decide⟩)
  -- only the letter stands in front of the sign
  have hbefore : "x".toList = before ∧ "**2<=y".toList = "**".toList ++ after := by
    have hlen : byteLength "x".toList = byteLength before := congrArg Range.start hrange
    refine List.append_inj (by rw [← List.append_assoc]; exact htext) ?_
    have hprefix : before <+: powerBound := ⟨_, (htext.trans (List.append_assoc _ _ _)).symm⟩
    have hx : "x".toList <+: powerBound := by decide
    exact Nat.le_antisymm (prefix_of_byteLength_le hx hprefix hlen.le).length_le
      (prefix_of_byteLength_le hprefix hx hlen.ge).length_le
  rw [hbefore.2]
  exact hl

end Parlance
