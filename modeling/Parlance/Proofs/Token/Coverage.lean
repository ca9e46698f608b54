import Mathlib
import Parlance.Proofs.Token.Scanning

/-!
# Tokens cover the text

The items of a lexer lie in the text one behind the other, each on characters of its own, and
they come to an end. Without errors, the text is the lexemes with gaps between them and nothing
else. Whether the lexer goes on after an error is the only difference between the two ways of
recovery.

## Main definitions

* `Reading`: the items of a text, each found where the one before it left off.
* `Tiles`: a text that consists of lexemes and gaps.
* `Covers`: what holds of the items of a text.

## Main results

* `Lexer.takeItems_reading`: a lexer reads its text to the end.
* `takeItems_halt`: halting cuts the items off behind the first error.
* `lexItems_covers`: the items of a text cover it.
-/

namespace Parlance

/-! ### Lexers -/

namespace Lexer

/-- Finding an item only moves a lexer. -/
theorem scan_moves (lexer : Lexer) :
    lexer.scan.2 = { lexer with rest := lexer.scan.2.rest, location := lexer.scan.2.location } := by
  unfold scan
  split
  · rfl
  · split
    · rfl
    · dsimp only
      split <;> rfl

/-- The item that is found does not depend on what happens after an error. -/
theorem scan_recovery (lexer : Lexer) (recovery : Recovery) :
    ({ lexer with recovery } : Lexer).scan = (lexer.scan.1, { lexer.scan.2 with recovery }) := by
  unfold scan
  dsimp only
  split
  · rfl
  · split
    · rfl
    · split <;> rfl

/-- A lexer that is done gives no items. -/
theorem takeItems_of_done {lexer : Lexer} (h : lexer.done = true) (fuel : Nat) :
    takeItems fuel lexer = ([], lexer) := by
  cases fuel with
  | zero => rfl
  | succ fuel => simp [takeItems, next, h]

/-- A lexer that is not done gives an item and then those behind it. -/
theorem takeItems_succ {lexer : Lexer} (h : lexer.done = false) (fuel : Nat) :
    takeItems (fuel + 1) lexer =
      (lexer.scan.1 :: (takeItems fuel (lexer.scan.2.settle lexer.scan.1)).1,
        (takeItems fuel (lexer.scan.2.settle lexer.scan.1)).2) := by
  simp [takeItems, next, h]

end Lexer

/-! ### Readings -/

/-- The items of the text `rest` with `before` in front of it. -/
inductive Reading (g : Grammar) (recovery : Recovery) :
    List Char → List Char → List LexItem → Prop
  | eof {before gap : List Char} {t : Token} (hg : Gap g [] gap) (hk : t.kind = .eof)
    (ht : t.text = []) (hrange : t.range = .between (before ++ gap) []) :
    Reading g recovery before gap [.ok t]
  | token {before gap rest : List Char} {t : Token} {items : List LexItem}
    (hg : Gap g (t.text ++ rest) gap) (hk : t.kind ≠ .eof) (ht : t.text ≠ [])
    (hrange : t.range = .between (before ++ gap) t.text)
    (h : Reading g recovery (before ++ gap ++ t.text) rest items) :
    Reading g recovery before (gap ++ t.text ++ rest) (.ok t :: items)
  | halt {before gap wrong rest : List Char} {e : LexError} (hrec : recovery = .halt)
    (hw : wrong ≠ []) (hrange : e.range = .between (before ++ gap) wrong) :
    Reading g recovery before (gap ++ wrong ++ rest) [.error e]
  | skip {before gap wrong skipped rest : List Char} {e : LexError} {items : List LexItem}
    (hrec : recovery = .skip) (hw : wrong ≠ [])
    (hrange : e.range = .between (before ++ gap) wrong)
    (h : Reading g recovery (before ++ gap ++ wrong ++ skipped) rest items) :
    Reading g recovery before (gap ++ wrong ++ (skipped ++ rest)) (.error e :: items)

/-- **Progress.** A lexer that may take one item more than its text has characters reads the text
to the end. -/
theorem Lexer.takeItems_reading (fuel : Nat) {lexer : Lexer} {before : List Char}
    (hg : lexer.grammar.Usable) (hat : lexer.At before) (hdone : lexer.done = false)
    (hfuel : lexer.rest.length < fuel) :
    Reading lexer.grammar lexer.recovery before lexer.rest (takeItems fuel lexer).1 ∧
      (takeItems fuel lexer).2.done = true := by
  induction fuel generalizing lexer before with
  | zero => exact absurd hfuel (Nat.not_lt_zero _)
  | succ fuel ih =>
      rw [takeItems_succ hdone]
      have hscan := lexer.scan_scans hg hat
      have hmoves := lexer.scan_moves
      generalize lexer.scan = scanned at hscan hmoves ⊢
      obtain ⟨item, after⟩ := scanned
      dsimp only at hscan hmoves ⊢
      have hgrammar : after.grammar = lexer.grammar := by rw [hmoves]
      have hrecovery : after.recovery = lexer.recovery := by rw [hmoves]
      have hgo : after.done = false := by rw [hmoves]; exact hdone
      cases hscan with
      | eof hr hgap hk ht hrange hafter =>
          rw [settle, if_pos hk, takeItems_of_done rfl]
          exact ⟨hr ▸ .eof hgap hk ht hrange, rfl⟩
      | token hr hgap hk ht hrange hafter hnext =>
          rw [settle, if_neg hk, hr]
          have hlen : after.rest.length < fuel := by
            have := List.length_pos_iff.mpr ht
            rw [hr, List.length_append, List.length_append] at hfuel
            rw [hafter]
            omega
          obtain ⟨hread, hend⟩ := ih (hgrammar ▸ hg) hnext hgo hlen
          rw [hgrammar, hrecovery, hafter] at hread
          exact ⟨.token hgap hk ht hrange hread, hend⟩
      | error hr hgap hw hrange hafter hnext =>
          cases hrec : lexer.recovery with
          | halt =>
              have hsettle : ∀ e, after.settle (.error e) = { after with done := true } := fun e => by
                rw [settle, hrecovery, hrec]
              rw [hsettle, takeItems_of_done rfl, hr]
              exact ⟨.halt rfl hw hrange, rfl⟩
          | skip =>
              have hsettle : ∀ e, after.settle (.error e) =
                  after.moveTo (skipToBoundary after.grammar after.rest) := fun e => by
                rw [settle, hrecovery, hrec]
              rw [hsettle]
              obtain ⟨skipped, hskipped⟩ := skipToBoundary_suffix after.grammar after.rest
              generalize skipToBoundary after.grammar after.rest = left at hskipped ⊢
              have hr' := hr
              rw [← hafter, ← hskipped] at hr'
              have hlen : left.length < fuel := by
                have := List.length_pos_iff.mpr hw
                rw [hr', List.length_append, List.length_append, List.length_append] at hfuel
                omega
              have husable : (after.moveTo left).grammar.Usable := hgrammar ▸ hg
              obtain ⟨hread, hend⟩ := ih husable (hnext.moveTo hskipped.symm) hgo hlen
              have hread' : Reading after.grammar after.recovery _ left _ := hread
              rw [hgrammar, hrecovery, hrec] at hread'
              rw [hr']
              exact ⟨.skip rfl hw hrange hread', hend⟩

/-! ### What a reading shows -/

namespace LexItem

/-- The item is the end of the input. -/
def IsEof (item : LexItem) : Prop :=
  ∃ t, item = .ok t ∧ t.kind = .eof

end LexItem

/-- A range of characters of a text. -/
def Range.Within (r : Range) (text : List Char) : Prop :=
  ∃ before lexeme after, text = before ++ lexeme ++ after ∧ r = .between before lexeme

/-- A text, with `before` in front of it, that is the lexemes of tokens with a gap in front of
each. -/
def Tiles (g : Grammar) : List Char → List Char → List Token → Prop
  | _, rest, [] => rest = []
  | before, rest, t :: ts =>
    ∃ gap after, rest = gap ++ t.text ++ after ∧ Gap g (t.text ++ after) gap ∧
      t.range = .between (before ++ gap) t.text ∧ Tiles g (before ++ gap ++ t.text) after ts

/-- The last item is the end of the input, and no other one is. -/
def EndsOnce (items : List LexItem) : Prop :=
  ∃ front eof, items = front ++ [.ok eof] ∧ eof.kind = .eof ∧ ∀ item ∈ front, ¬ LexItem.IsEof item

/-- What holds of the items of a text. -/
structure Covers (g : Grammar) (text : List Char) (items : List LexItem) : Prop where
  within : ∀ item ∈ items, (LexItem.range item).Within text
  ordered : items.Pairwise fun a b => (LexItem.range a).stop ≤ (LexItem.range b).start
  nonempty : ∀ item ∈ items, ¬ LexItem.IsEof item →
    (LexItem.range item).start < (LexItem.range item).stop
  tiled : ∀ tokens : List Token, items = tokens.map .ok → Tiles g [] text tokens ∧
    ∃ ts eof, tokens = ts ++ [eof] ∧ eof.kind = .eof ∧ eof.range = .between text [] ∧
      ∀ t ∈ ts, t.kind ≠ .eof

namespace Reading

variable {g : Grammar} {recovery : Recovery} {before rest : List Char} {items : List LexItem}

/-- A lexeme that is not empty has a range that is not. -/
theorem start_between_lt {lexeme : List Char} (h : lexeme ≠ []) :
    (Range.between before lexeme).start < (Range.between before lexeme).stop := by
  have := byteLength_pos h
  simp only [Range.between, byteLength_append]
  omega

/-- The items lie behind what is in front of their text, and within the text. Each begins where what
was skipped in front of it ends. -/
theorem within (h : Reading g recovery before rest items) : ∀ item ∈ items,
    byteLength before ≤ (LexItem.range item).start ∧
      (LexItem.range item).Within (before ++ rest) := by
  -- the first item lies behind a gap, the others behind the first
  have hfirst : ∀ {before gap lexeme after : List Char} {r : Range},
      r = .between (before ++ gap) lexeme →
      byteLength before ≤ r.start ∧ r.Within (before ++ (gap ++ lexeme ++ after)) := by
    rintro before gap lexeme after r rfl
    refine ⟨?_, before ++ gap, lexeme, after, by simp, rfl⟩
    simp only [Range.between, byteLength_append]
    omega
  induction h with
  | eof hg hk ht hrange =>
      intro item hitem
      obtain rfl := List.mem_singleton.mp hitem
      have h := @hfirst _ _ _ [] _ hrange
      rwa [List.append_nil, List.append_nil] at h
  | token hg hk ht hrange h ih =>
      intro item hitem
      rcases List.mem_cons.mp hitem with rfl | hitem
      · exact hfirst hrange
      · obtain ⟨hle, hw⟩ := ih item hitem
        refine ⟨?_, by simpa using hw⟩
        simp only [byteLength_append] at hle
        omega
  | halt hrec hw hrange =>
      intro item hitem
      obtain rfl := List.mem_singleton.mp hitem
      exact hfirst hrange
  | skip hrec hw hrange h ih =>
      intro item hitem
      rcases List.mem_cons.mp hitem with rfl | hitem
      · exact hfirst hrange
      · obtain ⟨hle, hw⟩ := ih item hitem
        refine ⟨?_, by simpa using hw⟩
        simp only [byteLength_append] at hle
        omega

/-- No item begins before the one in front of it ends. -/
theorem ordered (h : Reading g recovery before rest items) :
    items.Pairwise fun a b => (LexItem.range a).stop ≤ (LexItem.range b).start := by
  induction h with
  | eof => exact List.pairwise_singleton _ _
  | token hg hk ht hrange h ih =>
      refine List.pairwise_cons.mpr ⟨fun item hitem => ?_, ih⟩
      have hle := (h.within item hitem).1
      rw [LexItem.range, hrange]
      exact hle
  | halt => exact List.pairwise_singleton _ _
  | skip hrec hw hrange h ih =>
      refine List.pairwise_cons.mpr ⟨fun item hitem => ?_, ih⟩
      have hle := (h.within item hitem).1
      rw [byteLength_append] at hle
      rw [LexItem.range, hrange]
      exact Nat.le_trans (Nat.le_add_right _ _) hle

/-- Every item but the end of the input has characters of its own. -/
theorem nonempty (h : Reading g recovery before rest items) : ∀ item ∈ items,
    ¬ LexItem.IsEof item → (LexItem.range item).start < (LexItem.range item).stop := by
  induction h with
  | eof hg hk ht hrange =>
      intro item hitem hne
      obtain rfl := List.mem_singleton.mp hitem
      exact absurd ⟨_, rfl, hk⟩ hne
  | token hg hk ht hrange h ih =>
      refine List.forall_mem_cons.mpr ⟨fun _ => ?_, ih⟩
      rw [LexItem.range, hrange]
      exact start_between_lt ht
  | halt hrec hw hrange =>
      refine List.forall_mem_singleton.mpr fun _ => ?_
      rw [LexItem.range, hrange]
      exact start_between_lt hw
  | skip hrec hw hrange h ih =>
      refine List.forall_mem_cons.mpr ⟨fun _ => ?_, ih⟩
      rw [LexItem.range, hrange]
      exact start_between_lt hw

/-- Without errors the text is lexemes and gaps, up to its end. The induction is on the reading,
which has one item for each token and ends with the token for the end. -/
theorem tiles (h : Reading g recovery before rest items) {tokens : List Token}
    (hok : items = tokens.map .ok) : Tiles g before rest tokens ∧
      ∃ ts eof, tokens = ts ++ [eof] ∧ eof.kind = .eof ∧ eof.range = .between (before ++ rest) [] ∧
        ∀ t ∈ ts, t.kind ≠ .eof := by
  induction h generalizing tokens with
  | @eof before gap t hg hk ht hrange =>
      obtain ⟨t', ts, rfl, he, hts⟩ := List.map_eq_cons_iff.mp hok.symm
      cases he
      obtain rfl := List.map_eq_nil_iff.mp hts
      refine ⟨⟨gap, [], ?_, ?_, ?_, rfl⟩, [], t, rfl, hk, hrange, nofun⟩
      · rw [ht, List.append_nil, List.append_nil]
      · rwa [ht, List.append_nil]
      · rw [ht]
        exact hrange
  | @token before gap rest t items hg hk ht hrange h ih =>
      obtain ⟨t', ts, rfl, he, hts⟩ := List.map_eq_cons_iff.mp hok.symm
      cases he
      obtain ⟨htiles, front, eof, rfl, heof, hend, hfront⟩ := ih hts.symm
      refine ⟨⟨gap, rest, rfl, hg, hrange, htiles⟩, t :: front, eof, rfl, heof, ?_,
        List.forall_mem_cons.mpr ⟨hk, hfront⟩⟩
      rw [hend]
      simp
  | halt =>
      obtain ⟨_, _, _, he, _⟩ := List.map_eq_cons_iff.mp hok.symm
      cases he
  | skip =>
      obtain ⟨_, _, _, he, _⟩ := List.map_eq_cons_iff.mp hok.symm
      cases he

/-- A reading that goes on after errors comes to the end of the input once. -/
theorem endsOnce (h : Reading g recovery before rest items) (hrec : recovery = .skip) :
    EndsOnce items := by
  induction h with
  | @eof before gap t hg hk ht hrange => exact ⟨[], t, rfl, hk, nofun⟩
  | @token before gap rest t items hg hk ht hrange h ih =>
      obtain ⟨front, eof, rfl, heof, hfront⟩ := ih
      refine ⟨.ok t :: front, eof, rfl, heof, List.forall_mem_cons.mpr ⟨?_, hfront⟩⟩
      rintro ⟨t', he, hk'⟩
      cases he
      exact hk hk'
  | halt hhalt => exact absurd (hhalt.symm.trans hrec) (by decide)
  | @skip before gap wrong skipped rest e items hskip hw hrange h ih =>
      obtain ⟨front, eof, rfl, heof, hfront⟩ := ih
      refine ⟨.error e :: front, eof, rfl, heof, List.forall_mem_cons.mpr ⟨?_, hfront⟩⟩
      rintro ⟨t', he, -⟩
      cases he

/-- A reading covers its text: this puts together what the lemmas above say of its parts. -/
theorem covers (h : Reading g recovery [] rest items) : Covers g rest items :=
  ⟨fun item hitem => (h.within item hitem).2, h.ordered, h.nonempty, fun _ hok => h.tiles hok⟩

end Reading

/-! ### Recovery -/

/-- The items up to the first error. -/
def upToError : List LexItem → List LexItem
  | [] => []
  | .ok t :: items => .ok t :: upToError items
  | .error e :: _ => [.error e]

/-- **Halting** cuts the items off behind the first error. Up to there both lexers stand at the same
places, since they differ in their recovery only. -/
theorem takeItems_halt (fuel : Nat) (lexer : Lexer) :
    (Lexer.takeItems fuel { lexer with recovery := .halt }).1 =
      upToError (Lexer.takeItems fuel { lexer with recovery := .skip }).1 := by
  induction fuel generalizing lexer with
  | zero => rfl
  | succ fuel ih =>
      by_cases hdone : lexer.done = true
      · have hstop (recovery : Recovery) : ({ lexer with recovery } : Lexer).done = true := hdone
        rw [Lexer.takeItems_of_done (hstop .halt), Lexer.takeItems_of_done (hstop .skip)]
        rfl
      · have hgo (recovery : Recovery) : ({ lexer with recovery } : Lexer).done = false :=
          Bool.eq_false_iff.mpr hdone
        rw [Lexer.takeItems_succ (hgo .halt), Lexer.takeItems_succ (hgo .skip),
          lexer.scan_recovery .halt, lexer.scan_recovery .skip]
        generalize lexer.scan = scanned
        obtain ⟨item, after⟩ := scanned
        cases item with
        | ok t =>
            dsimp only [Lexer.settle]
            split
            · rw [Lexer.takeItems_of_done rfl, Lexer.takeItems_of_done rfl]
              rfl
            · rw [ih after, upToError]
        | error e =>
            dsimp only [Lexer.settle]
            rw [Lexer.takeItems_of_done rfl, upToError]

/-- Either there is no error, or the first one ends the items. -/
theorem upToError_cases (items : List LexItem) :
    (∃ tokens : List Token, items = tokens.map .ok ∧ upToError items = items) ∨
    ∃ (tokens : List Token) (e : LexError) (rest : List LexItem),
      items = tokens.map .ok ++ .error e :: rest ∧
      upToError items = tokens.map .ok ++ [.error e] := by
  induction items with
  | nil => exact .inl ⟨[], rfl, rfl⟩
  | cons item items ih =>
      cases item with
      | error e => exact .inr ⟨[], e, items, rfl, rfl⟩
      | ok t =>
          rcases ih with ⟨tokens, hok, heq⟩ | ⟨tokens, e, rest, hok, heq⟩
          · exact .inl ⟨t :: tokens, by rw [hok]; rfl, by rw [upToError, heq]⟩
          · exact .inr ⟨t :: tokens, e, rest, by rw [hok]; rfl, by rw [upToError, heq]; rfl⟩

/-! ### Texts -/

/-- **Tokens cover the text.** For every validated grammar, every text and both ways of recovery,
the lexer comes to an end, and its items are ranges of characters of the text, one behind the
other, none but the end of the input empty. Without errors the text consists of the lexemes and of
gaps in front of them, and the end of the input stands at its end. A lexer that skips errors gives
the end of the input once, as its last item; one that halts gives the same items, up to the first
error. -/
theorem lexItems_covers {g g' : Grammar} (hg : g.validate = .ok g') (text : List Char) :
    (∀ recovery, (Lexer.ofText g' recovery text).remaining.2.next.1 = none ∧
      Covers g' text (lexItems g' recovery text)) ∧
    EndsOnce (lexItems g' .skip text) ∧
    ((∃ tokens : List Token, lexItems g' .skip text = tokens.map .ok ∧
        lexItems g' .halt text = lexItems g' .skip text) ∨
      ∃ (tokens : List Token) (e : LexError) (rest : List LexItem),
        lexItems g' .skip text = tokens.map .ok ++ .error e :: rest ∧
        lexItems g' .halt text = tokens.map .ok ++ [.error e]) := by
  have hread : ∀ recovery, Reading g' recovery [] text (lexItems g' recovery text) ∧
      (Lexer.ofText g' recovery text).remaining.2.done = true := fun recovery =>
    have husable : (Lexer.ofText g' recovery text).grammar.Usable := Grammar.usable_of_validate hg
    Lexer.takeItems_reading _ husable rfl rfl (Nat.lt_succ_self _)
  have hhalt : lexItems g' .halt text = upToError (lexItems g' .skip text) :=
    takeItems_halt (text.length + 1) (Lexer.ofText g' .halt text)
  refine ⟨fun recovery => ⟨?_, (hread recovery).1.covers⟩, (hread .skip).1.endsOnce rfl, ?_⟩
  · rw [Lexer.next, if_pos (hread recovery).2]
  · rw [hhalt]
    exact upToError_cases _

/-- A comment, a character that begins no token, and a string that does not end. -/
def strayQuote : List Char :=
  "x /* é */ @ \"".toList

/-- The standard grammar is accepted. -/
theorem validate_standard : Grammar.standard.validate.toOption.isSome = true := by
  rw [Grammar.standard_eq]
  decide +kernel

/-- The text of `strayQuote` is covered in both ways of recovery, and ends once. -/
theorem strayQuote_covered :
    ∃ g', Grammar.standard.validate = .ok g' ∧ EndsOnce (lexItems g' .skip strayQuote) ∧
      ∀ recovery, Covers g' strayQuote (lexItems g' recovery strayQuote) := by
  obtain ⟨g', hg⟩ : ∃ g', Grammar.standard.validate = .ok g' := by
    have h := validate_standard
    cases hv : Grammar.standard.validate with
    | error e => simp [hv, Except.toOption] at h
    | ok g' => exact ⟨g', rfl⟩
  obtain ⟨hcovers, hends, -⟩ := lexItems_covers hg strayQuote
  exact ⟨g', hg, hends, fun recovery => (hcovers recovery).2⟩

end Parlance
