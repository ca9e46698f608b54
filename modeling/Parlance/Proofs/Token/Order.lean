import Parlance.Proofs.Token.Coverage

/-!
# The order of the tokens

The items of a lexer stand in its text one behind the other. This does not take a validated
grammar: a symbol without characters would make the lexer stay where it is, but it never goes back.

## Main results

* `lexItems_inOrder`: the tokens of a text stand in it, one behind the other.
-/

namespace Parlance

/-- Tokens that stand in a text of `size` bytes, one behind the other. -/
structure InOrder (size : Nat) (tokens : List Token) : Prop where
  within : ∀ t ∈ tokens, t.range.start ≤ t.range.stop ∧ t.range.stop ≤ size
  ordered : tokens.Pairwise fun a b => a.range.stop ≤ b.range.start

/-- A token leaves an ending of the text, for every grammar. -/
theorem scanToken_suffix (g : Grammar) (c : Char) (cs : List Char) :
    (scanToken g c cs).2 <:+ c :: cs := by
  unfold scanToken
  split
  · exact (List.dropWhile_suffix _).trans (List.suffix_cons _ _)
  · split
    · next hd => exact (scanNumber_suffix hd).trans (List.suffix_cons _ _)
    · split
      · exact (scanString_suffix c cs).trans (List.suffix_cons _ _)
      · split
        · exact List.drop_suffix _ _
        · exact List.suffix_cons _ _

namespace Lexer

variable {lexer : Lexer} {size : Nat}

/-- A lexer in a text of `size` bytes. -/
def Within (size : Nat) (lexer : Lexer) : Prop :=
  lexer.location.offset + byteLength lexer.rest = size

/-- A lexer only moves on. -/
theorem Within.moveTo {rest : List Char} (h : lexer.Within size) (hrest : rest <:+ lexer.rest) :
    (lexer.moveTo rest).Within size ∧
      lexer.location.offset ≤ (lexer.moveTo rest).location.offset := by
  obtain ⟨taken, htaken⟩ := hrest
  unfold Within Lexer.moveTo at *
  rw [← htaken, byteLength_append] at h
  rw [← htaken, consumed_append, offset_foldl_advance]
  dsimp only
  omega

/-- What is left behind blanks and comments is an ending of the text. -/
theorem skipTrivia_suffix {g : Grammar} (fuel : Nat) (cs : List Char) :
    match skipTrivia g fuel cs with
    | .ok rest => rest <:+ cs
    | .error comment => comment <:+ cs := by
  have h := skipTrivia_skips (g := g) fuel cs
  split
  · next rest heq =>
      rw [heq] at h
      obtain ⟨gap, hgap, -⟩ := h
      exact ⟨gap, hgap.symm⟩
  · next comment heq =>
      rw [heq] at h
      obtain ⟨-, gap, hgap, -⟩ := h
      exact ⟨gap, hgap.symm⟩

/-- An item stands between the place of the lexer and the place after it. Errors count as items, and
have ranges of their own. -/
theorem Within.scan (h : lexer.Within size) :
    lexer.scan.2.Within size ∧ lexer.location.offset ≤ lexer.scan.1.range.start ∧
      lexer.scan.1.range.start ≤ lexer.scan.1.range.stop ∧
      lexer.scan.1.range.stop = lexer.scan.2.location.offset := by
  have hskip := skipTrivia_suffix (g := lexer.grammar) (lexer.rest.length + 1) lexer.rest
  unfold Lexer.scan
  split
  · next comment heq =>
      rw [heq] at hskip
      have hstart := h.moveTo hskip
      have hafter := hstart.1.moveTo (List.nil_suffix : [] <:+ _)
      exact ⟨hafter.1, hstart.2, hafter.2, rfl⟩
  · next rest heq =>
      rw [heq] at hskip
      have hstart := h.moveTo hskip
      dsimp only
      split
      · exact ⟨hstart.1, hstart.2, Nat.le_refl _, rfl⟩
      · next c cs =>
          have hafter := hstart.1.moveTo (scanToken_suffix lexer.grammar c cs)
          split
          · exact ⟨hafter.1, hstart.2, hafter.2, rfl⟩
          · exact ⟨hafter.1, hstart.2, hafter.2, rfl⟩

/-- Settling an item keeps a lexer in the text, and does not move it back. -/
theorem Within.settle (h : lexer.Within size) (item : LexItem) :
    (lexer.settle item).Within size ∧
      lexer.location.offset ≤ (lexer.settle item).location.offset := by
  unfold Lexer.settle
  split
  · split
    · exact ⟨h, Nat.le_refl _⟩
    · exact ⟨h, Nat.le_refl _⟩
  · split
    · exact ⟨h, Nat.le_refl _⟩
    · exact h.moveTo (skipToBoundary_suffix _ _)

/-- The items of a lexer stand behind it, one behind the other. By induction on the fuel, as each
item ends where the lexer goes on. -/
theorem Within.takeItems (fuel : Nat) (h : lexer.Within size) :
    (∀ item ∈ (takeItems fuel lexer).1, lexer.location.offset ≤ item.range.start ∧
      item.range.start ≤ item.range.stop ∧ item.range.stop ≤ size) ∧
    (takeItems fuel lexer).1.Pairwise fun a b => a.range.stop ≤ b.range.start := by
  induction fuel generalizing lexer with
  | zero => exact ⟨nofun, .nil⟩
  | succ fuel ih =>
      by_cases hdone : lexer.done = true
      · rw [takeItems_of_done hdone]
        exact ⟨nofun, .nil⟩
      · rw [takeItems_succ (Bool.eq_false_iff.mpr hdone)]
        obtain ⟨hscan, hstart, hle, hstop⟩ := h.scan
        obtain ⟨hsettle, hon⟩ := hscan.settle lexer.scan.1
        obtain ⟨hlater, hordered⟩ := ih hsettle
        have hsize : lexer.scan.2.location.offset ≤ size := Nat.le.intro hscan
        refine ⟨?_, List.pairwise_cons.mpr ⟨fun item hitem => ?_, hordered⟩⟩
        · rintro item hitem
          rcases List.mem_cons.mp hitem with rfl | hitem
          · exact ⟨hstart, hle, hstop ▸ hsize⟩
          · obtain ⟨hfrom, hitem⟩ := hlater item hitem
            exact ⟨by omega, hitem⟩
        · have := (hlater item hitem).1
          omega

end Lexer

/-- **Order.** The tokens of a text stand in it, one behind the other. -/
theorem lexItems_inOrder (g : Grammar) (recovery : Recovery) (text : List Char) :
    InOrder (byteLength text) ((lexItems g recovery text).filterMap Except.toOption) := by
  have hwithin : (Lexer.ofText g recovery text).Within (byteLength text) := Nat.zero_add _
  obtain ⟨hitems, hordered⟩ := hwithin.takeItems (text.length + 1)
  have hmem : ∀ {item : LexItem} {t : Token}, item.toOption = some t → item = .ok t := by
    rintro (e | t) t' ht
    · cases ht
    · cases ht
      rfl
  refine ⟨fun t ht => ?_, List.pairwise_filterMap.mpr (hordered.imp ?_)⟩
  · obtain ⟨item, hitem, hok⟩ := List.mem_filterMap.mp ht
    have := hitems item hitem
    rw [hmem hok] at this
    exact this.2
  · rintro a b hab t ht t' ht'
    rw [hmem ht, hmem ht'] at hab
    exact hab

end Parlance
