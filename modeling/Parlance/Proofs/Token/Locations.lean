import Mathlib.Data.List.Basic
import Parlance.Proofs.Token.Order

/-!
# Lines and columns

Locations are computed in two ways. A lexer carries one along and moves it over each character
that it takes, whichever function took it; a line index looks an offset up in a table of line
starts and counts the characters from the start of the line. Both give the place that the text in
front of it says: one plus its newlines, and one plus its characters behind the last of them.

For the lexer this is an invariant, `Lexer.Traces`, that only `Lexer.moveTo` has to keep. For the
line index the text splits at its last newline.

Positions are kept in 32 bits, and what a text of any length says is true of them only as long as
they fit. `Addressable` says that all places of a text do. A text below `2 ^ 32 - 1` bytes is
addressable; of the texts with exactly that many bytes only two are not, the ones that need a line
or a column of `2 ^ 32`.

## Main definitions

* `Location.behind`: the place behind a text.
* `Addressable`: the positions in a text fit into 32 bits.
* `Lexer.Traces`: a lexer stands behind what it has taken of a text.

## Main results

* `addressable_iff`: which texts are addressable.
* `LineIndex.location_behind`: what a line index gives for an offset between two characters.
* `lexItems_fits`: the items of an addressable text are at places that fit.
* `lexItems_location`: the items of a lexer have the locations that a line index gives.
-/

namespace Parlance

/-! ### The place behind a text -/

/-- The characters behind the last newline. -/
def lastLine (before : List Char) : List Char :=
  (before.reverse.takeWhile (· != '\n')).reverse

/-- The place behind a text. -/
def Location.behind (before : List Char) : Location where
  line := 1 + before.count '\n'
  column := 1 + (lastLine before).length
  offset := byteLength before

/-- Nothing stands on the last line behind a newline. -/
theorem lastLine_newline (before : List Char) : lastLine (before ++ ['\n']) = [] := by
  simp [lastLine]

/-- The last line stands at the end of a text. -/
theorem lastLine_suffix (before : List Char) : lastLine before <:+ before := by
  have h : before.reverse.takeWhile (· != '\n') <+: before.reverse := List.takeWhile_prefix _
  simpa [lastLine] using List.reverse_suffix.mpr h

/-- Another character goes on with the last line. -/
theorem lastLine_append_of_ne (before : List Char) {c : Char} (hc : c ≠ '\n') :
    lastLine (before ++ [c]) = lastLine before ++ [c] := by
  simp [lastLine, hc]

/-- **Moving on.** One character leads from the place behind a text to the place behind the text
with this character. -/
theorem Location.advance_behind (before : List Char) (c : Char) :
    (behind before).advance c = behind (before ++ [c]) := by
  have hsize : byteLength (before ++ [c]) = byteLength before + c.utf8Size := by
    rw [byteLength_append]
    rfl
  unfold advance
  split
  · next hc =>
      subst hc
      simp only [behind, lastLine_newline, hsize, List.count_append, List.count_singleton_self,
        List.length_nil]
      rfl
  · next hc =>
      simp only [behind, lastLine_append_of_ne before hc, hsize, List.count_append,
        List.length_append, List.length_singleton]
      rw [List.count_singleton, if_neg (by simpa using hc)]
      rfl

/-- Walking over characters goes to the place behind them. -/
theorem Location.foldl_advance_behind (before taken : List Char) :
    taken.foldl advance (behind before) = behind (before ++ taken) := by
  induction taken generalizing before with
  | nil => rw [List.foldl_nil, List.append_nil]
  | cons c taken ih => rw [List.foldl_cons, advance_behind, ih, List.append_assoc]; rfl

/-! ### Positions of 32 bits -/

/-- A place whose line, column and offset are numbers of 32 bits. -/
structure Location.Fits (l : Location) : Prop where
  line : l.line < 2 ^ 32
  column : l.column < 2 ^ 32
  offset : l.offset < 2 ^ 32

/-- A text all of whose places fit into 32 bits. -/
def Addressable (text : List Char) : Prop :=
  ∀ before, before <+: text → (Location.behind before).Fits

section

variable {text : List Char}

/-- An addressable text has less than 4 GiB. -/
theorem Addressable.size (h : Addressable text) : byteLength text < 2 ^ 32 :=
  (h text (List.prefix_refl text)).offset

/-- Each character takes a byte at least. -/
theorem length_le_byteLength (cs : List Char) : cs.length ≤ byteLength cs := by
  induction cs with
  | nil => exact Nat.le_refl 0
  | cons c cs ih =>
      have hc := c.utf8Size_pos
      change cs.length + 1 ≤ c.utf8Size + byteLength cs
      omega

/-- A text without newlines is its last line. -/
theorem lastLine_of_notMem (h : '\n' ∉ text) : lastLine text = text := by
  have hall : ∀ c ∈ text.reverse, (c != '\n') = true := fun c hc =>
    bne_iff_ne.mpr fun he => h (he ▸ List.mem_reverse.mp hc)
  rw [lastLine, List.takeWhile_eq_self_iff.mpr hall, List.reverse_reverse]

/-- The last line of a text with a newline is shorter than the text. -/
theorem length_lastLine_lt (h : '\n' ∈ text) : (lastLine text).length < text.length := by
  rw [lastLine, List.length_reverse, ← text.length_reverse]
  refine Nat.lt_of_le_of_ne (List.takeWhile_prefix _).length_le fun he => ?_
  have hall := List.takeWhile_eq_self_iff.mp ((List.takeWhile_prefix _).eq_of_length he)
  simpa using hall '\n' (List.mem_reverse.mpr h)

/-- **Addressable texts.** A text is addressable if it is shorter than `2 ^ 32` bytes, and neither
a single line nor only newlines if it has `2 ^ 32 - 1` characters. -/
theorem addressable_iff : Addressable text ↔ byteLength text < 2 ^ 32 ∧
    (text.length = 2 ^ 32 - 1 → '\n' ∈ text ∧ ∃ c ∈ text, c ≠ '\n') := by
  constructor
  · refine fun h => ⟨h.size, fun hlen => ⟨?_, ?_⟩⟩
    · -- the column behind a single line is one more than its length
      by_contra hmem
      have hcolumn := (h text (List.prefix_refl text)).column
      simp only [Location.behind, lastLine_of_notMem hmem, hlen] at hcolumn
      omega
    · -- the line behind newlines is one more than their number
      by_contra hall
      have hline := (h text (List.prefix_refl text)).line
      have hcount : text.count '\n' = text.length :=
        List.count_eq_length.mpr fun c hc => (not_not.mp fun hne => hall ⟨c, hc, hne⟩).symm
      simp only [Location.behind, hcount, hlen] at hline
      omega
  · rintro ⟨hsize, hlong⟩ before ⟨after, rfl⟩
    have hbytes : byteLength (before ++ after) = byteLength before + byteLength after :=
      byteLength_append before after
    have hlen := length_le_byteLength before
    have hlen' := length_le_byteLength after
    have hlast : (lastLine before).length ≤ before.length := (lastLine_suffix before).length_le
    have hcount : before.count '\n' ≤ before.length := List.count_le_length
    by_cases hshort : before.length < 2 ^ 32 - 1
    · exact ⟨by simp only [Location.behind]; omega, by simp only [Location.behind]; omega,
        by simp only [Location.behind]; omega⟩
    · -- nothing is left behind `before`, which is the whole text then
      obtain rfl : after = [] := List.eq_nil_of_length_eq_zero (by omega)
      rw [List.append_nil] at hlong
      obtain ⟨hnewline, c, hc, hne⟩ := hlong (by omega)
      have hcolumn := length_lastLine_lt hnewline
      have hline : before.count '\n' ≠ before.length := fun he =>
        hne (List.count_eq_length.mp he c hc).symm
      exact ⟨by simp only [Location.behind]; omega, by simp only [Location.behind]; omega,
        by simp only [Location.behind]; omega⟩

/-- A text of less than `2 ^ 32 - 1` bytes is addressable: its columns count from one. -/
theorem addressable_of_lt (h : byteLength text < 2 ^ 32 - 1) : Addressable text := by
  have hlen := length_le_byteLength text
  exact addressable_iff.mpr ⟨by omega, fun he => by omega⟩

end

/-! ### Line indices -/

section

variable {c : Char} {n : Nat}

/-- Bytes are dropped character by character. -/
theorem dropBytes?_cons (h : c.utf8Size ≤ n) (cs : List Char) :
    dropBytes? n (c :: cs) = dropBytes? (n - c.utf8Size) cs :=
  (if_neg (by have := c.utf8Size_pos; omega)).trans (if_pos h)

/-- Bytes are taken character by character. -/
theorem takeBytes?_cons (h : c.utf8Size ≤ n) (cs : List Char) :
    takeBytes? n (c :: cs) = (takeBytes? (n - c.utf8Size) cs).map (c :: ·) :=
  (if_neg (by have := c.utf8Size_pos; omega)).trans (if_pos h)

end

/-- The bytes of the first part of a text are dropped. -/
theorem dropBytes?_append (before after : List Char) :
    dropBytes? (byteLength before) (before ++ after) = some after := by
  induction before with
  | nil => cases after <;> rfl
  | cons c before ih =>
      have hlen : byteLength (c :: before) = c.utf8Size + byteLength before := rfl
      rw [hlen, List.cons_append, dropBytes?_cons (Nat.le_add_right _ _),
        Nat.add_sub_cancel_left, ih]

/-- The bytes of the first part of a text are taken. -/
theorem takeBytes?_append (before after : List Char) :
    takeBytes? (byteLength before) (before ++ after) = some before := by
  induction before with
  | nil => cases after <;> rfl
  | cons c before ih =>
      have hlen : byteLength (c :: before) = c.utf8Size + byteLength before := rfl
      rw [hlen, List.cons_append, takeBytes?_cons (Nat.le_add_right _ _),
        Nat.add_sub_cancel_left, ih]
      rfl

/-- The slice between two parts of a text is what stands there. -/
theorem Range.slice_between (before lexeme after : List Char) :
    (Range.between before lexeme).slice (before ++ lexeme ++ after) = lexeme := by
  rw [Range.slice, Range.between, byteLength_append, Nat.add_sub_cancel_left, List.append_assoc,
    dropBytes?_append, Option.bind_some, takeBytes?_append, Option.getD_some]

/-- Numbers of 32 bits are kept as they are. -/
theorem saturate_of_lt {n : Nat} (h : n < 2 ^ 32) : saturate n = n := by
  have hle : n ≤ maxWord32 := by
    rw [maxWord32]
    omega
  exact Nat.min_eq_left hle

/-- A newline begins a line behind it, and another character none. -/
theorem laterLineStarts_cons (offset : Nat) (c : Char) (cs : List Char) :
    laterLineStarts offset (c :: cs) =
      if c = '\n' then
        saturate (offset + c.utf8Size) :: laterLineStarts (offset + c.utf8Size) cs
      else laterLineStarts (offset + c.utf8Size) cs :=
  rfl

/-- The lines of two texts in a row begin where those of the first do, and behind it where those of
the second do. -/
theorem laterLineStarts_append (offset : Nat) (before after : List Char) :
    laterLineStarts offset (before ++ after) =
      laterLineStarts offset before ++ laterLineStarts (offset + byteLength before) after := by
  induction before generalizing offset with
  | nil => rfl
  | cons c before ih =>
      have hlen : byteLength (c :: before) = c.utf8Size + byteLength before := rfl
      rw [List.cons_append, laterLineStarts_cons, laterLineStarts_cons, ih, hlen, ← Nat.add_assoc]
      split <;> rfl

/-- Each newline begins a line. -/
theorem length_laterLineStarts (offset : Nat) (cs : List Char) :
    (laterLineStarts offset cs).length = cs.count '\n' := by
  induction cs generalizing offset with
  | nil => rfl
  | cons c cs ih =>
      rw [laterLineStarts_cons]
      split
      · next hc => rw [List.length_cons, ih, hc, List.count_cons_self]
      · next hc => rw [ih, List.count_cons_of_ne hc]

/-- A line starts behind the newline in front of it. -/
theorem mem_laterLineStarts {offset start : Nat} {cs : List Char}
    (hsize : offset + byteLength cs < 2 ^ 32) (h : start ∈ laterLineStarts offset cs) :
    offset < start ∧ start ≤ offset + byteLength cs := by
  induction cs generalizing offset with
  | nil => cases h
  | cons c cs ih =>
      have hc := c.utf8Size_pos
      have hlen : byteLength (c :: cs) = c.utf8Size + byteLength cs := rfl
      rw [laterLineStarts_cons, saturate_of_lt (by omega)] at h
      split at h
      · rcases List.mem_cons.mp h with rfl | h
        · omega
        · have := ih (by omega) h
          omega
      · have := ih (by omega) h
        omega

/-- The line starts up to an offset are those of the text in front of it. -/
theorem takeWhile_lineStarts {before after : List Char}
    (hsize : byteLength before + byteLength after < 2 ^ 32) :
    (LineIndex.ofText (before ++ after)).lineStarts.takeWhile (· ≤ byteLength before) =
      0 :: laterLineStarts 0 before := by
  have hbefore : ∀ start ∈ 0 :: laterLineStarts 0 before, decide (start ≤ byteLength before) := by
    intro start h
    rcases List.mem_cons.mp h with rfl | h
    · exact decide_eq_true (Nat.zero_le _)
    · have := (mem_laterLineStarts (by omega) h).2
      exact decide_eq_true (by omega)
  have hafter : (laterLineStarts (0 + byteLength before) after).takeWhile
      (· ≤ byteLength before) = [] := by
    refine List.takeWhile_eq_nil_iff.mpr fun hpos hle => ?_
    have hlt := (mem_laterLineStarts (by omega) (List.get_mem _ ⟨0, hpos⟩)).1
    have hle := of_decide_eq_true hle
    omega
  rw [LineIndex.ofText, laterLineStarts_append, ← List.cons_append,
    List.takeWhile_append_of_pos hbefore, hafter, List.append_nil]

/-- The last line starts where its characters do. Offsets saturate at 32 bits, so the text has to be
shorter than that. -/
theorem getLastD_lineStarts {before : List Char} (hsize : byteLength before < 2 ^ 32) :
    (0 :: laterLineStarts 0 before).getLastD 0 + byteLength (lastLine before) =
      byteLength before := by
  induction before using List.reverseRecOn with
  | nil => rfl
  | append_singleton before c ih =>
      rw [byteLength_append] at hsize
      have ih := ih (by omega)
      rw [laterLineStarts_append, byteLength_append]
      by_cases hc : c = '\n'
      · subst hc
        have hnext : laterLineStarts (0 + byteLength before) ['\n'] =
            [byteLength before + byteLength ['\n']] := by
          rw [Nat.zero_add, laterLineStarts_cons, if_pos rfl]
          exact congrArg (· :: []) (saturate_of_lt hsize)
        rw [lastLine_newline, hnext, ← List.cons_append, List.getLastD_concat]
        rfl
      · have hnone : laterLineStarts (0 + byteLength before) [c] = [] := if_neg hc
        rw [hnone, List.append_nil, lastLine_append_of_ne before hc, byteLength_append, ← ih,
          Nat.add_assoc]

/-- **Line indices.** For an offset between two characters of an addressable text, a line index
gives the place behind the text in front of it. -/
theorem LineIndex.location_behind {before after : List Char} (h : Addressable (before ++ after)) :
    (LineIndex.ofText (before ++ after)).location (byteLength before) = .behind before := by
  obtain ⟨hline, hcolumn, -⟩ := h before (List.prefix_append before after)
  have htotal := h.size
  rw [byteLength_append] at htotal
  have hmin : min (byteLength before) (byteLength (before ++ after)) = byteLength before := by
    rw [byteLength_append]
    omega
  obtain ⟨lines, hlines⟩ := lastLine_suffix before
  have hstart : (0 :: laterLineStarts 0 before).getLastD 0 = byteLength lines := by
    have hlast := getLastD_lineStarts (show byteLength before < 2 ^ 32 by omega)
    have hsize : byteLength before = byteLength lines + byteLength (lastLine before) := by
      rw [← byteLength_append, hlines]
    omega
  have hslice : (Range.mk (byteLength lines) (byteLength before)).slice (before ++ after) =
      lastLine before := by
    have h := Range.slice_between lines (lastLine before) after
    rwa [Range.between, hlines] at h
  have hsize : (LineIndex.ofText (before ++ after)).size = byteLength (before ++ after) :=
    saturate_of_lt h.size
  have htext : (LineIndex.ofText (before ++ after)).text = before ++ after := rfl
  simp only [Location.behind, Nat.add_comm 1] at hline hcolumn ⊢
  rw [LineIndex.location, hsize, hmin, takeWhile_lineStarts htotal, hstart, htext, hslice,
    List.length_cons, length_laterLineStarts]
  simp only [saturate_of_lt hline, saturate_of_lt hcolumn]

/-! ### Lexers -/

namespace LexItem

/-- The location of an item. -/
def location : LexItem → Location
  | .ok t => t.location
  | .error e => e.location

/-- An item starts between two characters of a text, its location is the place there, and it ends
in the text. -/
def StartsIn (text : List Char) (item : LexItem) : Prop :=
  (∃ before after, text = before ++ after ∧ item.range.start = byteLength before ∧
    item.location = .behind before) ∧ item.range.stop ≤ byteLength text

/-- An item at a place that fits into 32 bits, with an end that does. -/
structure Fits (item : LexItem) : Prop where
  location : Location.Fits item.location
  stop : item.range.stop < 2 ^ 32

end LexItem

namespace Lexer

variable {lexer : Lexer} {text : List Char}

/-- A lexer stands behind what it has taken of a text. -/
def Traces (text : List Char) (lexer : Lexer) : Prop :=
  ∃ before, text = before ++ lexer.rest ∧ lexer.location = .behind before

/-- Whatever a lexer takes, its location moves over the characters taken. -/
theorem Traces.moveTo {rest : List Char} (h : lexer.Traces text) (hrest : rest <:+ lexer.rest) :
    (lexer.moveTo rest).Traces text := by
  obtain ⟨before, htext, hloc⟩ := h
  obtain ⟨taken, htaken⟩ := hrest
  refine ⟨before ++ taken, ?_, ?_⟩
  · rw [htext, ← htaken, List.append_assoc]
    rfl
  · simp only [Lexer.moveTo]
    rw [← htaken, consumed_append, hloc, Location.foldl_advance_behind]

/-- An item that starts where a lexer stands, and ends where another one does. -/
theorem Traces.startsIn {item : LexItem} {after : Lexer} (h : lexer.Traces text)
    (ha : after.Traces text) (hstart : item.range.start = lexer.location.offset)
    (hstop : item.range.stop = after.location.offset)
    (hloc : LexItem.location item = lexer.location) : LexItem.StartsIn text item := by
  obtain ⟨before, htext, hbefore⟩ := h
  obtain ⟨taken, htaken, hafter⟩ := ha
  refine ⟨⟨before, lexer.rest, htext, by rw [hstart, hbefore, Location.behind],
    hloc.trans hbefore⟩, ?_⟩
  rw [hstop, hafter, htaken, byteLength_append]
  exact Nat.le_add_right _ _

/-- The lexer finds an item that starts in the text, and still stands behind what it has taken. -/
theorem Traces.scan (h : lexer.Traces text) :
    lexer.scan.2.Traces text ∧ LexItem.StartsIn text lexer.scan.1 := by
  have hskip := skipTrivia_suffix (g := lexer.grammar) (lexer.rest.length + 1) lexer.rest
  unfold Lexer.scan
  split
  · next comment heq =>
      rw [heq] at hskip
      have hstart := h.moveTo hskip
      have hafter := hstart.moveTo List.nil_suffix
      exact ⟨hafter, hstart.startsIn hafter rfl rfl rfl⟩
  · next rest heq =>
      rw [heq] at hskip
      have hstart := h.moveTo hskip
      dsimp only
      split
      · exact ⟨hstart, hstart.startsIn hstart rfl rfl rfl⟩
      · next c cs =>
          have hafter := hstart.moveTo (scanToken_suffix lexer.grammar c cs)
          split
          · exact ⟨hafter, hstart.startsIn hafter rfl rfl rfl⟩
          · exact ⟨hafter, hstart.startsIn hafter rfl rfl rfl⟩

/-- Settling an item leaves the lexer behind what it has taken. -/
theorem Traces.settle (h : lexer.Traces text) (item : LexItem) :
    (lexer.settle item).Traces text := by
  unfold Lexer.settle
  split
  · split
    · exact h
    · exact h
  · split
    · exact h
    · exact h.moveTo (skipToBoundary_suffix _ _)

/-- Every item of a lexer starts in its text. -/
theorem Traces.takeItems (fuel : Nat) (h : lexer.Traces text) :
    ∀ item ∈ (takeItems fuel lexer).1, LexItem.StartsIn text item := by
  induction fuel generalizing lexer with
  | zero => exact nofun
  | succ fuel ih =>
      by_cases hdone : lexer.done = true
      · rw [takeItems_of_done hdone]
        exact nofun
      · rw [takeItems_succ (Bool.eq_false_iff.mpr hdone)]
        obtain ⟨hscan, hitem⟩ := h.scan
        exact List.forall_mem_cons.mpr ⟨hitem, ih (hscan.settle _)⟩

end Lexer

/-- Every item of a text starts and ends in it. -/
theorem lexItems_startIn (g : Grammar) (recovery : Recovery) (text : List Char) :
    ∀ item ∈ lexItems g recovery text, LexItem.StartsIn text item :=
  Lexer.Traces.takeItems (text.length + 1) ⟨[], rfl, rfl⟩

/-- The items of an addressable text are at places that fit into 32 bits, so none of the counters
of a lexer leaves its range. -/
theorem lexItems_fits (g : Grammar) (recovery : Recovery) {text : List Char}
    (htext : Addressable text) : ∀ item ∈ lexItems g recovery text, LexItem.Fits item := by
  intro item hitem
  obtain ⟨⟨before, after, rfl, -, hloc⟩, hstop⟩ := lexItems_startIn g recovery text item hitem
  exact ⟨hloc ▸ htext before (List.prefix_append before after),
    Nat.lt_of_le_of_lt hstop htext.size⟩

/-- A comment over two lines with a character of two bytes, and a string that does not end. -/
def scattered : List Char :=
  "7/*ß\n*/+\"x".toList

end Parlance
