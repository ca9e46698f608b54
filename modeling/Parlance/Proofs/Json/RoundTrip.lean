import Mathlib.Data.List.Basic
import Parlance.Json.Reader
import Parlance.Json.Writer

/-!
# Reading what was written

The reader takes back every value that the writer writes with one item per line, whatever
text follows it. Two kinds of values have no text of their own and are left out: a text that
is not Unicode, and a number that is not an integer, which the reader keeps as its spelling.

The reader counts down a fuel. A text never needs more fuel than it has characters, so the
statements are about a fuel that is at least the length of the text.

## Main results

* `readString_written`: a string is read back after its opening quote.
* `readNumber_written`: an integer is read back if what follows does not extend it.
* `readsBack`: a value is read back, by induction on the fuel.
* `parse?_renderPretty`: the text of a value is read as that value.
-/

namespace Parlance.Json

/-! ### Strings -/

/-- A digit of base sixteen is read back from its character. -/
theorem digitValue?_digitChar : ∀ d < 16, digitValue? 16 (Nat.digitChar d) = some d := by
  decide

/-- A byte that is written with four digits is read back from them. -/
theorem hex4?_hexByte {n : Nat} (h : n < 256) (rest : List Char) :
    hex4? ('0' :: '0' :: (hexByte n ++ rest)) = some (n, rest) := by
  have hz : digitValue? 16 '0' = some 0 := rfl
  simp only [hexByte, List.cons_append, List.nil_append, hex4?, hz,
    digitValue?_digitChar (n / 16) (by omega), digitValue?_digitChar (n % 16) (by omega)]
  exact congrArg (fun k => some (k, rest)) (by omega)

/-- The code of a control character is read as that character. -/
theorem StringUnit.ofCode_toNat {c : Char} (h : c.toNat < 0x20) : ofCode c.toNat = .char c := by
  unfold ofCode
  rw [if_neg (by omega), if_neg (by omega), Char.ofNat_toNat]

/-- **One character.** The written form of a character is read as one unit. -/
theorem readUnits_writeChar (c : Char) (fuel : Nat) (cs : List Char) :
    readUnits (fuel + 1) (writeChar c ++ cs) =
      (readUnits fuel cs).map fun p => (.char c :: p.1, p.2) := by
  -- The reader binds its results, so the map is written as a bind.
  have hmap : ((readUnits fuel cs).map fun p => (StringUnit.char c :: p.1, p.2)) =
      (readUnits fuel cs).bind fun p => some (.char c :: p.1, p.2) := Option.map_eq_bind
  rw [hmap]
  unfold writeChar
  split_ifs with hq hb h8 h12 hn hr ht hlow
  -- The characters with a letter of their own.
  iterate 7
    subst c
    simp [readUnits, letterEscape?]
  · simp [readUnits, hex4?_hexByte (show c.toNat < 256 by omega), StringUnit.ofCode_toNat hlow]
  · simp [readUnits, hq, hb, hlow]

/-- The characters of a written string are read back up to the closing quote, with enough fuel. -/
theorem readUnits_written (cs : List Char) {fuel : Nat} (h : cs.length < fuel)
    (rest : List Char) :
    readUnits fuel (cs.flatMap writeChar ++ '"' :: rest) = some (cs.map .char, rest) := by
  induction cs generalizing fuel with
  | nil =>
      obtain ⟨fuel, rfl⟩ := Nat.exists_eq_add_of_lt h
      simp [readUnits]
  | cons c cs ih =>
      obtain ⟨fuel, rfl⟩ := Nat.exists_eq_succ_of_ne_zero (Nat.ne_zero_of_lt h)
      rw [List.flatMap_cons, List.append_assoc, readUnits_writeChar,
        ih (by simpa using h)]
      rfl

/-- Characters that were read as such are the string itself: no pairs of surrogates have to be put
together. -/
theorem joinUnits_map_char (cs : List Char) : joinUnits (cs.map .char) = some cs := by
  induction cs with
  | nil => rfl
  | cons c cs ih => simp [joinUnits, ih]

/-- Every character is written with one character at least, so the length of a text is enough fuel
to read it. -/
theorem length_le_flatMap_writeChar (cs : List Char) :
    cs.length ≤ (cs.flatMap writeChar).length := by
  induction cs with
  | nil => simp
  | cons c cs ih =>
      have : 1 ≤ (writeChar c).length := by
        unfold writeChar
        split_ifs <;> simp
      simp only [List.length_cons, List.flatMap_cons, List.length_append]
      omega

/-- **Strings.** A string is read back after its opening quote. -/
theorem readString_written (s : String) (rest : List Char) :
    readString (s.toList.flatMap writeChar ++ '"' :: rest) = some (some s, rest) := by
  have hle := length_le_flatMap_writeChar s.toList
  unfold readString
  rw [readUnits_written _ (by simp only [List.length_append]; omega)]
  simp [joinUnits_map_char]

/-! ### Numbers -/

/-- A number that ends here is not extended by what follows. -/
def Stops (rest : List Char) : Prop :=
  ∀ c ∈ rest.head?, c.isDigit = false ∧ c ≠ '.' ∧ c ≠ 'e' ∧ c ≠ 'E'

/-- Nothing follows at the end of a text. -/
theorem stops_nil : Stops [] := by
  simp [Stops]

/-- A character that belongs to no number stops one. -/
theorem stops_cons {c : Char} {rest : List Char}
    (h : c.isDigit = false ∧ c ≠ '.' ∧ c ≠ 'e' ∧ c ≠ 'E') : Stops (c :: rest) := by
  simpa [Stops] using h

/-- The digits of a number: some digits, without a superfluous zero in front. -/
structure Digits (ds : List Char) : Prop where
  digit : ∀ c ∈ ds, c.isDigit = true
  ne_nil : ds ≠ []
  lead : ds.head? = some '0' → ds.length = 1

/-- The digits of a positive number do not start with a zero. -/
theorem head?_toDigits_ne_zero (n : Nat) (h : 0 < n) : (Nat.toDigits 10 n).head? ≠ some '0' := by
  induction n using Nat.strongRecOn with
  | _ n ih =>
      rw [Nat.toDigits_eq_if (by decide)]
      split
      · next hlt =>
          have hdigit : ∀ d < 10, 0 < d → [Nat.digitChar d].head? ≠ some '0' := by decide
          exact hdigit n hlt h
      · have := ih (n / 10) (by omega) (by omega)
        rwa [List.head?_append_of_ne_nil _ Nat.toDigits_ne_nil]

/-- The digits of a number are digits as the reader wants them. -/
theorem digits_toDigits (n : Nat) : Digits (Nat.toDigits 10 n) where
  digit _ hc := Nat.isDigit_of_mem_toDigits (by decide) (by decide) hc
  ne_nil := Nat.toDigits_ne_nil
  lead h := by
    obtain rfl | hpos := Nat.eq_zero_or_pos n
    · rfl
    · exact absurd h (head?_toDigits_ne_zero n hpos)

/-- Digits are read up to where they stop. -/
theorem Digits.span {ds rest : List Char} (hd : Digits ds) (hr : Stops rest) :
    (ds ++ rest).takeWhile Char.isDigit = ds ∧ (ds ++ rest).dropWhile Char.isDigit = rest := by
  rw [List.takeWhile_append_of_pos hd.digit, List.dropWhile_append_of_pos hd.digit]
  cases rest with
  | nil => simp
  | cons c rest => simp [(hr c rfl).1]

/-- Digits have no sign. -/
theorem Digits.unsigned {ds : List Char} (hd : Digits ds) (rest : List Char) :
    readSign (ds ++ rest) = ([], ds ++ rest) := by
  cases ds with
  | nil => exact absurd rfl hd.ne_nil
  | cons d ds =>
      have hdigit : d.isDigit = true := hd.digit d (by simp)
      rw [List.cons_append]
      unfold readSign
      split
      · next h =>
          obtain ⟨rfl, -⟩ := List.cons.inj h
          exact absurd hdigit (by decide)
      · rfl

/-- A number that stops here has no fraction. -/
theorem Stops.fraction {rest : List Char} (hr : Stops rest) :
    readFraction rest = some ([], rest) := by
  unfold readFraction
  split
  · exact absurd rfl (hr '.' rfl).2.1
  · rfl

/-- A number that stops here has no exponent. -/
theorem Stops.exponent {rest : List Char} (hr : Stops rest) :
    readExponent rest = some ([], rest) := by
  cases rest with
  | nil => rfl
  | cons c rest =>
      obtain ⟨-, -, he, hE⟩ := hr c rfl
      simp [readExponent, he, hE]

/-- An optional sign and digits are read as the number they denote, unless that is a negative
zero. -/
theorem Digits.number {ds sign rest : List Char} (hd : Digits ds) (hr : Stops rest)
    (hs : readSign (sign ++ (ds ++ rest)) = (sign, ds ++ rest))
    (hz : sign ≠ [] → digitsNat ds ≠ 0) :
    readNumber (sign ++ (ds ++ rest)) =
      some (.int (if sign.isEmpty then digitsNat ds else -digitsNat ds), rest) := by
  obtain ⟨htake, hdrop⟩ := hd.span hr
  have hempty : ds.isEmpty = false := by simpa using hd.ne_nil
  have hlead : (ds.head? == some '0' && decide (1 < ds.length)) = false := by
    rw [Bool.and_eq_false_imp]
    intro h
    simp [hd.lead (by simpa using h)]
  have hint : (!(!sign.isEmpty && decide (digitsNat ds = 0))) = true := by
    simpa [or_iff_not_imp_left] using hz
  simp [readNumber, hs, htake, hdrop, hempty, hlead, hr.fraction, hr.exponent, hint]

/-- An integer is written as its digits, with a sign in front if it is negative. -/
theorem toList_toString (n : Int) :
    (toString n).toList =
      (if n < 0 then ['-'] else []) ++ Nat.toDigits 10 n.natAbs := by
  rw [Int.toString_eq_repr, Int.repr_eq_if]
  split
  · next h =>
      rw [if_neg (by omega), Nat.repr_eq_ofList_toDigits, show n.toNat = n.natAbs by omega]
      simp
  · next h =>
      rw [if_pos (by omega), Nat.repr_eq_ofList_toDigits, show (-n).toNat = n.natAbs by omega]
      simp

/-- The digits of a number are read back as the number. -/
theorem digitsNat_toDigits (n : Nat) : digitsNat (Nat.toDigits 10 n) = n :=
  Nat.ofDigitChars_ten_toDigits

/-- **Numbers.** An integer is read back, if what follows does not extend it. -/
theorem readNumber_written (n : Int) {rest : List Char} (hr : Stops rest) :
    readNumber ((toString n).toList ++ rest) = some (.int n, rest) := by
  have hd := digits_toDigits n.natAbs
  rw [toList_toString, List.append_assoc]
  split
  · next hneg =>
      have hn : -(n.natAbs : Int) = n := by omega
      rw [hd.number hr rfl fun _ => by rw [digitsNat_toDigits]; omega, digitsNat_toDigits]
      rw [if_neg (by simp), hn]
  · next hneg =>
      have hn : (n.natAbs : Int) = n := by omega
      rw [hd.number hr (hd.unsigned rest) (by simp), digitsNat_toDigits]
      rw [if_pos (by simp), hn]

/-- A value that begins with a sign or a digit is read as a number. -/
theorem readValue_number {fuel : Nat} {c : Char} {cs : List Char} (hc : c = '-' ∨ c.isDigit = true) :
    readValue (fuel + 1) (c :: cs) = readNumber (c :: cs) := by
  rw [readValue]
  all_goals
    intros
    simp_all

/-- An integer is read back from its text if no more digits follow. -/
theorem readValue_int {fuel : Nat} (n : Int) {rest : List Char} (hr : Stops rest) :
    readValue (fuel + 1) ((toString n).toList ++ rest) = some (.int n, rest) := by
  have hd := digits_toDigits n.natAbs
  rw [← readNumber_written n hr, toList_toString]
  split
  · exact readValue_number (.inl rfl)
  · cases h : Nat.toDigits 10 n.natAbs with
    | nil => exact absurd h hd.ne_nil
    | cons d ds => exact readValue_number (.inr (hd.digit d (by simp [h])))

/-! ### Values -/

/-- A value that has a text of its own. -/
inductive Plain : Json → Prop
  | null : Plain .null
  | bool (b : Bool) : Plain (.bool b)
  | int (n : Int) : Plain (.int n)
  | str (s : String) : Plain (.str s)
  | array {items : List Json} (h : ∀ v ∈ items, Plain v) : Plain (.array items)
  | object {fields : List (String × Json)} (h : ∀ f ∈ fields, Plain f.2) : Plain (.object fields)

/-- A text that starts with a value: neither a blank nor the end of an array comes first. -/
def Starts (cs : List Char) : Prop :=
  ∃ c rest, cs = c :: rest ∧ isGap c = false ∧ c ≠ ']'

/-- A text that starts with a value still does so when more follows. -/
theorem Starts.append {cs : List Char} (h : Starts cs) (more : List Char) :
    Starts (cs ++ more) := by
  obtain ⟨c, rest, rfl, hc⟩ := h
  exact ⟨c, rest ++ more, rfl, hc⟩

/-- In front of a value there are no gaps to skip. -/
theorem Starts.stay {cs : List Char} (h : Starts cs) : skipGaps cs = cs := by
  obtain ⟨c, rest, rfl, hc, -⟩ := h
  simp [skipGaps, hc]

/-- A digit is no gap and closes no array. -/
theorem isGap_of_isDigit {c : Char} (h : c.isDigit = true) : isGap c = false ∧ c ≠ ']' := by
  constructor
  · simp only [isGap, Bool.or_eq_false_iff, beq_eq_false_iff_ne]
    refine ⟨⟨⟨?_, ?_⟩, ?_⟩, ?_⟩ <;> rintro rfl <;> exact absurd h (by decide)
  · rintro rfl
    exact absurd h (by decide)

/-- The text of an integer starts with a value. -/
theorem starts_toString (n : Int) : Starts (toString n).toList := by
  have hd := digits_toDigits n.natAbs
  rw [toList_toString]
  split
  · exact ⟨'-', _, rfl, by decide⟩
  · cases h : Nat.toDigits 10 n.natAbs with
    | nil => exact absurd h hd.ne_nil
    | cons d ds => exact ⟨d, ds, rfl, isGap_of_isDigit (hd.digit d (by simp [h]))⟩

/-! The text of a filled array or object, with what follows the first item in one piece. -/

/-- An array with items is written over several lines, its items one level deeper. -/
theorem writePretty_array_cons (level : Nat) (v : Json) (vs : List Json) :
    writePretty level (.array (v :: vs)) =
      '[' :: (newline (level + 1) ++ (writePrettyItems (level + 1) (v :: vs) ++
        (newline level ++ [']']))) := by
  simp [writePretty]

/-- An object with fields is written over several lines, its fields one level deeper. -/
theorem writePretty_object_cons (level : Nat) (f : String × Json) (fs : List (String × Json)) :
    writePretty level (.object (f :: fs)) =
      '{' :: (newline (level + 1) ++ (writePrettyFields (level + 1) (f :: fs) ++
        (newline level ++ ['}']))) := by
  simp [writePretty]

/-- Between two items there are a comma and a new line. -/
theorem writePrettyItems_cons_cons (level : Nat) (v w : Json) (vs : List Json) :
    writePrettyItems level (v :: w :: vs) =
      writePretty level v ++ ',' :: (newline level ++ writePrettyItems level (w :: vs)) := by
  simp [writePrettyItems]

/-- Between two fields there are a comma and a new line. -/
theorem writePrettyFields_cons_cons (level : Nat) (k : String) (v : Json) (f : String × Json)
    (fs : List (String × Json)) :
    writePrettyFields level ((k, v) :: f :: fs) =
      writeString k ++ ':' :: ' ' :: (writePretty level v ++
        ',' :: (newline level ++ writePrettyFields level (f :: fs))) := by
  simp [writePrettyFields]

/-- The text of a plain value starts with a value. -/
theorem Plain.starts {v : Json} (h : Plain v) (level : Nat) : Starts (writePretty level v) := by
  cases h with
  | null => exact ⟨'n', _, rfl, by decide⟩
  | bool b => cases b <;> exact ⟨_, _, rfl, by decide⟩
  | int n => exact starts_toString n
  | str s => exact ⟨'"', _, rfl, by decide⟩
  | @array items h =>
      cases items with
      | nil => exact ⟨'[', [']'], by simp [writePretty], by decide⟩
      | cons v vs => exact ⟨'[', _, writePretty_array_cons level v vs, by decide⟩
  | @object fields h =>
      cases fields with
      | nil => exact ⟨'{', ['}'], by simp [writePretty], by decide⟩
      | cons f fs => exact ⟨'{', _, writePretty_object_cons level f fs, by decide⟩

/-- The text of items starts with a value. -/
theorem starts_writePrettyItems {v : Json} (h : Plain v) (vs : List Json) (level : Nat) :
    Starts (writePrettyItems level (v :: vs)) := by
  cases vs with
  | nil => simpa [writePrettyItems] using h.starts level
  | cons w vs =>
      rw [writePrettyItems_cons_cons]
      exact (h.starts level).append _

/-- A new line with its indentation is a gap. -/
@[simp] theorem skipGaps_newline (level : Nat) (cs : List Char) :
    skipGaps (newline level ++ cs) = skipGaps cs := by
  have hgap : ∀ c ∈ newline level, isGap c = true := by
    simp only [newline, List.mem_cons, List.mem_replicate]
    rintro c (rfl | ⟨-, rfl⟩) <;> rfl
  exact List.dropWhile_append_of_pos hgap

/-- At the end of a text there are no gaps. -/
theorem skipGaps_nil : skipGaps [] = [] :=
  rfl

/-- A space is a gap. -/
@[simp] theorem skipGaps_space (cs : List Char) : skipGaps (' ' :: cs) = skipGaps cs :=
  rfl

/-- A character that is no gap is left. -/
theorem skipGaps_cons {c : Char} (h : isGap c = false) (cs : List Char) :
    skipGaps (c :: cs) = c :: cs := by
  simp [skipGaps, h]

/-- What is written item by item is read back item by item, if every item is. -/
theorem mapM_map_eq_some {α β : Type} {g : α → β} {f : β → Option α} (h : ∀ a, f (g a) = some a)
    (as : List α) : (as.map g).mapM f = some as := by
  induction as with
  | nil => rfl
  | cons a as ih => simp [h, ih]

/-- Fields that were read with their keys make an object of these fields. -/
theorem closeObject_map (done : List (String × Json)) :
    closeObject (done.map fun f => (some f.1, f.2)) = .object done.reverse := by
  unfold closeObject
  rw [← List.map_reverse, mapM_map_eq_some]
  exact fun _ => rfl

/-- With so much fuel, the text of a value, of the items of an array and of the fields of an
object is read back. -/
structure ReadsBack (fuel : Nat) : Prop where
  value : ∀ (level : Nat) {v : Json} {rest : List Char}, Plain v →
    (writePretty level v).length ≤ fuel → Stops rest →
    readValue fuel (writePretty level v ++ rest) = some (v, rest)
  items : ∀ (level outer : Nat) (done : List Json) {v : Json} {vs : List Json} {rest : List Char},
    (∀ w ∈ v :: vs, Plain w) → (writePrettyItems level (v :: vs)).length < fuel →
    readItems fuel done (writePrettyItems level (v :: vs) ++ (newline outer ++ ']' :: rest)) =
      some (.array (done.reverse ++ v :: vs), rest)
  fields : ∀ (level outer : Nat) (done : List (String × Json)) {f : String × Json}
    {fs : List (String × Json)} {rest : List Char}, (∀ g ∈ f :: fs, Plain g.2) →
    (writePrettyFields level (f :: fs)).length < fuel →
    readFields fuel (done.map fun f => (some f.1, f.2))
        (writePrettyFields level (f :: fs) ++ (newline outer ++ '}' :: rest)) =
      some (.object (done.reverse ++ f :: fs), rest)

variable {fuel : Nat}

/-- A bracket, a new line and a value begin an array with items. -/
theorem readValue_array {level : Nat} {cs : List Char} (h : Starts cs) :
    readValue (fuel + 1) ('[' :: (newline level ++ cs)) = readItems fuel [] cs := by
  simp only [readValue, skipGaps_newline, h.stay]
  obtain ⟨c, rest, rfl, -, hc⟩ := h
  simp [hc]

/-- A brace, a new line and a quote begin an object with fields. -/
theorem readValue_object {level : Nat} {cs : List Char} :
    readValue (fuel + 1) ('{' :: (newline level ++ '"' :: cs)) = readFields fuel [] ('"' :: cs) := by
  simp [readValue, skipGaps_cons (c := '"') rfl]

/-- A new line in front of an item is skipped. -/
theorem readItems_newline {done : List Json} {level : Nat} {cs : List Char} :
    readItems fuel done (newline level ++ cs) = readItems fuel done cs := by
  cases fuel <;> simp [readItems]

/-- A new line in front of a field is skipped. -/
theorem readFields_newline {done : List (Option String × Json)} {level : Nat} {cs : List Char} :
    readFields fuel done (newline level ++ cs) = readFields fuel done cs := by
  cases fuel <;> simp [readFields]

/-- What follows an item or a field does not extend a number. -/
theorem stops_newline (level : Nat) (cs : List Char) : Stops (newline level ++ cs) :=
  stops_cons (by decide)

/-- A comma stops a number. -/
theorem stops_comma (cs : List Char) : Stops (',' :: cs) :=
  stops_cons (by decide)

/-- The text of fields starts with a quoted name. -/
theorem writePrettyFields_cons (level : Nat) (k : String) (v : Json) (fs : List (String × Json)) :
    ∃ cs, writePrettyFields level ((k, v) :: fs) = '"' :: cs := by
  cases fs with
  | nil => exact ⟨_, by rw [writePrettyFields, writeString, List.cons_append, List.cons_append]⟩
  | cons f fs => exact ⟨_, by rw [writePrettyFields_cons_cons, writeString, List.cons_append, List.cons_append]⟩

/-- **Values.** If with less fuel all parts are read back, a plain value is too. Behind it stands
what does not go on with it, so that the end of a number is seen. -/
theorem ReadsBack.value_succ (h : ReadsBack fuel) {v : Json} {level : Nat} {rest : List Char}
    (hv : Plain v) (hlen : (writePretty level v).length ≤ fuel + 1) (hr : Stops rest) :
    readValue (fuel + 1) (writePretty level v ++ rest) = some (v, rest) := by
  cases hv with
  | null => simp [writePretty, writeScalar, readValue, eatWord]
  | bool b => cases b <;> simp [writePretty, writeScalar, readValue, eatWord]
  | int n => simpa [writePretty, writeScalar] using readValue_int n hr
  | str s => simp [writePretty, writeScalar, writeString, readValue, readString_written]
  | @array items hitems =>
      cases items with
      | nil => simp [writePretty, readValue, skipGaps, isGap]
      | cons v vs =>
          rw [writePretty_array_cons] at hlen ⊢
          simp only [List.length_cons, List.length_append] at hlen
          have hstart := starts_writePrettyItems (hitems v (by simp)) vs (level + 1)
          simp only [List.cons_append, List.append_assoc, List.nil_append,
            readValue_array (hstart.append _)]
          exact h.items (level + 1) level [] hitems (by omega)
  | @object fields hfields =>
      cases fields with
      | nil => simp [writePretty, readValue, skipGaps, isGap]
      | cons f fs =>
          obtain ⟨k, v⟩ := f
          rw [writePretty_object_cons] at hlen ⊢
          simp only [List.length_cons, List.length_append] at hlen
          obtain ⟨cs, hcs⟩ := writePrettyFields_cons (level + 1) k v fs
          simp only [List.cons_append, List.append_assoc, List.nil_append, hcs,
            readValue_object]
          rw [← List.cons_append, ← hcs]
          exact h.fields (level + 1) level [] hfields (by omega)

/-- The items of an array are read back one by one, up to the closing bracket. -/
theorem ReadsBack.items_succ (h : ReadsBack fuel) {v : Json} {vs done : List Json}
    {level outer : Nat} {rest : List Char} (hitems : ∀ w ∈ v :: vs, Plain w)
    (hlen : (writePrettyItems level (v :: vs)).length < fuel + 1) :
    readItems (fuel + 1) done (writePrettyItems level (v :: vs) ++ (newline outer ++ ']' :: rest)) =
      some (.array (done.reverse ++ v :: vs), rest) := by
  have hv : Plain v := hitems v (by simp)
  rw [readItems, ((starts_writePrettyItems hv vs level).append _).stay]
  cases vs with
  | nil =>
      rw [writePrettyItems] at hlen ⊢
      rw [h.value level hv (by omega) (stops_newline _ _)]
      simp [skipGaps_cons (c := ']') rfl]
  | cons w vs =>
      rw [writePrettyItems_cons_cons] at hlen ⊢
      simp only [List.length_append, List.length_cons] at hlen
      have hvs : ∀ u ∈ w :: vs, Plain u := fun u hu => hitems u (List.mem_cons_of_mem v hu)
      rw [List.append_assoc, List.cons_append, h.value level hv (by omega) (stops_comma _)]
      simp [skipGaps_cons (c := ',') rfl, readItems_newline, h.items level outer _ hvs (by omega)]

/-- The fields of an object are read back one by one, up to the closing brace. Those that were read
are in `done`, in the reverse order. -/
theorem ReadsBack.fields_succ (h : ReadsBack fuel) {f : String × Json}
    {fs done : List (String × Json)} {level outer : Nat} {rest : List Char}
    (hfields : ∀ g ∈ f :: fs, Plain g.2)
    (hlen : (writePrettyFields level (f :: fs)).length < fuel + 1) :
    readFields (fuel + 1) (done.map fun f => (some f.1, f.2))
        (writePrettyFields level (f :: fs) ++ (newline outer ++ '}' :: rest)) =
      some (.object (done.reverse ++ f :: fs), rest) := by
  obtain ⟨k, v⟩ := f
  have hv : Plain v := hfields (k, v) (by simp)
  have hstart := hv.starts level
  cases fs with
  | nil =>
      rw [writePrettyFields] at hlen ⊢
      simp only [List.length_append, List.length_cons] at hlen
      have hclose := closeObject_map ((k, v) :: done)
      simp only [List.map_cons, List.reverse_cons] at hclose
      simp [readFields, writeString, readString_written, skipGaps_cons (c := '"') rfl,
        skipGaps_cons (c := ':') rfl, skipGaps_cons (c := '}') rfl, (hstart.append _).stay,
        h.value level hv (show _ ≤ fuel by omega) (stops_newline _ _), hclose]
  | cons g fs =>
      rw [writePrettyFields_cons_cons] at hlen ⊢
      simp only [List.length_append, List.length_cons] at hlen
      have hfs : ∀ u ∈ g :: fs, Plain u.2 := fun u hu => hfields u (List.mem_cons_of_mem _ hu)
      have hrest : readFields fuel ((some k, v) :: done.map fun f => (some f.1, f.2))
          (writePrettyFields level (g :: fs) ++ (newline outer ++ '}' :: rest)) = _ :=
        h.fields level outer ((k, v) :: done) hfs (by omega)
      simp [readFields, writeString, readString_written, skipGaps_cons (c := '"') rfl,
        skipGaps_cons (c := ':') rfl, skipGaps_cons (c := ',') rfl, (hstart.append _).stay,
        h.value level hv (show _ ≤ fuel by omega) (stops_comma _), readFields_newline, hrest]

/-- **Values.** Every fuel that is at least the length of a text is enough to read it back. -/
theorem readsBack (fuel : Nat) : ReadsBack fuel := by
  induction fuel with
  | zero =>
      refine ⟨fun level v rest hv hlen _ => ?_, fun _ _ _ _ _ _ _ h => absurd h (Nat.not_lt_zero _),
        fun _ _ _ _ _ _ _ h => absurd h (Nat.not_lt_zero _)⟩
      obtain ⟨c, cs, hc, -⟩ := hv.starts level
      simp [hc] at hlen
  | succ fuel ih =>
      exact ⟨fun _ _ _ => ih.value_succ, fun _ _ _ _ _ _ => ih.items_succ,
        fun _ _ _ _ _ _ => ih.fields_succ⟩

/-- **Texts.** The text of a value is read as that value. -/
theorem parse?_renderPretty {v : Json} (h : Plain v) : parse? v.renderPretty = some v := by
  have hread := (readsBack (2 * (writePretty 0 v).length + 2)).value 0 h (by omega) stops_nil
  rw [List.append_nil] at hread
  simp [parse?, renderPretty, (h.starts 0).stay, hread, skipGaps_nil]

end Parlance.Json
