import Parlance.Proofs.Token.Classes
import Parlance.Proofs.Token.Locations
import Parlance.Proofs.Token.Matching

/-!
# Lexemes on their own

The extent of a token is decided with a look at what follows it: the longest symbol, a digit
behind the point of a fraction, the characters of a number or a word, a comment that might begin.
A space ends all of these the same way. So the lexemes of a text, joined by single spaces, are the
lexemes of the joined text again.

What is shown of each scanning function is that it takes the same characters when what follows
begins alike, or with a space, or is missing.

## Main definitions

* `Parted`: a text that is empty or begins with a space.
* `Follows`: what may take the place of what follows a part of a token.
* `Takes`: a scanning function takes a part, whatever follows it in this sense.

## Main results

* `scanToken_parted`: a lexeme is scanned alike in front of a space.
* `lexes_joined`: the lexemes of a text, joined by spaces, give the same tokens.
-/

namespace Parlance

/-- A text that is empty or begins with a space. -/
def Parted (cs : List Char) : Prop :=
  ∀ c ∈ cs.head?, c = ' '

/-- The empty text is parted. -/
theorem parted_nil : Parted [] :=
  nofun

/-- A text that begins with a space is parted. -/
theorem parted_space (cs : List Char) : Parted (' ' :: cs) := by
  rintro c ⟨⟩
  rfl

/-- What may take the place of `rest`: what begins alike, or a parted text. -/
def Follows (rest rest' : List Char) : Prop :=
  rest'.head? = rest.head? ∨ Parted rest'

section

variable {d body rest rest' : List Char}

/-- A parted text may take the place of anything. -/
theorem Parted.follows (h : Parted rest') (body rest : List Char) :
    Follows (body ++ rest) (body ++ rest') := by
  cases body with
  | nil => exact .inr h
  | cons c body => exact .inl rfl

/-- A class without the space ends where it ended. -/
theorem Follows.head {p : Char → Bool} (h : Follows rest rest') (hp : p ' ' = false)
    (hrest : ∀ c ∈ rest.head?, p c = false) : ∀ c ∈ rest'.head?, p c = false := by
  rcases h with h | h
  · rwa [h]
  · intro c hc
    rw [h c hc, hp]

/-- No symbol without spaces goes on over a space. -/
theorem prefix_of_parted (hd : ' ' ∉ d) (hp : Parted rest) (h : d <+: body ++ rest) :
    d <+: body := by
  rcases List.prefix_or_prefix_of_prefix h (List.prefix_append body rest) with hb | ⟨e, rfl⟩
  · exact hb
  · cases e with
    | nil => rw [List.append_nil]
    | cons c e =>
        have hc : c = ' ' := by
          obtain ⟨t, ht⟩ := (List.prefix_append_right_inj body).mp h
          exact hp c (by rw [← ht]; rfl)
        exact absurd (by rw [← hc]; simp) hd

/-- A symbol of at most one character more than `body` sees no difference in what follows. -/
theorem Follows.prefix (h : Follows rest rest') (hd : ' ' ∉ d) (hlen : d.length ≤ body.length + 1)
    (hp : d <+: body ++ rest') : d <+: body ++ rest := by
  rcases h with h | h
  · cases rest' with
    | nil =>
        rw [List.append_nil] at hp
        exact hp.trans (List.prefix_append _ _)
    | cons c rest' =>
        have hshort : d <+: body ++ [c] := by
          refine List.prefix_of_prefix_length_le hp ⟨rest', by simp⟩ ?_
          simpa using hlen
        obtain ⟨t, rfl⟩ := List.head?_eq_some_iff.mp h.symm
        exact hshort.trans ⟨t, by simp⟩
  · exact (prefix_of_parted hd h hp).trans (List.prefix_append _ _)

/-- A run of characters ends where the next one is of another kind. -/
theorem takeWhile_append_of_head {p : Char → Bool} (hbody : ∀ c ∈ body, p c = true)
    (hrest : ∀ c ∈ rest.head?, p c = false) : (body ++ rest).takeWhile p = body := by
  rw [List.takeWhile_append_of_pos hbody]
  cases rest with
  | nil => simp
  | cons c rest => simp [hrest c rfl]

/-- What is left behind such a run is what follows it. -/
theorem dropWhile_append_of_head {p : Char → Bool} (hbody : ∀ c ∈ body, p c = true)
    (hrest : ∀ c ∈ rest.head?, p c = false) : (body ++ rest).dropWhile p = rest := by
  rw [List.dropWhile_append_of_pos hbody]
  cases rest with
  | nil => rfl
  | cons c rest => simp [hrest c rfl]

/-- What is left behind a run begins with a character of another kind. -/
theorem head?_dropWhile_eq_false (p : Char → Bool) (cs : List Char) :
    ∀ c ∈ (cs.dropWhile p).head?, p c = false := by
  intro c hc
  have h := List.head?_dropWhile_not p cs
  rw [Option.mem_def.mp hc] at h
  simpa using h

end

/-! ### Numbers -/

/-- A scanning function takes `body`, whatever follows in the place of `rest`. What it gives is
`found`, of what follows. -/
def Takes {α : Type} (f found : List Char → α) (body rest : List Char) : Prop :=
  ∀ rest', Follows rest rest' → f (body ++ rest') = found rest'

section

variable {c : Char} {cs rest : List Char}

/-- A part that has characters in front of it. -/
theorem Takes.front {α β : Type} {e found : List Char → α} {f found' : List Char → β}
    {front body : List Char} (h : Takes e found body rest)
    (hf : ∀ cs rest, e cs = found rest → f (front ++ cs) = found' rest) :
    Takes f found' (front ++ body) rest := by
  intro rest' hrest
  rw [List.append_assoc]
  exact hf _ _ (h rest' hrest)

/-- Digits are taken whatever follows, if a space is no digit. -/
theorem eatDigits_takes {isDigit : Char → Bool} {any : Bool} (hspace : isDigit ' ' = false)
    (h : eatDigits isDigit cs = (any, rest)) :
    ∃ body, cs = body ++ rest ∧ Takes (eatDigits isDigit) (any, ·) body rest := by
  cases h
  let inside (c : Char) : Bool := isDigit c || c == '_'
  refine ⟨cs.takeWhile inside, List.takeWhile_append_dropWhile.symm, fun rest' hrest => ?_⟩
  have hbody : ∀ c ∈ cs.takeWhile inside, inside c = true := fun c hc => List.mem_takeWhile_imp hc
  have hhead : ∀ c ∈ rest'.head?, inside c = false :=
    hrest.head (by simp [inside, hspace]) (head?_dropWhile_eq_false inside cs)
  simp only [eatDigits]
  rw [takeWhile_append_of_head hbody hhead, dropWhile_append_of_head hbody hhead]

/-- Digits take the first one. -/
theorem eatDigits_takes_head {isDigit : Char → Bool} {any : Bool} (hspace : isDigit ' ' = false)
    (hc : isDigit c = true) (h : eatDigits isDigit (c :: cs) = (any, rest)) :
    ∃ body, cs = body ++ rest ∧ Takes (eatDigits isDigit) (any, ·) (c :: body) rest := by
  obtain ⟨body, hcs, htakes⟩ := eatDigits_takes hspace h
  cases body with
  | nil =>
      have hrest : (eatDigits isDigit (c :: cs)).2 <:+ cs := by
        simp [eatDigits, hc, List.dropWhile_suffix]
      rw [h] at hrest
      have := hrest.length_le
      rw [← List.nil_append rest, ← hcs, List.length_cons] at this
      omega
  | cons c' body =>
      cases hcs
      exact ⟨body, rfl, htakes⟩

/-- An integer part with the prefix of a base. -/
theorem eatWhole_takes_base (isDigit : Char → Bool) {front : List Char} {decimal : Bool}
    (hspace : isDigit ' ' = false)
    (hfront : ∀ cs, eatWhole (front ++ cs) =
      match eatDigits isDigit cs with
      | (true, rest) => .ok (false, rest)
      | (false, rest) => .error (.emptyInt, rest))
    (h : eatWhole (front ++ cs) = .ok (decimal, rest)) :
    ∃ body, front ++ cs = body ++ rest ∧
      Takes eatWhole (fun rest => .ok (decimal, rest)) body rest := by
  rw [hfront] at h
  split at h
  · next heat =>
      cases h
      obtain ⟨body, rfl, htakes⟩ := eatDigits_takes hspace heat
      refine ⟨front ++ body, (List.append_assoc _ _ _).symm, htakes.front fun cs rest hcs => ?_⟩
      rw [hfront, hcs]
  · cases h

/-- An integer part without such a prefix is decimal. -/
theorem eatWhole_decimal (h : ∀ base ∈ ['b', 'o', 'x'], ¬ ['0', base] <+: cs) :
    eatWhole cs = .ok (true, (eatDigits Char.isDigit cs).2) := by
  unfold eatWhole
  split
  · next rest => exact absurd ⟨rest, rfl⟩ (h 'b' (by decide))
  · next rest => exact absurd ⟨rest, rfl⟩ (h 'o' (by decide))
  · next rest => exact absurd ⟨rest, rfl⟩ (h 'x' (by decide))
  · rfl

/-- The whole part of a number is taken whatever follows, if it is followed by something that does
not go on with it. -/
theorem eatWhole_takes {decimal : Bool} (hc : c.isDigit = true)
    (h : eatWhole (c :: cs) = .ok (decimal, rest)) :
    ∃ body, c :: cs = body ++ rest ∧
      Takes eatWhole (fun rest => .ok (decimal, rest)) body rest := by
  by_cases hbase : ∀ base ∈ ['b', 'o', 'x'], ¬ ['0', base] <+: c :: cs
  · rw [eatWhole_decimal hbase] at h
    cases h
    have hend : eatDigits Char.isDigit (c :: cs) = (_, _) := rfl
    obtain ⟨body, hcs, htakes⟩ := eatDigits_takes_head rfl hc hend
    refine ⟨c :: body, congrArg (c :: ·) hcs, fun rest' hrest => ?_⟩
    rw [eatWhole_decimal, htakes rest' hrest]
    intro base hmem hp
    refine hbase base hmem ?_
    have hspace : ' ' ∉ ['0', base] := by fin_cases hmem <;> decide
    have hlen : ['0', base].length ≤ (c :: body).length + 1 := by simp
    rw [hcs]
    exact hrest.prefix hspace hlen hp
  · simp only [not_forall, not_not] at hbase
    obtain ⟨base, hmem, cs', hcs'⟩ := hbase
    rw [← hcs'] at h ⊢
    fin_cases hmem
    · exact eatWhole_takes_base Char.isDigit rfl (fun _ => rfl) h
    · exact eatWhole_takes_base Char.isDigit rfl (fun _ => rfl) h
    · exact eatWhole_takes_base isHexDigit (by decide) (fun _ => rfl) h

/-- An exponent without a sign. -/
theorem eatExponent_unsigned (h : ∀ sign ∈ cs.head?, sign ≠ '-' ∧ sign ≠ '+') :
    eatExponent cs = eatDigits Char.isDigit cs := by
  unfold eatExponent
  split
  · exact absurd rfl (h '-' rfl).1
  · exact absurd rfl (h '+' rfl).2
  · rfl

/-- An exponent is taken whatever follows. -/
theorem eatExponent_takes (h : eatExponent cs = (true, rest)) :
    ∃ body, cs = body ++ rest ∧ Takes eatExponent (true, ·) body rest := by
  by_cases hsign : ∀ sign ∈ cs.head?, sign ≠ '-' ∧ sign ≠ '+'
  · rw [eatExponent_unsigned hsign] at h
    obtain ⟨body, rfl, htakes⟩ := eatDigits_takes rfl h
    refine ⟨body, rfl, fun rest' hrest => ?_⟩
    rw [eatExponent_unsigned, htakes rest' hrest]
    -- there is a digit, so that what follows does not come first
    cases body with
    | nil => cases htakes [] (.inr parted_nil)
    | cons c body => exact hsign
  · simp only [not_forall] at hsign
    obtain ⟨sign, hmem, hsign⟩ := hsign
    obtain ⟨cs, rfl⟩ := List.head?_eq_some_iff.mp hmem
    have hfront : ∀ cs, eatExponent ([sign] ++ cs) = eatDigits Char.isDigit cs := by
      intro cs
      rcases Decidable.not_and_iff_or_not.mp hsign with hs | hs
      · rw [Decidable.not_not.mp hs]
        rfl
      · rw [Decidable.not_not.mp hs]
        rfl
    obtain ⟨body, rfl, htakes⟩ := eatDigits_takes rfl ((hfront cs).symm.trans h)
    exact ⟨[sign] ++ body, rfl, htakes.front fun cs rest hcs => (hfront cs).trans hcs⟩

/-- Where no exponent begins, none is taken. -/
theorem eatExponentPart_none {allowed : Bool}
    (h : ∀ e ∈ cs.head?, (allowed && (e == 'e' || e == 'E')) = false) :
    eatExponentPart allowed cs = .ok (false, cs) := by
  cases cs with
  | nil => rfl
  | cons e cs => rw [eatExponentPart, h e rfl]; rfl

/-- After the letter of an exponent there are digits. -/
theorem eatExponentPart_letter {allowed : Bool} {e : Char}
    (he : (allowed && (e == 'e' || e == 'E')) = true) :
    eatExponentPart allowed ([e] ++ cs) =
      match eatExponent cs with
      | (true, rest) => .ok (true, rest)
      | (false, rest) => .error (.emptyExponent, rest) :=
  if_pos he

/-- The part with the letter of the exponent is taken whatever follows, and begins with this letter
if it is there. -/
theorem eatExponentPart_takes {allowed some : Bool}
    (h : eatExponentPart allowed cs = .ok (some, rest)) :
    ∃ body, cs = body ++ rest ∧ (∀ e ∈ body.head?, e = 'e' ∨ e = 'E') ∧
      Takes (eatExponentPart allowed) (fun rest => .ok (some, rest)) body rest := by
  by_cases hnone : ∀ e ∈ cs.head?, (allowed && (e == 'e' || e == 'E')) = false
  · rw [eatExponentPart_none hnone] at h
    cases h
    refine ⟨[], rfl, nofun, fun rest' hrest => eatExponentPart_none ?_⟩
    exact hrest.head (p := fun e => allowed && (e == 'e' || e == 'E')) (by simp) hnone
  · simp only [not_forall, Bool.not_eq_false] at hnone
    obtain ⟨e, hmem, he⟩ := hnone
    obtain ⟨cs, rfl⟩ := List.head?_eq_some_iff.mp hmem
    rw [← List.singleton_append, eatExponentPart_letter he] at h
    split at h
    · next heat =>
        cases h
        obtain ⟨body, rfl, htakes⟩ := eatExponent_takes heat
        refine ⟨[e] ++ body, rfl, ?_, htakes.front fun cs rest hcs => by
          rw [eatExponentPart_letter he, hcs]⟩
        intro e' he'
        cases he'
        simpa using (Bool.and_eq_true_iff.mp he).2
    · cases h

/-- What is no point with a digit behind it is no fraction. -/
theorem eatFraction_none {decimal : Bool}
    (h : ∀ d ∈ cs.tail.head?, cs.head? = some '.' → d.isDigit = false) :
    eatFraction decimal cs = eatExponentPart decimal cs := by
  unfold eatFraction
  split
  · next d rest =>
      rw [if_neg (Bool.eq_false_iff.mp (h d rfl rfl)), eatExponentPart_none]
      rintro - ⟨⟩
      simp
  · rfl

/-- After a point with a digit behind it there are the digits of a fraction. -/
theorem eatFraction_point {decimal : Bool} {d : Char} (hd : d.isDigit = true) :
    eatFraction decimal ('.' :: d :: cs) =
      match eatExponentPart true (eatDigits Char.isDigit (d :: cs)).2 with
      | .ok (_, rest) => .ok (true, rest)
      | .error e => .error e :=
  if_pos hd

/-- A fraction ends at a space. A point that may follow it does not do, as a digit could stand
behind that. -/
theorem eatFraction_parted {decimal fractional : Bool}
    (h : eatFraction decimal cs = .ok (fractional, rest)) :
    ∃ body, cs = body ++ rest ∧ ∀ rest', Parted rest' →
      eatFraction decimal (body ++ rest') = .ok (fractional, rest') := by
  by_cases hnone : ∀ d ∈ cs.tail.head?, cs.head? = some '.' → d.isDigit = false
  · rw [eatFraction_none hnone] at h
    obtain ⟨body, rfl, hbody, htakes⟩ := eatExponentPart_takes h
    refine ⟨body, rfl, fun rest' hrest => ?_⟩
    rw [eatFraction_none, htakes rest' (.inr hrest)]
    intro d hd hpoint
    cases body with
    | nil => cases hrest _ hpoint
    | cons e body =>
        cases hpoint
        rcases hbody _ rfl with he | he <;> cases he
  · simp only [not_forall, Bool.not_eq_false] at hnone
    obtain ⟨d, hmem, hpoint, hd⟩ := hnone
    obtain ⟨cs, rfl⟩ := List.head?_eq_some_iff.mp hpoint
    obtain ⟨cs, rfl⟩ := List.head?_eq_some_iff.mp hmem
    rw [eatFraction_point hd] at h
    generalize hend : eatDigits Char.isDigit (d :: cs) = digits at h
    obtain ⟨any, after⟩ := digits
    obtain ⟨digits, hdigits, htakes⟩ := eatDigits_takes_head rfl hd hend
    dsimp only at h
    split at h
    · next heat =>
        cases h
        obtain ⟨exponent, hexponent, -, htakes'⟩ := eatExponentPart_takes heat
        refine ⟨'.' :: d :: digits ++ exponent, ?_, fun rest' hrest => ?_⟩
        · rw [hdigits, hexponent]
          simp
        · have hfollows := hrest.follows exponent rest
          rw [← hexponent] at hfollows
          have hat := htakes (exponent ++ rest') hfollows
          rw [List.append_assoc, List.cons_append, List.cons_append, eatFraction_point hd]
          rw [List.cons_append] at hat
          rw [hat, htakes' rest' (.inr hrest)]
    · cases h

/-- The extent of a number ends at a space: a number that was found in front of any text is found
alike in front of one that is empty or starts with a space. -/
theorem eatNumber_parted {decimal fractional : Bool} (hc : c.isDigit = true)
    (h : eatNumber (c :: cs) = .ok (decimal, fractional, rest)) :
    ∃ body, c :: cs = body ++ rest ∧ ∀ rest', Parted rest' →
      eatNumber (body ++ rest') = .ok (decimal, fractional, rest') := by
  unfold eatNumber at h
  simp only [bind, Except.bind] at h
  split at h
  · cases h
  · next whole hwhole =>
      obtain ⟨decimal', after⟩ := whole
      dsimp only at h
      split at h
      · cases h
      · next fraction hfraction =>
          obtain ⟨fractional', rest'⟩ := fraction
          dsimp only at h
          split at h
          · cases h
          · cases h
            obtain ⟨front, hfront, htakes⟩ := eatWhole_takes hc hwhole
            obtain ⟨back, hback, hparted⟩ := eatFraction_parted hfraction
            refine ⟨front ++ back, by rw [hfront, hback, List.append_assoc], fun rest' hrest => ?_⟩
            have hfollows := hrest.follows back rest
            rw [← hback] at hfollows
            have hend : rest'.head?.any isIdContinue = false := by
              cases rest' with
              | nil => rfl
              | cons c' rest' =>
                  rw [hrest c' rfl]
                  exact isIdContinue_space
            unfold eatNumber
            rw [List.append_assoc, htakes _ hfollows]
            simp only [bind, Except.bind]
            rw [hparted _ hrest]
            simp only [hend]
            rfl

/-- A number in front of a space. -/
theorem scanNumber_parted {kind : TokenKind} (hc : c.isDigit = true)
    (h : scanNumber (c :: cs) = (.ok kind, rest)) :
    ∃ body, c :: cs = body ++ rest ∧ ∀ rest', Parted rest' →
      scanNumber (body ++ rest') = (.ok kind, rest') := by
  unfold scanNumber at h
  split at h
  · cases h
  · next decimal fractional after heat =>
      obtain ⟨hkind, rfl⟩ := Prod.mk.inj h
      obtain ⟨body, hcs, hparted⟩ := eatNumber_parted hc heat
      rw [hcs, consumed_append] at hkind
      refine ⟨body, hcs, fun rest' hrest => ?_⟩
      unfold scanNumber
      rw [hparted rest' hrest]
      dsimp only
      rw [consumed_append, hkind]

end

/-! ### Strings, words and symbols -/

section

variable {g : Grammar} {c : Char} {cs rest : List Char}

/-- A string ends at its quote, whatever follows. -/
theorem closeString?_append (h : closeString? cs = some rest) :
    ∃ body, cs = body ++ rest ∧ ∀ rest', closeString? (body ++ rest') = some rest' := by
  fun_induction closeString? cs with
  | case1 => cases h
  | case2 rest =>
      cases h
      exact ⟨['"'], rfl, fun _ => rfl⟩
  | case3 d cs ih =>
      obtain ⟨body, rfl, hbody⟩ := ih h
      exact ⟨'\\' :: d :: body, rfl, fun rest' => hbody rest'⟩
  | case4 d cs hquote hescape ih =>
      obtain ⟨body, rfl, hbody⟩ := ih h
      refine ⟨d :: body, rfl, fun rest' => ?_⟩
      rw [List.cons_append, closeString?, hbody]
      · exact hquote
      · rintro c rest'' rfl -
        cases body with
        | nil => cases hbody []
        | cons c body => exact hescape c (body ++ rest) rfl rfl

/-- A string is taken up to its quote, so anything at all may follow. The characters in between are
escapes or stand for themselves, and none of them is a bare quote. -/
theorem scanString_append {kind : TokenKind} (h : scanString (c :: cs) = (.ok kind, rest)) :
    ∃ body, c :: cs = c :: body ++ rest ∧ ∀ rest',
      scanString (c :: body ++ rest') = (.ok kind, rest') := by
  unfold scanString at h
  split at h
  · cases h
  · next after hclose =>
      have hrest : rest = after := by
        split at h
        · exact (Prod.mk.inj h).2.symm
        · exact (Prod.mk.inj h).2.symm
      subst hrest
      obtain ⟨body, hcs, hbody⟩ := closeString?_append hclose
      rw [List.drop_succ_cons, List.drop_zero] at hcs
      subst hcs
      refine ⟨body, rfl, fun rest' => ?_⟩
      rw [← List.cons_append, consumed_append] at h
      unfold scanString
      rw [List.cons_append, List.drop_succ_cons, List.drop_zero, hbody]
      dsimp only
      rw [← List.cons_append, consumed_append]
      cases hread : readStringLiteral (c :: body) with
      | ok s =>
          rw [hread] at h
          cases h
          rfl
      | error fault =>
          rw [hread] at h
          cases h

namespace Grammar

/-- No symbol of a valid grammar has a space in it, so none reaches over a space. -/
theorem Valid.space_notMem (hg : g.Valid) {s : List Char × TokenKind} (hs : s ∈ g.symbols) :
    ' ' ∉ s.1 := by
  obtain ⟨symbol, hmem, hsymbol⟩ : ∃ symbol ∈ g.spellings, symbol.toList = s.1 := by
    rcases List.mem_append.mp hs with hs | hs
    · obtain ⟨r, hr, rfl⟩ := List.mem_map.mp hs
      exact ⟨_, List.mem_append_left _ (List.mem_map_of_mem (List.mem_filter.mp hr).1), rfl⟩
    · obtain ⟨r, hr, rfl⟩ := List.mem_map.mp hs
      exact ⟨_, List.mem_append_right _ (List.mem_map_of_mem hr), rfl⟩
  intro hspace
  have h := hg.symbols symbol hmem
  unfold isSymbol at h
  split at h
  · cases h
  · next c cs heq =>
      rw [← hsymbol, heq] at hspace
      have : (c :: cs).any isSpace = true := List.any_eq_true.mpr ⟨' ', hspace, by decide⟩
      rw [this] at h
      cases h

end Grammar

/-- The longest symbol that a text starts with does not go on over a space. -/
theorem Longest.parted {symbols : List (List Char × TokenKind)} {s : List Char × TokenKind}
    (h : Longest (s.1 ++ rest) symbols s) (hspace : ∀ t ∈ symbols, ' ' ∉ t.1) {rest' : List Char}
    (hrest : Parted rest') : Longest (s.1 ++ rest') symbols s :=
  ⟨h.mem, List.prefix_append _ _, fun t ht hp => prefix_of_parted (hspace t ht) hrest hp⟩

/-- A lexeme begins with the first character. -/
theorem scanToken_lexeme (hu : g.Usable) {kind : TokenKind} {lexeme : List Char}
    (h : scanToken g c cs = (.ok kind, rest)) (hlexeme : c :: cs = lexeme ++ rest) :
    ∃ l, lexeme = c :: l ∧ cs = l ++ rest := by
  obtain ⟨⟨lexeme', hne, htakes⟩, -⟩ := scanToken_takes hu c cs
  rw [h] at htakes
  obtain rfl : lexeme = lexeme' := List.append_cancel_right (hlexeme.symm.trans htakes)
  cases lexeme with
  | nil => exact absurd rfl hne
  | cons c' l =>
      cases hlexeme
      exact ⟨l, rfl, rfl⟩

/-- **A lexeme in front of a space.** It is scanned alike, whatever stood behind it before. No
decision about where it ends goes another way, since no word, number or symbol goes on with a space.
-/
theorem scanToken_parted (hg : g.Valid) {kind : TokenKind} {l : List Char}
    (h : scanToken g c (l ++ rest) = (.ok kind, rest)) {rest' : List Char} (hrest : Parted rest') :
    scanToken g c (l ++ rest') = (.ok kind, rest') := by
  rw [← found_iff] at h ⊢
  generalize hcs : l ++ rest = cs at h
  -- what was taken in front of `rest` is the lexeme
  have hlexeme : ∀ {body : List Char}, c :: cs = body ++ rest → body = c :: l := fun hbody =>
    List.append_cancel_right (hbody.symm.trans (congrArg (c :: ·) hcs.symm))
  cases h with
  | word hc =>
      have hl : l = cs.takeWhile isIdContinue := by
        refine (List.append_left_inj (cs.dropWhile isIdContinue)).mp ?_
        rw [hcs, List.takeWhile_append_dropWhile]
      have hbody : ∀ c ∈ l, isIdContinue c = true := fun c hc =>
        List.mem_takeWhile_imp (hl ▸ hc)
      have hhead : ∀ c ∈ rest'.head?, isIdContinue c = false := fun c hc => by
        rw [hrest c hc]
        decide
      have hfound : Found g c (l ++ rest') _ _ := .word hc
      rw [takeWhile_append_of_head hbody hhead, dropWhile_append_of_head hbody hhead] at hfound
      rwa [← hl]
  | number hword hc h =>
      obtain ⟨body, hbody, hparted⟩ := scanNumber_parted hc h
      rw [hlexeme hbody] at hparted
      exact .number hword hc (hparted rest' hrest)
  | string hc h =>
      obtain ⟨body, hbody, happend⟩ := scanString_append h
      rw [hlexeme hbody] at happend
      exact .string hc (happend rest')
  | @symbol symbol _ hword hnumber hstring h =>
      have hlongest := Grammar.symbol?_longest h
      have hstarts := List.prefix_iff_eq_append.mp hlongest.starts
      obtain rfl : symbol = c :: l := hlexeme hstarts.symm
      rw [← hstarts] at hlongest
      have hfound : g.symbol? (c :: l ++ rest') = some (c :: l, kind) :=
        hg.symbol?_eq_some_iff.mpr (hlongest.parted (fun _ => hg.space_notMem) hrest)
      have hdrop : (c :: (l ++ rest')).drop (c :: l).length = rest' := by
        rw [← List.cons_append, List.drop_left]
      rw [List.cons_append] at hfound
      have hscan := Found.symbol hword hnumber hstring hfound
      rwa [hdrop] at hscan

end

/-! ### The joined lexemes -/

/-- What begins with no comment in front of `rest` begins with none in front of a space. -/
theorem Bare.parted {g : Grammar} {c : Char} {l rest rest' : List Char}
    (hline : ' ' ∉ g.lineComment.toList) (hopen : ' ' ∉ g.blockComment.1.toList)
    (h : Bare g (c :: l ++ rest)) (hrest : Parted rest') : Bare g (c :: l ++ rest') where
  blank := h.blank
  lineComment hne hp :=
    h.lineComment hne ((prefix_of_parted hline hrest hp).trans (List.prefix_append _ _))
  blockComment hne hp :=
    h.blockComment hne ((prefix_of_parted hopen hrest hp).trans (List.prefix_append _ _))

/-- Lexemes with a space in front of each. -/
def spaced (contents : List Content) : List Char :=
  contents.flatMap fun content => ' ' :: content.2

/-- Lexemes with a space in front of each are parted. -/
theorem parted_spaced (contents : List Content) : Parted (spaced contents) := by
  cases contents with
  | nil => exact parted_nil
  | cons content contents => exact parted_space _

/-- Joining by spaces puts a space in front of each lexeme but the first. -/
theorem intercalate_eq (content : Content) (contents : List Content) :
    List.intercalate [' '] ((content :: contents).map (·.2)) = content.2 ++ spaced contents := by
  induction contents generalizing content with
  | nil => simp [List.intercalate, spaced]
  | cons content' contents ih =>
      have h := ih content'
      simp only [List.intercalate, List.map_cons, List.intersperse_cons_cons,
        List.flatten_cons] at h ⊢
      rw [h]
      rfl

/-- The lexemes of a text spell its contents, joined by spaces or with a space in front of each. -/
theorem Spells.joined {g : Grammar} {text : List Char} {contents : List Content} (hg : g.Valid)
    (hu : g.Usable) (hline : ' ' ∉ g.lineComment.toList) (hopen : ' ' ∉ g.blockComment.1.toList)
    (h : Spells g text contents) :
    Spells g (spaced contents) contents ∧
      Spells g (List.intercalate [' '] (contents.map (·.2))) contents := by
  induction h with
  | done =>
      have hnil : Spells g [] [] := .done (bare_nil.skipTrivia _)
      exact ⟨hnil, hnil⟩
  | @token text cs lexeme rest c kind contents htrivia hlexeme hscan h ih =>
      obtain ⟨l, rfl, rfl⟩ := scanToken_lexeme hu hscan hlexeme
      have hrest := parted_spaced contents
      have hbare := (bare_of_skipTrivia htrivia (Nat.lt_succ_self _)).parted hline hopen hrest
      have hscan' := scanToken_parted hg hscan hrest
      have hjoined : Spells g (c :: l ++ spaced contents) ((kind, c :: l) :: contents) :=
        .token (hbare.skipTrivia _) rfl hscan' ih.1
      refine ⟨hjoined.space, ?_⟩
      rw [intercalate_eq]
      exact hjoined

/-- **Lexemes on their own.** Of a text without lexical errors, the lexemes joined by single spaces
give tokens of the same kinds and lexemes, and no errors, for every validated grammar in which no
space occurs in what a comment begins with. Both texts are as long as positions of 32 bits allow,
and all items are at places that fit. -/
theorem lexes_joined {g g' : Grammar} (hg : g.validate = .ok g')
    (hline : ' ' ∉ g'.lineComment.toList) (hopen : ' ' ∉ g'.blockComment.1.toList)
    {recovery : Recovery} {text : List Char} (htext : Addressable text)
    (herr : ∀ e, .error e ∉ lexItems g' recovery text) :
    ∃ contents, Lexes g' recovery text contents ∧
      (∀ item ∈ lexItems g' recovery text, LexItem.Fits item) ∧
      (Addressable (List.intercalate [' '] (contents.map (·.2))) → ∀ recovery',
        Lexes g' recovery' (List.intercalate [' '] (contents.map (·.2))) contents ∧
        ∀ item ∈ lexItems g' recovery' (List.intercalate [' '] (contents.map (·.2))),
          LexItem.Fits item) := by
  have hu := Grammar.usable_of_validate hg
  obtain ⟨contents, h⟩ := exists_spells hu herr
  refine ⟨contents, lexes_of_spells hu _ h, lexItems_fits g' recovery htext,
    fun hjoined recovery' => ⟨?_, lexItems_fits g' recovery' hjoined⟩⟩
  exact lexes_of_spells hu _ (h.joined (Grammar.valid_of_validate hg) hu hline hopen).2

/-- Tokens with nothing between them, and a comment. -/
def crowded : List Char :=
  "1.5<=x//c".toList

/-- The tokens of `crowded`, joined by spaces, are lexed as the same tokens. -/
theorem lexes_joined_crowded :
    Lexes Grammar.standard.sortSymbols .halt "1.5 <= x".toList
      [(.lit .float, "1.5".toList), (.operator .le, "<=".toList), (.ident, "x".toList)] := by
  have hcrowded : Lexes Grammar.standard.sortSymbols .skip crowded
      [(.lit .float, "1.5".toList), (.operator .le, "<=".toList), (.ident, "x".toList)] := by
    refine ⟨[⟨.lit .float, "1.5".toList, ⟨0, 3⟩, ⟨1, 1, 0⟩⟩,
      ⟨.operator .le, "<=".toList, ⟨3, 5⟩, ⟨1, 4, 3⟩⟩, ⟨.ident, "x".toList, ⟨5, 6⟩, ⟨1, 6, 5⟩⟩],
      ⟨.eof, [], ⟨9, 9⟩, ⟨1, 10, 9⟩⟩, ?_, rfl, rfl⟩
    cbv
  obtain ⟨contents, hcontents, -, hjoined⟩ :=
    lexes_joined validate_standard_sorted (by decide) (by decide)
      (addressable_of_lt (by decide)) hcrowded.error_notMem
  obtain rfl := hcontents.unique hcrowded
  exact (hjoined (addressable_of_lt (by decide)) .halt).1

end Parlance
