import Parlance.Proofs.Token.Order
import Parlance.Tree.Outline
import Parlance.Tree.Parser

/-!
# The ranges of parsed trees

A node stands on tokens that follow one another: its range starts where the first of them starts
and ends where the last of them ends. The parts of a node stand on tokens of the node, one part
behind the other. Parsing shows this of every tree that it gives, also after it recovered from
errors, as it only ever consumes tokens and gives a node the tokens that were consumed since it
began.

What parsing consumes is followed by the number of tokens that are gone (`Parse.Over`). Ranges come
in only at the end, where tokens that stand in order make nested ranges out of nested stretches of
tokens.

## Main definitions

* `Spans`: the range of a stretch of tokens.
* `Outline.Fits`: a tree on a stretch of tokens.
* `Outline.Nested`: the ranges of a node and its children.

## Main results

* `Parse.over_expr` and its companions: what parsing gives fits the tokens that it consumes.
* `parse_nested`: the ranges of a parsed program nest.
-/

namespace Parlance

/-! ### Stretches of tokens -/

/-- The range from the token `i` up to the token before `j`. -/
def Spans (tokens : List Token) (i j : Nat) (r : Range) : Prop :=
  i < j ∧ ∃ first last, tokens[i]? = some first ∧ tokens[j - 1]? = some last ∧
    r = ⟨first.range.start, last.range.stop⟩

namespace InOrder

variable {size i j : Nat} {tokens : List Token} {a b : Token}

/-- An earlier token ends before a later one starts. -/
theorem stop_le_start (h : InOrder size tokens) (hi : tokens[i]? = some a)
    (hj : tokens[j]? = some b) (hij : i < j) : a.range.stop ≤ b.range.start := by
  obtain ⟨hi', rfl⟩ := List.getElem?_eq_some_iff.mp hi
  obtain ⟨hj', rfl⟩ := List.getElem?_eq_some_iff.mp hj
  exact List.pairwise_iff_getElem.mp h.ordered i j hi' hj' hij

/-- Of two tokens in order, the first one starts before the second one ends. -/
theorem start_le_stop (h : InOrder size tokens) (hi : tokens[i]? = some a)
    (hj : tokens[j]? = some b) (hij : i ≤ j) : a.range.start ≤ b.range.stop := by
  have ha := (h.within a (List.mem_of_getElem? hi)).1
  have hb := (h.within b (List.mem_of_getElem? hj)).1
  rcases Nat.lt_or_eq_of_le hij with hlt | rfl
  · have := h.stop_le_start hi hj hlt
    omega
  · obtain rfl := Option.some.inj (hi.symm.trans hj)
    exact ha

/-- Tokens in order start in order. -/
theorem start_le_start (h : InOrder size tokens) (hi : tokens[i]? = some a)
    (hj : tokens[j]? = some b) (hij : i ≤ j) : a.range.start ≤ b.range.start := by
  rcases Nat.lt_or_eq_of_le hij with hlt | rfl
  · have := (h.within a (List.mem_of_getElem? hi)).1
    have := h.stop_le_start hi hj hlt
    omega
  · obtain rfl := Option.some.inj (hi.symm.trans hj)
    exact Nat.le_refl _

/-- Tokens in order end in order. -/
theorem stop_le_stop (h : InOrder size tokens) (hi : tokens[i]? = some a)
    (hj : tokens[j]? = some b) (hij : i ≤ j) : a.range.stop ≤ b.range.stop := by
  rcases Nat.lt_or_eq_of_le hij with hlt | rfl
  · have := (h.within b (List.mem_of_getElem? hj)).1
    have := h.stop_le_start hi hj hlt
    omega
  · obtain rfl := Option.some.inj (hi.symm.trans hj)
    exact Nat.le_refl _

end InOrder

/-- A range inside another one. -/
def Range.Inside (r r' : Range) : Prop :=
  r'.start ≤ r.start ∧ r.stop ≤ r'.stop

/-- A range from the start of a token to the end of a token. -/
def Range.OnTokens (tokens : List Token) (r : Range) : Prop :=
  r.start ≤ r.stop ∧ (∃ t ∈ tokens, r.start = t.range.start) ∧ ∃ t ∈ tokens, r.stop = t.range.stop

namespace Spans

variable {size i j i' j' : Nat} {tokens : List Token} {r r' : Range}

/-- The range of a stretch of tokens starts before it ends. -/
theorem start_le_stop (h : Spans tokens i j r) (ho : InOrder size tokens) : r.start ≤ r.stop := by
  obtain ⟨hij, a, b, ha, hb, rfl⟩ := h
  exact ho.start_le_stop ha hb (by omega)

/-- The range of a stretch that is part of another one lies inside the range of that. -/
theorem inside (h : Spans tokens i j r) (h' : Spans tokens i' j' r') (ho : InOrder size tokens)
    (hi : i' ≤ i) (hj : j ≤ j') : r.Inside r' := by
  obtain ⟨hij, a, b, ha, hb, rfl⟩ := h
  obtain ⟨hij', a', b', ha', hb', rfl⟩ := h'
  exact ⟨ho.start_le_start ha' ha hi, ho.stop_le_stop hb hb' (by omega)⟩

/-- The ranges of two stretches that follow each other do so too. -/
theorem before (h : Spans tokens i j r) (h' : Spans tokens i' j' r') (ho : InOrder size tokens)
    (hj : j ≤ i') : r.stop ≤ r'.start := by
  obtain ⟨hij, a, b, ha, hb, rfl⟩ := h
  obtain ⟨hij', a', b', ha', hb', rfl⟩ := h'
  exact ho.stop_le_start hb ha' (by omega)

/-- The range of a stretch starts where a token starts and ends where one ends. -/
theorem onTokens (h : Spans tokens i j r) (ho : InOrder size tokens) : r.OnTokens tokens := by
  refine ⟨h.start_le_stop ho, ?_⟩
  obtain ⟨-, a, b, ha, hb, rfl⟩ := h
  exact ⟨⟨a, List.mem_of_getElem? ha, rfl⟩, b, List.mem_of_getElem? hb, rfl⟩

end Spans

/-! ### Trees on tokens -/

mutual

/-- A tree stands on tokens from `lo` on and before `hi`: its root on a stretch of them, and its
children on parts of that. -/
def Outline.Fits (tokens : List Token) (lo hi : Nat) : Outline → Prop
  | .node n _ _ cs => ∃ i j, lo ≤ i ∧ j ≤ hi ∧ Spans tokens i j n.range ∧
    Outline.AllFit tokens i j cs

/-- Children stand on tokens from `lo` on and before `hi`, one behind the other. -/
def Outline.AllFit (tokens : List Token) (lo hi : Nat) : List (Option Outline) → Prop
  | [] => lo ≤ hi
  | none :: cs => Outline.AllFit tokens lo hi cs
  | some c :: cs => ∃ mid, c.Fits tokens lo mid ∧ Outline.AllFit tokens mid hi cs

end

namespace Outline

variable {tokens : List Token} {lo hi lo' hi' : Nat} {o : Outline} {cs : List (Option Outline)}

/-- A tree that stands on tokens stands on more tokens as well. -/
theorem Fits.mono (h : o.Fits tokens lo hi) (hlo : lo' ≤ lo) (hhi : hi ≤ hi') :
    o.Fits tokens lo' hi' := by
  obtain ⟨n, k, d, cs⟩ := o
  rw [Fits] at h ⊢
  obtain ⟨i, j, hi, hj, h⟩ := h
  exact ⟨i, j, by omega, by omega, h⟩

/-- A tree stands on a token at least. -/
theorem Fits.lt (h : o.Fits tokens lo hi) : lo < hi := by
  obtain ⟨n, k, d, cs⟩ := o
  rw [Fits] at h
  obtain ⟨i, j, hi, hj, hspan, -⟩ := h
  have := hspan.1
  omega

/-- Children that stand between two places show that the places are in order. -/
theorem AllFit.le (h : AllFit tokens lo hi cs) : lo ≤ hi := by
  induction cs generalizing lo with
  | nil => exact h
  | cons c cs ih =>
      cases c with
      | none => exact ih h
      | some c =>
          obtain ⟨mid, hc, h⟩ := h
          exact Nat.le_trans (Nat.le_of_lt hc.lt) (ih h)

/-- Children that stand on tokens stand on more tokens as well. -/
theorem AllFit.mono (h : AllFit tokens lo hi cs) (hlo : lo' ≤ lo) (hhi : hi ≤ hi') :
    AllFit tokens lo' hi' cs := by
  induction cs generalizing lo lo' with
  | nil => exact Nat.le_trans hlo (Nat.le_trans h hhi)
  | cons c cs ih =>
      cases c with
      | none => exact ih h hlo
      | some c =>
          obtain ⟨mid, hc, h⟩ := h
          exact ⟨mid, hc.mono hlo (Nat.le_refl _), ih h (Nat.le_refl _)⟩

/-- One child. -/
theorem Fits.single (h : o.Fits tokens lo hi) : AllFit tokens lo hi [some o] :=
  ⟨hi, h, Nat.le_refl _⟩

/-! ### From tokens to ranges -/

/-- The ranges of a node and its children: each child lies inside the node, and ends before the
next one starts. -/
structure Nested (o : Outline) : Prop where
  inside : ∀ c, some c ∈ o.children → c.note.range.Inside o.note.range
  ordered : (o.children.filterMap id).Pairwise fun c c' => c.note.range.stop ≤ c'.note.range.start

/-- The root of a tree stands on a stretch of the tokens that the tree stands on. -/
theorem Fits.span (h : o.Fits tokens lo hi) :
    ∃ i j, lo ≤ i ∧ j ≤ hi ∧ Spans tokens i j o.note.range := by
  obtain ⟨n, k, d, cs⟩ := o
  rw [Fits] at h
  obtain ⟨i, j, hi, hj, hspan, -⟩ := h
  exact ⟨i, j, hi, hj, hspan⟩

/-- Each child of a list stands between the limits of the list. -/
theorem AllFit.fits {c : Outline} (h : AllFit tokens lo hi cs) (hc : some c ∈ cs) :
    c.Fits tokens lo hi := by
  induction cs generalizing lo with
  | nil => cases hc
  | cons a cs ih =>
      cases a with
      | none =>
          rcases List.mem_cons.mp hc with hc | hc
          · cases hc
          · exact ih h hc
      | some a =>
          obtain ⟨mid, ha, h⟩ := h
          rcases List.mem_cons.mp hc with hc | hc
          · cases hc
            exact ha.mono (Nat.le_refl _) h.le
          · exact (ih h hc).mono (Nat.le_of_lt ha.lt) (Nat.le_refl _)

variable {size : Nat}

/-- Children that stand one behind the other have ranges that follow each other. A child that is
missing has none. -/
theorem AllFit.ordered (ho : InOrder size tokens) (h : AllFit tokens lo hi cs) :
    (cs.filterMap id).Pairwise fun c c' => c.note.range.stop ≤ c'.note.range.start := by
  induction cs generalizing lo with
  | nil => exact .nil
  | cons c cs ih =>
      cases c with
      | none => exact ih h
      | some c =>
          obtain ⟨mid, hc, h⟩ := h
          refine List.pairwise_cons.mpr ⟨fun c' hc' => ?_, ih h⟩
          obtain ⟨_, hmem, rfl⟩ := List.mem_filterMap.mp hc'
          obtain ⟨i, j, -, hj, hspan⟩ := hc.span
          obtain ⟨i', j', hi', -, hspan'⟩ := (h.fits hmem).span
          exact hspan.before hspan' ho (by omega)

mutual

/-- The nodes of a tree that stands on tokens have nested ranges. -/
theorem Fits.nodes (ho : InOrder size tokens) : ∀ {o : Outline} {lo hi : Nat},
    o.Fits tokens lo hi → ∀ x ∈ o.nodes, x.Nested ∧ x.note.range.OnTokens tokens
  | .node n k d cs, lo, hi, h, x, hx => by
      rw [Fits] at h
      obtain ⟨i, j, -, -, hspan, hcs⟩ := h
      rw [nodes] at hx
      rcases List.mem_cons.mp hx with rfl | hx
      · refine ⟨⟨fun c hc => ?_, hcs.ordered ho⟩, hspan.onTokens ho⟩
        obtain ⟨i', j', hi', hj', hspan'⟩ := (hcs.fits hc).span
        exact hspan'.inside hspan ho hi' hj'
      · exact AllFit.nodes ho hcs x hx

/-- Every node below children that stand on tokens is nested, and its range begins and ends with a
token. -/
theorem AllFit.nodes (ho : InOrder size tokens) : ∀ {cs : List (Option Outline)} {lo hi : Nat},
    AllFit tokens lo hi cs → ∀ x ∈ nodesOf cs, x.Nested ∧ x.note.range.OnTokens tokens
  | [], _, _, _, x, hx => by
      rw [nodesOf] at hx
      cases hx
  | none :: cs, lo, hi, h, x, hx => by
      rw [nodesOf] at hx
      have h : AllFit tokens lo hi cs := h
      exact AllFit.nodes ho h x hx
  | some c :: cs, lo, hi, h, x, hx => by
      obtain ⟨mid, hc, h⟩ := h
      rw [nodesOf] at hx
      rcases List.mem_append.mp hx with hx | hx
      · exact Fits.nodes ho hc x hx
      · exact AllFit.nodes ho h x hx

end

end Outline

/-! ### A logic of consumed tokens -/

/-- A state in which the first `k` tokens are consumed. -/
structure ParseState.After (tokens : List Token) (k : Nat) (s : ParseState) : Prop where
  le : k ≤ tokens.length
  left : s.tokens = tokens.drop k
  prevEnd : ∀ i t, k = i + 1 → tokens[i]? = some t → s.prevEnd = t.range.stop

namespace Parse

variable {α β : Type} {tokens : List Token} {k : Nat}

/-- A parser that starts after `k` tokens never goes back, and what it gives is related to the
number of tokens that are consumed then. -/
def Over (tokens : List Token) (k : Nat) (p : Parse α) (Q : Nat → α → Prop) : Prop :=
  ∀ s : ParseState, s.After tokens k →
    match p s with
    | .ok a s' => ∃ m, k ≤ m ∧ s'.After tokens m ∧ Q m a
    | .error _ s' => ∃ m, k ≤ m ∧ s'.After tokens m

/-- A parser of which it only matters that it never goes back. -/
def Moves (tokens : List Token) (p : Parse α) : Prop :=
  ∀ k, Over tokens k p fun _ _ => True

/-- A result that is there consumes nothing. -/
theorem Over.pure {a : α} {Q : Nat → α → Prop} (h : Q k a) : Over tokens k (pure a) Q :=
  fun _ hs => ⟨k, Nat.le_refl _, hs, h⟩

/-- The second of two parsers starts where the first one stopped, and may rely on what the first one
gave. -/
theorem Over.bind {p : Parse α} {f : α → Parse β} {Q : Nat → α → Prop} {R : Nat → β → Prop}
    (hp : Over tokens k p Q) (hf : ∀ m a, k ≤ m → Q m a → Over tokens m (f a) R) :
    Over tokens k (p >>= f) R := by
  intro s hs
  have h := hp s hs
  change match EStateM.bind p f s with
    | .ok a s' => ∃ m, k ≤ m ∧ s'.After tokens m ∧ R m a
    | .error _ s' => ∃ m, k ≤ m ∧ s'.After tokens m
  unfold EStateM.bind
  cases he : p s with
  | error e s' =>
      rw [he] at h
      exact h
  | ok a s' =>
      rw [he] at h
      obtain ⟨m, hkm, hs', hQ⟩ := h
      have h' := hf m a hkm hQ s' hs'
      dsimp only
      cases hfa : f a s' with
      | error e s'' =>
          rw [hfa] at h'
          obtain ⟨m', hm, hs''⟩ := h'
          exact ⟨m', Nat.le_trans hkm hm, hs''⟩
      | ok b s'' =>
          rw [hfa] at h'
          obtain ⟨m', hm, hs'', hR⟩ := h'
          exact ⟨m', Nat.le_trans hkm hm, hs'', hR⟩

/-- Less may be said of what a parser gives, and it may be used that the parser did not go back. -/
theorem Over.mono {p : Parse α} {Q R : Nat → α → Prop} (hp : Over tokens k p Q)
    (h : ∀ m a, k ≤ m → Q m a → R m a) : Over tokens k p R := by
  intro s hs
  have hp := hp s hs
  cases he : p s with
  | error e s' =>
      rw [he] at hp
      exact hp
  | ok a s' =>
      rw [he] at hp
      obtain ⟨m, hkm, hs', hQ⟩ := hp
      exact ⟨m, hkm, hs', h m a hkm hQ⟩

/-- A parser about which more is known, wherever it starts, never goes back. -/
theorem Over.moves {p : Parse α} {Q : Nat → Nat → α → Prop} (h : ∀ k, Over tokens k p (Q k)) :
    Moves tokens p :=
  fun k => (h k).mono fun _ _ _ _ => trivial

/-- A parser that never goes back, then one that relies on no more than this. -/
theorem Moves.bind {p : Parse α} {f : α → Parse β} {R : Nat → β → Prop} (hp : Moves tokens p)
    (hf : ∀ m a, k ≤ m → Over tokens m (f a) R) : Over tokens k (p >>= f) R :=
  (hp k).bind fun m a hkm _ => hf m a hkm

/-- Two parsers that never go back make one that does not. -/
theorem Moves.seq {p : Parse α} {f : α → Parse β} (hp : Moves tokens p)
    (hf : ∀ a, Moves tokens (f a)) : Moves tokens (p >>= f) :=
  fun _ => hp.bind fun m a _ => hf a m

/-- A result that is there consumes nothing. -/
theorem Moves.pure (a : α) : Moves tokens (Pure.pure a : Parse α) :=
  fun _ => Over.pure trivial

/-- What both branches give may be said of a choice between parsers. -/
theorem Over.ite {c : Prop} [Decidable c] {p q : Parse α} {Q : Nat → α → Prop}
    (hp : Over tokens k p Q) (hq : Over tokens k q Q) : Over tokens k (if c then p else q) Q := by
  split
  · exact hp
  · exact hq

/-- A choice between parsers that never go back does not go back. -/
theorem Moves.ite {c : Prop} [Decidable c] {p q : Parse α} (hp : Moves tokens p)
    (hq : Moves tokens q) : Moves tokens (if c then p else q) :=
  fun k => Over.ite (hp k) (hq k)

/-- A parser that fails gives nothing, so anything may be said of what it gives. -/
theorem over_throw {e : SyntaxError} {Q : Nat → α → Prop} :
    Over tokens k (throw e : Parse α) Q :=
  fun _ hs => ⟨k, Nat.le_refl _, hs⟩

/-- A change of the state that consumes nothing. -/
theorem moves_modify {f : ParseState → ParseState}
    (h : ∀ s, (f s).tokens = s.tokens ∧ (f s).prevEnd = s.prevEnd) :
    Moves tokens (modify f : Parse Unit) := by
  intro k s hs
  refine ⟨k, Nat.le_refl _, ⟨hs.le, (h s).1.trans hs.left, fun i t hi ht => ?_⟩, trivial⟩
  exact (h s).2.trans (hs.prevEnd i t hi ht)

/-- Looking at the state consumes nothing. -/
theorem moves_get : Moves tokens (get : Parse ParseState) :=
  fun k _ hs => ⟨k, Nat.le_refl _, hs, trivial⟩

/-! ### Tokens -/

/-- An offset that is the start of the token `k`, if there is one. -/
def Starts (tokens : List Token) (k start : Nat) : Prop :=
  ∀ t, tokens[k]? = some t → start = t.range.start

/-- The current token is the next one; after the last one it is the end of the input. -/
theorem over_current : Over tokens k current fun m t =>
    m = k ∧ (tokens[k]? = some t ∨ tokens[k]? = none ∧ t.kind = .eof) := by
  intro s hs
  refine ⟨k, Nat.le_refl _, hs, rfl, ?_⟩
  rw [hs.left, ← List.head?_drop]
  cases tokens.drop k with
  | nil => exact .inr ⟨rfl, rfl⟩
  | cons t rest => exact .inl rfl

/-- The offset that a node starts at is that of the next token, and asking for it consumes nothing.
-/
theorem over_startOffset :
    Over tokens k startOffset fun m start => m = k ∧ Starts tokens k start := by
  refine over_current.bind ?_
  rintro m t - ⟨rfl, ht⟩
  refine Over.pure ⟨rfl, fun t' ht' => ?_⟩
  rcases ht with ht | ⟨ht, -⟩
  · rw [Option.some.inj (ht.symm.trans ht')]
  · rw [ht] at ht'
    cases ht'

/-- What consuming a token does: the token is dropped, its end is kept, and nothing is expected any
more. At the end of the tokens nothing changes. -/
theorem bump_eq (s : ParseState) : bump s = .ok () (match s.tokens with
    | t :: rest => { s with tokens := rest, prevEnd := t.range.stop, expected := [] }
    | [] => { s with expected := [] }) :=
  rfl

/-- Consuming a token, if there is one. -/
theorem over_bump : Over tokens k bump fun m _ => k < tokens.length → k < m := by
  intro s hs
  rw [bump_eq]
  dsimp only
  by_cases hk : k < tokens.length
  · have hleft : s.tokens = tokens[k] :: tokens.drop (k + 1) := by
      rw [hs.left, List.drop_eq_getElem_cons hk]
    rw [hleft]
    refine ⟨k + 1, Nat.le_succ k, ⟨hk, rfl, fun i t hi ht => ?_⟩, fun _ => Nat.lt_succ_self k⟩
    obtain rfl : k = i := Nat.succ.inj hi
    rw [List.getElem?_eq_getElem hk] at ht
    rw [Option.some.inj ht]
  · have hleft : s.tokens = [] := by
      rw [hs.left, List.drop_eq_nil_iff]
      omega
    rw [hleft]
    exact ⟨k, Nat.le_refl k, ⟨hs.le, hleft.symm.trans hs.left, hs.prevEnd⟩, fun h => absurd h hk⟩

/-- Consuming a token goes forward. -/
theorem moves_bump : Moves tokens bump :=
  Over.moves fun _ => over_bump

/-- A token that is not the end of the input is one that is there. -/
theorem over_check (kind : TokenKind) : Over tokens k (check kind) fun m b =>
    m = k ∧ (b = true → kind ≠ .eof → k < tokens.length) := by
  refine over_current.bind ?_
  rintro m t - ⟨rfl, ht⟩
  split
  · next hkind =>
      refine Over.pure ⟨rfl, fun _ hne => ?_⟩
      rcases ht with ht | ⟨-, hk⟩
      · exact (List.getElem?_eq_some_iff.mp ht).1
      · exact absurd (hkind.symm.trans hk) hne
  · intro s hs
    exact ⟨m, Nat.le_refl m, ⟨hs.le, hs.left, hs.prevEnd⟩, rfl, nofun⟩

/-- A token that is eaten is consumed, unless it is the end of the input, which stays. -/
theorem over_eat (kind : TokenKind) : Over tokens k (eat kind) fun m b =>
    b = true → kind ≠ .eof → k < m := by
  refine (over_check kind).bind ?_
  rintro m b - ⟨rfl, hb⟩
  split
  · next htrue => exact over_bump.bind fun m' _ _ h => Over.pure fun _ hne => h (hb htrue hne)
  · exact Over.pure nofun

/-- Looking at the next token consumes nothing. -/
theorem moves_current : Moves tokens current :=
  Over.moves fun _ => over_current

/-- Checking the next token consumes nothing. -/
theorem moves_check (kind : TokenKind) : Moves tokens (check kind) :=
  Over.moves fun _ => over_check kind

/-- Eating a token goes forward or consumes nothing. -/
theorem moves_eat (kind : TokenKind) : Moves tokens (eat kind) :=
  Over.moves fun _ => over_eat kind

/-- Looking at the second token consumes nothing. -/
theorem moves_secondKind : Moves tokens secondKind :=
  moves_get.seq fun _ => .pure _

/-- Failing at an unexpected token consumes nothing. -/
theorem moves_unexpected : Moves tokens unexpected :=
  moves_current.seq fun _ => moves_get.seq fun _ => .pure _

/-- Asking for the range of a node consumes nothing. -/
theorem moves_rangeFrom (start : Nat) : Moves tokens (rangeFrom start) :=
  moves_get.seq fun _ => .pure _

/-- Asking for the start of a node consumes nothing. -/
theorem moves_startOffset : Moves tokens startOffset :=
  moves_current.seq fun _ => .pure _

/-- Recording an error consumes nothing. -/
theorem moves_report (e : SyntaxError) : Moves tokens (report e) :=
  moves_modify fun _ => ⟨rfl, rfl⟩

/-- Computing the least precedence of a right operand consumes nothing, also if it overflows. -/
theorem moves_rightPrecedence (rule : BinaryRule) : Moves tokens (rightPrecedence rule) := by
  intro k
  unfold rightPrecedence
  split
  · exact Over.pure trivial
  · exact (moves_modify (f := fun s => { s with overflowed := true }) fun _ => ⟨rfl, rfl⟩).seq
      (fun _ => .pure _) k

/-- A parser that only reports that it found something else. -/
theorem over_unexpected {Q : Nat → α → Prop} :
    Over tokens k (do throw (← unexpected) : Parse α) Q :=
  moves_unexpected.bind fun _ _ _ => over_throw

/-- A token of a kind is consumed. -/
theorem over_expect {kind : TokenKind} (hkind : kind ≠ .eof) :
    Over tokens k (expect kind) fun m _ => k < m := by
  refine (over_eat kind).bind fun m b _ hb => ?_
  split
  · next htrue => exact Over.pure (hb htrue hkind)
  · exact over_unexpected

/-- Expecting a token goes forward or fails. -/
theorem moves_expect (kind : TokenKind) : Moves tokens (expect kind) := by
  refine (moves_eat kind).seq fun b => .ite (.pure ()) fun _ => over_unexpected

/-- A name is one token at least. -/
theorem over_ident : Over tokens k ident fun m _ => k < m := by
  refine moves_current.bind fun m t hkm => (over_check _).bind ?_
  rintro m' b - ⟨rfl, hb⟩
  split
  · next htrue =>
      refine over_bump.bind fun m'' _ _ h => Over.pure ?_
      have := h (hb htrue (by simp))
      omega
  · exact over_unexpected

/-- Checking the next token against several kinds consumes nothing. -/
theorem moves_checkEach (kinds : List TokenKind) : Moves tokens (checkEach kinds) := by
  induction kinds with
  | nil => exact .pure ()
  | cons kind kinds ih => exact (moves_check kind).seq fun _ => ih

/-- A literal is one token at least. -/
theorem over_lit : Over tokens k lit fun m _ => k < m := by
  refine over_current.bind ?_
  rintro m t - ⟨rfl, ht⟩
  split
  · next v hv =>
      have hthere : m < tokens.length := by
        rcases ht with ht | ⟨-, hk⟩
        · exact (List.getElem?_eq_some_iff.mp ht).1
        · rw [literal, hk] at hv
          cases hv
      exact over_bump.bind fun m' _ _ h => Over.pure (h hthere)
  · exact over_throw
  · exact (moves_checkEach _).bind fun _ _ _ => over_unexpected

/-- A node has the range of the tokens that were consumed since it began. -/
theorem over_newNote {size i start : Nat} (ho : InOrder size tokens)
    (hstart : Starts tokens i start) (hi : i < k) :
    Over tokens k (newNote start) fun m n => m = k ∧ Spans tokens i k n.range := by
  intro s hs
  refine ⟨k, Nat.le_refl k, ⟨hs.le, hs.left, hs.prevEnd⟩, rfl, hi, ?_⟩
  have hk := hs.le
  have hfirst : tokens[i]? = some tokens[i] := List.getElem?_eq_getElem (by omega)
  have hlast : tokens[k - 1]? = some tokens[k - 1] := List.getElem?_eq_getElem (by omega)
  refine ⟨_, _, hfirst, hlast, ?_⟩
  have hstop : s.prevEnd = tokens[k - 1].range.stop := hs.prevEnd (k - 1) _ (by omega) hlast
  have hle := ho.start_le_stop hfirst hlast (by omega)
  change (⟨start, max s.prevEnd start⟩ : Range) = _
  rw [hstart _ hfirst, hstop, Nat.max_eq_left hle]

/-- Recovery only goes forward. -/
theorem moves_synchronize (stop : TokenKind) (fuel : Nat) :
    Moves tokens (synchronize stop fuel) := by
  induction fuel with
  | zero => exact .pure ()
  | succ fuel ih =>
      exact moves_current.seq fun _ =>
        .ite moves_bump (.ite (.pure ()) (moves_bump.seq fun _ => ih))

/-- So does recovery together with the token that it skips if it is stuck. -/
theorem moves_recover (stop : TokenKind) (before : Nat) : Moves tokens (recover stop before) :=
  moves_get.seq fun _ => (moves_synchronize _ _).seq fun _ => moves_get.seq fun _ =>
    .ite moves_bump (.pure ())

/-- Trying a parser gives its result, or has consumed some tokens for nothing. -/
theorem Over.attempt {p : Parse α} {Q : Nat → α → Prop} (h : Over tokens k p Q) :
    Over tokens k (Parse.attempt p) fun m r => ∀ a, r = .ok a → Q m a := by
  intro s hs
  have h := h s hs
  unfold Parse.attempt
  cases he : p s with
  | error e s' =>
      rw [he] at h
      obtain ⟨m, hkm, hs'⟩ := h
      exact ⟨m, hkm, hs', nofun⟩
  | ok a s' =>
      rw [he] at h
      obtain ⟨m, hkm, hs', hQ⟩ := h
      refine ⟨m, hkm, hs', fun b hb => ?_⟩
      cases hb
      exact hQ

/-! ### Lists of items and types -/

/-- Items up to a token. `R` is what is known of lists if `P` is known of items: it holds of no
items, goes over to one more in front, and does not mind where exactly the list starts. -/
theorem over_itemsUntil {item : Parse α} {P : Nat → Nat → α → Prop}
    {R : Nat → Nat → List α → Prop} (hitem : ∀ k, Over tokens k item (P k))
    (hnil : ∀ lo hi, lo ≤ hi → R lo hi [])
    (hcons : ∀ lo mid mid' hi a as, mid ≤ mid' → P lo mid a → R mid' hi as → R lo hi (a :: as))
    (hmono : ∀ lo lo' hi as, lo' ≤ lo → R lo hi as → R lo' hi as) (stop : TokenKind) (fuel : Nat) :
    ∀ k, Over tokens k (itemsUntil item stop fuel) (R k) := by
  induction fuel with
  | zero => exact fun k => Over.pure (hnil k k (Nat.le_refl k))
  | succ fuel ih =>
      intro k
      refine (moves_eat stop).bind fun m b hkm => ?_
      split
      · exact Over.pure (hnil k m hkm)
      · refine (hitem m).bind fun m₁ a _ ha => (moves_eat stop).bind fun m₂ b h₁₂ => ?_
        split
        · exact Over.pure (hmono m k m₂ _ hkm
            (hcons m m₁ m₂ m₂ a [] h₁₂ ha (hnil m₂ m₂ (Nat.le_refl m₂))))
        · refine (moves_expect _).bind fun m₃ _ h₂₃ => (ih m₃).bind fun m₄ as _ has => ?_
          exact Over.pure (hmono m k m₄ _ hkm
            (hcons m m₁ m₃ m₄ a as (Nat.le_trans h₁₂ h₂₃) ha has))

/-- Items between delimiters go forward if each item does. -/
theorem Moves.itemsBetween {item : Parse α} (h : Moves tokens item) (start stop : TokenKind) :
    Moves tokens (itemsBetween start item stop) :=
  (moves_expect start).seq fun _ => moves_get.seq fun _ =>
    over_itemsUntil (P := fun _ _ _ => True) (R := fun _ _ _ => True) h
      (fun _ _ _ => trivial) (fun _ _ _ _ _ _ _ _ _ => trivial) (fun _ _ _ _ _ _ => trivial) stop _

/-- Parsing a type goes forward. -/
theorem moves_type (fuel : Nat) : Moves tokens (type fuel) := by
  induction fuel with
  | zero => exact fun _ => over_unexpected
  | succ fuel ih =>
      refine (moves_eat _).seq fun _ => .ite ?_ ((moves_eat _).seq fun _ => .ite ?_ ?_)
      · exact ih.seq fun _ => (moves_expect _).seq fun _ => .pure _
      · exact (ih.itemsBetween _ _).seq fun _ => (moves_eat _).seq fun _ =>
          .ite (ih.seq fun _ => .pure _) (.pure _)
      · refine moves_current.seq fun _ => (Over.moves fun _ => over_ident).seq fun name k => ?_
        split
        · exact Over.pure trivial
        · exact over_throw

/-- So does parsing a type where any type may stand. -/
theorem moves_anyType : Moves tokens anyType :=
  moves_get.seq fun _ => moves_type _

/-- Parsing a parameter goes forward. -/
theorem moves_param : Moves tokens param :=
  moves_startOffset.seq fun _ => (Over.moves fun _ => over_ident).seq fun _ =>
    (moves_expect _).seq fun _ => moves_anyType.seq fun _ =>
      (moves_rangeFrom _).seq fun _ => .pure _

/-- Parsing a signature goes forward. -/
theorem moves_signature : Moves tokens signature :=
  (moves_param.itemsBetween _ _).seq fun _ => (moves_eat _).seq fun _ =>
    .ite (moves_anyType.seq fun _ => .pure _) (.pure _)

end Parse

/-! ### Parsed trees -/

/-- The children of a block. -/
def Block.parts (ss : List Stmt) (tail : Option Expr) : List (Option Outline) :=
  Stmt.outlines ss ++ [tail.map Expr.outline]

/-- The outline of a block has its statements and its result as children. -/
theorem Block.outline_eq (kind : NodeKind) (n : Note) (ss : List Stmt) (tail : Option Expr) :
    (Block.mk n ss tail).outline kind = .node n kind "" (Block.parts ss tail) := by
  cases tail <;> rfl

section

variable {tokens : List Token} {size i j k : Nat}

/-- A node stands on its tokens if its children stand on them. -/
theorem Outline.fits_node {o : Outline} (hspan : Spans tokens i j o.note.range)
    (hcs : Outline.AllFit tokens i j o.children) : o.Fits tokens i j := by
  cases o
  exact ⟨i, j, Nat.le_refl i, Nat.le_refl j, hspan, hcs⟩

/-- A node without children, or with an absent one. -/
theorem Outline.fits_leaf {o : Outline} (hspan : Spans tokens i j o.note.range)
    (hcs : Outline.AllFit tokens i j o.children = (i ≤ j)) : o.Fits tokens i j :=
  fits_node hspan (hcs ▸ Nat.le_of_lt hspan.1)

/-- Two children, one behind the other. -/
theorem Outline.Fits.pair {a b : Outline} {m m' : Nat} (ha : a.Fits tokens i m)
    (hb : b.Fits tokens m' j) (hm : m ≤ m') : Outline.AllFit tokens i j [some a, some b] :=
  ⟨m, ha, hb.single.mono hm (Nat.le_refl j)⟩

/-- The node of an infix operator stands on the tokens from its left operand to its right one, with
the operands one behind the other. -/
theorem infixNode_fits_span {op : Operator} {n : Note} {l r : Expr} {m m' : Nat}
    (hspan : Spans tokens i j n.range) (hl : l.outline.Fits tokens i m)
    (hr : r.outline.Fits tokens m' j) (hm : m ≤ m') :
    (Parse.infixNode op n l r).outline.Fits tokens i j := by
  unfold Parse.infixNode
  split
  · exact Outline.fits_node hspan (hl.pair hr hm)
  · exact Outline.fits_node hspan (hl.pair hr hm)

end

namespace Parse

/-- What parsing knows of an item of a block. -/
def ItemStands (tokens : List Token) (lo hi : Nat) : Item → Prop
  | .stmt s => s.outline.Fits tokens lo hi
  | .tail e => e.outline.Fits tokens lo hi

variable {α : Type} {tokens : List Token} {size i k : Nat}

/-- A parser ends with a new node. -/
theorem over_close (ho : InOrder size tokens) {start : Nat} {make : Note → α} {Q : Nat → α → Prop}
    (hstart : Starts tokens i start) (hi : i < k)
    (h : ∀ n, Spans tokens i k n.range → Q k (make n)) :
    Over tokens k (do return make (← newNote start)) Q := by
  refine (over_newNote ho hstart hi).bind ?_
  rintro m n - ⟨rfl, hspan⟩
  exact Over.pure (h n hspan)

/-- Arguments between delimiters stand on the tokens that were consumed, one behind the other. -/
theorem over_args {fuel : Nat} {start : TokenKind} (hstart : start ≠ .eof)
    (h : ∀ k, Over tokens k (expr fuel 1) fun m e => e.outline.Fits tokens k m) (stop : TokenKind)
    (k : Nat) : Over tokens k (itemsBetween start (expr fuel 1) stop) fun m es =>
      k < m ∧ Outline.AllFit tokens k m (Expr.outlines es) := by
  refine (over_expect hstart).bind fun m _ _ hkm => moves_get.bind fun m' s hm => ?_
  refine (over_itemsUntil (R := fun lo hi es => Outline.AllFit tokens lo hi (Expr.outlines es)) h
    (fun _ _ hle => hle) ?_ (fun _ _ _ _ hle has => has.mono hle (Nat.le_refl _)) stop _ m').mono ?_
  · exact fun lo mid mid' hi e es hle he hes => ⟨mid, he, hes.mono hle (Nat.le_refl _)⟩
  · exact fun m'' es hle hes => ⟨by omega, hes.mono (by omega) (Nat.le_refl _)⟩

/-! ### Statements

Each form of a statement, behind its first keyword. -/

section

variable {fuel m start : Nat} (ho : InOrder size tokens)
  (hexpr : ∀ k, Over tokens k (expr fuel 1) fun m e => e.outline.Fits tokens k m)
  (hblock : ∀ allowTail k, Over tokens k (block fuel allowTail) fun m b =>
    ∀ kind, (b.outline kind).Fits tokens k m)
  (hstart : Starts tokens k start) (hkm : k ≤ m)

include ho hstart hkm

include hexpr in
/-- A declaration of a variable stands on its tokens, from its keyword to the semicolon. -/
theorem over_letVar : Over tokens m (do
    let name ← ident
    let declared ← if ← eat (.punct .colon) then some <$> anyType else pure none
    expect (.operator .assign)
    let init ← expr fuel 1
    expect (.punct .semicolon)
    return Item.stmt (.letVar (← newNote start) name declared init)) (ItemStands tokens k) := by
  refine over_ident.bind fun m₁ name _ h₁ => (moves_eat _).bind fun m₂ b h₂ => ?_
  have hrest : ∀ (declared : Option Ty) (m : Nat), k < m → Over tokens m (do
      expect (.operator .assign)
      let init ← expr fuel 1
      expect (.punct .semicolon)
      return Item.stmt (.letVar (← newNote start) name declared init)) (ItemStands tokens k) :=
    fun declared m hm => (moves_expect _).bind fun m₁ _ h₁ => (hexpr m₁).bind fun m₂ e h₂ he =>
      (moves_expect _).bind fun m₃ _ h₃ => over_close ho hstart (by omega) fun n hspan =>
        Outline.fits_node hspan (he.mono (by omega) h₃).single
  dsimp only
  split
  · rw [map_eq_pure_bind, bind_assoc]
    refine moves_anyType.bind fun m₃ ty h₃ => ?_
    rw [pure_bind]
    exact hrest _ m₃ (by omega)
  · rw [pure_bind]
    exact hrest _ m₂ (by omega)

include hblock in
/-- A declaration of a function stands on its tokens, from its keyword to the end of the body. -/
theorem over_fnDecl : Over tokens m (do
    bump
    let name ← ident
    let s ← signature
    let body ← block fuel true
    return Item.stmt (.fnDecl (← newNote start) name s body)) (ItemStands tokens k) := by
  refine moves_bump.bind fun m₁ _ h₁ => over_ident.bind fun m₂ name _ h₂ =>
    moves_signature.bind fun m₃ sig h₃ => (hblock true m₃).bind fun m₄ b h₄ hb => ?_
  exact over_close ho hstart (by omega) fun n hspan =>
    Outline.fits_node hspan ((hb .block).mono (by omega) (Nat.le_refl _)).single

include hexpr in
/-- A return stands on its tokens, with a value or without one. -/
theorem over_ret : Over tokens m (do
    let value ← if ← check (.punct .semicolon) then pure none else some <$> expr fuel 1
    expect (.punct .semicolon)
    return Item.stmt (.ret (← newNote start) value)) (ItemStands tokens k) := by
  refine (moves_check _).bind fun m₁ b h₁ => ?_
  dsimp only
  split
  · rw [pure_bind]
    exact (over_expect (by simp)).bind fun m₂ _ _ h₂ =>
      over_close ho hstart (by omega) fun n hspan => Outline.fits_leaf hspan rfl
  · rw [map_eq_pure_bind, bind_assoc]
    refine (hexpr m₁).bind fun m₂ e h₂ he => ?_
    rw [pure_bind]
    exact (over_expect (by simp)).bind fun m₃ _ _ h₃ => over_close ho hstart (by omega)
      fun n hspan => Outline.fits_node hspan (he.mono (by omega) (Nat.le_of_lt h₃)).single

include hexpr hblock in
/-- A loop with a test stands on its tokens, the test before the body. -/
theorem over_whileLoop : Over tokens m (do
    let test ← expr fuel 1
    let body ← block fuel false
    return Item.stmt (.whileLoop (← newNote start) test body)) (ItemStands tokens k) := by
  refine (hexpr m).bind fun m₁ test _ ht => (hblock false m₁).bind fun m₂ b h₂ hb => ?_
  have := ht.lt
  exact over_close ho hstart (by omega) fun n hspan =>
    Outline.fits_node hspan ((ht.mono hkm (Nat.le_refl _)).pair (hb .block) (Nat.le_refl _))

include hblock in
/-- A loop stands on its tokens. -/
theorem over_loop : Over tokens m (do
    let body ← block fuel false
    return Item.stmt (.loop (← newNote start) body)) (ItemStands tokens k) := by
  refine (hblock false m).bind fun m₁ b h₁ hb => ?_
  have := (hb .block).lt
  exact over_close ho hstart (by omega) fun n hspan =>
    Outline.fits_node hspan ((hb .block).mono hkm (Nat.le_refl _)).single

/-- A statement that is a keyword. -/
theorem over_leave {node : Note → Stmt}
    (hnote : ∀ n, (node n).outline.note = n) (hchildren : ∀ n, (node n).outline.children = []) :
    Over tokens m (do
      expect (.punct .semicolon)
      return Item.stmt (node (← newNote start))) (ItemStands tokens k) :=
  (over_expect (by simp)).bind fun m₁ _ _ h₁ => over_close ho hstart (by omega) fun n hspan =>
    Outline.fits_leaf ((hnote n).symm ▸ hspan) (by rw [hchildren]; rfl)

include hexpr in
/-- An expression as an item stands on its tokens, whether it is the result of the block or a
statement with a semicolon. -/
theorem over_exprItem (stop : TokenKind) (allowTail : Bool) : Over tokens m (do
    let e ← expr fuel 1
    let isTail ← if allowTail then check stop else pure false
    if isTail then return Item.tail e
    else
      expect (.punct .semicolon)
      return Item.stmt (.expr (← newNote start) e)) (ItemStands tokens k) := by
  refine (hexpr m).bind fun m₁ e _ he => ?_
  have hlast : ∀ (isTail : Bool) (m : Nat), m₁ ≤ m →
      Over tokens m (if isTail = true then pure (Item.tail e) else do
        expect (.punct .semicolon)
        return Item.stmt (.expr (← newNote start) e)) (ItemStands tokens k) := by
    intro isTail m hm
    have := he.lt
    split
    · exact Over.pure (he.mono hkm hm)
    · exact (moves_expect _).bind fun m₂ _ h₂ => over_close ho hstart (by omega) fun n hspan =>
        Outline.fits_node hspan (he.mono hkm (Nat.le_trans hm h₂)).single
  dsimp only
  split
  · exact (moves_check _).bind fun m₂ b h₂ => hlast b m₂ h₂
  · rw [pure_bind]
    exact hlast false m₁ (Nat.le_refl _)

end

/-! ### The parser -/

mutual

/-- **Expressions.** An expression stands on the tokens that its parser consumes. -/
theorem over_expr (ho : InOrder size tokens) : ∀ (fuel : Nat) (least : UInt8) (k : Nat),
    Over tokens k (expr fuel least) fun m e => e.outline.Fits tokens k m
  | 0, _, _ => by rw [expr]; exact over_unexpected
  | fuel + 1, least, k => by
      rw [expr]
      refine over_startOffset.bind ?_
      rintro _ start - ⟨rfl, hstart⟩
      exact (over_unary ho fuel _).bind fun m left _ hl =>
        over_operators ho fuel least start _ m left hstart hl
  termination_by structural fuel => fuel

/-- Operators and operands behind an expression make a tree that stands on all tokens from where
that expression starts. -/
theorem over_operators (ho : InOrder size tokens) : ∀ (fuel : Nat) (least : UInt8)
    (start i k : Nat) (left : Expr),
    Starts tokens i start → left.outline.Fits tokens i k →
    Over tokens k (operators fuel least start left) fun m e => e.outline.Fits tokens i m
  | 0, _, _, _, _, _, _, hl => by rw [operators]; exact Over.pure hl
  | fuel + 1, least, start, i, k, left, hstart, hl => by
      rw [operators]
      have hik := hl.lt
      refine moves_current.bind fun m t hkm => ?_
      have hdone : left.outline.Fits tokens i m := hl.mono (Nat.le_refl i) hkm
      split
      · refine moves_get.bind fun m₁ s h₁ => ?_
        split
        · exact Over.pure (hdone.mono (Nat.le_refl i) h₁)
        · refine moves_bump.bind fun m₂ _ h₂ => moves_startOffset.bind fun m₃ _ h₃ =>
            moves_anyType.bind fun m₄ ty h₄ => ?_
          split
          · exact (moves_rangeFrom _).bind fun _ _ _ => over_throw
          · refine (over_newNote ho hstart (by omega)).bind ?_
            rintro m₅ n - ⟨rfl, hspan⟩
            refine over_operators ho fuel least start i _ _ hstart (Outline.fits_node hspan ?_)
            exact (hl.mono (Nat.le_refl i) (by omega)).single
      · refine moves_get.bind fun m₁ s h₁ => ?_
        split
        · exact Over.pure (hdone.mono (Nat.le_refl i) h₁)
        · split
          · exact Over.pure (hdone.mono (Nat.le_refl i) h₁)
          · refine moves_bump.bind fun m₁' _ h₁' => (moves_rightPrecedence _).bind fun m₂ _ h₂ =>
              (over_expr ho fuel _ m₂).bind fun m₃ right h₃ hr => ?_
            refine (over_newNote ho hstart (by omega)).bind ?_
            rintro m₄ n - ⟨rfl, hspan⟩
            exact over_operators ho fuel least start i _ _ hstart
              (infixNode_fits_span hspan hl hr (by omega))
      · exact Over.pure hdone
  termination_by structural fuel => fuel

/-- An operand with its prefix operators stands on the tokens that its parser consumes. The
induction is on the fuel, as for all parsers that call themselves. -/
theorem over_unary (ho : InOrder size tokens) : ∀ (fuel k : Nat),
    Over tokens k (unary fuel) fun m e => e.outline.Fits tokens k m
  | 0, _ => by rw [unary]; exact over_unexpected
  | fuel + 1, k => by
      rw [unary]
      refine over_startOffset.bind ?_
      rintro k start - ⟨rfl, hstart⟩
      have hprimary : ∀ m, k ≤ m →
          Over tokens m (primary fuel) fun m e => e.outline.Fits tokens k m :=
        fun m hkm => (over_primary ho fuel m).mono fun _ _ _ he => he.mono hkm (Nat.le_refl _)
      refine moves_current.bind fun m t hkm => ?_
      split
      · refine moves_get.bind fun m₁ s h₁ => ?_
        split
        · refine moves_bump.bind fun m₂ _ h₂ => moves_get.bind fun m₃ s' h₃ =>
            (over_expr ho fuel _ m₃).bind fun m₄ e _ he => ?_
          have := he.lt
          exact over_close ho hstart (by omega) fun n hspan =>
            Outline.fits_node hspan (he.mono (by omega) (Nat.le_refl _)).single
        · exact hprimary m₁ (by omega)
      · exact hprimary m hkm
  termination_by structural fuel => fuel

/-- An operand with its suffixes stands on the tokens that its parser consumes. -/
theorem over_primary (ho : InOrder size tokens) : ∀ (fuel k : Nat),
    Over tokens k (primary fuel) fun m e => e.outline.Fits tokens k m
  | 0, _ => by rw [primary]; exact over_unexpected
  | fuel + 1, k => by
      rw [primary]
      refine over_startOffset.bind ?_
      rintro k start - ⟨rfl, hstart⟩
      exact (over_atom ho fuel k).bind fun m e _ he => over_suffixes ho fuel start k m e hstart he
  termination_by structural fuel => fuel

/-- Suffixes behind an expression make a tree that stands on all tokens from where that expression
starts. -/
theorem over_suffixes (ho : InOrder size tokens) : ∀ (fuel start i k : Nat) (e : Expr),
    Starts tokens i start → e.outline.Fits tokens i k →
    Over tokens k (suffixes fuel start e) fun m e => e.outline.Fits tokens i m
  | 0, _, _, _, _, _, he => by rw [suffixes]; exact Over.pure he
  | fuel + 1, start, i, k, e, hstart, he => by
      rw [suffixes]
      have hik := he.lt
      refine (moves_check _).bind fun m₁ b h₁ => ?_
      split
      · refine (over_args (by simp) (over_expr ho fuel 1) _ m₁).bind fun m₂ args _ ⟨h₂, has⟩ =>
          (over_newNote ho hstart (by omega)).bind ?_
        rintro m₃ n - ⟨rfl, hspan⟩
        exact over_suffixes ho fuel start i _ _ hstart
          (Outline.fits_node hspan ⟨k, he, has.mono h₁ (Nat.le_refl _)⟩)
      · refine (moves_eat _).bind fun m₂ b h₂ => ?_
        split
        · refine (over_expr ho fuel 1 m₂).bind fun m₃ index h₃ hindex =>
            (moves_expect _).bind fun m₄ _ h₄ => (over_newNote ho hstart (by omega)).bind ?_
          rintro m₅ n - ⟨rfl, hspan⟩
          exact over_suffixes ho fuel start i _ _ hstart (Outline.fits_node hspan
            (he.pair (hindex.mono (Nat.le_refl _) h₄) (by omega)))
        · exact Over.pure (he.mono (Nat.le_refl i) (by omega))
  termination_by structural fuel => fuel

/-- An operand without operators stands on the tokens that its parser consumes. In parentheses it
stands inside of them. -/
theorem over_atom (ho : InOrder size tokens) : ∀ (fuel k : Nat),
    Over tokens k (atom fuel) fun m e => e.outline.Fits tokens k m
  | 0, _ => by rw [atom]; exact over_unexpected
  | fuel + 1, k => by
      rw [atom]
      refine over_startOffset.bind ?_
      rintro k start - ⟨rfl, hstart⟩
      refine (moves_eat _).bind fun m₁ b h₁ => ?_
      split
      · exact (over_expr ho fuel 1 m₁).bind fun m₂ e h₂ he => (moves_expect _).bind fun m₃ _ h₃ =>
          Over.pure (he.mono h₁ h₃)
      · refine (moves_check _).bind fun m₂ b h₂ => ?_
        split
        · exact over_ident.bind fun m₃ name _ h₃ =>
            over_close ho hstart (by omega) fun n hspan => Outline.fits_leaf hspan rfl
        · refine (moves_check _).bind fun m₃ b h₃ => ?_
          split
          · refine (over_args (by simp) (over_expr ho fuel 1) _ m₃).bind
              fun m₄ items _ ⟨h₄, his⟩ => ?_
            exact over_close ho hstart (by omega) fun n hspan =>
              Outline.fits_node hspan (his.mono (by omega) (Nat.le_refl _))
          · refine (moves_eat _).bind fun m₄ b h₄ => ?_
            split
            · refine moves_signature.bind fun m₅ sig h₅ => (over_block ho fuel true m₅).bind
                fun m₆ b _ hb => ?_
              have := (hb .block).lt
              exact over_close ho hstart (by omega) fun n hspan =>
                Outline.fits_node hspan ((hb .block).mono (by omega) (Nat.le_refl _)).single
            · exact over_lit.bind fun m₅ v _ h₅ =>
                over_close ho hstart (by omega) fun n hspan => Outline.fits_leaf hspan rfl
  termination_by structural fuel => fuel

/-- **Blocks.** A block stands on the tokens that its parser consumes, in whichever role it is
shown. -/
theorem over_block (ho : InOrder size tokens) : ∀ (fuel : Nat) (allowTail : Bool) (k : Nat),
    Over tokens k (block fuel allowTail) fun m b => ∀ kind, (b.outline kind).Fits tokens k m
  | 0, _, _ => by rw [block]; exact over_unexpected
  | fuel + 1, allowTail, k => by
      rw [block]
      refine over_startOffset.bind ?_
      rintro k start - ⟨rfl, hstart⟩
      refine (over_expect (by simp)).bind fun m₁ _ _ h₁ => (over_body ho fuel _ allowTail m₁).bind
        fun m₂ r h₂ hr => over_close ho hstart (by omega) fun n hspan kind => ?_
      rw [Block.outline_eq]
      exact Outline.fits_node hspan (hr.mono (Nat.le_of_lt h₁) (Nat.le_refl _))
  termination_by structural fuel => fuel

/-- The statements of a block and its result stand on tokens one behind the other, also where
recovery has skipped some. -/
theorem over_body (ho : InOrder size tokens) : ∀ (fuel : Nat) (stop : TokenKind) (allowTail : Bool)
    (k : Nat), Over tokens k (body fuel stop allowTail) fun m r =>
      Outline.AllFit tokens k m (Block.parts r.1 r.2)
  | 0, _, _, k => by rw [body]; exact Over.pure (Nat.le_refl k)
  | fuel + 1, stop, allowTail, k => by
      rw [body]
      refine (moves_eat stop).bind fun m₁ b h₁ => ?_
      split
      · exact Over.pure h₁
      · refine (moves_check _).bind fun m₂ b h₂ => ?_
        split
        · exact moves_unexpected.bind fun m₃ e h₃ => (moves_report e).bind fun m₄ _ h₄ =>
            Over.pure (show k ≤ m₄ by omega)
        · refine moves_get.bind fun m₃ s h₃ =>
            (over_item ho fuel stop allowTail m₃).attempt.bind fun m₄ r h₄ hr => ?_
          split
          · next s =>
              have hs : s.outline.Fits tokens m₃ m₄ := hr _ rfl
              refine (over_body ho fuel stop allowTail m₄).bind fun m₅ rest _ hrest => Over.pure ?_
              exact ⟨m₄, hs.mono (by omega) (Nat.le_refl _), hrest⟩
          · next e =>
              have he : e.outline.Fits tokens m₃ m₄ := hr _ rfl
              exact moves_bump.bind fun m₅ _ h₅ => Over.pure (he.mono (by omega) h₅).single
          · refine (moves_report _).bind fun m₅ _ h₅ => (moves_recover _ _).bind fun m₆ _ h₆ =>
              (over_body ho fuel stop allowTail m₆).mono fun m₇ rest _ hrest => ?_
            exact hrest.mono (by omega) (Nat.le_refl _)
  termination_by structural fuel => fuel

/-- **Items.** A statement or a result stands on the tokens that its parser consumes. Each way to
begin a statement has a lemma, and these are tried in the order of the parser. -/
theorem over_item (ho : InOrder size tokens) : ∀ (fuel : Nat) (stop : TokenKind) (allowTail : Bool)
    (k : Nat), Over tokens k (item fuel stop allowTail) (ItemStands tokens k)
  | 0, _, _, _ => by rw [item]; exact over_unexpected
  | fuel + 1, stop, allowTail, k => by
      rw [item]
      have hexpr := over_expr ho fuel 1
      have hblock := over_block ho fuel
      refine over_startOffset.bind ?_
      rintro k start - ⟨rfl, hstart⟩
      refine (moves_eat _).bind fun m₁ b h₁ => .ite (over_letVar ho hexpr hstart h₁) ?_
      refine (moves_check _).bind fun m₂ b h₂ => moves_secondKind.bind fun m₃ kind h₃ => ?_
      have h₃ := Nat.le_trans h₁ (Nat.le_trans h₂ h₃)
      refine .ite (over_fnDecl ho hblock hstart h₃) ((moves_eat _).bind fun m₄ b h₄ => ?_)
      have h₄ := Nat.le_trans h₃ h₄
      refine .ite (over_ret ho hexpr hstart h₄) ((moves_check _).bind fun m₅ b h₅ => ?_)
      have h₅ := Nat.le_trans h₄ h₅
      refine .ite ?_ ((moves_eat _).bind fun m₆ b h₆ => ?_)
      · exact (over_conditional ho fuel m₅).bind fun m s _ hs =>
          Over.pure (hs.mono h₅ (Nat.le_refl m))
      have h₆ := Nat.le_trans h₅ h₆
      refine .ite (over_whileLoop ho hexpr hblock hstart h₆) ((moves_eat _).bind fun m₇ b h₇ => ?_)
      have h₇ := Nat.le_trans h₆ h₇
      refine .ite (over_loop ho hblock hstart h₇) ((moves_eat _).bind fun m₈ b h₈ => ?_)
      have h₈ := Nat.le_trans h₇ h₈
      refine .ite (over_leave ho hstart h₈ (fun _ => rfl) fun _ => rfl)
        ((moves_eat _).bind fun m₉ b h₉ => ?_)
      have h₉ := Nat.le_trans h₈ h₉
      refine .ite (over_leave ho hstart h₉ (fun _ => rfl) fun _ => rfl)
        ((moves_check _).bind fun m₁₀ b h₁₀ => ?_)
      have h₁₀ := Nat.le_trans h₉ h₁₀
      refine .ite ?_ (over_exprItem ho hexpr hstart h₁₀ stop allowTail)
      exact (over_block ho fuel false m₁₀).bind fun m b _ hb =>
        Over.pure ((hb .block).mono h₁₀ (Nat.le_refl m))
  termination_by structural fuel => fuel

/-- A conditional stands on its tokens, with the branches one behind the other. A branch behind
`else` is a block or again a conditional. -/
theorem over_conditional (ho : InOrder size tokens) : ∀ (fuel k : Nat),
    Over tokens k (conditional fuel) fun m s => s.outline.Fits tokens k m
  | 0, _ => by rw [conditional]; exact over_unexpected
  | fuel + 1, k => by
      rw [conditional]
      refine over_startOffset.bind ?_
      rintro k start - ⟨rfl, hstart⟩
      refine (over_expect (by simp)).bind fun m₁ _ _ h₁ => (over_expr ho fuel 1 m₁).bind
        fun m₂ test h₂ ht => (over_block ho fuel false m₂).bind fun m₃ yes h₃ hy =>
          (moves_eat _).bind fun m₄ b h₄ => ?_
      have ht' : test.outline.Fits tokens k m₂ := ht.mono (by omega) (Nat.le_refl _)
      split
      · refine (moves_check _).bind fun m₅ b h₅ => ?_
        split
        · refine (over_conditional ho fuel m₅).bind fun m₆ no h₆ hno => ?_
          exact over_close ho hstart (by omega) fun n hspan =>
            Outline.fits_node hspan ⟨m₂, ht', (hy .block).pair hno (by omega)⟩
        · refine (over_block ho fuel false m₅).bind fun m₆ no h₆ hno => ?_
          exact over_close ho hstart (by omega) fun n hspan =>
            Outline.fits_node hspan ⟨m₂, ht', (hy .block).pair (hno .block) (by omega)⟩
      · exact over_close ho hstart (by omega) fun n hspan =>
          Outline.fits_node hspan ⟨m₂, ht', hy .block |>.mono (Nat.le_refl _) h₄ |>.single⟩
  termination_by structural fuel => fuel

end

end Parse

/-! ### Programs -/

/-- What parsing gives: a root on the whole text, whose children stand on the tokens. -/
theorem parseTokens_fits_tokens (g : Grammar) {size : Nat} {tokens : List Token}
    (ho : InOrder size tokens) : ∃ n kind hi cs,
      (parseTokens g size tokens).1.outline = .node n kind "" cs ∧ n.range = ⟨0, size⟩ ∧
      Outline.AllFit tokens 0 hi cs := by
  have h := Parse.over_body ho (8 * tokens.length + 8) .eof true 0 (.start g tokens)
    ⟨Nat.zero_le _, rfl, nofun⟩
  unfold parseTokens Program.outline
  split
  · next stmts tail s he =>
      rw [he] at h
      obtain ⟨m, -, -, hparts⟩ := h
      exact ⟨_, _, m, _, Block.outline_eq _ _ _ _, rfl, hparts⟩
  · exact ⟨_, _, 0, _, Block.outline_eq _ _ _ _, rfl, Nat.le_refl 0⟩

/-- **Ranges nest.** In the tree that is parsed from the tokens of a text, the children of each node
lie inside the node, one behind the other. The root has the range of the whole text, and the range
of each other node starts where a token starts and ends where a token ends. -/
theorem parse_nested (g : Grammar) (recovery : Recovery) (text : List Char) :
    let tokens := (lexItems g recovery text).filterMap Except.toOption
    let p := (parseTokens g (byteLength text) tokens).1
    p.outline.note.range = ⟨0, byteLength text⟩ ∧ (∀ o ∈ p.nodes, o.Nested) ∧
      ∀ o ∈ p.nodes.tail, o.note.range.OnTokens tokens := by
  have ho := lexItems_inOrder g recovery text
  generalize (lexItems g recovery text).filterMap Except.toOption = tokens at ho ⊢
  obtain ⟨n, kind, hi, cs, hroot, hrange, hcs⟩ := parseTokens_fits_tokens g ho
  dsimp only
  have hnodes : (parseTokens g (byteLength text) tokens).1.nodes =
      .node n kind "" cs :: Outline.nodesOf cs := by
    rw [Program.nodes, hroot, Outline.nodes]
  rw [hnodes, hroot]
  have hbelow := Outline.AllFit.nodes ho hcs
  refine ⟨hrange, fun o hmem => ?_, fun o hmem => (hbelow o hmem).2⟩
  rcases List.mem_cons.mp hmem with rfl | hmem
  · refine ⟨fun c hc => ?_, hcs.ordered ho⟩
    obtain ⟨i, j, -, -, hspan⟩ := (hcs.fits hc).span
    obtain ⟨-, a, b, ha, hb, hr⟩ := hspan
    change c.note.range.Inside n.range
    rw [hr, hrange]
    exact ⟨Nat.zero_le _, (ho.within b (List.mem_of_getElem? hb)).2⟩
  · exact (hbelow o hmem).1

end Parlance
