import Mathlib.Data.List.Basic
import Parlance.Tree.Parser

/-!
# How parsing moves

A parser takes tokens away from the front of those that are left, it records errors and takes
none back, and it keeps the grammar (`ParseState.Later`). Two small logics follow a run from a
given state: `Parse.Runs` for the parsers that do not fail, `Parse.Goes` for all of them.

`ParseState.Reads` says what was read between two states: at least so many tokens are gone, and
if no error was recorded meanwhile, the tokens that are gone have a given form. Two stretches of
a run put together read the tokens of both (`Reads.append`).

Where a parser takes fuel, a run with more of it is compared with the run (`Parse.Same`).
-/

namespace Parlance

/-- The kind of the current token if these are left. -/
def nextKind : List Token → TokenKind
  | t :: _ => t.kind
  | [] => .eof

/-- A token of a kind. The end of the input needs no token. -/
inductive Lexeme (kind : TokenKind) : List Token → Prop where
  | token {t : Token} : t.kind = kind → Lexeme kind [t]
  | finish : kind = .eof → Lexeme kind []

/-- How many tokens are consumed at least with a token of a kind. -/
def TokenKind.weight : TokenKind → Nat
  | .eof => 0
  | _ => 1

/-- The rules by which tokens are read: those of a grammar, and whether they are lenient, so that
recovery may have skipped tokens between two statements. -/
structure ReadingRules where
  grammar : Grammar
  lenient : Bool

/-- The rules of the usual grammar alone. -/
def ReadingRules.standard : ReadingRules :=
  ⟨.standard, false⟩

/-- Tokens of one form, then tokens of another one. -/
def Chain (P Q : ReadingRules → List Token → Prop) : ReadingRules → List Token → Prop :=
  fun g ts => ∃ as bs, ts = as ++ bs ∧ P g as ∧ Q g bs

/-- Every operator can demand more of its right operand than its own precedence, where it has to:
none that groups to the left has the largest precedence. -/
def Grammar.Bounded (g : Grammar) : Prop :=
  ∀ {op rule}, g.binaryRule? op = some rule → rule.assoc = .left → rule.precedence ≠ 255

namespace ParseState

/-- The same tokens are left, and no error was recorded. With a bounded table the parse has not
overflowed either. -/
structure Still (s s' : ParseState) : Prop where
  grammar : s'.grammar = s.grammar
  tokens : s'.tokens = s.tokens
  errors : s'.errors = s.errors
  overflowed : s.grammar.Bounded → s'.overflowed = s.overflowed

/-- The tokens in front of `rest` are gone, and no error was recorded. With a bounded table the
parse has not overflowed either. -/
structure Past (s : ParseState) (rest : List Token) (s' : ParseState) : Prop where
  grammar : s'.grammar = s.grammar
  tokens : s'.tokens = rest
  errors : s'.errors = s.errors
  overflowed : s.grammar.Bounded → s'.overflowed = s.overflowed

/-- Some tokens at the front are gone, and some errors were recorded. With a bounded table the
parse has not overflowed. -/
structure Later (s s' : ParseState) : Prop where
  grammar : s'.grammar = s.grammar
  tokens : s'.tokens <:+ s.tokens
  errors : s.errors <:+ s'.errors
  overflowed : s.grammar.Bounded → s'.overflowed = s.overflowed

/-- At least so many tokens are gone, and they have a form by lenient rules. If no error was
recorded, they have it by the rules that are not lenient. -/
structure Reads (s : ParseState) (least : Nat) (form : ReadingRules → List Token → Prop)
    (s' : ParseState) : Prop where
  later : s.Later s'
  length_le : s'.tokens.length + least ≤ s.tokens.length
  used : ∀ lenient, (lenient = false → s'.errors = s.errors) →
    ∃ used, s.tokens = used ++ s'.tokens ∧ form ⟨s.grammar, lenient⟩ used

variable {s s₁ s₂ : ParseState} {m n : Nat} {P Q R : ReadingRules → List Token → Prop}

/-- Where nothing happens the same tokens are left. -/
theorem Still.refl (s : ParseState) : s.Still s :=
  ⟨rfl, rfl, rfl, fun _ => rfl⟩

/-- Two steps that leave all tokens leave all tokens together. -/
theorem Still.trans (h : s.Still s₁) (h' : s₁.Still s₂) : s.Still s₂ :=
  ⟨h'.grammar.trans h.grammar, h'.tokens.trans h.tokens, h'.errors.trans h.errors,
    fun hg => (h'.overflowed (h.grammar ▸ hg)).trans (h.overflowed hg)⟩

/-- A step that leaves all tokens is past none of them. -/
theorem Still.past (h : s.Still s₁) : s.Past s.tokens s₁ :=
  ⟨h.grammar, h.tokens, h.errors, h.overflowed⟩

/-- Past some tokens and then past more of them is past all of them. -/
theorem Past.trans {rest rest' : List Token} (h : s.Past rest s₁) (h' : s₁.Past rest' s₂) :
    s.Past rest' s₂ :=
  ⟨h'.grammar.trans h.grammar, h'.tokens, h'.errors.trans h.errors,
    fun hg => (h'.overflowed (h.grammar ▸ hg)).trans (h.overflowed hg)⟩

/-- A step that leaves all tokens may follow. -/
theorem Past.still {rest : List Token} (h : s.Past rest s₁) (h' : s₁.Still s₂) : s.Past rest s₂ :=
  h.tokens ▸ h.trans h'.past

/-- A state is reached from itself without taking any token. -/
theorem Later.refl (s : ParseState) : s.Later s :=
  ⟨rfl, List.suffix_refl _, List.suffix_refl _, fun _ => rfl⟩

/-- Moving forward twice is moving forward. -/
theorem Later.trans (h : s.Later s₁) (h' : s₁.Later s₂) : s.Later s₂ :=
  ⟨h'.grammar.trans h.grammar, h'.tokens.trans h.tokens, h.errors.trans h'.errors,
    fun hg => (h'.overflowed (h.grammar ▸ hg)).trans (h.overflowed hg)⟩

/-- Leaving all tokens counts as moving forward by none. -/
theorem Still.later (h : s.Still s₁) : s.Later s₁ :=
  ⟨h.grammar, h.tokens ▸ List.suffix_refl _, h.errors ▸ List.suffix_refl _, h.overflowed⟩

/-- Errors that were not recorded in a run were not recorded in its first part. -/
theorem Later.errors_eq (h : s.Later s₁) (h' : s₁.Later s₂) (he : s₂.errors = s.errors) :
    s₁.errors = s.errors ∧ s₂.errors = s₁.errors := by
  have hle := h.errors.length_le
  have hle' := h'.errors.length_le
  have hlen : s.errors.length = s₁.errors.length := by
    rw [he] at hle'
    omega
  have heq := (h.errors.eq_of_length hlen).symm
  exact ⟨heq, he.trans heq.symm⟩

namespace Reads

/-- What was read may be described more loosely, and fewer tokens may be demanded. -/
theorem mono (h : s.Reads m P s₁) (hn : n ≤ m)
    (hQ : ∀ {lenient} used, P ⟨s.grammar, lenient⟩ used → Q ⟨s.grammar, lenient⟩ used) :
    s.Reads n Q s₁ where
  later := h.later
  length_le := by
    have := h.length_le
    omega
  used lenient he := by
    obtain ⟨used, hused, hp⟩ := h.used lenient he
    exact ⟨used, hused, hQ _ hp⟩

/-- Two stretches of a run read the tokens of both. -/
theorem append (h : s.Reads m P s₁) (h' : s₁.Reads n Q s₂) :
    s.Reads (m + n) (Chain P Q) s₂ where
  later := h.later.trans h'.later
  length_le := by
    have := h.length_le
    have := h'.length_le
    omega
  used lenient he := by
    obtain ⟨as, has, hp⟩ := h.used lenient fun hs => (h.later.errors_eq h'.later (he hs)).1
    obtain ⟨bs, hbs, hq⟩ := h'.used lenient fun hs => (h.later.errors_eq h'.later (he hs)).2
    rw [h.later.grammar] at hq
    exact ⟨as ++ bs, by rw [has, hbs, List.append_assoc], as, bs, rfl, hp, hq⟩

/-- A step that leaves all tokens may follow what was read. -/
theorem still (h : s.Reads n P s₁) (h' : s₁.Still s₂) : s.Reads n P s₂ where
  later := h.later.trans h'.later
  length_le := h'.tokens ▸ h.length_le
  used lenient he := h'.tokens ▸ h.used lenient fun hs => h'.errors ▸ he hs

/-- If an error was recorded, only lenient rules have to say something of the tokens. -/
theorem of_errors {l : List Token} (h : s.Later s₁) (he : s.errors.length < s₁.errors.length)
    (hl : s.tokens = l ++ s₁.tokens) (hP : P ⟨s.grammar, true⟩ l) : s.Reads 0 P s₁ where
  later := h
  length_le := h.tokens.length_le
  used lenient hs := by
    cases lenient with
    | true => exact ⟨l, hl, hP⟩
    | false => exact absurd (congrArg List.length (hs rfl)) (by omega)

end Reads

/-- A step that leaves all tokens may come before what is read. -/
theorem Still.reads (h : s.Still s₁) (h' : s₁.Reads n P s₂) : s.Reads n P s₂ where
  later := h.later.trans h'.later
  length_le := h.tokens ▸ h'.length_le
  used lenient he := h.tokens ▸ h.grammar ▸ h'.used lenient fun hs => h.errors ▸ he hs

/-- A step that leaves all tokens reads no tokens. -/
theorem Still.reads_nil (h : s.Still s₁) (hP : ∀ g, P g []) : s.Reads 0 P s₁ where
  later := h.later
  length_le := Nat.le_of_eq (congrArg List.length h.tokens)
  used _ _ := ⟨[], h.tokens.symm, hP _⟩

end ParseState

namespace Parse

variable {α β : Type} {s : ParseState}

/-! ### Two logics -/

/-- A parser gives a result with a property. -/
def Runs (s : ParseState) (p : Parse α) (Q : α → ParseState → Prop) : Prop :=
  ∃ a s', p s = .ok a s' ∧ Q a s'

/-- A parser moves forward, also if it fails, and its result has a property. -/
def Goes (s : ParseState) (p : Parse α) (Q : α → ParseState → Prop) : Prop :=
  match p s with
  | .ok a s' => s.Later s' ∧ Q a s'
  | .error _ s' => s.Later s'

/-- After a success the rest goes on with its result. -/
theorem bind_ok {p : Parse α} {f : α → Parse β} {a : α} {s' : ParseState} (h : p s = .ok a s') :
    (p >>= f) s = f a s' := by
  change EStateM.bind p f s = f a s'
  unfold EStateM.bind
  rw [h]

/-- After a failure the rest is left out. -/
theorem bind_error {p : Parse α} {f : α → Parse β} {e : SyntaxError} {s' : ParseState}
    (h : p s = .error e s') : (p >>= f) s = .error e s' := by
  change EStateM.bind p f s = .error e s'
  unfold EStateM.bind
  rw [h]

/-- A result that is there already is given at once. -/
theorem Runs.pure {a : α} {Q : α → ParseState → Prop} (h : Q a s) : Runs s (pure a) Q :=
  ⟨a, s, rfl, h⟩

/-- Two parsers that do not fail do not fail in a row. -/
theorem Runs.bind {p : Parse α} {f : α → Parse β} {Q : α → ParseState → Prop}
    {R : β → ParseState → Prop} (hp : Runs s p Q) (hf : ∀ a s', Q a s' → Runs s' (f a) R) :
    Runs s (p >>= f) R := by
  obtain ⟨a, s', ha, hQ⟩ := hp
  obtain ⟨b, s'', hb, hR⟩ := hf a s' hQ
  exact ⟨b, s'', by rw [bind_ok ha, hb], hR⟩

/-- The result of a parser that does not fail may be described more loosely. -/
theorem Runs.mono {p : Parse α} {Q R : α → ParseState → Prop} (hp : Runs s p Q)
    (h : ∀ a s', Q a s' → R a s') : Runs s p R := by
  obtain ⟨a, s', ha, hQ⟩ := hp
  exact ⟨a, s', ha, h a s' hQ⟩

/-- A result that is there already leaves the parser where it is. -/
theorem Goes.pure {a : α} {Q : α → ParseState → Prop} (h : Q a s) : Goes s (pure a) Q :=
  ⟨.refl s, h⟩

/-- Two parsers in a row move forward, and if the first one fails so do both. This is the one lemma
that the proofs about sequences of parsers need. -/
theorem Goes.bind {p : Parse α} {f : α → Parse β} {Q : α → ParseState → Prop}
    {R : β → ParseState → Prop} (hp : Goes s p Q)
    (hf : ∀ a s', s.Later s' → Q a s' → Goes s' (f a) R) : Goes s (p >>= f) R := by
  unfold Goes at hp ⊢
  cases he : p s with
  | error e s' =>
      rw [he] at hp
      rw [bind_error he]
      exact hp
  | ok a s' =>
      rw [he] at hp
      have h := hf a s' hp.1 hp.2
      unfold Goes at h
      rw [bind_ok he]
      cases hfa : f a s' with
      | error e s'' =>
          rw [hfa] at h
          exact hp.1.trans h
      | ok b s'' =>
          rw [hfa] at h
          exact ⟨hp.1.trans h.1, h.2⟩

/-- The result of a parser that moves forward may be described more loosely. -/
theorem Goes.mono {p : Parse α} {Q R : α → ParseState → Prop} (hp : Goes s p Q)
    (h : ∀ a s', s.Later s' → Q a s' → R a s') : Goes s p R := by
  unfold Goes at hp ⊢
  cases he : p s with
  | error e s' =>
      rw [he] at hp
      exact hp
  | ok a s' =>
      rw [he] at hp
      exact ⟨hp.1, h a s' hp.1 hp.2⟩

/-- A parser that does not fail moves forward if its final state is a later one. -/
theorem Runs.goes {p : Parse α} {Q : α → ParseState → Prop} (hp : Runs s p Q)
    (h : ∀ a s', Q a s' → s.Later s') : Goes s p Q := by
  obtain ⟨a, s', ha, hQ⟩ := hp
  unfold Goes
  rw [ha]
  exact ⟨h a s' hQ, hQ⟩

/-- Two parsers do the same from a state, they move forward, and their result has a property. -/
def Same (s : ParseState) (p q : Parse α) (Q : α → ParseState → Prop) : Prop :=
  q s = p s ∧ Goes s p Q

/-- A parser that moves forward does the same as itself. This is where the comparison of two parsers
starts. -/
theorem Goes.same {p : Parse α} {Q : α → ParseState → Prop} (h : Goes s p Q) : Same s p p Q :=
  ⟨rfl, h⟩

/-- Parsers that do the same part by part do the same in a row. -/
theorem Same.bind {p p' : Parse α} {f f' : α → Parse β} {Q : α → ParseState → Prop}
    {R : β → ParseState → Prop} (hp : Same s p p' Q)
    (hf : ∀ a s', s.Later s' → Q a s' → Same s' (f a) (f' a) R) :
    Same s (p >>= f) (p' >>= f') R := by
  refine ⟨?_, hp.2.bind fun a s' h hQ => (hf a s' h hQ).2⟩
  obtain ⟨heq, hgoes⟩ := hp
  unfold Goes at hgoes
  cases he : p s with
  | error e s' => rw [bind_error he, bind_error (heq.trans he)]
  | ok a s' =>
      rw [he] at hgoes
      rw [bind_ok he, bind_ok (heq.trans he)]
      exact (hf a s' hgoes.1 hgoes.2).1

/-- A first part that both parsers share. -/
theorem Goes.bind_same {p : Parse α} {f f' : α → Parse β} {Q : α → ParseState → Prop}
    {R : β → ParseState → Prop} (hp : Goes s p Q)
    (hf : ∀ a s', s.Later s' → Q a s' → Same s' (f a) (f' a) R) :
    Same s (p >>= f) (p >>= f') R :=
  hp.same.bind hf

/-- The common result of two parsers may be described more loosely. -/
theorem Same.mono {p q : Parse α} {Q R : α → ParseState → Prop} (hp : Same s p q Q)
    (h : ∀ a s', s.Later s' → Q a s' → R a s') : Same s p q R :=
  ⟨hp.1, hp.2.mono h⟩

/-- Two parsers that choose by the same condition do the same if they do so in both cases. -/
theorem Same.ite {c : Prop} [Decidable c] {p p' q q' : Parse α} {Q : α → ParseState → Prop}
    (ht : c → Same s p p' Q) (hf : ¬c → Same s q q' Q) :
    Same s (if c then p else q) (if c then p' else q') Q := by
  by_cases h : c
  · rw [if_pos h, if_pos h]
    exact ht h
  · rw [if_neg h, if_neg h]
    exact hf h

/-- A result that is there already is the same for both. -/
theorem Same.pure {a : α} {Q : α → ParseState → Prop} (h : Q a s) :
    Same s (Pure.pure a) (Pure.pure a) Q :=
  (Goes.pure h).same

/-- A parser that fails stays where it is. -/
theorem goes_throw {e : SyntaxError} {Q : α → ParseState → Prop} : Goes s (throw e : Parse α) Q :=
  ParseState.Later.refl s

/-! ### The current token -/

/-- The state can be looked at, and stays as it is. -/
theorem runs_get : Runs s get fun a s' => a = s ∧ s' = s :=
  ⟨s, s, rfl, rfl, rfl⟩

/-- The current token is the first one that is left, or the end of the input. -/
theorem runs_current : Runs s current fun t s' =>
    s' = s ∧ (s.tokens = [] ∧ t.kind = .eof ∨ ∃ rest, s.tokens = t :: rest) := by
  refine ⟨_, s, rfl, rfl, ?_⟩
  cases s.tokens with
  | nil => exact .inl ⟨rfl, rfl⟩
  | cons t rest => exact .inr ⟨rest, rfl⟩

/-- The kind of the current token can be read off the tokens that are left. -/
theorem runs_currentKind : Runs s current fun t s' => s' = s ∧ t.kind = nextKind s.tokens := by
  refine runs_current.mono fun t s' h => ⟨h.1, ?_⟩
  rcases h.2 with ⟨hs, ht⟩ | ⟨rest, hs⟩
  · rw [hs, ht]
    rfl
  · rw [hs]
    rfl

/-- Taking a token leaves all the others, and at the end of the input it takes none. -/
theorem runs_bump : Runs s bump fun _ s' => s'.grammar = s.grammar ∧
    s'.tokens = s.tokens.tail ∧ s'.errors = s.errors ∧ s'.overflowed = s.overflowed := by
  refine ⟨(), _, rfl, ?_⟩
  dsimp only
  split
  · next h => simp [h]
  · next h => simp [h]

/-- Taking a token moves forward by this one token. -/
theorem goes_bump : Goes s bump fun _ s' => s'.tokens = s.tokens.tail ∧ s'.errors = s.errors :=
  (runs_bump.goes fun _ _ ⟨hg, ht, he, ho⟩ =>
    ⟨hg, ht ▸ List.tail_suffix _, he ▸ List.suffix_refl _, fun _ => ho⟩).mono
      fun _ _ _ h => ⟨h.2.1, h.2.2.1⟩

/-- Comparing the current token takes nothing. -/
theorem runs_check (kind : TokenKind) : Runs s (check kind) fun b s' =>
    s.Still s' ∧ (b = true ↔ nextKind s.tokens = kind) := by
  refine runs_currentKind.bind ?_
  rintro t _ ⟨rfl, ht⟩
  split
  · next h => exact .pure ⟨.refl _, by simp [← ht, h]⟩
  · next h => exact ⟨false, _, rfl, ⟨rfl, rfl, rfl, fun _ => rfl⟩, by simp [← ht, h]⟩

/-- Consuming a token of a known kind. -/
theorem runs_bump_of_eq {kind : TokenKind} (h : nextKind s.tokens = kind) :
    Runs s bump fun _ s' => s.Reads kind.weight (fun _ => Lexeme kind) s' := by
  refine runs_bump.mono ?_
  rintro - s' ⟨hg, ht, he, ho⟩
  cases hs : s.tokens with
  | nil =>
      rw [hs] at h ht
      obtain rfl : TokenKind.eof = kind := h
      exact ParseState.Still.reads_nil ⟨hg, ht.trans hs.symm, he, fun _ => ho⟩ fun _ => .finish rfl
  | cons t rest =>
      rw [hs] at h ht
      have hw : kind.weight ≤ 1 := by cases kind <;> simp [TokenKind.weight]
      refine ⟨⟨hg, hs ▸ ht ▸ List.suffix_cons _ _, he ▸ List.suffix_refl _, fun _ => ho⟩, ?_,
        fun _ _ => ⟨[t], by rw [hs, ht]; rfl, .token h⟩⟩
      rw [hs, ht]
      simpa using hw

/-- A token of the right kind is taken, and one of another kind is left. -/
theorem runs_eat (kind : TokenKind) : Runs s (eat kind) fun b s' =>
    (b = true ↔ nextKind s.tokens = kind) ∧
      (b = true → s.Reads kind.weight (fun _ => Lexeme kind) s') ∧ (b = false → s.Still s') := by
  refine (runs_check kind).bind ?_
  rintro b s₁ ⟨h, hb⟩
  split
  · next hbt =>
      refine (runs_bump_of_eq (h.tokens ▸ hb.mp hbt)).bind fun _ s₂ hr => ?_
      exact .pure ⟨by simpa using hb.mp hbt, fun _ => h.reads hr, nofun⟩
  · next hbt => exact .pure ⟨by simpa using fun hk => hbt (hb.mpr hk), nofun, fun _ => h⟩

/-- Comparing the current token moves the parser nowhere. -/
theorem goes_check (kind : TokenKind) : Goes s (check kind) fun b s' =>
    s.Still s' ∧ (b = true ↔ nextKind s.tokens = kind) :=
  (runs_check kind).goes fun _ _ h => h.1.later

/-- Taking a token of one kind moves forward where it is there, and nowhere else. -/
theorem goes_eat (kind : TokenKind) : Goes s (eat kind) fun b s' =>
    (b = true ↔ nextKind s.tokens = kind) ∧
      (b = true → s.Reads kind.weight (fun _ => Lexeme kind) s') ∧ (b = false → s.Still s') := by
  refine (runs_eat kind).goes fun b s' h => ?_
  cases b with
  | true => exact (h.2.1 rfl).later
  | false => exact (h.2.2 rfl).later

/-- Looking at the state moves the parser nowhere. -/
theorem goes_get : Goes s get fun a s' => a = s ∧ s' = s :=
  runs_get.goes fun _ _ h => h.2 ▸ .refl s

/-- Looking at the current token moves the parser nowhere. -/
theorem goes_current : Goes s current fun t s' =>
    s' = s ∧ (s.tokens = [] ∧ t.kind = .eof ∨ ∃ rest, s.tokens = t :: rest) :=
  runs_current.goes fun _ _ h => h.1 ▸ .refl s

/-- Looking at the kind of the current token moves the parser nowhere. -/
theorem goes_currentKind : Goes s current fun t s' => s' = s ∧ t.kind = nextKind s.tokens :=
  runs_currentKind.goes fun _ _ h => h.1 ▸ .refl s

/-- If the kind of the current token is known, taking it is reading a token of this kind. -/
theorem goes_bump_of_eq {kind : TokenKind} (h : nextKind s.tokens = kind) :
    Goes s bump fun _ s' => s.Reads kind.weight (fun _ => Lexeme kind) s' :=
  (runs_bump_of_eq h).goes fun _ _ h => h.later

/-- The offset of the current token is read without taking it. -/
theorem runs_startOffset : Runs s startOffset fun _ s' => s' = s :=
  runs_current.bind fun _ _ h => .pure h.1

/-- Reading an offset moves the parser nowhere. -/
theorem goes_startOffset : Goes s startOffset fun _ s' => s' = s :=
  runs_startOffset.goes fun _ _ h => h ▸ .refl s

/-- Looking one token ahead moves the parser nowhere. -/
theorem goes_secondKind : Goes s secondKind fun _ s' => s' = s :=
  .bind goes_get fun _ _ _ h => .pure h.2

/-- Reading a range moves the parser nowhere. -/
theorem goes_rangeFrom (start : Nat) : Goes s (rangeFrom start) fun _ s' => s' = s :=
  .bind goes_get fun _ _ _ h => .pure h.2

/-- A new node takes a label, but no token. -/
theorem runs_newNote (start : Nat) : Runs s (newNote start) fun _ s' => s.Still s' :=
  ⟨_, _, rfl, rfl, rfl, rfl, fun _ => rfl⟩

/-- A new node moves the parser nowhere in the tokens. -/
theorem goes_newNote (start : Nat) : Goes s (newNote start) fun _ s' => s.Still s' :=
  (runs_newNote start).goes fun _ _ h => h.later

/-- A noted error stands in front of those before, and the tokens are left. -/
theorem goes_report (e : SyntaxError) : Goes s (report e) fun _ s' =>
    s'.tokens = s.tokens ∧ s'.errors = e :: s.errors :=
  ⟨⟨rfl, List.suffix_refl _, List.suffix_cons _ _, fun _ => rfl⟩, rfl, rfl⟩

/-- By a bounded table there is a precedence for every right operand, so none of its operators
overflows. -/
theorem rightPrecedence?_isSome {g : Grammar} (hg : g.Bounded) {op : Operator} {rule : BinaryRule}
    (hr : g.binaryRule? op = some rule) : ∃ least, rightPrecedence? rule = some least := by
  unfold rightPrecedence?
  split
  · next ha => exact ⟨_, if_neg (hg hr ha)⟩
  · exact ⟨_, rfl⟩

/-- The precedence of a right operand depends on the rule of its operator only. -/
theorem goes_rightPrecedence {op : Operator} {rule : BinaryRule}
    (hr : s.grammar.binaryRule? op = some rule) :
    Goes s (rightPrecedence rule) fun _ s' => s.Still s' := by
  unfold rightPrecedence
  cases h : rightPrecedence? rule with
  | some least => exact .pure (.refl s)
  | none =>
      have hstill : s.Still { s with overflowed := true } := ⟨rfl, rfl, rfl, fun hg => by
        obtain ⟨least, hl⟩ := rightPrecedence?_isSome hg hr
        exact absurd (h.symm.trans hl) nofun⟩
      exact ⟨hstill.later, hstill⟩

/-- Consuming a known token. -/
theorem goes_bump_of_cons {t : Token} {rest : List Token} (hs : s.tokens = t :: rest) :
    Goes s bump fun _ s' => s.Reads 1 (fun _ ts => ts = [t]) s' := by
  refine (runs_bump.mono ?_).goes fun _ _ h => h.later
  rintro - s' ⟨hg, ht, he, ho⟩
  rw [hs] at ht
  refine ⟨⟨hg, hs ▸ ht ▸ List.suffix_cons _ _, he ▸ List.suffix_refl _, fun _ => ho⟩, ?_, fun _ _ =>
    ⟨[t], by rw [hs, ht]; rfl, rfl⟩⟩
  rw [hs, ht]
  exact Nat.le_refl _

/-- Describing what was not expected moves the parser nowhere. -/
theorem goes_unexpected : Goes s unexpected fun _ s' => s' = s := by
  refine goes_current.bind fun t s₁ _ h₁ => goes_get.bind fun s₂ s₃ _ h₂ => .pure ?_
  exact h₂.2.trans h₁.1

/-- A parser that only fails. -/
theorem goes_fail {Q : α → ParseState → Prop} : Goes s (do throw (← unexpected) : Parse α) Q :=
  goes_unexpected.bind fun _ _ _ _ => goes_throw

/-- A token that was asked for was read if the parser does not fail. -/
theorem goes_expect (kind : TokenKind) : Goes s (expect kind) fun _ s' =>
    s.Reads kind.weight (fun _ => Lexeme kind) s' := by
  refine (goes_eat kind).bind fun b s₁ _ h => ?_
  split
  · next hb => exact .pure (h.2.1 hb)
  · exact goes_fail

end Parse

end Parlance
