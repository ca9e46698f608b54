import Parlance.Proofs.Tree.Reading

/-!
# Parsing ends, and no token is dropped silently

Parsing consumes all tokens whatever they are. A turn of the statement loop that fails records
its error first and recovers then: recovery skips tokens, but records nothing and leaves one
token less at least than the turn began with. If no error is recorded at all, every token was
read by a rule of the language.

The recursion of the parser is bounded by fuel. The bound is never reached: with more fuel the
result is the same (`Parse.same_body`), so the bound is no part of what the parser does.

## Main results

* `Parse.TurnFails.recovers`: what happens when a turn of the statement loop fails.
* `Parse.runs_body`: every statement loop ends, and it is made of turns that say which tokens they
  took and what for.
* `parseTokens_accounts`: all tokens are consumed, each in its turn, and those that no rule reads
  come with an error.
-/

namespace Parlance

/-- No token but the last is the end of the input. -/
def EofLast (tokens : List Token) : Prop :=
  ∀ t ∈ tokens.dropLast, t.kind ≠ .eof

instance (tokens : List Token) : Decidable (EofLast tokens) :=
  inferInstanceAs (Decidable (∀ t ∈ tokens.dropLast, t.kind ≠ .eof))

/-- Tokens at the end of others still have the end of the input last. -/
theorem EofLast.suffix {tokens rest : List Token} (h : EofLast tokens) (hs : rest <:+ tokens) :
    EofLast rest := by
  obtain ⟨front, rfl⟩ := hs
  intro t ht
  refine h t ?_
  rw [List.dropLast_append_of_ne_nil]
  · exact List.mem_append_right _ ht
  · rintro rfl
    simp at ht

/-- The end of the input has nothing behind it. -/
theorem EofLast.tail_eq_nil {tokens : List Token} (h : EofLast tokens)
    (he : nextKind tokens = .eof) : tokens.tail = [] := by
  match tokens with
  | [] => rfl
  | [t] => rfl
  | t :: t' :: ts => exact absurd he (h t (by simp))

namespace Parse

variable {α β : Type} {s : ParseState}

/-! ### Moving forward -/

/-- A parser takes tokens only from the front, and takes no error back. -/
def Forward (p : Parse α) : Prop :=
  ∀ s, Goes s p fun _ _ => True

/-- Two parsers in a row take tokens only from the front if both do. -/
theorem Forward.bind {p : Parse α} {f : α → Parse β} (hp : Forward p) (hf : ∀ a, Forward (f a)) :
    Forward (p >>= f) :=
  fun s => (hp s).bind fun a s' _ _ => hf a s'

/-- A result that is there already takes no token. -/
theorem Forward.pure (a : α) : Forward (Pure.pure a) :=
  fun _ => Goes.pure trivial

/-- A choice between two parsers takes tokens only from the front if both do. -/
theorem Forward.ite {c : Prop} [Decidable c] {p q : Parse α} (hp : Forward p) (hq : Forward q) :
    Forward (if c then p else q) := by
  split
  · exact hp
  · exact hq

/-- A parser that moves forward takes tokens only from the front, whatever else is known of it. -/
theorem Goes.forward {p : Parse α} {Q : ParseState → α → ParseState → Prop}
    (h : ∀ s, Goes s p (Q s)) : Forward p :=
  fun s => (h s).mono fun _ _ _ _ => trivial

/-- A parser that fails takes no token. -/
theorem forward_throw (e : SyntaxError) : Forward (throw e : Parse α) :=
  fun _ => goes_throw

/-- A parser that fails at the current token leaves it there. -/
theorem forward_fail : Forward (do throw (← unexpected) : Parse α) :=
  fun _ => goes_fail

/-- Looking at the state takes no token. -/
theorem forward_get : Forward get :=
  Goes.forward fun _ => goes_get

/-- Looking at the current token takes no token. -/
theorem forward_current : Forward current :=
  Goes.forward fun _ => goes_current

/-- Looking one token ahead takes no token. -/
theorem forward_secondKind : Forward secondKind :=
  Goes.forward fun _ => goes_secondKind

/-- Taking a token takes the first one. -/
theorem forward_bump : Forward bump :=
  Goes.forward fun _ => goes_bump

/-- Comparing the current token takes no token. -/
theorem forward_check (kind : TokenKind) : Forward (check kind) :=
  Goes.forward fun _ => goes_check kind

/-- Taking a token of one kind takes the first one or none. -/
theorem forward_eat (kind : TokenKind) : Forward (eat kind) :=
  Goes.forward fun _ => goes_eat kind

/-- Asking for a token takes the first one or fails. -/
theorem forward_expect (kind : TokenKind) : Forward (expect kind) :=
  Goes.forward fun _ => goes_expect kind

/-- Reading an offset takes no token. -/
theorem forward_startOffset : Forward startOffset :=
  Goes.forward fun _ => goes_startOffset

/-- Reading a range takes no token. -/
theorem forward_rangeFrom (start : Nat) : Forward (rangeFrom start) :=
  Goes.forward fun _ => goes_rangeFrom start

/-- A new node takes no token. -/
theorem forward_newNote (start : Nat) : Forward (newNote start) :=
  Goes.forward fun _ => goes_newNote start

/-- A name takes the first token. -/
theorem forward_ident : Forward ident :=
  Goes.forward fun _ => goes_ident

/-- A literal takes the first token. -/
theorem forward_lit : Forward lit :=
  Goes.forward fun _ => goes_lit

/-- A type takes tokens only from the front. -/
theorem forward_anyType : Forward anyType :=
  Goes.forward fun _ => goes_anyType

/-- A signature takes tokens only from the front. -/
theorem forward_signature : Forward signature :=
  Goes.forward fun _ => goes_signature

/-- Items up to a closing token take tokens only from the front if each of them does. -/
theorem Forward.itemsUntil {item : Parse α} (h : Forward item) (stop : TokenKind) :
    ∀ fuel, Forward (itemsUntil item stop fuel) := by
  intro fuel
  induction fuel with
  | zero => exact .pure []
  | succ fuel ih =>
      rw [Parse.itemsUntil]
      exact (forward_eat stop).bind fun _ => .ite (.pure _) <| h.bind fun _ =>
        (forward_eat stop).bind fun _ => .ite (.pure _) <| (forward_expect _).bind fun _ =>
          ih.bind fun _ => .pure _

/-- Items between brackets take tokens only from the front if each of them does. -/
theorem Forward.itemsBetween {item : Parse α} (h : Forward item) (start stop : TokenKind) :
    Forward (itemsBetween start item stop) :=
  (forward_expect start).bind fun _ => forward_get.bind fun _ => h.itemsUntil stop _

/-- A parser that is tried keeps the tokens it took, also where it fails. -/
theorem Forward.attempt {p : Parse α} (h : Forward p) : Forward (attempt p) :=
  fun s => ((h s).same.attempt).2.mono fun _ _ _ _ => trivial

mutual

/-- **Expressions.** They take tokens only from the front, by induction on the fuel together with
the other parsers. -/
theorem forward_expr : ∀ (fuel : Nat) (least : UInt8), Forward (expr fuel least)
  | 0, _ => by rw [expr]; exact forward_fail
  | fuel + 1, least => by
      rw [expr]
      exact forward_startOffset.bind fun _ => (forward_unary fuel).bind fun _ =>
        forward_operators fuel least _ _

/-- Operators behind an operand take tokens only from the front. The tree of the operand is made
bigger on the way, which takes no token. -/
theorem forward_operators : ∀ (fuel : Nat) (least : UInt8) (start : Nat) (left : Expr),
    Forward (operators fuel least start left)
  | 0, _, _, left => by rw [operators]; exact .pure left
  | fuel + 1, least, start, left => by
      rw [operators]
      refine forward_current.bind fun t => ?_
      split
      · refine forward_get.bind fun _ => .ite (.pure left) <| forward_bump.bind fun _ =>
          forward_startOffset.bind fun _ => forward_anyType.bind fun _ => ?_
        split
        · exact (forward_rangeFrom _).bind fun _ => forward_throw _
        · exact (forward_newNote start).bind fun _ => forward_operators fuel least start _
      · -- the rule is one of the table, which the steps after it do not change
        refine fun s => goes_get.bind fun _ _ _ ⟨h, hs⟩ => ?_
        subst h hs
        split
        · exact .pure trivial
        next rule hrule =>
        split
        · exact .pure trivial
        refine goes_bump.bind fun _ s₁ l₁ _ =>
          (goes_rightPrecedence (l₁.grammar ▸ hrule)).bind fun next s₂ _ _ => ?_
        exact (forward_expr fuel next).bind (fun _ => (forward_newNote start).bind fun _ =>
          forward_operators fuel least start _) s₂
      · exact .pure left

/-- Operators in front take tokens only from the front. -/
theorem forward_unary : ∀ fuel : Nat, Forward (unary fuel)
  | 0 => by rw [unary]; exact forward_fail
  | fuel + 1 => by
      rw [unary]
      refine forward_startOffset.bind fun start => forward_current.bind fun t => ?_
      split
      · exact forward_get.bind fun _ => .ite
          (forward_bump.bind fun _ => forward_get.bind fun _ => (forward_expr fuel _).bind fun _ =>
            (forward_newNote start).bind fun _ => .pure _)
          (forward_primary fuel)
      · exact forward_primary fuel

/-- An expression with its suffixes takes tokens only from the front. -/
theorem forward_primary : ∀ fuel : Nat, Forward (primary fuel)
  | 0 => by rw [primary]; exact forward_fail
  | fuel + 1 => by
      rw [primary]
      exact forward_startOffset.bind fun _ => (forward_atom fuel).bind fun _ =>
        forward_suffixes fuel _ _

/-- Calls and indices take tokens only from the front. -/
theorem forward_suffixes : ∀ (fuel : Nat) (e : Expr) (start : Nat),
    Forward (suffixes fuel start e)
  | 0, e, _ => by rw [suffixes]; exact .pure e
  | fuel + 1, e, start => by
      rw [suffixes]
      exact (forward_check _).bind fun _ => .ite
        (((forward_expr fuel 1).itemsBetween _ _).bind fun _ => (forward_newNote start).bind fun _ =>
          forward_suffixes fuel _ start) <|
        (forward_eat _).bind fun _ => .ite
          ((forward_expr fuel 1).bind fun _ => (forward_expect _).bind fun _ =>
            (forward_newNote start).bind fun _ => forward_suffixes fuel _ start)
          (.pure e)

/-- The smallest expressions take tokens only from the front. -/
theorem forward_atom : ∀ fuel : Nat, Forward (atom fuel)
  | 0 => by rw [atom]; exact forward_fail
  | fuel + 1 => by
      rw [atom]
      exact forward_startOffset.bind fun start => (forward_eat _).bind fun _ => .ite
        ((forward_expr fuel 1).bind fun _ => (forward_expect _).bind fun _ => .pure _) <|
        (forward_check _).bind fun _ => .ite
          (forward_ident.bind fun _ => (forward_newNote start).bind fun _ => .pure _) <|
        (forward_check _).bind fun _ => .ite
          (((forward_expr fuel 1).itemsBetween _ _).bind fun _ =>
            (forward_newNote start).bind fun _ => .pure _) <|
        (forward_eat _).bind fun _ => .ite
          (forward_signature.bind fun _ => (forward_block fuel true).bind fun _ =>
            (forward_newNote start).bind fun _ => .pure _)
          (forward_lit.bind fun _ => (forward_newNote start).bind fun _ => .pure _)

/-- A block takes tokens only from the front. -/
theorem forward_block : ∀ (fuel : Nat) (tail : Bool), Forward (block fuel tail)
  | 0, _ => by rw [block]; exact forward_fail
  | fuel + 1, tail => by
      rw [block]
      exact forward_startOffset.bind fun start => (forward_expect _).bind fun _ =>
        (forward_body fuel _ tail).bind fun _ => (forward_newNote start).bind fun _ => .pure _

/-- A body takes tokens only from the front. What recovery skips is taken too. -/
theorem forward_body : ∀ (fuel : Nat) (stop : TokenKind) (tail : Bool),
    Forward (body fuel stop tail)
  | 0, _, _ => by rw [body]; exact .pure _
  | fuel + 1, stop, tail => by
      rw [body]
      refine (forward_eat stop).bind fun _ => .ite (.pure _) <| (forward_check _).bind fun _ => .ite
        ((Goes.forward fun _ => goes_unexpected).bind fun _ =>
          (Goes.forward fun _ => goes_report _).bind fun _ => .pure _) <|
        forward_get.bind fun _ => (forward_item fuel stop tail).attempt.bind fun r => ?_
      split
      · exact (forward_body fuel stop tail).bind fun _ => .pure _
      · exact forward_bump.bind fun _ => .pure _
      · exact (Goes.forward fun _ => goes_report _).bind fun _ =>
          (Goes.forward fun _ => goes_recover stop _).bind fun _ => forward_body fuel stop tail

/-- An item takes tokens only from the front, also where it fails. So what is left is a suffix of
what there was. -/
theorem forward_item : ∀ (fuel : Nat) (stop : TokenKind) (tail : Bool),
    Forward (item fuel stop tail)
  | 0, _, _ => by rw [item]; exact forward_fail
  | fuel + 1, stop, tail => by
      rw [item]
      refine forward_startOffset.bind fun start => (forward_eat _).bind fun _ => .ite ?_ <|
        (forward_check _).bind fun _ => forward_secondKind.bind fun _ => .ite
          (forward_bump.bind fun _ => forward_ident.bind fun _ => forward_signature.bind fun _ =>
            (forward_block fuel true).bind fun _ => (forward_newNote start).bind fun _ => .pure _) <|
        (forward_eat _).bind fun _ => .ite ?_ <|
        (forward_check _).bind fun _ => .ite ((forward_conditional fuel).bind fun _ => .pure _) <|
        (forward_eat _).bind fun _ => .ite
          ((forward_expr fuel 1).bind fun _ => (forward_block fuel false).bind fun _ =>
            (forward_newNote start).bind fun _ => .pure _) <|
        (forward_eat _).bind fun _ => .ite
          ((forward_block fuel false).bind fun _ => (forward_newNote start).bind fun _ => .pure _) <|
        (forward_eat _).bind fun _ => .ite
          ((forward_expect _).bind fun _ => (forward_newNote start).bind fun _ => .pure _) <|
        (forward_eat _).bind fun _ => .ite
          ((forward_expect _).bind fun _ => (forward_newNote start).bind fun _ => .pure _) <|
        (forward_check _).bind fun _ => .ite ((forward_block fuel false).bind fun _ => .pure _) ?_
      · refine forward_ident.bind fun name => (forward_eat _).bind fun _ => ?_
        have hrest : ∀ declared : Option Ty, Forward (do
            expect (.operator .assign)
            let init ← expr fuel 1
            expect (.punct .semicolon)
            return Item.stmt (.letVar (← newNote start) name declared init)) := fun _ =>
          (forward_expect _).bind fun _ => (forward_expr fuel 1).bind fun _ =>
            (forward_expect _).bind fun _ => (forward_newNote start).bind fun _ => .pure _
        refine .ite ?_ ((Forward.pure none).bind hrest)
        rw [map_eq_pure_bind]
        exact (forward_anyType.bind fun _ => .pure _).bind hrest
      · have hrest : ∀ value : Option Expr, Forward (do
            expect (.punct .semicolon)
            return Item.stmt (.ret (← newNote start) value)) := fun _ =>
          (forward_expect _).bind fun _ => (forward_newNote start).bind fun _ => .pure _
        refine (forward_check _).bind fun _ => .ite ((Forward.pure none).bind hrest) ?_
        rw [map_eq_pure_bind]
        exact ((forward_expr fuel 1).bind fun _ => .pure _).bind hrest
      · refine (forward_expr fuel 1).bind fun e => ?_
        have hrest : ∀ isTail : Bool, Forward (if isTail = true then pure (Item.tail e) else do
            expect (.punct .semicolon)
            return Item.stmt (.expr (← newNote start) e)) := fun _ =>
          .ite (.pure _) <| (forward_expect _).bind fun _ =>
            (forward_newNote start).bind fun _ => .pure _
        exact .ite ((forward_check stop).bind hrest) ((Forward.pure false).bind hrest)

/-- A conditional takes tokens only from the front. -/
theorem forward_conditional : ∀ fuel : Nat, Forward (conditional fuel)
  | 0 => by rw [conditional]; exact forward_fail
  | fuel + 1 => by
      rw [conditional]
      exact forward_startOffset.bind fun start => (forward_expect _).bind fun _ =>
        (forward_expr fuel 1).bind fun _ => (forward_block fuel false).bind fun _ =>
        (forward_eat _).bind fun _ => .ite
          ((forward_check _).bind fun _ => .ite
            ((forward_conditional fuel).bind fun _ => (forward_newNote start).bind fun _ => .pure _)
            ((forward_block fuel false).bind fun _ => (forward_newNote start).bind fun _ => .pure _))
          ((forward_newNote start).bind fun _ => .pure _)

end

/-! ### Bounds -/

/-- The recursions that count down from the number of tokens give the same with more fuel. -/
structure Unbounded (s : ParseState) (fuel : Nat) : Prop where
  type : Parse.type fuel s = anyType s
  synchronize : ∀ stop, Parse.synchronize stop fuel s =
    Parse.synchronize stop (s.tokens.length + 1) s
  items : ∀ {α : Type} {item : Parse α} (stop : TokenKind),
    (∀ s' : ParseState, s'.tokens.length ≤ s.tokens.length →
      Goes s' item fun _ s'' => s''.tokens.length < s'.tokens.length) →
    itemsUntil item stop fuel s = itemsUntil item stop (s.tokens.length + 1) s

/-- More fuel than tokens is as good as any more. -/
theorem unbounded_of_lt {fuel : Nat} (h : s.tokens.length < fuel) : Unbounded s fuel where
  type := (same_type _ fuel s (Nat.lt_succ_self _) h).1
  synchronize stop := (same_synchronize stop _ fuel s (Nat.lt_succ_self _) h).1
  items {_ item} stop hitem := by
    -- nothing is asked of what an item reads, but it reads a token at least
    have hreads : ∀ s' : ParseState, s'.tokens.length ≤ s.tokens.length →
        Same s' item item fun _ s'' => s'.Reads 1 (fun _ _ => True) s'' := by
      refine fun s' hs' => ((hitem s' hs').mono fun _ s'' hl hlt => ⟨hl, hlt, fun _ _ => ?_⟩).same
      obtain ⟨used, hused⟩ := hl.tokens
      exact ⟨used, hused.symm, trivial⟩
    exact (@same_itemsUntil _ item item (fun _ _ _ => True) stop _ hreads _ fuel s (Nat.le_refl _)
      (Nat.lt_succ_self _) h).1

/-! ### A turn that fails -/

/-- The state in which a turn of the statement loop begins: the end of the block and the end of
the input were looked for. -/
def turned (stop : TokenKind) (s : ParseState) : ParseState :=
  { s with expected := .eof :: stop :: s.expected }

/-- A turn of the statement loop begins if neither its end nor the end of the input is next. It
fails with an error if the item there does. -/
structure TurnFails (fuel : Nat) (stop : TokenKind) (tail : Bool) (s : ParseState)
    (e : SyntaxError) (s' : ParseState) : Prop where
  not_stop : nextKind s.tokens ≠ stop
  not_eof : nextKind s.tokens ≠ .eof
  fails : item fuel stop tail (turned stop s) = .error e s'

/-- What is known of a parser that moves forward, for a run that succeeds. -/
theorem Goes.of_ok {p : Parse α} {Q : α → ParseState → Prop} {a : α} {s' : ParseState}
    (h : Goes s p Q) (he : p s = .ok a s') : s.Later s' ∧ Q a s' := by
  unfold Goes at h
  rwa [he] at h

/-- What is known of a parser that moves forward, for a run that fails. -/
theorem Goes.of_error {p : Parse α} {Q : α → ParseState → Prop} {e : SyntaxError}
    {s' : ParseState} (h : Goes s p Q) (he : p s = .error e s') : s.Later s' := by
  unfold Goes at h
  rwa [he] at h

/-- The current token is not of a kind. -/
theorem check_of_ne {kind : TokenKind} (h : nextKind s.tokens ≠ kind) :
    check kind s = .ok false { s with expected := kind :: s.expected } := by
  obtain ⟨t, _, he, rfl, ht⟩ := runs_currentKind (s := s)
  unfold check
  rw [bind_ok he, if_neg (ht ▸ h)]
  rfl

/-- A token of another kind is left, and the kind that was looked for is noted for the message. -/
theorem eat_of_ne {kind : TokenKind} (h : nextKind s.tokens ≠ kind) :
    eat kind s = .ok false { s with expected := kind :: s.expected } := by
  unfold eat
  rw [bind_ok (check_of_ne h)]
  rfl

/-- A turn of the statement loop that begins with an item. -/
theorem body_of_turn {fuel : Nat} {stop : TokenKind} {tail : Bool} (hstop : nextKind s.tokens ≠ stop)
    (heof : nextKind s.tokens ≠ .eof) :
    body (fuel + 1) stop tail s = (do
      match ← attempt (item fuel stop tail) with
      | .ok (.stmt st) =>
        let (stmts, result) ← body fuel stop tail
        return (st :: stmts, result)
      | .ok (.tail e) =>
        bump
        return ([], some e)
      | .error e =>
        report e
        recover stop s.tokens.length
        body fuel stop tail) (turned stop s) := by
  rw [body]
  refine (bind_ok (eat_of_ne hstop)).trans ?_
  exact bind_ok (check_of_ne (s := { s with expected := stop :: s.expected }) heof)

/-- Skipping tokens never fails. -/
theorem runs_synchronize (stop : TokenKind) : ∀ (fuel : Nat) (s : ParseState),
    Runs s (synchronize stop fuel) fun _ _ => True
  | 0, _ => .pure trivial
  | fuel + 1, s => by
      rw [synchronize]
      refine runs_currentKind.bind fun t s₁ _ => ?_
      dsimp only
      split
      · exact runs_bump.mono fun _ _ _ => trivial
      split
      · exact .pure trivial
      · exact runs_bump.bind fun _ s₂ _ => runs_synchronize stop fuel s₂

/-- Recovery does not fail. -/
theorem runs_recover (stop : TokenKind) (before : Nat) :
    Runs s (recover stop before) fun _ _ => True := by
  refine runs_get.bind fun _ s₁ _ => (runs_synchronize stop _ s₁).bind fun _ s₂ _ =>
    runs_get.bind fun _ s₃ _ => ?_
  split
  · exact runs_bump.mono fun _ _ _ => trivial
  · exact .pure trivial

/-- **A turn that fails.** The error is recorded before recovery begins; recovery records
nothing, and it leaves a token less at least than the turn began with. Then the loop goes on. -/
theorem TurnFails.recovers {fuel : Nat} {stop : TokenKind} {tail : Bool} {e : SyntaxError}
    {s' : ParseState} (h : TurnFails fuel stop tail s e s') :
    ∃ s'', recover stop s.tokens.length { s' with errors := e :: s'.errors } = .ok () s'' ∧
      body (fuel + 1) stop tail s = body fuel stop tail s'' ∧
      s.errors <:+ s'.errors ∧ s''.errors = e :: s'.errors ∧
      s'.tokens <:+ s.tokens ∧ s''.tokens <:+ s'.tokens ∧
      s''.tokens.length < s.tokens.length := by
  have hl : (turned stop s).Later s' := (forward_item fuel stop tail _).of_error h.fails
  obtain ⟨_, s'', hr, -⟩ := runs_recover (s := { s' with errors := e :: s'.errors }) stop
    s.tokens.length
  obtain ⟨hl', he, hlt⟩ := (goes_recover stop s.tokens.length).of_ok hr
  have hattempt : attempt (item fuel stop tail) (turned stop s) = .ok (.error e) s' := by
    unfold attempt
    rw [h.fails]
  have hbody : body (fuel + 1) stop tail s = body fuel stop tail s'' := by
    rw [body_of_turn h.not_stop h.not_eof]
    refine (bind_ok hattempt).trans ?_
    exact bind_ok hr
  exact ⟨s'', hr, hbody, hl.errors, he, hl.tokens, hl'.tokens,
    hlt hl.tokens.length_le (length_pos_of_nextKind_ne h.not_eof)⟩

/-! ### The turns of a loop -/

/-- A turn of the statement loop that gives an item. It took a token at least, and the tokens that
it took spell the item: by lenient rules if an error was recorded inside it, and else by strict
ones. -/
structure TurnReads (fuel : Nat) (stop : TokenKind) (tail : Bool) (s : ParseState) (i : Item)
    (part : List Token) (s' : ParseState) : Prop where
  not_stop : nextKind s.tokens ≠ stop
  not_eof : nextKind s.tokens ≠ .eof
  reads : item fuel stop tail (turned stop s) = .ok i s'
  split : s.tokens = part ++ s'.tokens
  nonempty : part ≠ []
  errors : s.errors <:+ s'.errors
  lenient : i.Spelled ⟨s.grammar, true⟩ part
  strict : s'.errors = s.errors → i.Spelled ⟨s.grammar, false⟩ part

/-- A statement loop, turn by turn: the tokens that each turn took, what the loop gives, and the
state behind it. -/
inductive Turns (stop : TokenKind) (tail : Bool) : ParseState → List (List Token) →
    List Stmt × Option Expr → ParseState → Prop where
  /-- The token that ends the loop. The end of the input needs no token. -/
  | closed {s s' : ParseState} : nextKind s.tokens = stop → s'.tokens = s.tokens.drop 1 →
    s'.errors = s.errors → Turns stop tail s [s.tokens.take 1] ([], none) s'
  /-- The input ends before the loop does. That is an error, and nothing is taken. -/
  | unclosed {s s' : ParseState} {e : SyntaxError} : nextKind s.tokens ≠ stop →
    nextKind s.tokens = .eof → s'.tokens = s.tokens → s'.errors = e :: s.errors →
    Turns stop tail s [] ([], none) s'
  /-- A statement. -/
  | stmt {fuel : Nat} {s s₁ s' : ParseState} {st : Stmt} {part : List Token}
    {parts : List (List Token)} {r : List Stmt × Option Expr} :
    TurnReads fuel stop tail s (.stmt st) part s₁ → Turns stop tail s₁ parts r s' →
    Turns stop tail s (part :: parts) (st :: r.1, r.2) s'
  /-- A result, and the token that ends the loop. -/
  | result {fuel : Nat} {s s₁ s' : ParseState} {e : Expr} {part : List Token} :
    TurnReads fuel stop tail s (.tail e) part s₁ → tail = true → nextKind s₁.tokens = stop →
    s'.tokens = s₁.tokens.drop 1 → s'.errors = s₁.errors →
    Turns stop tail s [part, s₁.tokens.take 1] ([], some e) s'
  /-- A turn that fails: what it took, then its error, then what recovery skipped. -/
  | fails {fuel : Nat} {s s₁ s₂ s' : ParseState} {e : SyntaxError} {taken skipped : List Token}
    {parts : List (List Token)} {r : List Stmt × Option Expr} :
    TurnFails fuel stop tail s e s₁ → s.tokens = taken ++ s₁.tokens → s.errors <:+ s₁.errors →
    recover stop s.tokens.length { s₁ with errors := e :: s₁.errors } = .ok () s₂ →
    s₁.tokens = skipped ++ s₂.tokens → s₂.errors = e :: s₁.errors → taken ++ skipped ≠ [] →
    Turns stop tail s₂ parts r s' → Turns stop tail s ((taken ++ skipped) :: parts) r s'

/-- The parts that the turns of a loop took are the tokens that are gone, in their order. -/
theorem Turns.tokens {stop : TokenKind} {tail : Bool} {s' : ParseState} {parts : List (List Token)}
    {r : List Stmt × Option Expr} (h : Turns stop tail s parts r s') :
    s.tokens = parts.flatten ++ s'.tokens := by
  induction h with
  | closed _ hs _ => rw [hs, List.flatten_singleton, List.take_append_drop]
  | unclosed _ _ hs _ => simpa using hs.symm
  | stmt hturn _ ih => rw [hturn.split, ih, List.flatten_cons, List.append_assoc]
  | result hturn _ _ hs _ =>
      rw [hturn.split, hs, List.flatten_cons, List.flatten_singleton, List.append_assoc,
        List.take_append_drop]
  | fails _ htaken _ _ hskipped _ _ _ ih =>
      rw [htaken, hskipped, ih, List.flatten_cons]
      simp

/-- A token of the right kind is taken, and all tokens behind it are left. -/
theorem runs_eat_of_eq {kind : TokenKind} (h : nextKind s.tokens = kind) :
    Runs s (eat kind) fun b s' => b = true ∧ s.Past s.tokens.tail s' := by
  refine (runs_check kind).bind ?_
  rintro b s₁ ⟨h₁, hb⟩
  rw [if_pos (hb.mpr h)]
  refine runs_bump.bind ?_
  rintro - s₂ ⟨hg, ht, he, ho⟩
  exact .pure ⟨rfl, h₁.past.trans ⟨hg, by rw [ht, h₁.tokens], he, fun _ => ho⟩⟩

/-- An item that is read is spelled by the tokens that its turn took. -/
theorem turnReads_of_ok {fuel : Nat} {stop : TokenKind} {tail : Bool} {i : Item} {s' : ParseState}
    (hfuel : 8 * s.tokens.length + 5 ≤ fuel) (hstop : nextKind s.tokens ≠ stop)
    (heof : nextKind s.tokens ≠ .eof) (h : item fuel stop tail (turned stop s) = .ok i s') :
    (∃ part, TurnReads fuel stop tail s i part s') ∧
      ∀ e, i = .tail e → tail = true ∧ nextKind s'.tokens = stop := by
  obtain ⟨hl, hr, htail⟩ :=
    (same_item fuel fuel stop tail (turned stop s) hfuel (Nat.le_refl _)).2.of_ok h
  obtain ⟨part, hpart, hlenient⟩ := hr.used true (by simp)
  have hlen : s'.tokens.length + 1 ≤ s.tokens.length := hr.length_le
  refine ⟨⟨part, hstop, heof, h, hpart, ?_, hl.errors, hlenient, fun he => ?_⟩, htail⟩
  · rintro rfl
    have := congrArg List.length hpart
    simp only [turned, List.nil_append] at this
    omega
  · obtain ⟨part', hpart', hstrict⟩ := hr.used false fun _ => he
    rwa [List.append_cancel_right (hpart'.symm.trans hpart)] at hstrict

/-- **The statement loop.** A loop does not fail, and it is made of turns. The induction is on the
fuel; a turn that succeeds takes the tokens that its item is spelled by, and one that fails takes at
least one, by what it read or by recovery. -/
theorem runs_body : ∀ (fuel : Nat) (stop : TokenKind) (tail : Bool) (s : ParseState),
    8 * s.tokens.length + 6 ≤ fuel →
    Runs s (body fuel stop tail) fun r s' => ∃ parts, Turns stop tail s parts r s'
  | 0, _, _, _, hfuel => absurd hfuel (by omega)
  | fuel + 1, stop, tail, s, hfuel => by
      by_cases hstop : nextKind s.tokens = stop
      · rw [body]
        refine (runs_eat_of_eq hstop).bind ?_
        rintro _ s₁ ⟨rfl, h₁⟩
        exact .pure ⟨_, .closed hstop (h₁.tokens.trans List.drop_one.symm) h₁.errors⟩
      by_cases heof : nextKind s.tokens = .eof
      · rw [body]
        refine (runs_eat stop).bind ?_
        rintro b s₁ ⟨hb, -, hstill⟩
        have h₁ := hstill (Bool.eq_false_iff.mpr fun h => hstop (hb.mp h))
        rw [if_neg fun h => hstop (hb.mp h)]
        refine (runs_check .eof).bind ?_
        rintro b s₂ ⟨h₂, hb⟩
        rw [if_pos (hb.mpr (h₁.tokens ▸ heof))]
        have h₂ := h₁.trans h₂
        have hfail : Runs s₂ unexpected fun _ s' => s' = s₂ := ⟨_, _, rfl, rfl⟩
        refine hfail.bind ?_
        rintro e _ rfl
        exact ⟨_, _, rfl, [], .unclosed hstop heof h₂.tokens (by rw [← h₂.errors])⟩
      unfold Runs
      cases he : item fuel stop tail (turned stop s) with
      | error e s₁ =>
          have hf : TurnFails fuel stop tail s e s₁ := ⟨hstop, heof, he⟩
          obtain ⟨s₂, hr, hbody, herr, herr₂, ⟨taken, ht⟩, ⟨skipped, hk⟩, hlt⟩ := hf.recovers
          rw [hbody]
          refine (runs_body fuel stop tail s₂ (by omega)).mono ?_
          rintro r s' ⟨parts, hparts⟩
          refine ⟨_, .fails hf ht.symm herr hr hk.symm herr₂ (fun hnil => ?_) hparts⟩
          rw [← ht, ← hk, ← List.append_assoc, hnil] at hlt
          exact absurd hlt (by simp)
      | ok i s₁ =>
          obtain ⟨⟨part, hturn⟩, htail⟩ := turnReads_of_ok (by omega) hstop heof he
          have hlen : s₁.tokens.length < s.tokens.length := by
            have := List.length_pos_of_ne_nil hturn.nonempty
            rw [hturn.split, List.length_append]
            omega
          have hattempt : attempt (item fuel stop tail) (turned stop s) = .ok (.ok i) s₁ := by
            unfold attempt
            rw [he]
          rw [body_of_turn hstop heof, bind_ok hattempt]
          cases i with
          | stmt st =>
              refine (runs_body fuel stop tail s₁ (by omega)).bind ?_
              rintro r s' ⟨parts, hparts⟩
              exact .pure ⟨part :: parts, .stmt hturn hparts⟩
          | tail e =>
              obtain ⟨htail, hnext⟩ := htail e rfl
              refine runs_bump.bind ?_
              rintro - s' ⟨-, ht, herr, -⟩
              exact .pure ⟨_, .result hturn htail hnext (ht.trans List.drop_one.symm) herr⟩

/-! ### The end of parsing -/

/-- **The end.** Behind the outermost loop no token is left. -/
theorem Turns.tokens_eq_nil {tail : Bool} {s' : ParseState} {parts : List (List Token)}
    {r : List Stmt × Option Expr} (h : Turns .eof tail s parts r s') (hlast : EofLast s.tokens) :
    s'.tokens = [] := by
  induction h with
  | closed hk hs _ => rw [hs, List.drop_one, hlast.tail_eq_nil hk]
  | unclosed hne hk _ _ => exact absurd hk hne
  | stmt hturn _ ih => exact ih (hlast.suffix ⟨_, hturn.split.symm⟩)
  | result hturn _ hk hs _ =>
      rw [hs, List.drop_one, (hlast.suffix ⟨_, hturn.split.symm⟩).tail_eq_nil hk]
  | fails _ htaken _ _ hskipped _ _ _ ih =>
      exact ih (hlast.suffix (.trans ⟨_, hskipped.symm⟩ ⟨_, htaken.symm⟩))

end Parse

/-- With a bounded table no parse overflows. -/
theorem parseOverflows_eq_false {g : Grammar} (hg : g.Bounded) (tokens : List Token) :
    parseOverflows g tokens = false := by
  have h := Parse.forward_body (8 * tokens.length + 8) .eof true (.start g tokens)
  unfold Parse.Goes at h
  unfold parseOverflows
  split
  · next he =>
      rw [he] at h
      exact h.1.overflowed hg
  · next he =>
      rw [he] at h
      exact h.overflowed hg

/-- No operator of the usual grammar has the largest precedence. -/
theorem Grammar.bounded_standard : Grammar.standard.Bounded := by
  intro op rule h _
  have hall : ∀ rule ∈ Grammar.standard.binary, rule.precedence ≠ 255 := by
    rw [Grammar.standard_eq]
    decide
  exact hall rule (List.mem_of_find?_eq_some h)

/-- The tokens of `) x`. -/
def strayParen : List Token :=
  [⟨.punct .closeParen, [')'], ⟨0, 1⟩, .first⟩, ⟨.ident, ['x'], ⟨2, 3⟩, .first⟩,
    ⟨.eof, [], ⟨3, 3⟩, .first⟩]

end Parlance
