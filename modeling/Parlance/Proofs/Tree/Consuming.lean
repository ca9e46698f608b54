import Parlance.Proofs.Tree.Recovery
import Parlance.Proofs.Tree.TreeTexts

/-!
# Parsing by contents

What a parser makes of tokens does not depend on their places, up to the notes of the tree. So the
tokens of a printed tree are followed by their contents: `Parse.Consumes` says that a parser takes
the first contents, leaves the others, records no error and gives a result with a property. Results
are compared without their notes (`Expr.erase`, `Stmt.erase`, `Block.erase`).

## Main definitions

* `Expr.erase`, `Stmt.erase`, `Block.erase`: trees without notes.
* `Parse.Consumes`: what a parser takes and leaves.

## Main results

* `Parse.consumes_itemsBetween`: lists in brackets.
* `Parse.consumes_signature`: the tokens of a signature are read as the same signature.
-/

namespace Parlance

/-! ### Trees without notes -/

/-- The parameter without its place. -/
def Param.erase (p : Param) : Param :=
  { p with range := default }

/-- The signature without the places of its parameters. -/
def Signature.erase (s : Signature) : Signature :=
  ⟨s.params.map Param.erase, s.returns⟩

mutual

/-- The expression without its notes: kinds of nodes, names, types, operators, literals and parts
are left. -/
def Expr.erase : Expr → Expr
  | .lit _ v => .lit default v
  | .ident _ name => .ident default name
  | .unary _ op e => .unary default op e.erase
  | .binary _ op l r => .binary default op l.erase r.erase
  | .assign _ t v => .assign default t.erase v.erase
  | .call _ f args => .call default f.erase (Expr.eraseAll args)
  | .index _ t i => .index default t.erase i.erase
  | .list _ items => .list default (Expr.eraseAll items)
  | .cast _ e t => .cast default e.erase t
  | .lambda _ s b => .lambda default s.erase b.erase

def Expr.eraseAll : List Expr → List Expr
  | [] => []
  | e :: es => e.erase :: Expr.eraseAll es

/-- The statement without its notes. -/
def Stmt.erase : Stmt → Stmt
  | .block b => .block b.erase
  | .letVar _ name t e => .letVar default name t e.erase
  | .fnDecl _ name s b => .fnDecl default name s.erase b.erase
  | .ret _ none => .ret default none
  | .ret _ (some e) => .ret default (some e.erase)
  | .cond _ test yes none => .cond default test.erase yes.erase none
  | .cond _ test yes (some no) => .cond default test.erase yes.erase (some no.erase)
  | .whileLoop _ test b => .whileLoop default test.erase b.erase
  | .loop _ b => .loop default b.erase
  | .breakLoop _ => .breakLoop default
  | .continueLoop _ => .continueLoop default
  | .expr _ e => .expr default e.erase

def Stmt.eraseAll : List Stmt → List Stmt
  | [] => []
  | s :: ss => s.erase :: Stmt.eraseAll ss

/-- The block without its notes. -/
def Block.erase : Block → Block
  | .mk _ ss none => .mk default (Stmt.eraseAll ss) none
  | .mk _ ss (some e) => .mk default (Stmt.eraseAll ss) (some e.erase)

end

/-- Expressions lose their notes one by one. -/
theorem Expr.eraseAll_eq (es : List Expr) : Expr.eraseAll es = es.map Expr.erase := by
  induction es with
  | nil => rfl
  | cons e es ih => rw [eraseAll, ih, List.map_cons]

/-- A conditional without notes has the parts of the other one without theirs. -/
theorem Stmt.erase_cond {n n' : Note} {test test' : Expr} {yes yes' : Block} {no no' : Stmt}
    (htest : test'.erase = test.erase) (hyes : yes'.erase = yes.erase)
    (hno : no'.erase = no.erase) :
    (Stmt.cond n' test' yes' (some no')).erase = (Stmt.cond n test yes (some no)).erase := by
  rw [erase, erase, htest, hyes, hno]

/-! ### Parsing by contents -/

/-- The kind of the first content; after the last one comes the end of the input. -/
def headKind : List Content → TokenKind
  | c :: _ => c.1
  | [] => .eof

/-- The kind of the next token can be read off the contents alone. -/
theorem nextKind_eq (tokens : List Token) :
    nextKind tokens = headKind (tokens.map Token.content) := by
  cases tokens <;> rfl

namespace Parse

variable {α β : Type} {left mid rest : List Content}

/-- Under the usual grammar, a parser takes the first of these tokens, leaves these others, records
no error and gives a result with a property. -/
def Consumes (left : List Content) (p : Parse α) (P : α → Prop) (rest : List Content) : Prop :=
  ∀ s : ParseState, s.grammar = .standard → s.tokens.map Token.content = left →
    Runs s p fun a s' => P a ∧ s'.grammar = .standard ∧ s'.tokens.map Token.content = rest ∧
      s'.errors = s.errors

section

variable {p q : Parse α} {f : α → Parse β} {P P' : α → Prop} {Q : β → Prop} {kind : TokenKind}
  {text : List Char}

/-- A result that is there already takes no token. -/
theorem Consumes.pure {a : α} (h : P a) : Consumes left (pure a) P left :=
  fun _ hg hs => Runs.pure ⟨h, hg, hs, rfl⟩

/-- Two parsers in a row take their tokens one after the other. -/
theorem Consumes.bind (hp : Consumes left p P mid)
    (hf : ∀ a, P a → Consumes mid (f a) Q rest) : Consumes left (p >>= f) Q rest := by
  intro s hg hs
  refine (hp s hg hs).bind fun a s' ⟨ha, hg', hs', he'⟩ => ?_
  exact (hf a ha s' hg' hs').mono fun _ _ h => ⟨h.1, h.2.1, h.2.2.1, h.2.2.2.trans he'⟩

/-- The result may be described more loosely. -/
theorem Consumes.mono (hp : Consumes left p P rest) (h : ∀ a, P a → P' a) :
    Consumes left p P' rest :=
  fun s hg hs => (hp s hg hs).mono fun _ _ h' => ⟨h _ h'.1, h'.2⟩

/-- A parser that only looks. -/
theorem Consumes.of_still {R : ParseState → α → Prop}
    (h : ∀ s, Runs s p fun a s' => s.Still s' ∧ R s a)
    (hP : ∀ s a, s.grammar = .standard → s.tokens.map Token.content = left → R s a → P a) :
    Consumes left p P left :=
  fun s hg hs => (h s).mono fun _ _ ⟨hstill, hr⟩ =>
    ⟨hP s _ hg hs hr, hstill.grammar.trans hg, (congrArg _ hstill.tokens).trans hs, hstill.errors⟩

/-- Looking at the state takes no token, and shows those that are left. -/
theorem consumes_get : Consumes left get
    (fun s => s.grammar = .standard ∧ s.tokens.map Token.content = left) left :=
  .of_still (R := fun s a => a = s)
    (fun _ => runs_get.mono fun _ _ h => ⟨h.2 ▸ .refl _, h.1⟩)
    fun _ _ hg hs ha => ha ▸ ⟨hg, hs⟩

/-- Looking at the current token takes none. -/
theorem consumes_current : Consumes left current (fun t => t.kind = headKind left) left :=
  .of_still (R := fun s t => t.kind = nextKind s.tokens)
    (fun _ => runs_currentKind.mono fun _ _ h => ⟨h.1 ▸ .refl _, h.2⟩)
    fun _ _ _ hs ht => by rw [ht, nextKind_eq, hs]

/-- Reading an offset takes no token, and nothing is said about where it is. -/
theorem consumes_startOffset : Consumes left startOffset (fun _ => True) left :=
  .of_still (R := fun _ _ => True)
    (fun _ => runs_startOffset.mono fun _ _ h => ⟨h ▸ .refl _, trivial⟩) fun _ _ _ _ _ => trivial

/-- A new node takes no token. -/
theorem consumes_newNote (start : Nat) : Consumes left (newNote start) (fun _ => True) left :=
  .of_still (R := fun _ _ => True)
    (fun _ => (runs_newNote start).mono fun _ _ h => ⟨h, trivial⟩) fun _ _ _ _ _ => trivial

/-- Reading a range takes no token. -/
theorem consumes_rangeFrom (start : Nat) : Consumes left (rangeFrom start) (fun _ => True) left :=
  fun _ hg hs => ⟨_, _, rfl, trivial, hg, hs, rfl⟩

/-- Looking one token ahead takes none. -/
theorem consumes_secondKind : Consumes left secondKind (· = headKind left.tail) left := by
  intro s hg hs
  refine ⟨_, s, rfl, ?_, hg, hs, rfl⟩
  rw [← hs]
  rcases s.tokens with _ | ⟨t, _ | ⟨t', ts⟩⟩ <;> rfl

/-- Taking a token takes the first one. -/
theorem consumes_bump {c : Content} : Consumes (c :: rest) bump (fun _ => True) rest := by
  intro s hg hs
  refine runs_bump.mono fun _ s' ⟨hg', hs', he', _⟩ => ⟨trivial, hg'.trans hg, ?_, he'⟩
  rw [hs', List.map_tail, hs, List.tail_cons]

/-- Comparing the current token takes none, and says whether the kinds are equal. -/
theorem consumes_check (kind : TokenKind) :
    Consumes left (check kind) (fun b => b = decide (headKind left = kind)) left :=
  .of_still (R := fun s b => b = true ↔ nextKind s.tokens = kind)
    (fun _ => runs_check kind)
    fun s b _ hs hb => by
      rw [nextKind_eq, hs] at hb
      rw [Bool.eq_iff_iff, hb, decide_eq_true_iff]

/-- Where the current token has the kind, the first of two ways is gone. -/
theorem Consumes.ifCheck (hk : headKind left = kind) (h : Consumes left p P rest) :
    Consumes left (check kind >>= fun b => if b = true then p else q) P rest :=
  (consumes_check kind).bind fun b hb => by
    rw [if_pos (hb.trans (decide_eq_true hk))]
    exact h

/-- Where the current token has another kind, the second of two ways is gone. -/
theorem Consumes.elseCheck (hk : headKind left ≠ kind) (h : Consumes left q P rest) :
    Consumes left (check kind >>= fun b => if b = true then p else q) P rest :=
  (consumes_check kind).bind fun b hb => by
    rw [if_neg (by rw [hb, decide_eq_false hk]; decide)]
    exact h

/-- A token of the kind is taken. -/
theorem consumes_eat : Consumes ((kind, text) :: rest) (eat kind) (· = true) rest :=
  .ifCheck rfl (consumes_bump.bind fun _ _ => .pure rfl)

/-- A token of another kind is left. -/
theorem consumes_eat_false (hk : headKind left ≠ kind) :
    Consumes left (eat kind) (· = false) left :=
  .elseCheck hk (.pure rfl)

/-- Where a token of the kind is taken, the first of two ways is gone. -/
theorem Consumes.ifEat (h : Consumes mid p P rest) :
    Consumes ((kind, text) :: mid) (eat kind >>= fun b => if b = true then p else q) P rest :=
  consumes_eat.bind fun b hb => by
    rw [if_pos hb]
    exact h

/-- Where it is left, the second of two ways is gone. -/
theorem Consumes.elseEat (hk : headKind left ≠ kind) (h : Consumes left q P rest) :
    Consumes left (eat kind >>= fun b => if b = true then p else q) P rest :=
  (consumes_eat_false hk).bind fun b hb => by
    rw [if_neg (by rw [hb]; decide)]
    exact h

/-- A token that is asked for is taken. -/
theorem consumes_expect : Consumes ((kind, text) :: rest) (expect kind) (fun _ => True) rest :=
  .ifEat (.pure trivial)

/-- A parser that is tried and does not fail takes what it takes. -/
theorem Consumes.attempt (h : Consumes left p P rest) :
    Consumes left (attempt p) (fun r => ∃ a, r = .ok a ∧ P a) rest := by
  intro s hg hs
  obtain ⟨a, s', ha, hQ⟩ := h s hg hs
  refine ⟨.ok a, s', ?_, ⟨a, rfl, hQ.1⟩, hQ.2⟩
  rw [Parse.attempt, ha]

end

/-! ### Names, types and literals -/

/-- A name is read from its token. -/
theorem consumes_ident (name : String) :
    Consumes (nameContent name :: rest) ident (· = name) rest := by
  intro s hg hs
  obtain ⟨t, ts, hts, ht, hrest⟩ := List.map_eq_cons_iff.mp hs
  obtain ⟨hkind, htext⟩ := Prod.mk.inj ht
  refine (runs_ident hts hkind).mono fun _ s' ⟨ha, h'⟩ => ⟨?_, h'.grammar.trans hg, ?_, h'.errors⟩
  · rw [ha, htext, String.ofList_toList]
  · rw [h'.tokens, hrest]

/-- A type is read back from its tokens, if no arrow follows to make it part of a larger one. -/
theorem consumes_anyType {t : Ty} (h : t.Written) (hrest : headKind rest ≠ .punct .arrow) :
    Consumes (t.contents ++ rest) anyType (· = t) rest := by
  intro s hg hs
  obtain ⟨ts, ts', hts, hspelled, hrest'⟩ := List.map_eq_append_iff.mp hs
  have hnext : nextKind ts' ≠ .punct .arrow := by rwa [nextKind_eq, hrest']
  obtain ⟨_, s', hrun, rfl, htokens, herrors⟩ := gives_anyType (h.spelled hspelled) hnext hts
  exact ⟨_, s', hrun, rfl, (Goes.of_ok goes_anyType hrun).1.grammar.trans hg,
    by rw [htokens, hrest'], herrors⟩

/-- A literal is read back from its token. -/
theorem consumes_lit {v : Lit} (h : v.Written) : Consumes (v.content :: rest) lit (· = v) rest := by
  intro s hg hs
  obtain ⟨t, ts, hts, ht, hrest⟩ := List.map_eq_cons_iff.mp hs
  refine runs_current.bind ?_
  rintro t' _ ⟨rfl, hcurrent⟩
  obtain rfl : t' = t := by
    rcases hcurrent with ⟨hnil, -⟩ | ⟨ts', hcons⟩
    · rw [hts] at hnil
      cases hnil
    · rw [hts] at hcons
      exact (List.cons.inj hcons).1.symm
  rw [h.literal ht]
  refine runs_bump.bind fun _ s' ⟨hg', hs', he', _⟩ => .pure ⟨rfl, hg'.trans hg, ?_, he'⟩
  rw [hs', hts, List.tail_cons, hrest]

/-! ### Lists -/

/-- Items with commas between them, up to a punctuation mark. An item is compared after `view`,
and no item begins with the mark. -/
theorem consumes_itemsUntil {γ : Type} {item : Parse α} {view : α → γ} {part : α → List Content}
    {stop : Punct} {limit fuel : Nat} {items : List α} (hstop : stop ≠ .comma)
    (hitem : ∀ a ∈ items, ∀ next, (part a ++ next).length ≤ limit →
      headKind next = .punct .comma ∨ headKind next = .punct stop →
      headKind (part a ++ next) ≠ .punct stop ∧
        Consumes (part a ++ next) item (fun a' => view a' = view a) next)
    (hlimit : (commaSeparated (items.map part) ++ stop.content :: rest).length ≤ limit)
    (hfuel : (commaSeparated (items.map part) ++ stop.content :: rest).length < fuel) :
    Consumes (commaSeparated (items.map part) ++ stop.content :: rest)
      (itemsUntil item (.punct stop) fuel) (fun as => as.map view = items.map view) rest := by
  rw [commaSeparated] at hlimit hfuel ⊢
  induction items generalizing fuel with
  | nil =>
      obtain ⟨fuel, rfl⟩ := Nat.exists_eq_add_one_of_ne_zero (Nat.ne_zero_of_lt hfuel)
      rw [itemsUntil]
      exact .ifEat (.pure rfl)
  | cons a items ih =>
      obtain ⟨fuel, rfl⟩ := Nat.exists_eq_add_one_of_ne_zero (Nat.ne_zero_of_lt hfuel)
      have hitems := fun b hb => hitem b (List.mem_cons_of_mem _ hb)
      rw [itemsUntil]
      cases items with
      | nil =>
          rw [List.map_singleton, List.intercalate_singleton] at hlimit ⊢
          obtain ⟨hne, ha⟩ := hitem a List.mem_cons_self _ hlimit (.inr rfl)
          refine .elseEat hne (ha.bind fun a' ha' => .ifEat (.pure ?_))
          rw [List.map_singleton, List.map_singleton, ha']
      | cons b items =>
          rw [List.map_cons, List.map_cons, List.intercalate_cons_cons, ← List.map_cons,
            List.append_assoc, List.append_assoc] at hlimit hfuel ⊢
          obtain ⟨hne, ha⟩ := hitem a List.mem_cons_self _ hlimit (.inl rfl)
          -- the comma is gone when the next item is read, and with it some fuel
          have hlen := hlimit
          rw [List.length_append, List.length_append, List.length_singleton] at hlen hfuel
          refine .elseEat hne (ha.bind fun a' ha' =>
            .elseEat ?_ (consumes_expect.bind fun _ _ => ?_))
          · rintro ⟨⟩
            exact hstop rfl
          · refine (ih hitems (by omega) (by omega)).bind fun as has => .pure ?_
            rw [List.map_cons, List.map_cons, ha', has]

/-- Items in brackets. -/
theorem consumes_itemsBetween {γ : Type} {item : Parse α} {view : α → γ}
    {part : α → List Content} {start stop : Punct} {items : List α} (hstop : stop ≠ .comma)
    (hitem : ∀ a ∈ items, ∀ next,
      (part a ++ next).length ≤ (commaSeparated (items.map part) ++ stop.content :: rest).length →
      headKind next = .punct .comma ∨ headKind next = .punct stop →
      headKind (part a ++ next) ≠ .punct stop ∧
        Consumes (part a ++ next) item (fun a' => view a' = view a) next) :
    Consumes (start.content :: (commaSeparated (items.map part) ++ stop.content :: rest))
      (itemsBetween (.punct start) item (.punct stop)) (fun as => as.map view = items.map view)
      rest := by
  refine consumes_expect.bind fun _ _ => consumes_get.bind fun s hs => ?_
  have hlen := congrArg List.length hs.2
  rw [List.length_map] at hlen
  exact consumes_itemsUntil hstop hitem (Nat.le_refl _) (by rw [hlen]; exact Nat.lt_succ_self _)

/-- A parameter is read back from its tokens, apart from its place. -/
theorem consumes_param {p : Param} (hty : p.ty.Written)
    (hrest : headKind rest ≠ .punct .arrow) :
    Consumes (p.contents ++ rest) param (fun p' => p'.erase = p.erase) rest := by
  rw [Param.contents]
  refine consumes_startOffset.bind fun start _ => (consumes_ident _).bind fun name hn =>
    consumes_expect.bind fun _ _ => (consumes_anyType hty hrest).bind fun ty ht =>
      (consumes_rangeFrom start).bind fun range _ => .pure ?_
  rw [hn, ht, Param.erase, Param.erase]

/-- A signature is read back from its tokens, apart from the places of its parameters. -/
theorem consumes_signature {s : Signature} (h : s.Written) (hrest : headKind rest ≠ .punct .arrow) :
    Consumes (s.contents ++ rest) signature (fun s' => s'.erase = s.erase) rest := by
  have hparams : Consumes
      (Punct.openParen.content :: (commaSeparated (s.params.map Param.contents) ++
        Punct.closeParen.content :: Punct.arrow.content :: (s.returns.contents ++ rest)))
      (itemsBetween (.punct .openParen) param (.punct .closeParen))
      (fun ps => ps.map Param.erase = s.params.map Param.erase)
      (Punct.arrow.content :: (s.returns.contents ++ rest)) := by
    refine consumes_itemsBetween (by decide) fun p hp next _ hnext => ⟨(fun h => by cases h), ?_⟩
    refine consumes_param (h.1 p hp).2 fun harrow => ?_
    rw [harrow] at hnext
    rcases hnext with hnext | hnext <;> cases hnext
  rw [Signature.contents]
  simp only [List.cons_append, List.append_assoc]
  refine hparams.bind fun ps hps => .ifEat ((consumes_anyType h.2 hrest).bind fun t ht => .pure ?_)
  rw [Signature.erase, Signature.erase, hps, ht]

end Parse

end Parlance
