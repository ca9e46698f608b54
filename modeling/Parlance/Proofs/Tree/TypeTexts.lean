import Parlance.Proofs.Token.Relexing
import Parlance.Proofs.Tree.Reading

/-!
# The texts of types

Types print and parse back. The parser of types reads every spelling of a type: names, lists with
their brackets, functions with or without a result, with or without a comma after the last
parameter (`Parse.gives_type`). What a type prints is one of its spellings: under the usual
grammar, its text has the tokens `Ty.contents`, whatever text follows that does not go on with a
word (`Ty.Written.spells`), and these tokens spell the type (`Ty.Written.spelled`).

## Main definitions

* `Parse.Gives`: a parser gives a result and leaves some tokens.
* `Ty.Written`: the types that a program can name.
* `Ty.contents`: the tokens of the text of a type.

## Main results

* `Parse.gives_type`: the parser of types reads every spelling.
* `Parse.anyType_render`: types print and parse back.
-/

namespace Parlance

/-! ### Reading a spelling -/

namespace Parse

variable {α β : Type} {s : ParseState}

/-- A parser gives this result, records no error and leaves these tokens. -/
def Gives (s : ParseState) (p : Parse α) (a : α) (rest : List Token) : Prop :=
  Runs s p fun a' s' => a' = a ∧ s'.tokens = rest ∧ s'.errors = s.errors

section

variable {p q : Parse α} {f : α → Parse β} {a : α} {b : β} {t : Token} {kind : TokenKind}
  {rest rest' : List Token}

/-- A result that is given at once leaves the tokens. -/
theorem Gives.pure (h : s.tokens = rest) : Gives s (pure a) a rest :=
  Runs.pure ⟨rfl, h, rfl⟩

/-- Parsers that give results give them in a row. -/
theorem Gives.bind (hp : Gives s p a rest)
    (hf : ∀ s', s'.tokens = rest → Gives s' (f a) b rest') : Gives s (p >>= f) b rest' := by
  refine Runs.bind hp ?_
  rintro _ s' ⟨rfl, htokens, herrors⟩
  exact (hf s' htokens).mono fun _ _ h => ⟨h.1, h.2.1, h.2.2.trans herrors⟩

/-- The next token is of the kind that is looked for. -/
theorem gives_eat (hs : s.tokens = t :: rest) (hk : t.kind = kind) :
    Gives s (eat kind) true rest := by
  have hnext : nextKind s.tokens = kind := by rw [hs, ← hk, nextKind]
  refine (runs_check kind).bind fun b s' h => ?_
  rw [if_pos (h.2.mpr hnext)]
  refine runs_bump.bind fun _ s'' h' => .pure ⟨rfl, ?_, h'.2.2.1.trans h.1.errors⟩
  rw [h'.2.1, h.1.tokens, hs, List.tail_cons]

/-- The next token is of another kind. -/
theorem gives_eat_false (hk : nextKind s.tokens ≠ kind) :
    Gives s (eat kind) false s.tokens := by
  refine (runs_check kind).bind fun b s' h => ?_
  rw [if_neg fun hb => hk (h.2.mp hb)]
  exact .pure ⟨rfl, h.1.tokens, h.1.errors⟩

/-- A parser that looks for a token goes on behind it, if it is there. -/
theorem Gives.ifEat (hs : s.tokens = t :: rest) (hk : t.kind = kind)
    (h : ∀ s', s'.tokens = rest → Gives s' p a rest') :
    Gives s (eat kind >>= fun b => if b = true then p else q) a rest' :=
  (gives_eat hs hk).bind h

/-- A parser that looks for a token does the other thing, if it is not there. -/
theorem Gives.elseEat (hk : nextKind s.tokens ≠ kind)
    (h : ∀ s', s'.tokens = s.tokens → Gives s' q a rest') :
    Gives s (eat kind >>= fun b => if b = true then p else q) a rest' :=
  (gives_eat_false hk).bind h

/-- An expected token that is there is taken. -/
theorem gives_expect (hs : s.tokens = t :: rest) (hk : t.kind = kind) :
    Gives s (expect kind) () rest :=
  .ifEat hs hk fun _ h => .pure h

/-- A name that is there is taken. -/
theorem gives_ident (hs : s.tokens = t :: rest) (hk : t.kind = .ident) :
    Gives s ident (String.ofList t.text) rest := by
  have hnext : nextKind s.tokens = .ident := by rw [hs, ← hk, nextKind]
  refine runs_current.bind ?_
  rintro t' _ ⟨rfl, hcurrent⟩
  obtain rfl : t' = t := by
    rcases hcurrent with ⟨hnil, -⟩ | ⟨rest', hcons⟩
    · rw [hs] at hnil
      cases hnil
    · rw [hs] at hcons
      cases hcons
      rfl
  refine (runs_check _).bind fun b s' h => ?_
  rw [if_pos (h.2.mpr hnext)]
  refine runs_bump.bind fun _ s'' h' => .pure ⟨rfl, ?_, h'.2.2.1.trans h.1.errors⟩
  rw [h'.2.1, h.1.tokens, hs, List.tail_cons]

end

/-- A token that is not the end of the input. -/
theorem eq_singleton_of_lexeme {kind : TokenKind} {ts : List Token} (h : Lexeme kind ts)
    (hk : kind.weight = 1) : ∃ t, ts = [t] ∧ t.kind = kind := by
  cases h with
  | token ht => exact ⟨_, rfl, ht⟩
  | finish h =>
      rw [h, TokenKind.weight] at hk
      cases hk

/-- A parser of items reads the spellings of at most so many tokens, if what follows them is not
`->`. -/
def ReadsEach (item : Parse α) (spelled : List Token → α → Prop) (limit : Nat) : Prop :=
  ∀ ⦃as rest : List Token⦄ ⦃a : α⦄ ⦃s : ParseState⦄, spelled as a → as.length ≤ limit →
    nextKind rest ≠ .punct .arrow → s.tokens = as ++ rest → Gives s item a rest

/-- Items up to a bracket. The induction is on the spelling, each comma costs fuel. No item begins
with the bracket, so the loop does not stop early. -/
theorem gives_itemsUntil {item : Parse α} {spelled : List Token → α → Prop} {stop : Punct}
    {limit : Nat} (hitem : ReadsEach item spelled limit)
    (hfirst : ∀ ⦃as rest : List Token⦄ ⦃a : α⦄, spelled as a →
      nextKind (as ++ rest) ≠ .punct stop)
    (hstop : stop ≠ .arrow ∧ stop ≠ .comma)
    {ts : List Token} {items : List α} (h : Listed spelled (.punct stop) ts items) :
    ∀ {fuel : Nat} {s : ParseState} {rest : List Token}, ts.length ≤ fuel → ts.length ≤ limit →
      s.tokens = ts ++ rest → Gives s (itemsUntil item (.punct stop) fuel) items rest := by
  have harrow : TokenKind.punct stop ≠ .punct .arrow := fun he => hstop.1 (TokenKind.punct.inj he)
  have hcomma : TokenKind.punct .comma ≠ .punct stop := fun he =>
    hstop.2 (TokenKind.punct.inj he).symm
  induction h with
  | nil hts =>
      intro fuel s rest hfuel _ hs
      obtain ⟨t, rfl, ht⟩ := eq_singleton_of_lexeme hts rfl
      obtain ⟨fuel, rfl⟩ := Nat.exists_eq_succ_of_ne_zero (Nat.ne_of_gt hfuel)
      rw [itemsUntil]
      exact .ifEat hs ht fun _ h => .pure h
  | @last as ts a ha hts =>
      intro fuel s rest hfuel hlimit hs
      obtain ⟨t, rfl, ht⟩ := eq_singleton_of_lexeme hts rfl
      rw [List.length_append, List.length_singleton] at hfuel hlimit
      obtain ⟨fuel, rfl⟩ := Nat.exists_eq_succ_of_ne_zero (n := fuel) (by omega)
      rw [List.append_assoc] at hs
      rw [itemsUntil]
      refine .elseEat (hs ▸ hfirst ha) fun s₁ h₁ => ?_
      have hnext : nextKind ([t] ++ rest) ≠ .punct .arrow := fun he => harrow (ht.symm.trans he)
      refine (hitem ha (by omega) hnext (h₁.trans hs)).bind fun s₂ h₂ => ?_
      exact .ifEat h₂ ht fun _ h => .pure h
  | @cons as cs ts a items ha hcs hts ih =>
      intro fuel s rest hfuel hlimit hs
      obtain ⟨t, rfl, ht⟩ := eq_singleton_of_lexeme hcs rfl
      rw [List.length_append, List.length_append, List.length_singleton] at hfuel hlimit
      obtain ⟨fuel, rfl⟩ := Nat.exists_eq_succ_of_ne_zero (n := fuel) (by omega)
      rw [List.append_assoc, List.append_assoc] at hs
      rw [itemsUntil]
      refine .elseEat (hs ▸ hfirst ha) fun s₁ h₁ => ?_
      have hnext : nextKind ([t] ++ (ts ++ rest)) ≠ .punct .arrow := fun he => by
        cases ht.symm.trans he
      refine (hitem ha (by omega) hnext (h₁.trans hs)).bind fun s₂ h₂ => ?_
      refine .elseEat (h₂ ▸ fun he => hcomma (ht.symm.trans he)) fun s₃ h₃ => ?_
      refine (gives_expect (h₃.trans h₂) ht).bind fun s₄ h₄ => ?_
      exact (ih (by omega) (by omega) h₄).bind fun s₅ h₅ => .pure h₅

/-- A type begins with a name, a bracket or `fn`. -/
theorem nextKind_of_spelled {ts rest : List Token} {t : Ty} (h : t.Spelled ts) (p : Punct)
    (hp : p ≠ .openBracket) : nextKind (ts ++ rest) ≠ .punct p := by
  cases h with
  | name hname =>
      obtain ⟨ht⟩ := hname
      exact fun he => by cases ht.symm.trans he
  | list hos =>
      obtain ⟨t, rfl, ht⟩ := eq_singleton_of_lexeme hos rfl
      exact fun he => hp (TokenKind.punct.inj (ht.symm.trans he)).symm
  | procedure hfs =>
      obtain ⟨t, rfl, ht⟩ := eq_singleton_of_lexeme hfs rfl
      exact fun he => by cases ht.symm.trans he
  | function hfs =>
      obtain ⟨t, rfl, ht⟩ := eq_singleton_of_lexeme hfs rfl
      exact fun he => by cases ht.symm.trans he

/-- **Reading a type.** The parser of types reads every spelling of a type, with fuel for its
tokens. Only `->` must not follow: it would begin the result of a function. -/
theorem gives_type (fuel : Nat) {ts rest : List Token} {t : Ty} {s : ParseState}
    (h : t.Spelled ts) (hfuel : ts.length < fuel) (hrest : nextKind rest ≠ .punct .arrow)
    (hs : s.tokens = ts ++ rest) : Gives s (type fuel) t rest := by
  induction fuel generalizing ts rest t s with
  | zero => exact absurd hfuel (Nat.not_lt_zero _)
  | succ fuel ih =>
      -- the parameters, behind `fn`
      have hparams {ps : List Token} {params : List Ty} {s : ParseState} {rest : List Token}
          (hb : Bracketed Ty.Spelled (.punct .openParen) (.punct .closeParen) ps params)
          (hlen : ps.length < fuel + 1) (hs : s.tokens = ps ++ rest) :
          Gives s (itemsBetween (.punct .openParen) (type fuel) (.punct .closeParen)) params
            rest := by
        obtain @⟨os, ts, _, hos, hlisted⟩ := hb
        obtain ⟨o, rfl, ho⟩ := eq_singleton_of_lexeme hos rfl
        simp only [List.length_append, List.length_singleton] at hlen
        have hitem : ReadsEach (type fuel) Ty.Spelled ts.length := fun _ _ _ _ ha hle hnext hs =>
          ih ha (by omega) hnext hs
        have hfirst : ∀ ⦃as rest : List Token⦄ ⦃t : Ty⦄, t.Spelled as →
            nextKind (as ++ rest) ≠ .punct .closeParen :=
          fun _ _ _ ha => nextKind_of_spelled ha _ (by decide)
        rw [List.append_assoc] at hs
        refine (gives_expect hs ho).bind fun s₁ h₁ => ?_
        refine Runs.bind runs_get ?_
        rintro _ s₁ ⟨rfl, rfl⟩
        refine gives_itemsUntil hitem hfirst (by decide) hlisted ?_ (Nat.le_refl _) h₁
        rw [show s₁.tokens = ts ++ rest from h₁, List.length_append]
        omega
      rw [type]
      cases h with
      | name hname hnamed =>
          obtain @⟨t', ht'⟩ := hname
          have hnext (s' : ParseState) (hs' : s'.tokens = s.tokens) :
              nextKind s'.tokens = .ident := by rw [hs', hs, ← ht']; rfl
          refine .elseEat (by rw [hnext s rfl]; decide) fun s₁ h₁ => ?_
          refine .elseEat (by rw [hnext s₁ h₁]; decide) fun s₂ h₂ => ?_
          refine Runs.bind runs_current ?_
          rintro _ s₂ ⟨rfl, -⟩
          refine (gives_ident (h₂.trans (h₁.trans hs)) ht').bind fun s₃ h₃ => ?_
          rw [hnamed]
          exact .pure h₃
      | @list os ts cs item hos hitem hcs =>
          obtain ⟨o, rfl, ho⟩ := eq_singleton_of_lexeme hos rfl
          obtain ⟨c, rfl, hc⟩ := eq_singleton_of_lexeme hcs rfl
          simp only [List.length_append, List.length_singleton] at hfuel
          rw [List.append_assoc, List.append_assoc] at hs
          refine .ifEat hs ho fun s₁ h₁ => ?_
          have hnext : nextKind ([c] ++ rest) ≠ .punct .arrow := fun he => by
            cases hc.symm.trans he
          refine (ih hitem (by omega) hnext h₁).bind fun s₂ h₂ => ?_
          exact (gives_expect h₂ hc).bind fun s₃ h₃ => .pure h₃
      | @procedure fs ps params hfs hb =>
          obtain ⟨f, rfl, hf⟩ := eq_singleton_of_lexeme hfs rfl
          simp only [List.length_append, List.length_singleton] at hfuel
          rw [List.append_assoc] at hs
          refine .elseEat (by rw [hs]; exact fun he => by cases hf.symm.trans he) fun s₁ h₁ => ?_
          refine .ifEat (h₁.trans hs) hf fun s₂ h₂ => ?_
          refine (hparams hb (by omega) h₂).bind fun s₃ h₃ => ?_
          exact .elseEat (h₃ ▸ hrest) fun s₄ h₄ => .pure (h₄.trans h₃)
      | @function fs ps as rs params returns hfs hb has hr =>
          obtain ⟨f, rfl, hf⟩ := eq_singleton_of_lexeme hfs rfl
          obtain ⟨a, rfl, ha⟩ := eq_singleton_of_lexeme has rfl
          simp only [List.length_append, List.length_singleton] at hfuel
          rw [List.append_assoc, List.append_assoc, List.append_assoc] at hs
          refine .elseEat (by rw [hs]; exact fun he => by cases hf.symm.trans he) fun s₁ h₁ => ?_
          refine .ifEat (h₁.trans hs) hf fun s₂ h₂ => ?_
          refine (hparams hb (by omega) h₂).bind fun s₃ h₃ => ?_
          refine .ifEat h₃ ha fun s₄ h₄ => ?_
          exact (ih hr (by omega) hrest h₄).bind fun s₅ h₅ => .pure h₅

/-- **Reading a type.** The fuel of the parser is enough for every spelling. -/
theorem gives_anyType {ts rest : List Token} {t : Ty} (h : t.Spelled ts)
    (hrest : nextKind rest ≠ .punct .arrow) (hs : s.tokens = ts ++ rest) :
    Gives s anyType t rest := by
  refine Runs.bind runs_get ?_
  rintro _ s ⟨rfl, rfl⟩
  refine gives_type _ h ?_ hrest hs
  rw [hs, List.length_append]
  omega

end Parse

/-! ### What types print -/

/-- The types that a program can name: all but those of builtins and of ill-typed expressions. -/
inductive Ty.Written : Ty → Prop where
  | int : Ty.Written .int
  | float : Ty.Written .float
  | bool : Ty.Written .bool
  | str : Ty.Written .str
  | unit : Ty.Written .unit
  | list {item : Ty} : item.Written → Ty.Written (.list item)
  | function {params : List Ty} {returns : Ty} : (∀ p ∈ params, p.Written) → returns.Written →
    Ty.Written (.function params returns)

/-- The content of a punctuation mark. -/
def Punct.content (p : Punct) : Content :=
  (.punct p, p.name.toList)

/-- The contents of parts with commas between them. -/
def commaSeparated (parts : List (List Content)) : List Content :=
  [Punct.comma.content].intercalate parts

namespace Ty

mutual

/-- The tokens that a type prints. -/
def contents : Ty → List Content
  | .list item => Punct.openBracket.content :: (item.contents ++ [Punct.closeBracket.content])
  | .function params returns =>
    (.keyword .fnKw, "fn".toList) :: Punct.openParen.content ::
      (contentsAll params ++
        Punct.closeParen.content :: Punct.arrow.content :: returns.contents)
  | t => [(.ident, t.render.toList)]

/-- The tokens of types with commas between them. -/
def contentsAll : List Ty → List Content
  | [] => []
  | [t] => t.contents
  | t :: t' :: ts => t.contents ++ Punct.comma.content :: contentsAll (t' :: ts)

end

/-! #### Their tokens -/

/-- Tokens with the content of a punctuation mark in front. -/
theorem lexeme_of_content {p : Punct} {t : Token} (h : t.content = p.content) :
    Lexeme (.punct p) [t] :=
  .token (Prod.mk.inj h).1

/-- Tokens of types with commas between them, and a bracket. The tokens are split as the contents
are, type by type. -/
theorem listed_of_contents {params : List Ty}
    (h : ∀ p ∈ params, ∀ ts : List Token, ts.map Token.content = p.contents → p.Spelled ts)
    {ts : List Token} {t : Token} (hts : ts.map Token.content = contentsAll params)
    (ht : t.content = Punct.closeParen.content) :
    Listed Ty.Spelled (.punct .closeParen) (ts ++ [t]) params := by
  have hclose := lexeme_of_content ht
  induction params generalizing ts with
  | nil =>
      rw [contentsAll, List.map_eq_nil_iff] at hts
      rw [hts]
      exact .nil hclose
  | cons p params ih =>
      cases params with
      | nil =>
          rw [contentsAll] at hts
          exact .last (h p List.mem_cons_self ts hts) hclose
      | cons p' params =>
          rw [contentsAll] at hts
          obtain ⟨as, bs, rfl, has, hbs⟩ := List.map_eq_append_iff.mp hts
          obtain ⟨c, bs, rfl, hc, hbs⟩ := List.map_eq_cons_iff.mp hbs
          rw [List.append_assoc]
          change Listed _ _ (as ++ ([c] ++ (bs ++ [t]))) _
          exact .cons (h p List.mem_cons_self as has) (lexeme_of_content hc)
            (ih (fun q hq => h q (List.mem_cons_of_mem _ hq)) hbs)

/-- **What a type prints, spells it.** Function types spell their parameters and their result, so
the induction is on the type. -/
theorem Written.spelled {t : Ty} (h : t.Written) {ts : List Token}
    (hts : ts.map Token.content = t.contents) : t.Spelled ts := by
  induction h generalizing ts with
  | list _ ih =>
      obtain ⟨o, ts, rfl, ho, hts⟩ := List.map_eq_cons_iff.mp hts
      obtain ⟨as, bs, rfl, has, hbs⟩ := List.map_eq_append_iff.mp hts
      obtain ⟨c, bs, rfl, hc, hnil⟩ := List.map_eq_cons_iff.mp hbs
      obtain rfl := List.map_eq_nil_iff.mp hnil
      exact .list (lexeme_of_content ho) (ih has) (lexeme_of_content hc)
  | @function params returns hparams _ ihp ihr =>
      obtain ⟨f, ts, rfl, hf, hts⟩ := List.map_eq_cons_iff.mp hts
      obtain ⟨o, ts, rfl, ho, hts⟩ := List.map_eq_cons_iff.mp hts
      obtain ⟨as, bs, rfl, has, hbs⟩ := List.map_eq_append_iff.mp hts
      obtain ⟨c, bs, rfl, hc, hbs⟩ := List.map_eq_cons_iff.mp hbs
      obtain ⟨a, bs, rfl, ha, hbs⟩ := List.map_eq_cons_iff.mp hbs
      have hlisted := listed_of_contents (fun p hp ts hts => ihp p hp hts) has hc
      have hspelled := Ty.Spelled.function (.token (Prod.mk.inj hf).1)
        (.mk (lexeme_of_content ho) hlisted) (lexeme_of_content ha) (ihr hbs)
      simpa using hspelled
  | _ =>
      obtain ⟨t, ts, rfl, ht, hnil⟩ := List.map_eq_cons_iff.mp hts
      obtain rfl := List.map_eq_nil_iff.mp hnil
      obtain ⟨hkind, htext⟩ := Prod.mk.inj ht
      exact .name (.mk hkind) (by rw [htext, String.ofList_toList]; rfl)

end Ty

/-! #### Their texts -/

namespace Grammar

/-- The standard grammar has no empty symbols. -/
theorem usable_standard : standard.Usable := by
  rw [standard_eq]
  exact ⟨by decide, by decide⟩

/-- A text is bare if it begins with no blank and not as a comment does. -/
theorem bare_standard {c : Char} {cs : List Char} (hblank : isBlank c = false) (hslash : c ≠ '/') :
    Bare standard (c :: cs) := by
  rw [standard_eq]
  refine ⟨by simpa using hblank, fun _ hp => hslash ?_, fun _ hp => hslash ?_⟩
  · exact (List.cons_prefix_cons.mp hp).1.symm
  · exact (List.cons_prefix_cons.mp hp).1.symm

/-- The text does not go on with a word. -/
def Clear (rest : List Char) : Prop :=
  ∀ c ∈ rest.head?, isIdContinue c = false

/-- A word, where it does not go on. -/
theorem spells_word {w rest : List Char} {kind : TokenKind} {contents : List Content}
    (hw : isWord w = true) (hkind : standard.wordKind w = kind)
    (hbare : Bare standard (w ++ rest)) (hrest : Clear rest) (h : Spells standard rest contents) :
    Spells standard (w ++ rest) ((kind, w) :: contents) := by
  cases w with
  | nil => cases hw
  | cons c l =>
      obtain ⟨hc, hl⟩ := Bool.and_eq_true_iff.mp hw
      have hfound : Found standard c (l ++ rest) _ _ := .word hc
      rw [takeWhile_append_of_head (List.all_eq_true.mp hl) hrest,
        dropWhile_append_of_head (List.all_eq_true.mp hl) hrest, hkind] at hfound
      exact .token (hbare.skipTrivia _) rfl (found_iff.mp hfound) h

/-- A punctuation mark, whatever follows it. -/
theorem spells_punct (p : Punct) {rest : List Char} {contents : List Content}
    (h : Spells standard rest contents) :
    Spells standard (p.name.toList ++ rest) (p.content :: contents) := by
  obtain ⟨c, l, hname, hblank, hslash, hscan⟩ : ∃ c l, p.name.toList = c :: l ∧
      isBlank c = false ∧ c ≠ '/' ∧
      scanToken standard c (l ++ rest) = (.ok (.punct p), rest) := by
    rw [standard_eq]
    cases p <;> exact ⟨_, _, rfl, rfl, by decide, rfl⟩
  rw [Punct.content, hname]
  exact .token ((bare_standard hblank hslash).skipTrivia _) rfl hscan h

/-- Parts with commas between them. A part may stand in front of a comma, which begins no longer
symbol and goes on with no word. -/
theorem spells_commaSeparated {α : Type} {Q : List Char → Prop} {render : α → String}
    {part : α → List Content} {items : List α}
    (hcomma : ∀ rest, Q (Punct.comma.name.toList ++ rest))
    (h : ∀ a ∈ items, ∀ {rest : List Char} {contents : List Content}, Q rest →
      Spells standard rest contents →
      Spells standard ((render a).toList ++ rest) (part a ++ contents))
    {rest : List Char} {contents : List Content} (hrest : Q rest)
    (hs : Spells standard rest contents) :
    Spells standard ((", ".intercalate (items.map render)).toList ++ rest)
      (commaSeparated (items.map part) ++ contents) := by
  rw [commaSeparated]
  induction items with
  | nil => exact hs
  | cons a items ih =>
      have hitems := ih fun b hb => h b (List.mem_cons_of_mem _ hb)
      cases items with
      | nil =>
          rw [List.map_singleton, List.map_singleton, String.intercalate_singleton,
            List.intercalate_singleton]
          exact h a List.mem_cons_self hrest hs
      | cons b items =>
          rw [List.map_cons, List.map_cons, List.map_cons, List.map_cons,
            String.intercalate_cons_cons, List.intercalate_cons_cons, String.toList_append,
            String.toList_append]
          simp only [List.append_assoc]
          exact h a List.mem_cons_self (hcomma _) (spells_punct .comma hitems.space)

end Grammar

namespace Ty

open Grammar

/-- A list type is printed as its item type in brackets. -/
theorem toList_render_list (item : Ty) :
    (Ty.list item).render.toList = Punct.openBracket.name.toList ++
      (item.render.toList ++ Punct.closeBracket.name.toList) := by
  rw [render, String.toList_append, String.toList_append]
  rfl

/-- A function type is printed as `fn`, its parameter types in parentheses and its result. -/
theorem toList_render_function (params : List Ty) (returns : Ty) :
    (Ty.function params returns).render.toList =
      "fn".toList ++ (Punct.openParen.name.toList ++
        ((", ".intercalate (renderAll params)).toList ++ (Punct.closeParen.name.toList ++
          ' ' :: (Punct.arrow.name.toList ++ ' ' :: returns.render.toList)))) := by
  rw [render, String.toList_append, String.toList_append, String.toList_append,
    List.append_assoc, List.append_assoc]
  rfl

/-- A text that begins with a punctuation mark goes on with no word. -/
theorem clear_punct (p : Punct) (rest : List Char) : Clear (p.name.toList ++ rest) := by
  cases p <;> exact fun _ h => by cases h; rfl

/-- Types are printed one by one. -/
theorem renderAll_eq (ts : List Ty) : renderAll ts = ts.map render := by
  induction ts with
  | nil => rfl
  | cons t ts ih => rw [renderAll, ih, List.map_cons]

/-- The tokens of types are those of each, with commas between them. -/
theorem contentsAll_eq (ts : List Ty) : contentsAll ts = commaSeparated (ts.map contents) := by
  rw [commaSeparated]
  induction ts with
  | nil => rfl
  | cons t ts ih =>
      cases ts with
      | nil => rw [contentsAll, List.map_singleton, List.intercalate_singleton]
      | cons t' ts =>
          rw [contentsAll, ih, List.map_cons, List.map_cons, List.map_cons,
            List.intercalate_cons_cons, List.append_assoc]
          rfl

/-- **What a type prints.** Under the usual grammar, the text of a type has the tokens of the
type, if what follows does not go on with a word. -/
theorem Written.spells {t : Ty} (h : t.Written) {rest : List Char} {contents : List Content}
    (hrest : Clear rest) (hs : Spells standard rest contents) :
    Spells standard (t.render.toList ++ rest) (t.contents ++ contents) := by
  induction h generalizing rest contents with
  | @list item _ ih =>
      have hitem := ih (clear_punct _ _) (spells_punct .closeBracket hs)
      rw [toList_render_list, Ty.contents]
      simp only [List.append_assoc, List.cons_append]
      exact spells_punct .openBracket hitem
  | @function params returns _ _ ihp ihr =>
      have harrow := spells_punct .arrow (ihr hrest hs).space
      have hlist := spells_commaSeparated (clear_punct .comma) (fun p hp => ihp p hp)
        (clear_punct .closeParen _) (spells_punct .closeParen harrow.space)
      rw [toList_render_function, Ty.contents, renderAll_eq, contentsAll_eq]
      simp only [List.append_assoc, List.cons_append]
      refine spells_word rfl ?_ (bare_standard rfl (by decide)) (clear_punct _ _)
        (spells_punct .openParen hlist)
      rw [standard_eq]
      rfl
  | _ =>
      refine spells_word rfl ?_ (bare_standard rfl (by decide)) hrest hs
      rw [standard_eq]
      decide

end Ty

/-- **Types print and parse back.** For every type that a program can name, the lexer reads the
text of the type without errors, and the parser of types then takes all tokens up to the end of
the input, records no error and gives the same type.

Offsets count on without bound. Those of a text of less than `2 ^ 32 - 1` bytes fit into 32 bits,
so this is meant for types whose text is shorter than that. -/
theorem Parse.anyType_render {t : Ty} (h : t.Written) (recovery : Recovery) :
    ∃ tokens eof, lexItems .standard recovery t.render.toList = (tokens ++ [eof]).map .ok ∧
      eof.kind = .eof ∧ ∀ s : ParseState, s.tokens = tokens ++ [eof] →
        ∃ s', anyType s = .ok t s' ∧ s'.tokens = [eof] ∧ s'.errors = s.errors := by
  have hspells : Spells .standard (t.render.toList ++ []) (t.contents ++ []) :=
    h.spells (fun _ hc => by cases hc) (.done (bare_nil.skipTrivia _))
  rw [List.append_nil, List.append_nil] at hspells
  obtain ⟨tokens, eof, hlex, heof, hcontents⟩ :=
    lexes_of_spells Grammar.usable_standard recovery hspells
  refine ⟨tokens, eof, hlex, heof, fun s hs => ?_⟩
  have hnext : nextKind [eof] ≠ .punct .arrow := by
    rw [nextKind, heof]
    decide
  obtain ⟨_, s', hrun, rfl, htokens, herrors⟩ := gives_anyType (h.spelled hcontents) hnext hs
  exact ⟨s', hrun, htokens, herrors⟩

/-- A function of functions and lists. -/
theorem Parse.anyType_render_nested :
    ∃ tokens eof, lexItems .standard .halt "fn([int], fn() -> unit) -> [fn(str) -> bool]".toList =
        (tokens ++ [eof]).map .ok ∧
      eof.kind = .eof ∧ ∀ s : ParseState, s.tokens = tokens ++ [eof] →
        ∃ s', anyType s = .ok (.function [.list .int, .function [] .unit]
          (.list (.function [.str] .bool))) s' ∧ s'.tokens = [eof] ∧ s'.errors = s.errors := by
  have hparams : ∀ p ∈ [Ty.list .int, .function [] .unit], p.Written := by
    simp only [List.forall_mem_cons]
    exact ⟨.list .int, .function (List.forall_mem_nil _) .unit, List.forall_mem_nil _⟩
  have hreturns : Ty.Written (.list (.function [.str] .bool)) :=
    .list (.function (List.forall_mem_singleton.mpr .str) .bool)
  exact anyType_render (.function hparams hreturns) .halt

end Parlance
