import Parlance.Proofs.Tree.Moves

/-!
# What a tree is read from

The rules of the language say which tokens spell a tree: those of its parts in order, with
keywords, operators and punctuation between them (`Expr.Spelled`, `Stmt.Spelled`,
`Block.Spelled`). How tightly operators bind is left open here.

Lenient rules add one thing: between two statements of a body there may be tokens of a statement
that was not understood.

What a parser took spells its result by the lenient rules. If it records no error, the tokens spell
it by the others too. So recovery, which skips tokens without a rule, has no part in such a run. A
parser of an expression or a statement consumes a token at least, also if errors were recorded
inside it.

## Main results

* `Parse.same_body`, `Parse.same_item`: what the statement loop and one turn of it read.
-/

namespace Parlance

/-! ### Spelling -/

/-- Items up to and including a token, with commas between them and perhaps after the last. -/
inductive Listed {α : Type} (spelled : List Token → α → Prop) (stop : TokenKind) :
    List Token → List α → Prop where
  | nil {ts : List Token} : Lexeme stop ts → Listed spelled stop ts []
  | last {as ts : List Token} {a : α} : spelled as a → Lexeme stop ts →
    Listed spelled stop (as ++ ts) [a]
  | cons {as cs ts : List Token} {a : α} {rest : List α} : spelled as a →
    Lexeme (.punct .comma) cs → Listed spelled stop ts rest →
    Listed spelled stop (as ++ (cs ++ ts)) (a :: rest)

/-- Items in brackets. -/
inductive Bracketed {α : Type} (spelled : List Token → α → Prop) (start stop : TokenKind) :
    List Token → List α → Prop where
  | mk {os ts : List Token} {items : List α} : Lexeme start os → Listed spelled stop ts items →
    Bracketed spelled start stop (os ++ ts) items

/-- A name. -/
inductive NameSpelled : List Token → String → Prop where
  | mk {t : Token} : t.kind = .ident → NameSpelled [t] (String.ofList t.text)

/-- A literal. -/
inductive LitSpelled : List Token → Lit → Prop where
  | mk {t : Token} {v : Lit} : Parse.literal t = some (.ok v) → LitSpelled [t] v

/-- A type: a name, `[T]` or `fn(T, …) -> R`. -/
inductive Ty.Spelled : List Token → Ty → Prop where
  | name {ts : List Token} {name : String} {ty : Ty} : NameSpelled ts name →
    Parse.namedType? name = some ty → Ty.Spelled ts ty
  | list {os ts cs : List Token} {item : Ty} : Lexeme (.punct .openBracket) os →
    Ty.Spelled ts item → Lexeme (.punct .closeBracket) cs → Ty.Spelled (os ++ (ts ++ cs)) (.list item)
  | procedure {fs ps : List Token} {params : List Ty} : Lexeme (.keyword .fnKw) fs →
    Bracketed Ty.Spelled (.punct .openParen) (.punct .closeParen) ps params →
    Ty.Spelled (fs ++ ps) (.function params .unit)
  | function {fs ps as rs : List Token} {params : List Ty} {returns : Ty} :
    Lexeme (.keyword .fnKw) fs →
    Bracketed Ty.Spelled (.punct .openParen) (.punct .closeParen) ps params →
    Lexeme (.punct .arrow) as → Ty.Spelled rs returns →
    Ty.Spelled (fs ++ (ps ++ (as ++ rs))) (.function params returns)

/-- A parameter `name: type`. -/
inductive Param.Spelled : List Token → Param → Prop where
  | mk {ns cs ts : List Token} {p : Param} : NameSpelled ns p.name → Lexeme (.punct .colon) cs →
    p.ty.Spelled ts → Param.Spelled (ns ++ (cs ++ ts)) p

/-- A signature `(params) -> returns`, or `(params)` for the result `unit`. -/
inductive Signature.Spelled : List Token → Signature → Prop where
  | procedure {ps : List Token} {params : List Param} :
    Bracketed Param.Spelled (.punct .openParen) (.punct .closeParen) ps params →
    Signature.Spelled ps ⟨params, .unit⟩
  | function {ps as rs : List Token} {params : List Param} {returns : Ty} :
    Bracketed Param.Spelled (.punct .openParen) (.punct .closeParen) ps params →
    Lexeme (.punct .arrow) as → returns.Spelled rs →
    Signature.Spelled (ps ++ (as ++ rs)) ⟨params, returns⟩

/-- The declared type of a variable, if there is one. -/
inductive DeclaredSpelled : List Token → Option Ty → Prop where
  | none : DeclaredSpelled [] none
  | some {cs ts : List Token} {ty : Ty} : Lexeme (.punct .colon) cs → ty.Spelled ts →
    DeclaredSpelled (cs ++ ts) (some ty)

mutual

/-- The tokens of an expression. -/
inductive Expr.Spelled (g : ReadingRules) : List Token → Expr → Prop where
  | lit {ts : List Token} {n : Note} {v : Lit} : LitSpelled ts v → Expr.Spelled g ts (.lit n v)
  | ident {ts : List Token} {n : Note} {name : String} : NameSpelled ts name →
    Expr.Spelled g ts (.ident n name)
  | parens {os ts cs : List Token} {e : Expr} : Lexeme (.punct .openParen) os →
    Expr.Spelled g ts e → Lexeme (.punct .closeParen) cs → Expr.Spelled g (os ++ (ts ++ cs)) e
  | list {ts : List Token} {n : Note} {items : List Expr} :
    Bracketed (Expr.Spelled g) (.punct .openBracket) (.punct .closeBracket) ts items →
    Expr.Spelled g ts (.list n items)
  | lambda {fs ss bs : List Token} {n : Note} {s : Signature} {b : Block} :
    Lexeme (.keyword .fnKw) fs → s.Spelled ss → Block.Spelled g true bs b →
    Expr.Spelled g (fs ++ (ss ++ bs)) (.lambda n s b)
  | call {fs as : List Token} {n : Note} {f : Expr} {args : List Expr} : Expr.Spelled g fs f →
    Bracketed (Expr.Spelled g) (.punct .openParen) (.punct .closeParen) as args →
    Expr.Spelled g (fs ++ as) (.call n f args)
  | index {ts os is cs : List Token} {n : Note} {t i : Expr} : Expr.Spelled g ts t →
    Lexeme (.punct .openBracket) os → Expr.Spelled g is i → Lexeme (.punct .closeBracket) cs →
    Expr.Spelled g (ts ++ (os ++ (is ++ cs))) (.index n t i)
  | unary {os ts : List Token} {n : Note} {op : Operator} {e : Expr} : Lexeme (.operator op) os →
    g.grammar.isUnary op = true → Expr.Spelled g ts e →
    Expr.Spelled g (os ++ ts) (.unary n (Parse.unaryOp op) e)
  | cast {ts as tys : List Token} {n : Note} {e : Expr} {ty : Ty} {target : Scalar} :
    Expr.Spelled g ts e → Lexeme (.keyword .asKw) as → ty.Spelled tys →
    ty.scalar? = some target → Expr.Spelled g (ts ++ (as ++ tys)) (.cast n e target)
  | operator {ls os rs : List Token} {n : Note} {op : Operator} {rule : BinaryRule} {l r : Expr} :
    Expr.Spelled g ls l → Lexeme (.operator op) os → g.grammar.binaryRule? op = some rule →
    Expr.Spelled g rs r → Expr.Spelled g (ls ++ (os ++ rs)) (Parse.infixNode op n l r)

/-- The tokens of a statement. -/
inductive Stmt.Spelled (g : ReadingRules) : List Token → Stmt → Prop where
  | letVar {ls ns ds as es ss : List Token} {n : Note} {name : String} {declared : Option Ty}
    {e : Expr} : Lexeme (.keyword .letKw) ls → NameSpelled ns name → DeclaredSpelled ds declared →
    Lexeme (.operator .assign) as → e.Spelled g es → Lexeme (.punct .semicolon) ss →
    Stmt.Spelled g (ls ++ (ns ++ (ds ++ (as ++ (es ++ ss))))) (.letVar n name declared e)
  | fnDecl {fs ns ss bs : List Token} {n : Note} {name : String} {s : Signature} {b : Block} :
    Lexeme (.keyword .fnKw) fs → NameSpelled ns name → s.Spelled ss → b.Spelled g true bs →
    Stmt.Spelled g (fs ++ (ns ++ (ss ++ bs))) (.fnDecl n name s b)
  | ret {rs ss : List Token} {n : Note} : Lexeme (.keyword .returnKw) rs →
    Lexeme (.punct .semicolon) ss → Stmt.Spelled g (rs ++ ss) (.ret n none)
  | retValue {rs es ss : List Token} {n : Note} {e : Expr} : Lexeme (.keyword .returnKw) rs →
    e.Spelled g es → Lexeme (.punct .semicolon) ss →
    Stmt.Spelled g (rs ++ (es ++ ss)) (.ret n (some e))
  | cond {is ts ys : List Token} {n : Note} {test : Expr} {yes : Block} :
    Lexeme (.keyword .ifKw) is → test.Spelled g ts → yes.Spelled g false ys →
    Stmt.Spelled g (is ++ (ts ++ ys)) (.cond n test yes none)
  | condElse {is ts ys ls ns : List Token} {n : Note} {test : Expr} {yes : Block} {no : Stmt} :
    Lexeme (.keyword .ifKw) is → test.Spelled g ts → yes.Spelled g false ys →
    Lexeme (.keyword .elseKw) ls → Stmt.Spelled g ns no →
    Stmt.Spelled g (is ++ (ts ++ (ys ++ (ls ++ ns)))) (.cond n test yes (some no))
  | whileLoop {ws ts bs : List Token} {n : Note} {test : Expr} {b : Block} :
    Lexeme (.keyword .whileKw) ws → test.Spelled g ts → b.Spelled g false bs →
    Stmt.Spelled g (ws ++ (ts ++ bs)) (.whileLoop n test b)
  | loop {ls bs : List Token} {n : Note} {b : Block} : Lexeme (.keyword .loopKw) ls →
    b.Spelled g false bs → Stmt.Spelled g (ls ++ bs) (.loop n b)
  | breakLoop {bs ss : List Token} {n : Note} : Lexeme (.keyword .breakKw) bs →
    Lexeme (.punct .semicolon) ss → Stmt.Spelled g (bs ++ ss) (.breakLoop n)
  | continueLoop {cs ss : List Token} {n : Note} : Lexeme (.keyword .continueKw) cs →
    Lexeme (.punct .semicolon) ss → Stmt.Spelled g (cs ++ ss) (.continueLoop n)
  | block {bs : List Token} {b : Block} : b.Spelled g false bs → Stmt.Spelled g bs (.block b)
  | expr {es ss : List Token} {n : Note} {e : Expr} : e.Spelled g es →
    Lexeme (.punct .semicolon) ss → Stmt.Spelled g (es ++ ss) (.expr n e)

/-- The tokens of a block, which may end with a result if `tail` holds. -/
inductive Block.Spelled (g : ReadingRules) : Bool → List Token → Block → Prop where
  | mk {tail : Bool} {os bs : List Token} {n : Note} {ss : List Stmt} {result : Option Expr} :
    Lexeme (.punct .openBrace) os → BodySpelled g (.punct .closeBrace) tail bs ss result →
    Block.Spelled g tail (os ++ bs) (.mk n ss result)

/-- The tokens of statements, of the result after them, and of what ends them. -/
inductive BodySpelled (g : ReadingRules) : TokenKind → Bool → List Token → List Stmt → Option Expr →
    Prop where
  | nil {stop : TokenKind} {tail : Bool} {ts : List Token} : Lexeme stop ts →
    BodySpelled g stop tail ts [] none
  | result {stop : TokenKind} {es ts : List Token} {e : Expr} : e.Spelled g es → Lexeme stop ts →
    BodySpelled g stop true (es ++ ts) [] (some e)
  | cons {stop : TokenKind} {tail : Bool} {as ts : List Token} {s : Stmt} {ss : List Stmt}
    {result : Option Expr} : s.Spelled g as → BodySpelled g stop tail ts ss result →
    BodySpelled g stop tail (as ++ ts) (s :: ss) result
  /-- Tokens of a statement that was not understood. -/
  | lost {stop : TokenKind} {tail : Bool} {as ts : List Token} {ss : List Stmt}
    {result : Option Expr} : g.lenient = true → as ≠ [] → BodySpelled g stop tail ts ss result →
    BodySpelled g stop tail (as ++ ts) ss result
  /-- The input ends before the statements do. -/
  | unclosed {stop : TokenKind} {tail : Bool} : g.lenient = true →
    BodySpelled g stop tail [] [] none

end

namespace Parse

variable {α : Type} {s : ParseState}

/-! ### Names, literals and lists -/

/-- A name takes one token, which is the name. -/
theorem goes_ident : Goes s ident fun name s' =>
    s.Reads 1 (fun _ ts => NameSpelled ts name) s' := by
  refine goes_current.bind ?_
  rintro t _ - ⟨rfl, ht⟩
  refine (goes_check _).bind fun b s₁ _ h₁ => ?_
  split
  · next hb =>
      rcases ht with ⟨hnil, -⟩ | ⟨rest, hcons⟩
      · rw [hnil] at h₁
        exact absurd (h₁.2.mp hb) nofun
      · have hkind : t.kind = .ident := by
          have := h₁.2.mp hb
          rwa [hcons] at this
        refine (goes_bump_of_cons (h₁.1.tokens.trans hcons)).bind fun _ s₂ _ h₂ => .pure ?_
        refine h₁.1.reads (h₂.mono (Nat.le_refl _) ?_)
        rintro _ _ rfl
        exact .mk hkind
  · exact goes_fail

/-- Looking for one of several tokens takes nothing. -/
theorem goes_checkEach (kinds : List TokenKind) : Goes s (checkEach kinds) fun _ s' => s.Still s' := by
  induction kinds generalizing s with
  | nil => exact .pure (.refl s)
  | cons k ks ih => exact (goes_check k).bind fun _ _ _ h => ih.mono fun _ _ _ h' => h.1.trans h'

/-- A literal takes one token, which is the literal. -/
theorem goes_lit : Goes s lit fun v s' => s.Reads 1 (fun _ ts => LitSpelled ts v) s' := by
  refine goes_current.bind ?_
  rintro t _ - ⟨rfl, ht⟩
  split
  · next v hv =>
      rcases ht with ⟨-, heof⟩ | ⟨rest, hcons⟩
      · simp [literal, heof] at hv
      · refine (goes_bump_of_cons hcons).bind fun _ s₂ _ h₂ => .pure (h₂.mono (Nat.le_refl _) ?_)
        rintro _ _ rfl
        exact .mk hv
  · exact goes_throw
  · exact (goes_checkEach _).bind fun _ _ _ _ => goes_fail

/-- A choice by the next token, which is taken on one side. -/
theorem Same.ifEat {kind : TokenKind} {p p' q q' : Parse α} {Q : α → ParseState → Prop}
    (ht : ∀ s', s.Reads kind.weight (fun _ => Lexeme kind) s' → Same s' p p' Q)
    (hf : ∀ s', s.Still s' → Same s' q q' Q) :
    Same s (eat kind >>= fun b => if b = true then p else q)
      (eat kind >>= fun b => if b = true then p' else q') Q :=
  (goes_eat kind).bind_same fun _ s' _ h =>
    .ite (fun hb => ht s' (h.2.1 hb)) fun hb => hf s' (h.2.2 (by simpa using hb))

/-- A choice by the next token, which is left there. -/
theorem Same.ifCheck {kind : TokenKind} {p p' q q' : Parse α} {Q : α → ParseState → Prop}
    (ht : ∀ s', s.Still s' → Same s' p p' Q)
    (hf : ∀ s', s.Still s' → nextKind s'.tokens ≠ kind → Same s' q q' Q) :
    Same s (check kind >>= fun b => if b = true then p else q)
      (check kind >>= fun b => if b = true then p' else q') Q :=
  (goes_check kind).bind_same fun _ s' _ h =>
    .ite (fun _ => ht s' h.1) fun hb => hf s' h.1 fun hk => hb (h.2.mpr (h.1.tokens ▸ hk))

/-- Two parsers are the same behind the first token of what is read, and read a part of it. -/
def SameInside (s : ParseState) (p p' : Parse α) (spelled : ReadingRules → List Token → α → Prop) :
    Prop :=
  ∀ s' : ParseState, s'.tokens.length < s.tokens.length →
    Same s' p p' fun a s'' => s'.Reads 1 (fun g ts => spelled g ts a) s''

/-- Items up to a token, if an item consumes a token at least. The fuel is enough, and more of
it makes no difference. -/
theorem same_itemsUntil {item item' : Parse α} {spelled : ReadingRules → List Token → α → Prop}
    {stop : TokenKind} {limit : Nat} (hitem : ∀ s : ParseState, s.tokens.length ≤ limit →
      Same s item item' fun a s' => s.Reads 1 (fun g ts => spelled g ts a) s') :
    ∀ (fuel fuel' : Nat) (s : ParseState), s.tokens.length ≤ limit → s.tokens.length < fuel →
      fuel ≤ fuel' → Same s (itemsUntil item stop fuel) (itemsUntil item' stop fuel') fun as s' =>
        s.Reads 0 (fun g ts => Listed (spelled g) stop ts as) s'
  | 0, _, _, _, hlt, _ => absurd hlt (by omega)
  | _ + 1, 0, _, _, _, hle => absurd hle (by omega)
  | fuel + 1, fuel' + 1, s, hs, hlt, hle => by
      rw [itemsUntil, itemsUntil]
      refine .ifEat (fun s₁ r₁ => .pure (r₁.mono (Nat.zero_le _) fun _ h => .nil h))
        fun s₁ st₁ => ?_
      have hlen := congrArg List.length st₁.tokens
      refine (hitem s₁ (by omega)).bind fun a s₂ l₂ r₂ => ?_
      have hlen₂ := r₂.length_le
      refine .ifEat (fun s₃ r₃ => ?_) fun s₃ st₃ => ?_
      · refine .pure (st₁.reads ((r₂.append r₃).mono (Nat.zero_le _) ?_))
        rintro _ _ ⟨as, bs, rfl, ha, hb⟩
        exact .last ha hb
      have hlen₃ := congrArg List.length st₃.tokens
      refine (goes_expect _).bind_same fun _ s₄ l₄ r₄ => ?_
      have hlen₄ := r₄.length_le
      refine (same_itemsUntil hitem fuel fuel' s₄ (by omega) (by omega) (by omega)).bind
        fun as s₅ l₅ r₅ => .pure (st₁.reads ?_)
      refine ((r₂.still st₃).append (r₄.append r₅)).mono (Nat.zero_le _) ?_
      rintro _ _ ⟨as, _, rfl, ha, bs, cs, rfl, hb, hc⟩
      exact .cons ha hb hc

/-- Items in brackets, the first of which is not the end of the input. -/
theorem same_itemsBetween {item item' : Parse α} {spelled : ReadingRules → List Token → α → Prop}
    {start stop : TokenKind} (hstart : start.weight = 1)
    (hitem : SameInside s item item' spelled) :
    Same s (itemsBetween start item stop) (itemsBetween start item' stop) fun as s' =>
      s.Reads 1 (fun g ts => Bracketed (spelled g) start stop ts as) s' := by
  refine (goes_expect start).bind_same fun _ s₁ l₁ r₁ => ?_
  have hlen := r₁.length_le
  refine goes_get.bind_same ?_
  rintro _ _ - ⟨rfl, rfl⟩
  refine (same_itemsUntil (fun s' hs' => hitem s' (by omega)) _ _ _ (Nat.le_refl _)
    (Nat.lt_succ_self _) (Nat.le_refl _)).mono fun as s' _ r => ?_
  refine (r₁.append r).mono (by omega) ?_
  rintro _ _ ⟨as, bs, rfl, ha, hb⟩
  exact .mk ha hb

/-- **Items in brackets.** If each item takes the tokens it is spelled with, so do items in brackets
with commas between them. -/
theorem goes_itemsBetween {item : Parse α} {spelled : ReadingRules → List Token → α → Prop}
    {start stop : TokenKind} (hstart : start.weight = 1)
    (hitem : ∀ s : ParseState, Goes s item fun a s' => s.Reads 1 (fun g ts => spelled g ts a) s') :
    Goes s (itemsBetween start item stop) fun as s' =>
      s.Reads 1 (fun g ts => Bracketed (spelled g) start stop ts as) s' :=
  (same_itemsBetween hstart fun s' _ => (hitem s').same).2

/-! ### Types and signatures -/

/-- A type is read alike with more fuel, and its tokens spell it. Each level of nesting consumes a
token, so fuel for the tokens is enough. -/
theorem same_type : ∀ (fuel fuel' : Nat) (s : ParseState), s.tokens.length < fuel → fuel ≤ fuel' →
    Same s (type fuel) (type fuel') fun t s' => s.Reads 1 (fun _ ts => t.Spelled ts) s'
  | 0, _, _, hlt, _ => absurd hlt (by omega)
  | _ + 1, 0, _, _, hle => absurd hle (by omega)
  | fuel + 1, fuel' + 1, s, hlt, hle => by
      rw [type, type]
      refine .ifEat (fun s₁ r₁ => ?_) fun s₁ st₁ => .ifEat (fun s₂ r₂ => ?_) fun s₂ st₂ => ?_
      · have hlen := r₁.length_le
        simp only [TokenKind.weight] at hlen
        refine (same_type fuel fuel' s₁ (by omega) (by omega)).bind fun t s₂ l₂ r₂ => ?_
        refine (goes_expect _).bind_same fun _ s₃ l₃ r₃ => .pure ?_
        refine (r₁.append (r₂.append r₃)).mono (by decide) ?_
        rintro _ _ ⟨as, _, rfl, ha, bs, cs, rfl, hb, hc⟩
        exact .list ha hb hc
      · have r₂ := st₁.reads r₂
        have hlen := r₂.length_le
        simp only [TokenKind.weight] at hlen
        refine (same_itemsBetween rfl fun s' hs' =>
          same_type fuel fuel' s' (by omega) (by omega)).bind fun params s₃ l₃ r₃ => ?_
        have hlen₃ := r₃.length_le
        refine .ifEat (fun s₄ r₄ => ?_) fun s₄ st₄ => ?_
        · have hlen₄ := r₄.length_le
          refine (same_type fuel fuel' s₄ (by omega) (by omega)).bind fun t s₅ l₅ r₅ => .pure ?_
          refine (r₂.append (r₃.append (r₄.append r₅))).mono (by decide) ?_
          rintro _ _ ⟨as, _, rfl, ha, bs, _, rfl, hb, cs, ds, rfl, hc, hd⟩
          exact .function ha hb hc hd
        · refine .pure ((r₂.append (r₃.still st₄)).mono (by decide) ?_)
          rintro _ _ ⟨as, bs, rfl, ha, hb⟩
          exact .procedure ha hb
      · have st₂ := st₁.trans st₂
        refine goes_current.bind_same ?_
        rintro t _ - ⟨rfl, -⟩
        refine goes_ident.bind_same fun name s₃ l₃ r₃ => ?_
        split
        · next t ht => exact .pure ((st₂.reads r₃).mono (Nat.le_refl _) fun _ h => .name h ht)
        · exact goes_throw.same

/-- A type takes the tokens it is spelled with. -/
theorem goes_anyType : Goes s anyType fun t s' => s.Reads 1 (fun _ ts => t.Spelled ts) s' := by
  refine goes_get.bind ?_
  rintro _ _ - ⟨rfl, rfl⟩
  exact (same_type _ _ _ (Nat.lt_succ_self _) (Nat.le_refl _)).2

/-- A parameter takes the tokens it is spelled with. -/
theorem goes_param : Goes s param fun p s' => s.Reads 1 (fun _ ts => p.Spelled ts) s' := by
  refine goes_startOffset.bind ?_
  rintro start _ - rfl
  refine goes_ident.bind fun name s₁ l₁ r₁ => (goes_expect _).bind fun _ s₂ l₂ r₂ =>
    goes_anyType.bind fun ty s₃ l₃ r₃ => (goes_rangeFrom _).bind ?_
  rintro range _ - rfl
  refine .pure ((r₁.append (r₂.append r₃)).mono (by decide) ?_)
  rintro _ _ ⟨as, _, rfl, ha, bs, cs, rfl, hb, hc⟩
  exact .mk ha hb hc

/-- A signature takes the tokens it is spelled with. -/
theorem goes_signature : Goes s signature fun sig s' =>
    s.Reads 1 (fun _ ts => sig.Spelled ts) s' := by
  refine (goes_itemsBetween rfl fun _ => goes_param).bind fun params s₁ l₁ r₁ =>
    (goes_eat _).bind fun b s₂ l₂ ⟨_, ht, hf⟩ => ?_
  split
  · next hb =>
      refine goes_anyType.bind fun returns s₃ l₃ r₃ => .pure ?_
      refine (r₁.append ((ht hb).append r₃)).mono (by decide) ?_
      rintro _ _ ⟨as, _, rfl, ha, bs, cs, rfl, hb, hc⟩
      exact .function ha hb hc
  · next hb =>
      exact .pure ((r₁.still (hf (by simpa using hb))).mono (Nat.le_refl _) fun _ h =>
        .procedure h)

/-- Where the next token is not the end there is a token. -/
theorem length_pos_of_nextKind_ne {tokens : List Token} (h : nextKind tokens ≠ .eof) :
    0 < tokens.length := by
  cases tokens with
  | nil => exact absurd rfl h
  | cons t ts => exact Nat.succ_pos _

/-! ### Recovery -/

/-- Skipping moves forward and records nothing. More fuel than tokens makes no difference, since
each round takes a token. -/
theorem same_synchronize (stop : TokenKind) : ∀ (fuel fuel' : Nat) (s : ParseState),
    s.tokens.length < fuel → fuel ≤ fuel' →
    Same s (synchronize stop fuel) (synchronize stop fuel') fun _ s' => s'.errors = s.errors
  | 0, _, _, hlt, _ => absurd hlt (by omega)
  | _ + 1, 0, _, _, hle => absurd hle (by omega)
  | fuel + 1, fuel' + 1, s, hlt, hle => by
      rw [synchronize, synchronize]
      refine goes_current.bind_same ?_
      rintro t _ - ⟨rfl, ht⟩
      dsimp only
      split
      · exact (goes_bump.mono fun _ _ _ h => h.2).same
      split
      · exact .pure rfl
      next heof =>
      rcases ht with ⟨-, ht⟩ | ⟨rest, hcons⟩
      · simp [ht] at heof
      refine goes_bump.bind_same fun _ s₁ _ ⟨ht₁, he₁⟩ => ?_
      rw [hcons] at ht₁ hlt
      simp only [List.tail_cons, List.length_cons] at ht₁ hlt
      rw [← he₁]
      exact same_synchronize stop fuel fuel' s₁ (by rw [ht₁]; omega) (by omega)

/-- **Recovery.** Recovery records nothing, and a token is gone behind it at least if there was
one when the statement began. -/
theorem goes_recover (stop : TokenKind) (before : Nat) :
    Goes s (recover stop before) fun _ s' => s'.errors = s.errors ∧
      (s.tokens.length ≤ before → 0 < before → s'.tokens.length < before) := by
  refine goes_get.bind ?_
  rintro _ _ - ⟨rfl, rfl⟩
  refine (same_synchronize stop _ _ _ (Nat.lt_succ_self _) (Nat.le_refl _)).2.bind
    fun _ s₁ l₁ he₁ => ?_
  have hlen := l₁.tokens.length_le
  refine goes_get.bind ?_
  rintro _ _ - ⟨rfl, rfl⟩
  split
  · next heq =>
      refine goes_bump.mono fun _ s₂ _ ⟨ht₂, he₂⟩ => ⟨he₂.trans he₁, fun _ hpos => ?_⟩
      rw [ht₂, List.length_tail]
      omega
  · next hne => exact .pure ⟨he₁, fun hle _ => by omega⟩

/-- An attempt is the same with both parsers if they are the same, and the result of a successful
one is known. -/
theorem Same.attempt {p p' : Parse α} {Q : α → ParseState → Prop} (h : Same s p p' Q) :
    Same s (attempt p) (attempt p') fun r s' => ∀ a, r = .ok a → Q a s' := by
  obtain ⟨heq, hgoes⟩ := h
  unfold Goes at hgoes
  unfold Same Goes Parse.attempt
  rw [heq]
  refine ⟨rfl, ?_⟩
  cases he : p s with
  | error e s' =>
      rw [he] at hgoes
      exact ⟨hgoes, nofun⟩
  | ok a s' =>
      rw [he] at hgoes
      refine ⟨hgoes.1, fun b hb => ?_⟩
      cases hb
      exact hgoes.2

/-! ### Statements -/

/-- The tokens of an item of a block. -/
def Item.Spelled (g : ReadingRules) (ts : List Token) : Item → Prop
  | .stmt st => st.Spelled g ts
  | .tail e => e.Spelled g ts

/-- What one turn of the statement loop has read. A tail stands in front of the stop. -/
def ItemRead (s : ParseState) (stop : TokenKind) (tail : Bool) (i : Item) (s' : ParseState) : Prop :=
  s.Reads 1 (fun g ts => i.Spelled g ts) s' ∧
    ∀ e, i = .tail e → tail = true ∧ nextKind s'.tokens = stop

section Statements

variable {s₁ : ParseState} {stop : TokenKind} {tail : Bool} {start : Nat} {e e' : Parse Expr}
  {b b' : Parse Block}

/-- A statement has been read as the item of a turn. -/
theorem itemRead_stmt {st : Stmt} (h : s.Reads 1 (fun g ts => st.Spelled g ts) s₁) :
    ItemRead s stop tail (.stmt st) s₁ :=
  ⟨h, fun _ he => by cases he⟩

/-- A declaration behind its keyword is read alike with two parsers for expressions that agree. The
type may be missing, and the rest is the same in both cases. -/
theorem same_letVar (r₁ : s.Reads 1 (fun _ => Lexeme (.keyword .letKw)) s₁)
    (he : SameInside s e e' fun g ts x => x.Spelled g ts) :
    Same s₁
      (do
        let name ← ident
        let declared ← if ← eat (.punct .colon) then some <$> anyType else pure none
        expect (.operator .assign)
        let init ← e
        expect (.punct .semicolon)
        return Item.stmt (.letVar (← newNote start) name declared init))
      (do
        let name ← ident
        let declared ← if ← eat (.punct .colon) then some <$> anyType else pure none
        expect (.operator .assign)
        let init ← e'
        expect (.punct .semicolon)
        return Item.stmt (.letVar (← newNote start) name declared init))
      (ItemRead s stop tail) := by
  have hlen₁ := r₁.length_le
  refine goes_ident.bind_same fun name s₂ l₂ r₂ => ?_
  have hlen₂ := r₂.length_le
  have hrest : ∀ (declared : Option Ty) (s₃ : ParseState),
      s₂.Reads 0 (fun _ ts => DeclaredSpelled ts declared) s₃ →
      Same s₃
        (do
          expect (.operator .assign)
          let init ← e
          expect (.punct .semicolon)
          return Item.stmt (.letVar (← newNote start) name declared init))
        (do
          expect (.operator .assign)
          let init ← e'
          expect (.punct .semicolon)
          return Item.stmt (.letVar (← newNote start) name declared init))
        (ItemRead s stop tail) := by
    intro declared s₃ r₃
    have hlen₃ := r₃.length_le
    refine (goes_expect _).bind_same fun _ s₄ l₄ r₄ => ?_
    have hlen₄ := r₄.length_le
    refine (he s₄ (by omega)).bind fun init s₅ l₅ r₅ => (goes_expect _).bind_same fun _ s₆ l₆ r₆ =>
      (goes_newNote start).bind_same fun n s₇ l₇ st₇ => .pure (itemRead_stmt ?_)
    refine ((r₁.append (r₂.append (r₃.append (r₄.append (r₅.append r₆))))).still st₇).mono
      (by decide) ?_
    rintro _ _ ⟨_, _, rfl, ha, _, _, rfl, hb, _, _, rfl, hc, _, _, rfl, hd, _, _, rfl, he, hf⟩
    exact .letVar ha hb hc hd he hf
  refine .ifEat (fun s₃ r₃ => ?_) fun s₃ st₃ => ?_
  · rw [map_eq_pure_bind, bind_assoc, bind_assoc]
    refine goes_anyType.bind_same fun t s₄ l₄ r₄ => ?_
    rw [pure_bind, pure_bind]
    refine hrest _ s₄ ((r₃.append r₄).mono (by decide) ?_)
    rintro _ _ ⟨_, _, rfl, ha, hb⟩
    exact .some ha hb
  · rw [pure_bind, pure_bind]
    exact hrest none s₃ (st₃.reads_nil fun _ => .none)

/-- A function behind its keyword. -/
theorem same_fnDecl (r₁ : s.Reads 1 (fun _ => Lexeme (.keyword .fnKw)) s₁)
    (hb : SameInside s b b' fun g ts x => x.Spelled g true ts) :
    Same s₁
      (do
        let name ← ident
        let sig ← signature
        let body ← b
        return Item.stmt (.fnDecl (← newNote start) name sig body))
      (do
        let name ← ident
        let sig ← signature
        let body ← b'
        return Item.stmt (.fnDecl (← newNote start) name sig body))
      (ItemRead s stop tail) := by
  have hlen₁ := r₁.length_le
  refine goes_ident.bind_same fun name s₂ l₂ r₂ => goes_signature.bind_same fun sig s₃ l₃ r₃ => ?_
  have hlen₂ := r₂.length_le
  have hlen₃ := r₃.length_le
  refine (hb s₃ (by omega)).bind fun body s₄ l₄ r₄ =>
    (goes_newNote start).bind_same fun n s₅ l₅ st₅ => .pure (itemRead_stmt ?_)
  refine ((r₁.append (r₂.append (r₃.append r₄))).still st₅).mono (by decide) ?_
  rintro _ _ ⟨_, _, rfl, ha, _, _, rfl, hb, _, _, rfl, hc, hd⟩
  exact .fnDecl ha hb hc hd

/-- A return behind its keyword. A semicolon right there says that it has no value, and otherwise
one follows behind the value. -/
theorem same_ret (r₁ : s.Reads 1 (fun _ => Lexeme (.keyword .returnKw)) s₁)
    (he : SameInside s e e' fun g ts x => x.Spelled g ts) :
    Same s₁
      (do
        let value ← if ← check (.punct .semicolon) then pure none else some <$> e
        expect (.punct .semicolon)
        return Item.stmt (.ret (← newNote start) value))
      (do
        let value ← if ← check (.punct .semicolon) then pure none else some <$> e'
        expect (.punct .semicolon)
        return Item.stmt (.ret (← newNote start) value))
      (ItemRead s stop tail) := by
  have hlen₁ := r₁.length_le
  refine .ifCheck (fun s₂ st₂ => ?_) fun s₂ st₂ _ => ?_
  · rw [pure_bind]
    refine (goes_expect _).bind_same fun _ s₃ l₃ r₃ =>
      (goes_newNote start).bind_same fun n s₄ l₄ st₄ => .pure (itemRead_stmt ?_)
    refine (((r₁.still st₂).append r₃).still st₄).mono (by decide) ?_
    rintro _ _ ⟨_, _, rfl, ha, hb⟩
    exact .ret ha hb
  · rw [map_eq_pure_bind, bind_assoc, map_eq_pure_bind, bind_assoc]
    have hlen₂ := congrArg List.length st₂.tokens
    refine (he s₂ (by omega)).bind fun x s₃ l₃ r₃ => ?_
    rw [pure_bind]
    refine (goes_expect _).bind_same fun _ s₄ l₄ r₄ =>
      (goes_newNote start).bind_same fun n s₅ l₅ st₅ => .pure (itemRead_stmt ?_)
    refine (((r₁.still st₂).append (r₃.append r₄)).still st₅).mono (by decide) ?_
    rintro _ _ ⟨_, _, rfl, ha, _, _, rfl, hb, hc⟩
    exact .retValue ha hb hc

/-- A loop with a condition behind its keyword. -/
theorem same_whileLoop (r₁ : s.Reads 1 (fun _ => Lexeme (.keyword .whileKw)) s₁)
    (he : SameInside s e e' fun g ts x => x.Spelled g ts)
    (hb : SameInside s b b' fun g ts x => x.Spelled g false ts) :
    Same s₁
      (do
        let test ← e
        let body ← b
        return Item.stmt (.whileLoop (← newNote start) test body))
      (do
        let test ← e'
        let body ← b'
        return Item.stmt (.whileLoop (← newNote start) test body))
      (ItemRead s stop tail) := by
  have hlen₁ := r₁.length_le
  refine (he s₁ (by omega)).bind fun test s₂ l₂ r₂ => ?_
  have hlen₂ := r₂.length_le
  refine (hb s₂ (by omega)).bind fun body s₃ l₃ r₃ =>
    (goes_newNote start).bind_same fun n s₄ l₄ st₄ => .pure (itemRead_stmt ?_)
  refine ((r₁.append (r₂.append r₃)).still st₄).mono (by decide) ?_
  rintro _ _ ⟨_, _, rfl, ha, _, _, rfl, hb, hc⟩
  exact .whileLoop ha hb hc

/-- A loop behind its keyword. -/
theorem same_loop (r₁ : s.Reads 1 (fun _ => Lexeme (.keyword .loopKw)) s₁)
    (hb : SameInside s b b' fun g ts x => x.Spelled g false ts) :
    Same s₁
      (do
        let body ← b
        return Item.stmt (.loop (← newNote start) body))
      (do
        let body ← b'
        return Item.stmt (.loop (← newNote start) body))
      (ItemRead s stop tail) := by
  have hlen₁ := r₁.length_le
  refine (hb s₁ (by omega)).bind fun body s₂ l₂ r₂ =>
    (goes_newNote start).bind_same fun n s₃ l₃ st₃ => .pure (itemRead_stmt ?_)
  refine ((r₁.append r₂).still st₃).mono (by decide) ?_
  rintro _ _ ⟨_, _, rfl, ha, hb⟩
  exact .loop ha hb

/-- A jump out of a turn of a loop behind its keyword. -/
theorem goes_leaving {kind : TokenKind} {make : Note → Stmt} (hkind : kind.weight = 1)
    (r₁ : s.Reads kind.weight (fun _ => Lexeme kind) s₁)
    (hmake : ∀ {g : ReadingRules} {as bs : List Token} {n : Note}, Lexeme kind as →
      Lexeme (.punct .semicolon) bs → (make n).Spelled g (as ++ bs)) :
    Goes s₁
      (do
        expect (.punct .semicolon)
        return Item.stmt (make (← newNote start)))
      (ItemRead s stop tail) := by
  refine (goes_expect _).bind fun _ s₂ l₂ r₂ =>
    (goes_newNote start).bind fun n s₃ l₃ st₃ => .pure (itemRead_stmt ?_)
  refine ((r₁.append r₂).still st₃).mono (by rw [hkind]; decide) ?_
  rintro _ _ ⟨_, _, rfl, ha, hb⟩
  exact hmake ha hb

/-- An expression that was read is a tail in front of the stop, and a statement elsewhere. Only then
is a semicolon asked for. -/
theorem goes_last {x : Expr} (r₁ : s.Reads 1 (fun g ts => x.Spelled g ts) s₁) :
    Goes s₁
      (do
        let isTail ← if tail then check stop else pure false
        if isTail then return Item.tail x
        else
          expect (.punct .semicolon)
          return Item.stmt (.expr (← newNote start) x))
      (ItemRead s stop tail) := by
  have hstmt : ∀ s₂ : ParseState, s₁.Still s₂ → Goes s₂
      (do
        expect (.punct .semicolon)
        return Item.stmt (.expr (← newNote start) x))
      (ItemRead s stop tail) := by
    intro s₂ st₂
    refine (goes_expect _).bind fun _ s₃ l₃ r₃ =>
      (goes_newNote start).bind fun n s₄ l₄ st₄ => .pure (itemRead_stmt ?_)
    refine (((r₁.still st₂).append r₃).still st₄).mono (by decide) ?_
    rintro _ _ ⟨_, _, rfl, ha, hb⟩
    exact .expr ha hb
  cases tail with
  | false =>
      rw [if_neg Bool.false_ne_true, pure_bind]
      exact hstmt s₁ (.refl _)
  | true =>
      rw [if_pos rfl]
      refine (goes_check stop).bind ?_
      rintro b s₂ l₂ ⟨st₂, hb⟩
      cases b with
      | false => exact hstmt s₂ st₂
      | true => exact .pure ⟨r₁.still st₂, fun _ _ => ⟨rfl, st₂.tokens ▸ hb.mp rfl⟩⟩

end Statements

/-! ### Expressions and statements -/

/-- Arguments or items in brackets. -/
theorem same_args {fuel fuel' : Nat} {start stop : TokenKind} (hstart : start.weight = 1)
    (h : SameInside s (expr fuel 1) (expr fuel' 1) fun g ts e => e.Spelled g ts) :
    Same s (itemsBetween start (expr fuel 1) stop) (itemsBetween start (expr fuel' 1) stop)
      fun es s' => s.Reads 1 (fun g ts => Bracketed (Expr.Spelled g) start stop ts es) s' :=
  same_itemsBetween hstart h

mutual

/-- Expressions: fuel in proportion to the tokens left is enough, and what is read is spelled by the
tokens taken. This and the following theorems are proved together, by induction on the fuel. -/
theorem same_expr : ∀ (fuel fuel' : Nat) (least : UInt8) (s : ParseState),
    8 * s.tokens.length + 4 ≤ fuel → fuel ≤ fuel' →
    Same s (expr fuel least) (expr fuel' least) fun e s' =>
      s.Reads 1 (fun g ts => e.Spelled g ts) s'
  | 0, _, _, _, hfuel, _ => absurd hfuel (by omega)
  | _ + 1, 0, _, _, _, hle => absurd hle (by omega)
  | fuel + 1, fuel' + 1, least, s, hfuel, hle => by
      rw [expr, expr]
      refine goes_startOffset.bind_same ?_
      rintro start _ - rfl
      refine (same_unary fuel fuel' _ (by omega) (by omega)).bind fun left s₁ l₁ r₁ => ?_
      have hlen := r₁.length_le
      exact same_operators fuel fuel' least start left _ s₁ r₁ (by omega) (by omega)

/-- The operators after what was read of an expression. The induction is on the fuel; each operator
and each cast consumes a token, and what was read grows by what it spells. -/
theorem same_operators : ∀ (fuel fuel' : Nat) (least : UInt8) (start : Nat) (left : Expr)
    (s₀ s : ParseState), s₀.Reads 1 (fun g ts => left.Spelled g ts) s →
    8 * s.tokens.length + 1 ≤ fuel → fuel ≤ fuel' →
    Same s (operators fuel least start left) (operators fuel' least start left) fun e s' =>
      s₀.Reads 1 (fun g ts => e.Spelled g ts) s'
  | 0, _, _, _, _, _, _, _, hfuel, _ => absurd hfuel (by omega)
  | _ + 1, 0, _, _, _, _, _, _, _, hle => absurd hle (by omega)
  | fuel + 1, fuel' + 1, least, start, left, s₀, s, hleft, hfuel, hle => by
      rw [operators, operators]
      refine goes_currentKind.bind_same ?_
      rintro t _ - ⟨rfl, ht⟩
      split
      · next hkind =>
          refine goes_get.bind_same ?_
          rintro _ _ - ⟨rfl, rfl⟩
          split
          · exact .pure hleft
          refine (goes_bump_of_eq (ht.symm.trans hkind)).bind_same fun _ s₁ l₁ r₁ => ?_
          refine goes_startOffset.bind_same ?_
          rintro typeStart _ - rfl
          refine goes_anyType.bind_same fun ty s₂ l₂ r₂ => ?_
          split
          · refine (goes_rangeFrom _).bind_same fun _ _ _ _ => goes_throw.same
          next target hty =>
          refine (goes_newNote start).bind_same fun n s₃ l₃ st₃ => ?_
          have hlen₁ := r₁.length_le
          have hlen₂ := r₂.length_le
          have hlen₃ := congrArg List.length st₃.tokens
          simp only [TokenKind.weight] at hlen₁
          refine same_operators fuel fuel' least start _ s₀ s₃ ?_ (by omega) (by omega)
          refine ((hleft.append (r₁.append r₂)).still st₃).mono (by decide) ?_
          rintro _ _ ⟨as, _, rfl, ha, bs, cs, rfl, hb, hc⟩
          exact .cast ha hb hc hty
      · next op hkind =>
          refine goes_get.bind_same ?_
          rintro _ _ - ⟨rfl, rfl⟩
          split
          · exact .pure hleft
          next rule hrule =>
          split
          · exact .pure hleft
          refine (goes_bump_of_eq (ht.symm.trans hkind)).bind_same fun _ s₁ l₁ r₁ => ?_
          have hlen₁ := r₁.length_le
          simp only [TokenKind.weight] at hlen₁
          refine (goes_rightPrecedence (l₁.grammar ▸ hrule)).bind_same fun next s₁' _ st₁ => ?_
          have hlen₁' := congrArg List.length st₁.tokens
          refine (same_expr fuel fuel' next s₁' (by omega) (by omega)).bind
            fun right s₂ l₂ r₂ => ?_
          refine (goes_newNote start).bind_same fun n s₃ l₃ st₃ => ?_
          have r₂ := st₁.reads r₂
          have hlen₂ := r₂.length_le
          have hlen₃ := congrArg List.length st₃.tokens
          refine same_operators fuel fuel' least start _ s₀ s₃ ?_ (by omega) (by omega)
          refine ((hleft.append (r₁.append r₂)).still st₃).mono (by omega) ?_
          rintro _ _ ⟨as, _, rfl, ha, bs, cs, rfl, hb, hc⟩
          exact .operator ha hb (hleft.later.grammar ▸ hrule) hc
      · exact .pure hleft

/-- The same for an operand with its prefix operators. A parser for a smaller operand needs less
fuel by a multiple of the tokens that are gone. -/
theorem same_unary : ∀ (fuel fuel' : Nat) (s : ParseState),
    8 * s.tokens.length + 3 ≤ fuel → fuel ≤ fuel' →
    Same s (unary fuel) (unary fuel') fun e s' => s.Reads 1 (fun g ts => e.Spelled g ts) s'
  | 0, _, _, hfuel, _ => absurd hfuel (by omega)
  | _ + 1, 0, _, _, hle => absurd hle (by omega)
  | fuel + 1, fuel' + 1, s, hfuel, hle => by
      rw [unary, unary]
      refine goes_startOffset.bind_same ?_
      rintro start _ - rfl
      refine goes_currentKind.bind_same ?_
      rintro t _ - ⟨rfl, ht⟩
      split
      · next op hkind =>
          refine goes_get.bind_same ?_
          rintro _ _ - ⟨rfl, rfl⟩
          split
          · next hop =>
              refine (goes_bump_of_eq (ht.symm.trans hkind)).bind_same fun _ s₁ l₁ r₁ => ?_
              have hlen₁ := r₁.length_le
              simp only [TokenKind.weight] at hlen₁
              refine goes_get.bind_same ?_
              rintro _ _ - ⟨rfl, rfl⟩
              refine (same_expr fuel fuel' _ _ (by omega) (by omega)).bind fun e s₂ l₂ r₂ =>
                (goes_newNote start).bind_same fun n s₃ l₃ st₃ => .pure ?_
              refine ((r₁.append r₂).still st₃).mono (by omega) ?_
              rintro _ _ ⟨as, bs, rfl, ha, hb⟩
              exact .unary ha hop hb
          · exact same_primary fuel fuel' _ (by omega) (by omega)
      · exact same_primary fuel fuel' _ (by omega) (by omega)

/-- The same for an operand with its calls and indices. -/
theorem same_primary : ∀ (fuel fuel' : Nat) (s : ParseState),
    8 * s.tokens.length + 2 ≤ fuel → fuel ≤ fuel' →
    Same s (primary fuel) (primary fuel') fun e s' => s.Reads 1 (fun g ts => e.Spelled g ts) s'
  | 0, _, _, hfuel, _ => absurd hfuel (by omega)
  | _ + 1, 0, _, _, hle => absurd hle (by omega)
  | fuel + 1, fuel' + 1, s, hfuel, hle => by
      rw [primary, primary]
      refine goes_startOffset.bind_same ?_
      rintro start _ - rfl
      refine (same_atom fuel fuel' _ (by omega) (by omega)).bind fun e s₁ l₁ r₁ => ?_
      have hlen := r₁.length_le
      exact same_suffixes fuel fuel' start e _ s₁ r₁ (by omega) (by omega)

/-- The calls and indices after what was read of an expression. Each of them consumes a bracket, so
fuel for the tokens is enough. -/
theorem same_suffixes : ∀ (fuel fuel' : Nat) (start : Nat) (e : Expr) (s₀ s : ParseState),
    s₀.Reads 1 (fun g ts => e.Spelled g ts) s → 8 * s.tokens.length + 1 ≤ fuel → fuel ≤ fuel' →
    Same s (suffixes fuel start e) (suffixes fuel' start e) fun e s' =>
      s₀.Reads 1 (fun g ts => e.Spelled g ts) s'
  | 0, _, _, _, _, _, _, hfuel, _ => absurd hfuel (by omega)
  | _ + 1, 0, _, _, _, _, _, _, hle => absurd hle (by omega)
  | fuel + 1, fuel' + 1, start, e, s₀, s, he, hfuel, hle => by
      rw [suffixes, suffixes]
      refine .ifCheck (fun s₁ st₁ => ?_) fun s₁ st₁ _ => ?_
      · have hlen₁ := congrArg List.length st₁.tokens
        refine (same_args rfl fun s' hs' => same_expr fuel fuel' 1 s' (by omega) (by omega)).bind
          fun args s₂ l₂ r₂ => (goes_newNote start).bind_same fun n s₃ l₃ st₃ => ?_
        have hlen₂ := r₂.length_le
        have hlen₃ := congrArg List.length st₃.tokens
        refine same_suffixes fuel fuel' start _ s₀ s₃ ?_ (by omega) (by omega)
        refine (((he.still st₁).append r₂).still st₃).mono (by decide) ?_
        rintro _ _ ⟨as, bs, rfl, ha, hb⟩
        exact .call ha hb
      refine .ifEat (fun s₂ r₂ => ?_) fun s₂ st₂ => .pure ((he.still st₁).still st₂)
      have hlen₁ := congrArg List.length st₁.tokens
      have hlen₂ := r₂.length_le
      simp only [TokenKind.weight] at hlen₂
      refine (same_expr fuel fuel' 1 s₂ (by omega) (by omega)).bind fun i s₃ l₃ r₃ =>
        (goes_expect _).bind_same fun _ s₄ l₄ r₄ =>
          (goes_newNote start).bind_same fun n s₅ l₅ st₅ => ?_
      have hlen₃ := r₃.length_le
      have hlen₄ := r₄.length_le
      have hlen₅ := congrArg List.length st₅.tokens
      refine same_suffixes fuel fuel' start _ s₀ s₅ ?_ (by omega) (by omega)
      refine (((he.still st₁).append (r₂.append (r₃.append r₄))).still st₅).mono (by decide) ?_
      rintro _ _ ⟨as, _, rfl, ha, bs, _, rfl, hb, cs, ds, rfl, hc, hd⟩
      exact .index ha hb hc hd

/-- The same for what an operand begins with: parentheses, a name, a list, a function or a literal.
-/
theorem same_atom : ∀ (fuel fuel' : Nat) (s : ParseState),
    8 * s.tokens.length + 1 ≤ fuel → fuel ≤ fuel' →
    Same s (atom fuel) (atom fuel') fun e s' => s.Reads 1 (fun g ts => e.Spelled g ts) s'
  | 0, _, _, hfuel, _ => absurd hfuel (by omega)
  | _ + 1, 0, _, _, hle => absurd hle (by omega)
  | fuel + 1, fuel' + 1, s, hfuel, hle => by
      rw [atom, atom]
      refine goes_startOffset.bind_same ?_
      rintro start _ - rfl
      refine .ifEat (fun s₁ r₁ => ?_) fun s₁ st₁ => ?_
      · have hlen := r₁.length_le
        simp only [TokenKind.weight] at hlen
        refine (same_expr fuel fuel' 1 s₁ (by omega) (by omega)).bind fun e s₂ l₂ r₂ =>
          (goes_expect _).bind_same fun _ s₃ l₃ r₃ => .pure ?_
        refine (r₁.append (r₂.append r₃)).mono (by decide) ?_
        rintro _ _ ⟨as, _, rfl, ha, bs, cs, rfl, hb, hc⟩
        exact .parens ha hb hc
      refine .ifCheck (fun s₂ st₂ => ?_) fun s₂ st₂ _ => ?_
      · refine goes_ident.bind_same fun name s₃ l₃ r₃ =>
          (goes_newNote start).bind_same fun n s₄ l₄ st₄ => .pure ?_
        exact (((st₁.trans st₂).reads r₃).still st₄).mono (by decide) fun _ h => .ident h
      have st₂ := st₁.trans st₂
      refine .ifCheck (fun s₃ st₃ => ?_) fun s₃ st₃ _ => ?_
      · have st₃ := st₂.trans st₃
        have hlen₃ := congrArg List.length st₃.tokens
        refine (same_args rfl fun s' hs' => same_expr fuel fuel' 1 s' (by omega) (by omega)).bind
          fun items s₄ l₄ r₄ => (goes_newNote start).bind_same fun n s₅ l₅ st₅ => .pure ?_
        exact ((st₃.reads r₄).still st₅).mono (by decide) fun _ h => .list h
      have st₃ := st₂.trans st₃
      refine .ifEat (fun s₄ r₄ => ?_) fun s₄ st₄ => ?_
      · have r₄ := st₃.reads r₄
        have hlen₄ := r₄.length_le
        simp only [TokenKind.weight] at hlen₄
        refine goes_signature.bind_same fun sig s₅ l₅ r₅ => ?_
        have hlen₅ := r₅.length_le
        refine (same_block fuel fuel' true s₅ (by omega) (by omega)).bind fun b s₆ l₆ r₆ =>
          (goes_newNote start).bind_same fun n s₇ l₇ st₇ => .pure ?_
        refine ((r₄.append (r₅.append r₆)).still st₇).mono (by decide) ?_
        rintro _ _ ⟨as, _, rfl, ha, bs, cs, rfl, hb, hc⟩
        exact .lambda ha hb hc
      · refine goes_lit.bind_same fun v s₅ l₅ r₅ =>
          (goes_newNote start).bind_same fun n s₆ l₆ st₆ => .pure ?_
        exact (((st₃.trans st₄).reads r₅).still st₆).mono (by decide) fun _ h => .lit h

/-- The same for a block. -/
theorem same_block : ∀ (fuel fuel' : Nat) (tail : Bool) (s : ParseState),
    8 * s.tokens.length + 1 ≤ fuel → fuel ≤ fuel' →
    Same s (block fuel tail) (block fuel' tail) fun b s' =>
      s.Reads 1 (fun g ts => b.Spelled g tail ts) s'
  | 0, _, _, _, hfuel, _ => absurd hfuel (by omega)
  | _ + 1, 0, _, _, _, hle => absurd hle (by omega)
  | fuel + 1, fuel' + 1, tail, s, hfuel, hle => by
      rw [block, block]
      refine goes_startOffset.bind_same ?_
      rintro start _ - rfl
      refine (goes_expect _).bind_same fun _ s₁ l₁ r₁ => ?_
      have hlen := r₁.length_le
      simp only [TokenKind.weight] at hlen
      refine (same_body fuel fuel' _ tail s₁ (by omega) (by omega)).bind fun r s₂ l₂ r₂ =>
        (goes_newNote start).bind_same fun n s₃ l₃ st₃ => .pure ?_
      refine ((r₁.append r₂).still st₃).mono (by decide) ?_
      rintro _ _ ⟨as, bs, rfl, ha, hb⟩
      exact .mk ha hb

/-- The same for the statements of a block. It may take nothing, and its fuel covers that of one
item more. -/
theorem same_body : ∀ (fuel fuel' : Nat) (stop : TokenKind) (tail : Bool) (s : ParseState),
    8 * s.tokens.length + 6 ≤ fuel → fuel ≤ fuel' →
    Same s (body fuel stop tail) (body fuel' stop tail) fun r s' =>
      s.Reads 0 (fun g ts => BodySpelled g stop tail ts r.1 r.2) s'
  | 0, _, _, _, _, hfuel, _ => absurd hfuel (by omega)
  | _ + 1, 0, _, _, _, _, hle => absurd hle (by omega)
  | fuel + 1, fuel' + 1, stop, tail, s, hfuel, hle => by
      rw [body, body]
      refine .ifEat (fun s₁ r₁ => .pure (r₁.mono (Nat.zero_le _) fun _ h => .nil h))
        fun s₁ st₁ => .ifCheck (fun s₂ st₂ => ?_) fun s₂ st₂ heof => ?_
      · refine goes_unexpected.bind_same ?_
        rintro e _ - rfl
        refine (goes_report e).bind_same fun _ s₃ l₃ ⟨ht₃, he₃⟩ => .pure ?_
        have st₂ := st₁.trans st₂
        refine .of_errors (l := []) (st₂.later.trans l₃) ?_ (st₂.tokens.symm.trans ht₃.symm)
          (.unclosed rfl)
        rw [he₃, st₂.errors]
        exact Nat.lt_succ_self _
      have st₂ := st₁.trans st₂
      refine goes_get.bind_same ?_
      rintro _ s₂ - ⟨rfl, rfl⟩
      have hlen₂ := congrArg List.length st₂.tokens
      refine (same_item fuel fuel' stop tail _ (by omega) (by omega)).attempt.bind
        fun r s₃ l₃ h₃ => ?_
      split
      · next st =>
          obtain ⟨r₃, -⟩ := h₃ _ rfl
          have hlen₃ := r₃.length_le
          refine (same_body fuel fuel' stop tail s₃ (by omega) (by omega)).bind fun r s₄ l₄ r₄ =>
            .pure (st₂.reads ((r₃.append r₄).mono (Nat.zero_le _) ?_))
          rintro _ _ ⟨as, bs, rfl, ha, hb⟩
          exact .cons ha hb
      · next e =>
          obtain ⟨r₃, htail⟩ := h₃ _ rfl
          obtain ⟨rfl, hstop⟩ := htail e rfl
          refine (goes_bump_of_eq hstop).bind_same fun _ s₄ l₄ r₄ =>
            .pure (st₂.reads ((r₃.append r₄).mono (Nat.zero_le _) ?_))
          rintro _ _ ⟨as, bs, rfl, ha, hb⟩
          exact .result ha hb
      · next e =>
          have hpos : 0 < s₂.tokens.length := length_pos_of_nextKind_ne heof
          refine (goes_report e).bind_same fun _ s₄ l₄ ⟨ht₄, he₄⟩ =>
            (goes_recover stop _).bind_same fun _ s₅ l₅ ⟨he₅, hlen₅⟩ => ?_
          have hlen₃ := l₃.tokens.length_le
          have hlen₅ := hlen₅ (by rw [ht₄]; exact hlen₃) hpos
          refine (same_body fuel fuel' stop tail s₅ (by omega) (by omega)).mono fun r s₆ l₆ r₆ => ?_
          -- the error that was recorded is still there
          have hle := l₆.errors.length_le
          have hle₃ := l₃.errors.length_le
          have l₅ := l₃.trans (l₄.trans l₅)
          obtain ⟨lost, hlost⟩ := l₅.tokens
          obtain ⟨used, hused, hspelled⟩ := r₆.used true nofun
          rw [← hlost, List.length_append] at hlen₅
          refine .of_errors (l := lost ++ used) (st₂.later.trans (l₅.trans l₆)) ?_ ?_
            (.lost rfl ?_ (l₅.grammar.trans st₂.grammar ▸ hspelled))
          · rw [he₅, he₄, List.length_cons] at hle
            rw [st₂.errors] at hle₃
            omega
          · rw [← st₂.tokens, ← hlost, hused, List.append_assoc]
          · rintro rfl
            exact absurd hlen₅ (by simp)

/-- The same for one turn of the statement loop. A result is only read in front of the stop of a
loop that may have one. -/
theorem same_item : ∀ (fuel fuel' : Nat) (stop : TokenKind) (tail : Bool) (s : ParseState),
    8 * s.tokens.length + 5 ≤ fuel → fuel ≤ fuel' →
    Same s (item fuel stop tail) (item fuel' stop tail) fun i s' =>
      s.Reads 1 (fun g ts => i.Spelled g ts) s' ∧
        ∀ e, i = .tail e → tail = true ∧ nextKind s'.tokens = stop
  | 0, _, _, _, _, hfuel, _ => absurd hfuel (by omega)
  | _ + 1, 0, _, _, _, _, hle => absurd hle (by omega)
  | fuel + 1, fuel' + 1, stop, tail, s, hfuel, hle => by
      have hexpr : SameInside s (expr fuel 1) (expr fuel' 1) fun g ts e => e.Spelled g ts :=
        fun s' _ => same_expr fuel fuel' 1 s' (by omega) (by omega)
      have hblock : ∀ body, SameInside s (block fuel body) (block fuel' body)
          fun g ts b => b.Spelled g body ts :=
        fun body s' _ => same_block fuel fuel' body s' (by omega) (by omega)
      rw [item, item]
      refine goes_startOffset.bind_same ?_
      rintro start s - rfl
      refine .ifEat (fun s₁ r₁ => same_letVar r₁ hexpr) fun s₁ st₁ => ?_
      refine (goes_check _).bind_same fun b s₂ l₂ ⟨st₂, hkind⟩ => ?_
      refine goes_secondKind.bind_same ?_
      rintro k s₂ - rfl
      have st₂' := st₁.trans st₂
      refine .ite (fun hb => ?_) fun _ => ?_
      · have hfn : nextKind s₂.tokens = .keyword .fnKw := by
          rw [st₂.tokens]
          exact hkind.mp (by simp at hb; exact hb.1)
        exact (goes_bump_of_eq hfn).bind_same fun _ s₃ l₃ r₃ =>
          same_fnDecl (st₂'.reads r₃) (hblock true)
      refine .ifEat (fun s₃ r₃ => same_ret (st₂'.reads r₃) hexpr) fun s₃ st₃ => ?_
      have st₃ := st₂'.trans st₃
      refine .ifCheck (fun s₄ st₄ => ?_) fun s₄ st₄ _ => ?_
      · have st₄ := st₃.trans st₄
        have hlen₄ := congrArg List.length st₄.tokens
        exact (same_conditional fuel fuel' s₄ (by omega) (by omega)).bind fun c s₅ l₅ r₅ =>
          .pure (itemRead_stmt (st₄.reads r₅))
      have st₄ := st₃.trans st₄
      refine .ifEat (fun s₅ r₅ => same_whileLoop (st₄.reads r₅) hexpr (hblock false))
        fun s₅ st₅ => ?_
      have st₅ := st₄.trans st₅
      refine .ifEat (fun s₆ r₆ => same_loop (st₅.reads r₆) (hblock false)) fun s₆ st₆ => ?_
      have st₆ := st₅.trans st₆
      refine .ifEat (fun s₇ r₇ => (goes_leaving rfl (st₆.reads r₇) .breakLoop).same)
        fun s₇ st₇ => ?_
      have st₇ := st₆.trans st₇
      refine .ifEat (fun s₈ r₈ => (goes_leaving rfl (st₇.reads r₈) .continueLoop).same)
        fun s₈ st₈ => .ifCheck (fun s₉ st₉ => ?_) fun s₉ st₉ _ => ?_
      · have st₉ := (st₇.trans st₈).trans st₉
        have hlen₉ := congrArg List.length st₉.tokens
        refine (same_block fuel fuel' false s₉ (by omega) (by omega)).bind fun b s₁₀ l₁₀ r₁₀ =>
          .pure (itemRead_stmt (st₉.reads (r₁₀.mono (Nat.le_refl _) ?_)))
        exact fun {_} _ h => .block h
      · have st₉ := (st₇.trans st₈).trans st₉
        have hlen₉ := congrArg List.length st₉.tokens
        exact (same_expr fuel fuel' 1 s₉ (by omega) (by omega)).bind fun e s₁₀ l₁₀ r₁₀ =>
          (goes_last (st₉.reads r₁₀)).same

/-- The same for a conditional. What follows `else` is a block or another conditional. -/
theorem same_conditional : ∀ (fuel fuel' : Nat) (s : ParseState),
    8 * s.tokens.length + 1 ≤ fuel → fuel ≤ fuel' →
    Same s (conditional fuel) (conditional fuel') fun c s' =>
      s.Reads 1 (fun g ts => c.Spelled g ts) s'
  | 0, _, _, hfuel, _ => absurd hfuel (by omega)
  | _ + 1, 0, _, _, hle => absurd hle (by omega)
  | fuel + 1, fuel' + 1, s, hfuel, hle => by
      rw [conditional, conditional]
      refine goes_startOffset.bind_same ?_
      rintro start s - rfl
      refine (goes_expect _).bind_same fun _ s₁ l₁ r₁ => ?_
      have hlen₁ := r₁.length_le
      simp only [TokenKind.weight] at hlen₁
      refine (same_expr fuel fuel' 1 s₁ (by omega) (by omega)).bind fun test s₂ l₂ r₂ => ?_
      have hlen₂ := r₂.length_le
      refine (same_block fuel fuel' false s₂ (by omega) (by omega)).bind fun yes s₃ l₃ r₃ => ?_
      have hlen₃ := r₃.length_le
      refine .ifEat (fun s₄ r₄ => ?_) fun s₄ st₄ => ?_
      · have hlen₄ := r₄.length_le
        simp only [TokenKind.weight] at hlen₄
        have helse : ∀ {no : Stmt} {n : Note} {s₅ s₆ : ParseState},
            s₄.Reads 1 (fun g ts => no.Spelled g ts) s₅ → s₅.Still s₆ →
            s.Reads 1 (fun g ts => (Stmt.cond n test yes (some no)).Spelled g ts) s₆ := by
          intro no n s₅ s₆ r₅ st₆
          refine ((r₁.append (r₂.append (r₃.append (r₄.append r₅)))).still st₆).mono (by decide) ?_
          rintro _ _ ⟨_, _, rfl, ha, _, _, rfl, hb, _, _, rfl, hc, _, _, rfl, hd, he⟩
          exact .condElse ha hb hc hd he
        refine .ifCheck (fun s₅ st₅ => ?_) fun s₅ st₅ _ => ?_
        · have hlen₅ := congrArg List.length st₅.tokens
          exact (same_conditional fuel fuel' s₅ (by omega) (by omega)).bind fun no s₆ l₆ r₆ =>
            (goes_newNote start).bind_same fun n s₇ l₇ st₇ => .pure (helse (st₅.reads r₆) st₇)
        · have hlen₅ := congrArg List.length st₅.tokens
          refine (same_block fuel fuel' false s₅ (by omega) (by omega)).bind fun no s₆ l₆ r₆ =>
            (goes_newNote start).bind_same fun n s₇ l₇ st₇ => .pure (helse (st₅.reads ?_) st₇)
          exact r₆.mono (Nat.le_refl _) fun _ h => .block h
      · refine (goes_newNote start).bind_same fun n s₅ l₅ st₅ => .pure ?_
        refine ((r₁.append (r₂.append r₃)).still (st₄.trans st₅)).mono (by decide) ?_
        rintro _ _ ⟨_, _, rfl, ha, _, _, rfl, hb, hc⟩
        exact .cond ha hb hc

end

end Parse

end Parlance
