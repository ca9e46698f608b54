import Parlance.Proofs.Tree.Consuming

/-!
# Reading what trees print

The tokens that a tree prints are read as the same tree. Operators and casts stand in parentheses,
so no precedence matters: what is printed of them is an atom, and an expression that is not an
assignment is an operand of anything (`Parse.Operand`). Calls and indices print behind their
operand, which the parser reads first; so what is said of an operand leaves open how it goes on.
An assignment reaches to the end of what it stands in (`Parse.Whole`).

The fuel of the parser is enough: the bounds go down with the tokens and, for the same tokens, in
the order in which the functions of the parser call each other.

## Main definitions

* `Parse.Operand`, `Parse.Whole`, `Parse.Turn`, `Parse.Braced`: what is read of the tokens of an
  expression, of a statement and of a block.

## Main results

* `Parse.reads_expr`, `Parse.reads_stmt`, `Parse.reads_body`: the tokens of a tree are read as the
  same tree.
* `Parse.Inside.consumes`: so are the tokens of a program or of what stands in a block.
-/

namespace Parlance

/-! ### First tokens -/

/-- Whether an expression can begin with a token, if it does not begin with an operator. -/
def TokenKind.beginsExpr : TokenKind → Bool
  | .ident | .lit _ | .punct .openParen | .punct .openBracket | .keyword .trueKw
  | .keyword .falseKw | .keyword .fnKw => true
  | _ => false

/-- Whether no expression goes on with a token. -/
def TokenKind.endsExpr : TokenKind → Bool
  | .punct .openParen | .punct .openBracket | .keyword .asKw | .operator _ => false
  | _ => true

/-- Whether a statement can begin with a token, if it does not begin with an operator. -/
def TokenKind.beginsStmt (kind : TokenKind) : Bool :=
  kind.beginsExpr || kind.startsStmt || kind == .punct .openBrace

/-- Whether a token is a literal. -/
def TokenKind.isLiteral : TokenKind → Bool
  | .lit _ | .keyword .trueKw | .keyword .falseKw => true
  | _ => false

/-- Tokens that an expression can begin with. A function without a name has its parameters behind
the keyword. -/
structure Opening (left : List Content) : Prop where
  begins : (headKind left).beginsExpr = true
  function : headKind left = .keyword .fnKw → headKind left.tail = .punct .openParen

/-- The token of a literal is one of the literal kinds. -/
theorem Lit.isLiteral_content (v : Lit) : v.content.1.isLiteral = true := by
  rcases v with _ | _ | b | _
  · rfl
  · rfl
  · cases b <;> rfl
  · rfl

/-- An expression can begin with every literal. -/
theorem Lit.opening (v : Lit) (rest : List Content) : Opening (v.content :: rest) := by
  rcases v with n | x | b | s
  · exact ⟨rfl, fun h => by cases h⟩
  · exact ⟨rfl, fun h => by cases h⟩
  · cases b <;> exact ⟨rfl, fun h => by cases h⟩
  · exact ⟨rfl, fun h => by cases h⟩

/-- An expression can begin with some of the punctuation, whatever follows it. -/
theorem opening_punct {p : Punct} (hp : (TokenKind.punct p).beginsExpr = true)
    (rest : List Content) : Opening (p.content :: rest) :=
  ⟨hp, fun h => by cases h⟩

/-- What an expression prints begins as an expression does. Operators print their left operand
first, so by induction on the tree it is a literal, a name, a prefix or a bracket. -/
theorem Expr.opening : ∀ (e : Expr) (rest : List Content), Opening (e.contents ++ rest)
  | .lit _ v, rest => by
      rw [contents]
      exact v.opening rest
  | .ident _ name, rest => by
      rw [contents]
      exact ⟨rfl, fun h => by cases h⟩
  | .unary _ _ _, _ | .binary _ _ _ _, _ | .cast _ _ _, _ | .list _ _, _ => by
      rw [contents]
      exact opening_punct rfl _
  | .assign _ t v, rest => by
      rw [contents, List.append_assoc]
      exact t.opening _
  | .call _ f args, rest => by
      rw [contents, List.append_assoc]
      exact f.opening _
  | .index _ t i, rest => by
      rw [contents, List.append_assoc]
      exact t.opening _
  | .lambda _ s b, rest => by
      rw [contents]
      exact ⟨rfl, fun _ => rfl⟩

/-- What a statement prints begins as a statement does. -/
theorem Stmt.begins : ∀ (s : Stmt) (rest : List Content),
    (headKind (s.contents ++ rest)).beginsStmt = true
  | .block (.mk _ _ none), _ | .block (.mk _ _ (some _)), _ => by
      rw [contents, Block.contents]
      rfl
  | .letVar _ _ none _, _ | .letVar _ _ (some _) _, _ | .fnDecl _ _ _ _, _ | .ret _ none, _
  | .ret _ (some _), _ | .cond _ _ _ none, _ | .cond _ _ _ (some _), _ | .whileLoop _ _ _, _
  | .loop _ _, _ | .breakLoop _, _ | .continueLoop _, _ => by
      rw [contents]
      rfl
  | .expr _ e, rest => by
      rw [contents, List.append_assoc, TokenKind.beginsStmt, (e.opening _).begins]
      rfl

/-- No statement is written with nothing. -/
theorem Stmt.length_contents_pos (s : Stmt) : 0 < s.contents.length := by
  have h := s.begins []
  rw [List.append_nil] at h
  rw [List.length_pos_iff]
  intro hnil
  rw [hnil] at h
  cases h

/-- Two kinds that differ in what they can do are different. -/
theorem TokenKind.ne_of_eq_true {test : TokenKind → Bool} {k k' : TokenKind} (h : test k = true)
    (h' : test k' = false) : k ≠ k' := by
  rintro rfl
  rw [h] at h'
  cases h'

/-- What an expression begins with is not a token that no expression begins with. -/
theorem Opening.ne {left : List Content} (h : Opening left) {k : TokenKind}
    (hk : k.beginsExpr = false) : headKind left ≠ k :=
  TokenKind.ne_of_eq_true h.begins hk

/-- Where an expression ends, the next token is none with which it could go on. -/
theorem headKind_ne_of_endsExpr {rest : List Content} (h : (headKind rest).endsExpr = true)
    {k : TokenKind} (hk : k.endsExpr = false) : headKind rest ≠ k :=
  TokenKind.ne_of_eq_true h hk

namespace Parse

variable {α : Type} {left mid rest : List Content} {P : Expr → Prop}

/-! ### Expressions -/

/-- Nothing is called or indexed if no bracket follows. -/
theorem consumes_suffixes_nil {e : Expr} (hparen : headKind rest ≠ .punct .openParen)
    (hbracket : headKind rest ≠ .punct .openBracket) {fuel : Nat} (hfuel : 0 < fuel) (start : Nat) :
    Consumes rest (suffixes fuel start e) (· = e) rest := by
  obtain ⟨fuel, rfl⟩ := Nat.exists_eq_add_one_of_ne_zero (Nat.ne_of_gt hfuel)
  rw [suffixes]
  exact .elseCheck hparen (.elseEat hbracket (.pure rfl))

/-- An operand is complete if no operator follows. -/
theorem consumes_operators_nil {e : Expr} (hcast : headKind rest ≠ .keyword .asKw)
    (hop : ∀ op, headKind rest ≠ .operator op) (fuel : Nat) (least : UInt8) (start : Nat) :
    Consumes rest (operators fuel least start e) (· = e) rest := by
  cases fuel with
  | zero =>
      rw [operators]
      exact .pure rfl
  | succ fuel =>
      rw [operators]
      refine consumes_current.bind fun t ht => ?_
      split
      · next h => exact absurd (ht.symm.trans h) hcast
      · next h => exact absurd (ht.symm.trans h) (hop _)
      · exact .pure rfl

/-- Finding the precedence for a right operand takes no token. -/
theorem consumes_rightPrecedence {rule : BinaryRule} {next : UInt8}
    (h : rightPrecedence? rule = some next) :
    Consumes left (rightPrecedence rule) (· = next) left := by
  rw [rightPrecedence, h]
  exact .pure rfl

/-- The operator that follows an operand binds tight enough, and so it is taken. -/
theorem consumes_operators_infix {e : Expr} {op : Operator} {rule : BinaryRule}
    {least next : UInt8} {fuel start : Nat} {Q : Expr → Prop}
    (hrule : Grammar.standard.binaryRule? op = some rule) (hleast : ¬rule.precedence < least)
    (hright? : rightPrecedence? rule = some next) (hright : Consumes left (expr fuel next) Q mid)
    (hnext : ∀ n right, Q right →
      Consumes mid (operators fuel least start (infixNode op n e right)) P rest) :
    Consumes (op.content :: left) (operators (fuel + 1) least start e) P rest := by
  rw [operators]
  refine consumes_current.bind fun t ht => ?_
  rw [show t.kind = .operator op from ht]
  refine consumes_get.bind fun s hs => ?_
  rw [hs.1, hrule]
  dsimp only
  rw [if_neg hleast]
  refine consumes_bump.bind fun _ _ => (consumes_rightPrecedence hright?).bind ?_
  rintro _ rfl
  exact hright.bind fun right hr => (consumes_newNote start).bind fun n _ => hnext n right hr

/-- A cast that follows an operand is taken. -/
theorem consumes_operators_cast {e : Expr} {target : Scalar} {least : UInt8} {fuel start : Nat}
    (hleast : ¬Grammar.standard.castPrecedence < least)
    (hrest : headKind rest ≠ .punct .arrow)
    (hnext : ∀ n, Consumes rest (operators fuel least start (.cast n e target)) P mid) :
    Consumes (Keyword.asKw.content :: nameContent target.name :: rest)
      (operators (fuel + 1) least start e) P mid := by
  have hcontents : nameContent target.name :: rest = target.toTy.contents ++ rest := by
    cases target <;> rfl
  have hwritten : target.toTy.Written := by
    cases target <;> constructor
  have hscalar : target.toTy.scalar? = some target := by
    cases target <;> rfl
  rw [operators, hcontents]
  refine consumes_current.bind fun t ht => ?_
  rw [show t.kind = .keyword .asKw from ht]
  refine consumes_get.bind fun s hs => ?_
  rw [hs.1, if_neg hleast]
  refine consumes_bump.bind fun _ _ => consumes_startOffset.bind fun typeStart _ =>
    (consumes_anyType hwritten hrest).bind fun ty hty => ?_
  rw [hty, hscalar]
  exact (consumes_newNote start).bind fun n _ => hnext n

/-- An operand, whatever goes on behind it: what follows is read by `suffixes`. -/
def Operand (e : Expr) : Prop :=
  ∀ ⦃rest rest' : List Content⦄ ⦃P : Expr → Prop⦄ ⦃fuel : Nat⦄,
    8 * (e.contents ++ rest).length + 2 ≤ fuel →
    (∀ (fuel' start : Nat) (e' : Expr), 8 * rest.length + 1 ≤ fuel' → e'.erase = e.erase →
      Consumes rest (suffixes fuel' start e') P rest') →
    Consumes (e.contents ++ rest) (primary fuel) P rest'

/-- An expression, if nothing goes on with it. -/
def Whole (e : Expr) : Prop :=
  ∀ ⦃rest : List Content⦄ ⦃fuel : Nat⦄, (headKind rest).endsExpr = true →
    8 * (e.contents ++ rest).length + 4 ≤ fuel →
    Consumes (e.contents ++ rest) (expr fuel 1) (fun e' => e'.erase = e.erase) rest

/-- An atom is an operand. -/
theorem operand_of_atom {e : Expr} (h : ∀ {rest : List Content} {fuel : Nat},
    8 * (e.contents ++ rest).length ≤ fuel →
    Consumes (e.contents ++ rest) (atom (fuel + 1)) (fun e' => e'.erase = e.erase) rest) :
    Operand e := by
  intro rest rest' P fuel hfuel hnext
  obtain ⟨fuel, rfl⟩ : ∃ f, fuel = f + 2 := ⟨fuel - 2, by omega⟩
  rw [primary]
  refine consumes_startOffset.bind fun start _ => (h (by omega)).bind fun e' he' =>
    hnext _ start e' ?_ he'
  rw [List.length_append] at hfuel
  omega

/-- An operand and the operators behind it. What is left for `hnext` to show is that the operators
are taken with some tree of the operand that is the same but for its notes. -/
theorem Operand.consumes_expr {e : Expr} (h : Operand e) {least : UInt8} {fuel : Nat}
    (hparen : headKind mid ≠ .punct .openParen) (hbracket : headKind mid ≠ .punct .openBracket)
    (hfuel : 8 * (e.contents ++ mid).length + 4 ≤ fuel)
    (hnext : ∀ (fuel' start : Nat) (e' : Expr), 8 * mid.length + 3 ≤ fuel' → e'.erase = e.erase →
      Consumes mid (operators fuel' least start e') P rest) :
    Consumes (e.contents ++ mid) (expr fuel least) P rest := by
  obtain ⟨fuel, rfl⟩ : ∃ f, fuel = f + 2 := ⟨fuel - 2, by omega⟩
  -- nothing is called or indexed in front of `mid`, so the operand ends there
  have hprimary : Consumes (e.contents ++ mid) (primary fuel) (fun e' => e'.erase = e.erase) mid :=
    h (by omega) fun fuel' start e' hfuel' he' =>
      (consumes_suffixes_nil hparen hbracket (by omega) start).mono fun _ hb => hb ▸ he'
  have hunary : Consumes (e.contents ++ mid) (unary (fuel + 1))
      (fun e' => e'.erase = e.erase) mid := by
    rw [unary]
    refine consumes_startOffset.bind fun start _ => consumes_current.bind fun t ht => ?_
    split
    · next hop => exact absurd (ht.symm.trans hop) ((e.opening mid).ne rfl)
    · exact hprimary
  rw [expr]
  refine consumes_startOffset.bind fun start _ => hunary.bind fun e' he' => hnext _ start e' ?_ he'
  rw [List.length_append] at hfuel
  omega

/-- An operand alone, for operators of any precedence. -/
theorem Operand.consumes {e : Expr} (h : Operand e) {least : UInt8} {fuel : Nat}
    (hrest : (headKind rest).endsExpr = true) (hfuel : 8 * (e.contents ++ rest).length + 4 ≤ fuel) :
    Consumes (e.contents ++ rest) (expr fuel least) (fun e' => e'.erase = e.erase) rest :=
  h.consumes_expr (headKind_ne_of_endsExpr hrest rfl) (headKind_ne_of_endsExpr hrest rfl) hfuel
    fun _ start _ _ he' => (consumes_operators_nil (headKind_ne_of_endsExpr hrest rfl)
      (fun _ => headKind_ne_of_endsExpr hrest rfl) _ least start).mono fun _ hb => hb ▸ he'

/-- An operand with nothing behind it is a whole expression. -/
theorem Operand.whole {e : Expr} (h : Operand e) : Whole e :=
  fun _ _ hrest hfuel => h.consumes hrest hfuel

/-- An operand can be read as one and as a whole. Assignments are the expressions that can only be
read as a whole. -/
theorem Operand.reads {e : Expr} (h : Operand e) : (e.isAssign = false → Operand e) ∧ Whole e :=
  ⟨fun _ => h, h.whole⟩

/-- What stands in parentheses is an atom. -/
theorem consumes_parens {fuel : Nat}
    (h : Consumes left (expr fuel 1) P (Punct.closeParen.content :: rest)) :
    Consumes (Punct.openParen.content :: left) (atom (fuel + 1)) P rest := by
  rw [atom]
  exact consumes_startOffset.bind fun _ _ => .ifEat (h.bind fun e' he' =>
    consumes_expect.bind fun _ _ => .pure he')

/-- Expressions with commas between them, in brackets. The closing bracket begins no expression, so
the list ends there and not before. -/
theorem consumes_args {start stop : Punct} {es : List Expr} {fuel : Nat}
    (hbegins : (TokenKind.punct stop).beginsExpr = false)
    (hends : (TokenKind.punct stop).endsExpr = true) (hstop : stop ≠ .comma)
    (h : ∀ e ∈ es, Whole e)
    (hfuel :
      8 * (commaSeparated (es.map Expr.contents) ++ stop.content :: rest).length + 4 ≤ fuel) :
    Consumes (start.content :: (commaSeparated (es.map Expr.contents) ++ stop.content :: rest))
      (itemsBetween (.punct start) (expr fuel 1) (.punct stop))
      (fun es' => Expr.eraseAll es' = Expr.eraseAll es) rest := by
  have hitems : Consumes
      (start.content :: (commaSeparated (es.map Expr.contents) ++ stop.content :: rest))
      (itemsBetween (.punct start) (expr fuel 1) (.punct stop))
      (fun es' => es'.map Expr.erase = es.map Expr.erase) rest := by
    refine consumes_itemsBetween hstop fun e he next hlen hnext => ⟨(e.opening next).ne hbegins, ?_⟩
    refine h e he ?_ (by omega)
    rcases hnext with hnext | hnext <;> rw [hnext]
    · rfl
    · exact hends
  refine hitems.mono fun es' hes' => ?_
  rw [Expr.eraseAll_eq, Expr.eraseAll_eq, hes']

/-- A literal is read back as an operand. -/
theorem operand_lit {n : Note} {v : Lit} (h : v.Written) : Operand (.lit n v) := by
  refine operand_of_atom fun {rest fuel} _ => ?_
  have hkind : ∀ {k : TokenKind}, k.isLiteral = false → v.content.1 ≠ k :=
    TokenKind.ne_of_eq_true v.isLiteral_content
  rw [Expr.contents, atom]
  refine consumes_startOffset.bind fun start _ => .elseEat (hkind rfl) (.elseCheck (hkind rfl)
    (.elseCheck (hkind rfl) (.elseEat (hkind rfl) ?_)))
  refine (consumes_lit h).bind fun v' hv' => (consumes_newNote start).bind fun n' _ =>
    .pure (congrArg (Expr.lit default) hv')

/-- A name is read back as an operand. -/
theorem operand_ident {n : Note} {name : String} : Operand (.ident n name) := by
  refine operand_of_atom fun {rest fuel} _ => ?_
  rw [Expr.contents, atom]
  refine consumes_startOffset.bind fun start _ => .elseEat (fun h => by cases h) (.ifCheck rfl ?_)
  refine (consumes_ident name).bind fun name' hname =>
    (consumes_newNote start).bind fun n' _ => .pure (congrArg (Expr.ident default) hname)

/-- An operator in front of an operand is read back, since it binds tighter than everything behind
the operand but suffixes. -/
theorem operand_unary {n : Note} {op : UnaryOp} {e : Expr} (h : Operand e) :
    Operand (.unary n op e) := by
  refine operand_of_atom fun {rest fuel} hfuel => ?_
  have hprefix : Grammar.standard.isUnary op.toOperator = true ∧ unaryOp op.toOperator = op := by
    cases op <;> exact ⟨rfl, rfl⟩
  rw [Expr.contents] at hfuel ⊢
  simp only [List.cons_append, List.append_assoc, List.nil_append, List.length_cons] at hfuel ⊢
  obtain ⟨fuel, rfl⟩ : ∃ f, fuel = f + 2 := ⟨fuel - 2, by omega⟩
  have hprefixed : Consumes
      (op.toOperator.content :: (e.contents ++ Punct.closeParen.content :: rest))
      (unary (fuel + 1)) (fun e' => e'.erase = (Expr.unary n op e).erase)
      (Punct.closeParen.content :: rest) := by
    rw [unary]
    refine consumes_startOffset.bind fun start _ => consumes_current.bind fun t ht => ?_
    rw [show t.kind = .operator op.toOperator from ht]
    refine consumes_get.bind fun s hs => ?_
    rw [hs.1, hprefix.1, if_pos rfl, hprefix.2]
    refine consumes_bump.bind fun _ _ => consumes_get.bind fun s hs => ?_
    exact (h.consumes rfl (by omega)).bind fun e' he' =>
      (consumes_newNote start).bind fun n' _ => .pure (congrArg (Expr.unary default op) he')
  refine consumes_parens ?_
  rw [expr]
  refine consumes_startOffset.bind fun start _ => hprefixed.bind fun e' he' => ?_
  exact (consumes_operators_nil (fun h => by cases h) (fun _ h => by cases h) _ _ start).mono
    fun _ hb => hb ▸ he'

/-- A binary operation is read back from its brackets: the brackets are why no precedence matters
here. -/
theorem operand_binary {n : Note} {op : BinaryOp} {l r : Expr} (hl : Operand l) (hr : Operand r) :
    Operand (.binary n op l r) := by
  refine operand_of_atom fun {rest fuel} hfuel => ?_
  obtain ⟨rule, next, hrule, hleast, hnext⟩ : ∃ rule next,
      Grammar.standard.binaryRule? op.toOperator = some rule ∧ ¬rule.precedence < 1 ∧
        Parse.rightPrecedence? rule = some next := by
    cases op <;> exact ⟨_, _, rfl, by decide, rfl⟩
  have hnode : ∀ n l r, infixNode op.toOperator n l r = .binary n op l r := by
    cases op <;> exact fun _ _ _ => rfl
  rw [Expr.contents] at hfuel ⊢
  simp only [List.cons_append, List.append_assoc, List.nil_append, List.length_cons] at hfuel ⊢
  refine consumes_parens (hl.consumes_expr (fun h => by cases h) (fun h => by cases h) (by omega)
    fun fuel' start l' hfuel' hl' => ?_)
  obtain ⟨fuel', rfl⟩ : ∃ f, fuel' = f + 1 := ⟨fuel' - 1, by omega⟩
  refine consumes_operators_infix hrule hleast hnext (hr.consumes rfl ?_) fun n' r' hr' => ?_
  · rw [List.length_cons] at hfuel'
    omega
  · refine (consumes_operators_nil (fun h => by cases h) (fun _ h => by cases h) _ _ _).mono ?_
    rintro _ rfl
    rw [hnode]
    exact congrArg₂ (Expr.binary default op) hl' hr'

/-- A cast is read back from its brackets. -/
theorem operand_cast {n : Note} {e : Expr} {target : Scalar} (h : Operand e) :
    Operand (.cast n e target) := by
  refine operand_of_atom fun {rest fuel} hfuel => ?_
  rw [Expr.contents] at hfuel ⊢
  simp only [List.cons_append, List.append_assoc, List.nil_append, List.length_cons] at hfuel ⊢
  refine consumes_parens (h.consumes_expr (fun h => by cases h) (fun h => by cases h) (by omega)
    fun fuel' start e' hfuel' he' => ?_)
  obtain ⟨fuel', rfl⟩ : ∃ f, fuel' = f + 1 := ⟨fuel' - 1, by omega⟩
  refine consumes_operators_cast (by decide) (fun h => by cases h) fun n' => ?_
  refine (consumes_operators_nil (fun h => by cases h) (fun _ h => by cases h) _ _ _).mono ?_
  rintro _ rfl
  exact congrArg (Expr.cast default · target) he'

/-- An assignment is read back as a whole, as its value takes everything up to the end. -/
theorem whole_assign {n : Note} {t v : Expr} (ht : Operand t) (hv : Whole v) :
    Whole (.assign n t v) := by
  intro rest fuel hrest hfuel
  rw [Expr.contents] at hfuel ⊢
  simp only [List.cons_append, List.append_assoc] at hfuel ⊢
  refine ht.consumes_expr (fun h => by cases h) (fun h => by cases h) hfuel
    fun fuel' start t' hfuel' ht' => ?_
  obtain ⟨fuel', rfl⟩ : ∃ f, fuel' = f + 1 := ⟨fuel' - 1, by omega⟩
  have hrule : Grammar.standard.binaryRule? .assign = some ⟨.assign, 1, .right⟩ := rfl
  refine consumes_operators_infix hrule (by decide) rfl (hv hrest ?_) fun n' v' hv' => ?_
  · rw [List.length_cons] at hfuel'
    omega
  · refine (consumes_operators_nil (headKind_ne_of_endsExpr hrest rfl)
      (fun _ => headKind_ne_of_endsExpr hrest rfl) _ _ _).mono ?_
    rintro _ rfl
    exact congrArg₂ (Expr.assign default) ht' hv'

/-- A call is read back as an operand, with its arguments up to the closing bracket. -/
theorem operand_call {n : Note} {f : Expr} {args : List Expr} (hf : Operand f)
    (hargs : ∀ e ∈ args, Whole e) : Operand (.call n f args) := by
  intro rest rest' P fuel hfuel hnext
  rw [Expr.contents, Expr.eachContents_eq] at hfuel ⊢
  simp only [List.cons_append, List.append_assoc, List.nil_append] at hfuel ⊢
  refine hf hfuel fun fuel' start f' hfuel' hf' => ?_
  obtain ⟨fuel', rfl⟩ : ∃ f, fuel' = f + 1 := ⟨fuel' - 1, by omega⟩
  rw [List.length_cons] at hfuel'
  rw [suffixes]
  refine .ifCheck rfl ((consumes_args rfl rfl (by decide) hargs (by omega)).bind fun args' hargs' =>
    (consumes_newNote start).bind fun n' _ => hnext _ start _ ?_ ?_)
  · rw [List.length_append, List.length_cons] at hfuel'
    omega
  · exact congrArg₂ (Expr.call default) hf' hargs'

/-- An index behind an operand is read back with it. -/
theorem operand_index {n : Note} {t i : Expr} (ht : Operand t) (hi : Whole i) :
    Operand (.index n t i) := by
  intro rest rest' P fuel hfuel hnext
  rw [Expr.contents] at hfuel ⊢
  simp only [List.cons_append, List.append_assoc, List.nil_append] at hfuel ⊢
  refine ht hfuel fun fuel' start t' hfuel' ht' => ?_
  obtain ⟨fuel', rfl⟩ : ∃ f, fuel' = f + 1 := ⟨fuel' - 1, by omega⟩
  rw [List.length_cons] at hfuel'
  rw [suffixes]
  refine .elseCheck (fun h => by cases h) (.ifEat ((hi rfl (by omega)).bind fun i' hi' =>
    consumes_expect.bind fun _ _ =>
      (consumes_newNote start).bind fun n' _ => hnext _ start _ ?_ ?_))
  · rw [List.length_append, List.length_cons] at hfuel'
    omega
  · exact congrArg₂ (Expr.index default) ht' hi'

/-- A list is read back from its brackets, item by item. -/
theorem operand_list {n : Note} {items : List Expr} (h : ∀ e ∈ items, Whole e) :
    Operand (.list n items) := by
  refine operand_of_atom fun {rest fuel} hfuel => ?_
  rw [Expr.contents, Expr.eachContents_eq] at hfuel ⊢
  simp only [List.cons_append, List.append_assoc, List.nil_append, List.length_cons] at hfuel ⊢
  rw [atom]
  refine consumes_startOffset.bind fun start _ => .elseEat (fun h => by cases h)
    (.elseCheck (fun h => by cases h) (.ifCheck rfl ?_))
  exact (consumes_args rfl rfl (by decide) h (by omega)).bind fun items' hitems =>
    (consumes_newNote start).bind fun n' _ => .pure (congrArg (Expr.list default) hitems)

/-- A block in braces. -/
def Braced (tail : Bool) (b : Block) : Prop :=
  ∀ ⦃rest : List Content⦄ ⦃fuel : Nat⦄, 8 * (b.contents ++ rest).length + 1 ≤ fuel →
    Consumes (b.contents ++ rest) (block fuel tail) (fun b' => b'.erase = b.erase) rest

/-- A block is written with a brace in front. -/
theorem headKind_contents_block (b : Block) (rest : List Content) :
    headKind (b.contents ++ rest) = .punct .openBrace := by
  obtain ⟨n, ss, _ | e⟩ := b <;> rw [Block.contents] <;> rfl

/-- A lambda is read back if its signature and its body are. -/
theorem operand_lambda {n : Note} {s : Signature} {b : Block} (hs : s.Written)
    (hb : Braced true b) : Operand (.lambda n s b) := by
  refine operand_of_atom fun {rest fuel} hfuel => ?_
  rw [Expr.contents] at hfuel ⊢
  simp only [List.cons_append, List.append_assoc, List.length_cons] at hfuel ⊢
  rw [atom]
  refine consumes_startOffset.bind fun start _ => .elseEat (fun h => by cases h)
    (.elseCheck (fun h => by cases h) (.elseCheck (fun h => by cases h) (.ifEat ?_)))
  have harrow : headKind (b.contents ++ rest) ≠ .punct .arrow := by
    rw [headKind_contents_block]
    decide
  rw [List.length_append] at hfuel
  exact (consumes_signature hs harrow).bind fun s' hs' => (hb (by omega)).bind fun b' hb' =>
    (consumes_newNote start).bind fun n' _ => .pure (congrArg₂ (Expr.lambda default) hs' hb')

/-! ### Statements -/

/-- A statement, if no `else` follows and a `;` does not end the body. -/
def Turn (s : Stmt) : Prop :=
  ∀ ⦃rest : List Content⦄ ⦃fuel : Nat⦄ ⦃stop : TokenKind⦄ ⦃tail : Bool⦄,
    headKind rest ≠ .keyword .elseKw → stop ≠ .punct .semicolon →
    8 * (s.contents ++ rest).length + 5 ≤ fuel →
    Consumes (s.contents ++ rest) (item fuel stop tail)
      (fun i => ∃ s', i = .stmt s' ∧ s'.erase = s.erase) rest

section

variable {p q : Parse α} {Q : α → Prop} {fuel : Nat} {stop : TokenKind} {tail : Bool}

/-- No function is declared here. -/
theorem Consumes.elseFn (hne : headKind left ≠ .keyword .fnKw ∨ headKind left.tail ≠ .ident)
    (h : Consumes left q Q rest) :
    Consumes left (do if (← check (.keyword .fnKw)) && (← secondKind) = .ident then p else q) Q
      rest := by
  refine (consumes_check _).bind fun b hb => consumes_secondKind.bind fun k hk => ?_
  rw [if_neg]
  · exact h
  · rw [hb, hk]
    simpa [← not_and_or] using hne

/-- A function is declared here. -/
theorem Consumes.ifFn (hfn : headKind left = .keyword .fnKw) (hident : headKind left.tail = .ident)
    (h : Consumes left p Q rest) :
    Consumes left (do if (← check (.keyword .fnKw)) && (← secondKind) = .ident then p else q) Q
      rest := by
  refine (consumes_check _).bind fun b hb => consumes_secondKind.bind fun k hk => ?_
  rw [hb, hk, hfn, hident]
  exact h

/-- A `let` is read back if its type and its value are. The note is another one, so the statements
are compared without notes. -/
theorem turn_letVar {n : Note} {name : String} {declared : Option Ty} {e : Expr}
    (hd : ∀ t, declared = some t → t.Written) (he : Whole e) :
    Turn (.letVar n name declared e) := by
  intro rest fuel stop tail _ _ hfuel
  obtain ⟨fuel, rfl⟩ : ∃ f, fuel = f + 1 := ⟨fuel - 1, by omega⟩
  rw [item]
  cases declared with
  | none =>
      rw [Stmt.contents] at hfuel ⊢
      simp only [List.cons_append, List.append_assoc, List.nil_append, List.length_cons] at hfuel ⊢
      refine consumes_startOffset.bind fun start _ =>
        .ifEat ((consumes_ident _).bind fun name' hn =>
        .elseEat (fun h => by cases h) ?_)
      rw [pure_bind]
      refine consumes_expect.bind fun _ _ => (he rfl (by omega)).bind fun e' he' =>
        consumes_expect.bind fun _ _ => (consumes_newNote start).bind fun n' _ => .pure ⟨_, rfl, ?_⟩
      rw [hn]
      exact congrArg (Stmt.letVar default name none) he'
  | some t =>
      rw [Stmt.contents] at hfuel ⊢
      simp only [List.cons_append, List.append_assoc, List.nil_append, List.length_cons] at hfuel ⊢
      refine consumes_startOffset.bind fun start _ =>
        .ifEat ((consumes_ident _).bind fun name' hn =>
        .ifEat ?_)
      rw [List.length_append, List.length_cons] at hfuel
      rw [map_eq_pure_bind, bind_assoc]
      refine (consumes_anyType (hd t rfl) (fun h => by cases h)).bind fun t' ht => ?_
      rw [pure_bind]
      refine consumes_expect.bind fun _ _ => (he rfl (by omega)).bind fun e' he' =>
        consumes_expect.bind fun _ _ => (consumes_newNote start).bind fun n' _ => .pure ⟨_, rfl, ?_⟩
      rw [hn, ht]
      exact congrArg (Stmt.letVar default name (some t)) he'

/-- A declared function is read back if its signature and its body are. -/
theorem turn_fnDecl {n : Note} {name : String} {s : Signature} {b : Block} (hs : s.Written)
    (hb : Braced true b) : Turn (.fnDecl n name s b) := by
  intro rest fuel stop tail _ _ hfuel
  obtain ⟨fuel, rfl⟩ : ∃ f, fuel = f + 1 := ⟨fuel - 1, by omega⟩
  have harrow : headKind (b.contents ++ rest) ≠ .punct .arrow := by
    rw [headKind_contents_block]
    decide
  rw [Stmt.contents] at hfuel ⊢
  simp only [List.cons_append, List.append_assoc, List.length_cons] at hfuel ⊢
  rw [List.length_append] at hfuel
  rw [item]
  refine consumes_startOffset.bind fun start _ => .elseEat (fun h => by cases h) (.ifFn rfl rfl ?_)
  refine consumes_bump.bind fun _ _ => (consumes_ident _).bind fun name' hn =>
    (consumes_signature hs harrow).bind fun s' hs' => (hb (by omega)).bind fun b' hb' =>
      (consumes_newNote start).bind fun n' _ => .pure ⟨_, rfl, ?_⟩
  rw [hn]
  exact congrArg₂ (Stmt.fnDecl default name) hs' hb'

/-- A `return` is read back, with its value up to the semicolon. -/
theorem turn_ret {n : Note} {value : Option Expr} (h : ∀ e, value = some e → Whole e) :
    Turn (.ret n value) := by
  intro rest fuel stop tail _ _ hfuel
  obtain ⟨fuel, rfl⟩ : ∃ f, fuel = f + 1 := ⟨fuel - 1, by omega⟩
  rw [item]
  cases value with
  | none =>
      rw [Stmt.contents]
      refine consumes_startOffset.bind fun start _ => .elseEat (fun h => by cases h)
        (.elseFn (.inl fun h => by cases h) (.ifEat (.ifCheck rfl ?_)))
      rw [pure_bind]
      exact consumes_expect.bind fun _ _ => (consumes_newNote start).bind fun n' _ =>
        .pure ⟨_, rfl, rfl⟩
  | some e =>
      rw [Stmt.contents] at hfuel ⊢
      simp only [List.cons_append, List.append_assoc, List.nil_append, List.length_cons] at hfuel ⊢
      refine consumes_startOffset.bind fun start _ => .elseEat (fun h => by cases h)
        (.elseFn (.inl fun h => by cases h) (.ifEat (.elseCheck ((e.opening _).ne rfl) ?_)))
      rw [map_eq_pure_bind, bind_assoc]
      refine (h e rfl rfl (by omega)).bind fun e' he' => ?_
      rw [pure_bind]
      exact consumes_expect.bind fun _ _ => (consumes_newNote start).bind fun n' _ =>
        .pure ⟨_, rfl, congrArg (fun v => Stmt.ret default (some v)) he'⟩

/-- A loop with a test is read back if the test and the body are. No brace goes on with the test, so
the body begins there. -/
theorem turn_whileLoop {n : Note} {test : Expr} {b : Block} (ht : Whole test)
    (hb : Braced false b) : Turn (.whileLoop n test b) := by
  intro rest fuel stop tail _ _ hfuel
  obtain ⟨fuel, rfl⟩ : ∃ f, fuel = f + 1 := ⟨fuel - 1, by omega⟩
  rw [Stmt.contents] at hfuel ⊢
  simp only [List.cons_append, List.append_assoc, List.length_cons] at hfuel ⊢
  have hbrace : (headKind (b.contents ++ rest)).endsExpr = true := by
    rw [headKind_contents_block]
    rfl
  rw [item]
  refine consumes_startOffset.bind fun start _ => .elseEat (fun h => by cases h)
    (.elseFn (.inl fun h => by cases h) (.elseEat (fun h => by cases h)
      (.elseCheck (fun h => by cases h)
        (.ifEat ((ht hbrace (by omega)).bind fun test' ht' => ?_)))))
  rw [List.length_append] at hfuel
  refine (hb (by omega)).bind fun b' hb' => (consumes_newNote start).bind fun n' _ =>
    .pure ⟨_, rfl, ?_⟩
  exact congrArg₂ (Stmt.whileLoop default) ht' hb'

/-- A loop without a test is read back if its body is. -/
theorem turn_loop {n : Note} {b : Block} (hb : Braced false b) : Turn (.loop n b) := by
  intro rest fuel stop tail _ _ hfuel
  obtain ⟨fuel, rfl⟩ : ∃ f, fuel = f + 1 := ⟨fuel - 1, by omega⟩
  rw [Stmt.contents] at hfuel ⊢
  simp only [List.cons_append, List.length_cons] at hfuel ⊢
  rw [item]
  refine consumes_startOffset.bind fun start _ => .elseEat (fun h => by cases h)
    (.elseFn (.inl fun h => by cases h) (.elseEat (fun h => by cases h)
      (.elseCheck (fun h => by cases h) (.elseEat (fun h => by cases h)
        (.ifEat ((hb (by omega)).bind fun b' hb' => (consumes_newNote start).bind fun n' _ =>
          .pure ⟨_, rfl, ?_⟩))))))
  exact congrArg (Stmt.loop default) hb'

/-- A `break` is read back with its semicolon. -/
theorem turn_breakLoop {n : Note} : Turn (.breakLoop n) := by
  intro rest fuel stop tail _ _ hfuel
  obtain ⟨fuel, rfl⟩ : ∃ f, fuel = f + 1 := ⟨fuel - 1, by omega⟩
  rw [Stmt.contents, item]
  exact consumes_startOffset.bind fun start _ => .elseEat (fun h => by cases h)
    (.elseFn (.inl fun h => by cases h) (.elseEat (fun h => by cases h)
      (.elseCheck (fun h => by cases h) (.elseEat (fun h => by cases h)
        (.elseEat (fun h => by cases h) (.ifEat (consumes_expect.bind fun _ _ =>
          (consumes_newNote start).bind fun n' _ =>
            .pure ⟨_, rfl, rfl⟩)))))))

/-- A `continue` is read back with its semicolon. -/
theorem turn_continueLoop {n : Note} : Turn (.continueLoop n) := by
  intro rest fuel stop tail _ _ hfuel
  obtain ⟨fuel, rfl⟩ : ∃ f, fuel = f + 1 := ⟨fuel - 1, by omega⟩
  rw [Stmt.contents, item]
  exact consumes_startOffset.bind fun start _ => .elseEat (fun h => by cases h)
    (.elseFn (.inl fun h => by cases h) (.elseEat (fun h => by cases h)
      (.elseCheck (fun h => by cases h) (.elseEat (fun h => by cases h)
        (.elseEat (fun h => by cases h) (.elseEat (fun h => by cases h)
          (.ifEat (consumes_expect.bind fun _ _ => (consumes_newNote start).bind fun n' _ =>
            .pure ⟨_, rfl, rfl⟩))))))))

/-- A block is read back as a statement, with no semicolon. -/
theorem turn_block {b : Block} (hb : Braced false b) : Turn (.block b) := by
  intro rest fuel stop tail _ _ hfuel
  obtain ⟨fuel, rfl⟩ : ∃ f, fuel = f + 1 := ⟨fuel - 1, by omega⟩
  have hbrace := headKind_contents_block b rest
  have hne : ∀ {k : TokenKind}, k ≠ .punct .openBrace → headKind (b.contents ++ rest) ≠ k := by
    rintro k hk rfl
    exact hk hbrace
  rw [Stmt.contents] at hfuel ⊢
  rw [item]
  exact consumes_startOffset.bind fun start _ => .elseEat (hne (by decide))
    (.elseFn (.inl (hne (by decide))) (.elseEat (hne (by decide)) (.elseCheck (hne (by decide))
      (.elseEat (hne (by decide)) (.elseEat (hne (by decide)) (.elseEat (hne (by decide))
        (.elseEat (hne (by decide)) (.ifCheck hbrace ((hb (by omega)).bind fun b' hb' =>
          .pure ⟨_, rfl, congrArg Stmt.block hb'⟩)))))))))

/-- An item that begins as an expression does is one. None of the keywords that begin a statement
begins an expression, so all the tests for them fail. -/
theorem consumes_item_expr {e : Expr} {R : Item → Prop} (h : Opening left)
    (he : Consumes left (expr fuel 1) (fun e' => e'.erase = e.erase) mid)
    (hlast : ∀ (start : Nat) (e' : Expr), e'.erase = e.erase → Consumes mid
      (do
        let isTail ← if tail then check stop else pure false
        if isTail then return Item.tail e'
        else
          expect (.punct .semicolon)
          return Item.stmt (.expr (← newNote start) e')) R rest) :
    Consumes left (item (fuel + 1) stop tail) R rest := by
  -- a function without a name is an expression, one with a name is declared
  have hfn : headKind left ≠ .keyword .fnKw ∨ headKind left.tail ≠ .ident := by
    by_cases hkind : headKind left = .keyword .fnKw
    · refine .inr ?_
      rw [h.function hkind]
      decide
    · exact .inl hkind
  rw [item]
  exact consumes_startOffset.bind fun start _ => .elseEat (h.ne rfl) (.elseFn hfn
    (.elseEat (h.ne rfl) (.elseCheck (h.ne rfl) (.elseEat (h.ne rfl) (.elseEat (h.ne rfl)
      (.elseEat (h.ne rfl) (.elseEat (h.ne rfl) (.elseCheck (h.ne rfl)
        (he.bind fun e' he' => hlast start e' he')))))))))

/-- An expression is read back as a statement, with its semicolon. -/
theorem turn_expr {n : Note} {e : Expr} (h : Whole e) : Turn (.expr n e) := by
  intro rest fuel stop tail _ hstop hfuel
  obtain ⟨fuel, rfl⟩ : ∃ f, fuel = f + 1 := ⟨fuel - 1, by omega⟩
  rw [Stmt.contents] at hfuel ⊢
  rw [List.append_assoc] at hfuel ⊢
  refine consumes_item_expr (e.opening _) (h rfl (by omega)) fun start e' he' => ?_
  have hstmt : Consumes (Punct.semicolon.content :: rest)
      (do
        expect (.punct .semicolon)
        return Item.stmt (.expr (← newNote start) e'))
      (fun i => ∃ s', i = .stmt s' ∧ s'.erase = (Stmt.expr n e).erase) rest :=
    consumes_expect.bind fun _ _ => (consumes_newNote start).bind fun n' _ =>
      .pure ⟨_, rfl, congrArg (Stmt.expr default) he'⟩
  -- where a result may stand, the parser looks for the end of the body first
  cases tail with
  | false =>
      rw [if_neg Bool.false_ne_true, pure_bind]
      exact hstmt
  | true =>
      rw [if_pos rfl]
      exact .elseCheck hstop.symm hstmt

/-- The result of a body is read in front of its end. -/
theorem consumes_item_tail {e : Expr} {text : List Char} (h : Whole e)
    (hstop : stop.endsExpr = true)
    (hfuel : 8 * (e.contents ++ (stop, text) :: rest).length + 5 ≤ fuel) :
    Consumes (e.contents ++ (stop, text) :: rest) (item fuel stop true)
      (fun i => ∃ e', i = .tail e' ∧ e'.erase = e.erase) ((stop, text) :: rest) := by
  obtain ⟨fuel, rfl⟩ : ∃ f, fuel = f + 1 := ⟨fuel - 1, by omega⟩
  refine consumes_item_expr (e.opening _) (h hstop (by omega)) fun start e' he' => ?_
  rw [if_pos rfl]
  exact .ifCheck rfl (.pure ⟨e', rfl, he'⟩)

/-- A conditional behind its keyword. -/
def Conditional (s : Stmt) : Prop :=
  ∀ ⦃rest : List Content⦄ ⦃fuel : Nat⦄, headKind rest ≠ .keyword .elseKw →
    8 * (s.contents ++ rest).length + 1 ≤ fuel →
    Consumes (s.contents ++ rest) (conditional fuel) (fun s' => s'.erase = s.erase) rest

/-- What follows `else`. -/
def Alternative : Stmt → Prop
  | .block b => Braced false b
  | s => Conditional s

/-- A conditional without another branch is read back where no `else` follows. -/
theorem conditional_none {n : Note} {test : Expr} {yes : Block} (ht : Whole test)
    (hy : Braced false yes) : Conditional (.cond n test yes none) := by
  intro rest fuel helse hfuel
  obtain ⟨fuel, rfl⟩ : ∃ f, fuel = f + 1 := ⟨fuel - 1, by omega⟩
  have hbrace : (headKind (yes.contents ++ rest)).endsExpr = true := by
    rw [headKind_contents_block]
    rfl
  rw [Stmt.contents] at hfuel ⊢
  simp only [List.cons_append, List.append_assoc, List.length_cons] at hfuel ⊢
  rw [conditional]
  refine consumes_startOffset.bind fun start _ => consumes_expect.bind fun _ _ =>
    (ht hbrace (by omega)).bind fun test' ht' => ?_
  rw [List.length_append] at hfuel
  refine (hy (by omega)).bind fun yes' hy' => .elseEat helse ?_
  exact (consumes_newNote start).bind fun n' _ => .pure (congrArg₂ (Stmt.cond default · · none) ht' hy')

/-- A conditional with another branch is read back if this branch is. The branch is a block or a
conditional, and its first token tells which. -/
theorem conditional_some {n : Note} {test : Expr} {yes : Block} {no : Stmt} (ht : Whole test)
    (hy : Braced false yes) (hn : no.IsAlternate) (hno : Alternative no) :
    Conditional (.cond n test yes (some no)) := by
  intro rest fuel helse hfuel
  obtain ⟨fuel, rfl⟩ : ∃ f, fuel = f + 1 := ⟨fuel - 1, by omega⟩
  have hbrace : ∀ rest, (headKind (yes.contents ++ rest)).endsExpr = true := fun rest => by
    rw [headKind_contents_block]
    rfl
  rw [Stmt.contents] at hfuel ⊢
  simp only [List.cons_append, List.append_assoc, List.length_cons] at hfuel ⊢
  rw [conditional]
  refine consumes_startOffset.bind fun start _ => consumes_expect.bind fun _ _ =>
    (ht (hbrace _) (by omega)).bind fun test' ht' => ?_
  rw [List.length_append] at hfuel
  refine (hy (by omega)).bind fun yes' hy' => .ifEat ?_
  rw [List.length_append, List.length_cons] at hfuel
  cases no with
  | block b =>
      have hne : headKind (b.contents ++ rest) ≠ .keyword .ifKw := by
        rw [headKind_contents_block]
        decide
      rw [Stmt.contents] at hfuel ⊢
      refine .elseCheck hne ((hno (by omega)).bind fun no' hno' =>
        (consumes_newNote start).bind fun n' _ => .pure ?_)
      exact Stmt.erase_cond ht' hy' (congrArg Stmt.block hno')
  | cond m t y alternate =>
      have hif : headKind ((Stmt.cond m t y alternate).contents ++ rest) = .keyword .ifKw := by
        cases alternate <;> rw [Stmt.contents] <;> rfl
      refine .ifCheck hif ((hno helse (by omega)).bind fun no' hno' =>
        (consumes_newNote start).bind fun n' _ => .pure ?_)
      exact Stmt.erase_cond ht' hy' hno'
  | _ => exact hn.elim

/-- A conditional is read back as a statement, once its keyword was taken. -/
theorem turn_cond {n : Note} {test : Expr} {yes : Block} {no : Option Stmt}
    (h : Conditional (.cond n test yes no)) : Turn (.cond n test yes no) := by
  intro rest fuel stop tail helse _ hfuel
  obtain ⟨fuel, rfl⟩ : ∃ f, fuel = f + 1 := ⟨fuel - 1, by omega⟩
  have hif : headKind ((Stmt.cond n test yes no).contents ++ rest) = .keyword .ifKw := by
    cases no <;> rw [Stmt.contents] <;> rfl
  have hne : ∀ {k : TokenKind}, k ≠ .keyword .ifKw →
      headKind ((Stmt.cond n test yes no).contents ++ rest) ≠ k := by
    rintro k hk rfl
    exact hk hif
  rw [item]
  exact consumes_startOffset.bind fun start _ => .elseEat (hne (by decide))
    (.elseFn (.inl (hne (by decide))) (.elseEat (hne (by decide))
      (.ifCheck hif ((h helse (by omega)).bind fun s' hs' => .pure ⟨s', rfl, hs'⟩))))

end

/-! ### Bodies -/

/-- A token that can end a body. -/
def EndsBody (stop : TokenKind) : Prop :=
  stop = .punct .closeBrace ∨ stop = .eof

section

variable {fuel : Nat} {stop : TokenKind} {tail : Bool} {text : List Char}

/-- A token that ends a body begins no statement. -/
theorem EndsBody.beginsStmt (h : EndsBody stop) : stop.beginsStmt = false := by
  rcases h with rfl | rfl <;> rfl

/-- A token that ends a body also ends every expression. -/
theorem EndsBody.endsExpr (h : EndsBody stop) : stop.endsExpr = true := by
  rcases h with rfl | rfl <;> rfl

/-- A token that ends a body begins no expression. -/
theorem EndsBody.beginsExpr (h : EndsBody stop) : stop.beginsExpr = false := by
  rcases h with rfl | rfl <;> rfl

/-- A token that ends a body is no semicolon. -/
theorem EndsBody.ne_semicolon (h : EndsBody stop) : stop ≠ .punct .semicolon := by
  rcases h with rfl | rfl <;> decide

/-- A token that ends a body is no `else`. -/
theorem EndsBody.ne_else (h : EndsBody stop) : stop ≠ .keyword .elseKw := by
  rcases h with rfl | rfl <;> decide

/-- The result of a body and its end. -/
theorem consumes_result {result : Option Expr} (hstop : EndsBody stop)
    (h : ∀ e, result = some e → tail = true ∧ Whole e)
    (hfuel : 8 * ((result.elim [] Expr.contents) ++ (stop, text) :: rest).length + 6 ≤ fuel) :
    Consumes ((result.elim [] Expr.contents) ++ (stop, text) :: rest) (body fuel stop tail)
      (fun r => r.1 = [] ∧ r.2.map Expr.erase = result.map Expr.erase) rest := by
  obtain ⟨fuel, rfl⟩ : ∃ f, fuel = f + 1 := ⟨fuel - 1, by omega⟩
  rw [body]
  cases result with
  | none => exact .ifEat (.pure ⟨rfl, rfl⟩)
  | some e =>
      obtain ⟨rfl, he⟩ := h e rfl
      have hopening := e.opening ((stop, text) :: rest)
      refine .elseEat (hopening.ne hstop.beginsExpr) (.elseCheck (hopening.ne rfl) ?_)
      refine consumes_get.bind fun s _ =>
        (consumes_item_tail he hstop.endsExpr (by simpa using hfuel)).attempt.bind ?_
      rintro _ ⟨_, rfl, e', rfl, he'⟩
      exact consumes_bump.bind fun _ _ => .pure ⟨rfl, congrArg some he'⟩

/-- Statements in front of what is left of a body. The induction is on the statements; no `else`
follows any of them, so none goes on into the next. -/
theorem consumes_body {ss : List Stmt} {result : Option Expr} (hstop : EndsBody stop)
    (h : ∀ s ∈ ss, Turn s) (helse : headKind left ≠ .keyword .elseKw)
    (hleft : ∀ {fuel : Nat}, 8 * left.length + 6 ≤ fuel →
      Consumes left (body fuel stop tail)
        (fun r => r.1 = [] ∧ r.2.map Expr.erase = result.map Expr.erase) rest)
    (hfuel : 8 * (Stmt.contentsAll ss ++ left).length + 6 ≤ fuel) :
    Consumes (Stmt.contentsAll ss ++ left) (body fuel stop tail)
      (fun r => Stmt.eraseAll r.1 = Stmt.eraseAll ss ∧
        r.2.map Expr.erase = result.map Expr.erase) rest := by
  induction ss generalizing fuel with
  | nil => exact (hleft hfuel).mono fun r hr => ⟨congrArg Stmt.eraseAll hr.1, hr.2⟩
  | cons s ss ih =>
      obtain ⟨fuel, rfl⟩ : ∃ f, fuel = f + 1 := ⟨fuel - 1, by omega⟩
      have hnext : headKind (Stmt.contentsAll ss ++ left) ≠ .keyword .elseKw := by
        cases ss with
        | nil => exact helse
        | cons s' ss =>
            rw [Stmt.contentsAll, List.append_assoc]
            exact TokenKind.ne_of_eq_true (s'.begins _) rfl
      rw [Stmt.contentsAll, List.append_assoc] at hfuel ⊢
      have hbegins := s.begins (Stmt.contentsAll ss ++ left)
      rw [body]
      refine .elseEat (TokenKind.ne_of_eq_true hbegins hstop.beginsStmt)
        (.elseCheck (TokenKind.ne_of_eq_true hbegins rfl) ?_)
      refine consumes_get.bind fun _ _ =>
        (h s List.mem_cons_self hnext hstop.ne_semicolon (by omega)).attempt.bind ?_
      rintro _ ⟨_, rfl, s', rfl, hs'⟩
      -- the statement has a token, so the fuel is enough for the rest
      have hpos := s.length_contents_pos
      rw [List.length_append] at hfuel
      refine (ih (fun t ht => h t (List.mem_cons_of_mem _ ht)) (by omega)).bind fun r hr =>
        .pure ⟨?_, hr.2⟩
      exact congrArg₂ List.cons hs' hr.1

/-- What stands in a block. -/
structure Inside (tail : Bool) (b : Block) : Prop where
  stmts : ∀ s ∈ b.stmts, Turn s
  result : ∀ e, b.tail = some e → tail = true ∧ Whole e

/-- The statements, the result and the end of a body. A result is the last expression, without a
semicolon, and only bodies of functions and programs have one. -/
theorem Inside.consumes {b : Block} (h : Inside tail b) (hstop : EndsBody stop)
    (hfuel : 8 * (b.lineContents ++ (stop, text) :: rest).length + 6 ≤ fuel) :
    Consumes (b.lineContents ++ (stop, text) :: rest) (body fuel stop tail)
      (fun r => ∀ n, (Block.mk n r.1 r.2).erase = b.erase) rest := by
  obtain ⟨m, ss, result⟩ := b
  have hcontents : (Block.mk m ss result).lineContents ++ (stop, text) :: rest =
      Stmt.contentsAll ss ++ ((result.elim [] Expr.contents) ++ (stop, text) :: rest) := by
    cases result <;> rw [Block.lineContents] <;> simp
  have herase : ∀ n ss result, (Block.mk n ss result).erase =
      .mk default (Stmt.eraseAll ss) (result.map Expr.erase) := by
    rintro n ss (_ | e) <;> rfl
  have helse : headKind ((result.elim [] Expr.contents) ++ (stop, text) :: rest) ≠
      .keyword .elseKw := by
    cases result with
    | none => exact hstop.ne_else
    | some e => exact (e.opening _).ne rfl
  rw [hcontents] at hfuel ⊢
  refine (consumes_body hstop h.stmts helse (consumes_result hstop h.result) hfuel).mono ?_
  intro r hr n
  rw [herase, herase, hr.1, hr.2]
  rfl

/-- What stands in a block is read back with its braces. -/
theorem Inside.braced {b : Block} (h : Inside tail b) : Braced tail b := by
  intro rest fuel hfuel
  obtain ⟨fuel, rfl⟩ : ∃ f, fuel = f + 1 := ⟨fuel - 1, by omega⟩
  have hcontents : b.contents ++ rest =
      Punct.openBrace.content :: (b.lineContents ++ Punct.closeBrace.content :: rest) := by
    obtain ⟨n, ss, _ | e⟩ := b <;> rw [Block.contents, Block.lineContents] <;> simp
  rw [hcontents] at hfuel ⊢
  rw [List.length_cons] at hfuel
  have hfuel' : 8 * (b.lineContents ++ Punct.closeBrace.content :: rest).length + 6 ≤ fuel := by
    omega
  rw [block]
  exact consumes_startOffset.bind fun start _ => consumes_expect.bind fun _ _ =>
    (h.consumes (.inl rfl) hfuel').bind fun r hr => (consumes_newNote start).bind
      fun n _ => .pure (hr n)

end

/-! ### Trees -/

mutual

/-- **Reading an expression.** The tokens of an expression are read as the same expression; one
that is no assignment also goes on. -/
theorem reads_expr : ∀ {e : Expr}, e.Written → (e.isAssign = false → Operand e) ∧ Whole e
  | .lit _ _, h => (operand_lit h).reads
  | .ident _ _, _ => operand_ident.reads
  | .unary _ _ _, h => (operand_unary ((reads_expr h.2).1 h.1)).reads
  | .binary _ _ _ _, h =>
      (operand_binary ((reads_expr h.2.2.1).1 h.1) ((reads_expr h.2.2.2).1 h.2.1)).reads
  | .assign _ _ _, h =>
      ⟨fun hassign => (by cases hassign),
        whole_assign ((reads_expr h.2.1).1 h.1) (reads_expr h.2.2).2⟩
  | .call _ _ _, h => (operand_call ((reads_expr h.2.1).1 h.1) (reads_args h.2.2)).reads
  | .index _ _ _, h => (operand_index ((reads_expr h.2.1).1 h.1) (reads_expr h.2.2).2).reads
  | .list _ _, h => (operand_list (reads_args h)).reads
  | .cast _ _ _, h => (operand_cast ((reads_expr h.2).1 h.1)).reads
  | .lambda _ _ _, h => (operand_lambda h.1 (reads_body h.2).braced).reads

/-- All expressions of a written list are read back as wholes. -/
theorem reads_args : ∀ {es : List Expr}, Expr.AllWritten es → ∀ e ∈ es, Whole e
  | [], _, e, he => by cases he
  | e :: es, h, e', he => by
      rcases List.mem_cons.mp he with heq | he
      · rw [heq]
        exact (reads_expr h.1).2
      · exact reads_args h.2 e' he

/-- **Reading a statement.** The tokens of a statement are read as the same statement. The induction
is on the tree, with a lemma for each keyword. -/
theorem reads_stmt : ∀ {s : Stmt}, s.Written → Turn s ∧ (s.IsAlternate → Alternative s)
  | .block _, h => ⟨turn_block (reads_body h).braced, fun _ => (reads_body h).braced⟩
  | .letVar _ _ _ _, h =>
      ⟨turn_letVar h.2.1 (reads_expr h.2.2).2, fun halternate => halternate.elim⟩
  | .fnDecl _ _ _ _, h =>
      ⟨turn_fnDecl h.2.1 (reads_body h.2.2).braced, fun halternate => halternate.elim⟩
  | .ret _ none, _ => ⟨turn_ret (fun _ he => by cases he), fun halternate => halternate.elim⟩
  | .ret _ (some _), h =>
      ⟨turn_ret fun _ he => Option.some.inj he ▸ (reads_expr h).2,
        fun halternate => halternate.elim⟩
  | .cond _ _ _ none, h =>
      have hcond := conditional_none (reads_expr h.1).2 (reads_body h.2).braced
      ⟨turn_cond hcond, fun _ => hcond⟩
  | .cond _ _ _ (some _), h =>
      have hcond := conditional_some (reads_expr h.1).2 (reads_body h.2.1).braced h.2.2.1
        ((reads_stmt h.2.2.2).2 h.2.2.1)
      ⟨turn_cond hcond, fun _ => hcond⟩
  | .whileLoop _ _ _, h =>
      ⟨turn_whileLoop (reads_expr h.1).2 (reads_body h.2).braced, fun halternate => halternate.elim⟩
  | .loop _ _, h => ⟨turn_loop (reads_body h).braced, fun halternate => halternate.elim⟩
  | .breakLoop _, _ => ⟨turn_breakLoop, fun halternate => halternate.elim⟩
  | .continueLoop _, _ => ⟨turn_continueLoop, fun halternate => halternate.elim⟩
  | .expr _ _, h => ⟨turn_expr (reads_expr h).2, fun halternate => halternate.elim⟩

/-- All written statements are read back. -/
theorem reads_stmts : ∀ {ss : List Stmt}, Stmt.AllWritten ss → ∀ s ∈ ss, Turn s
  | [], _, s, hs => by cases hs
  | s :: ss, h, s', hs => by
      rcases List.mem_cons.mp hs with heq | hs
      · rw [heq]
        exact (reads_stmt h.1).1
      · exact reads_stmts h.2 s' hs

/-- **Reading a block.** The tokens in a block are read as what stands there. -/
theorem reads_body : ∀ {b : Block} {tail : Bool}, b.Written tail → Inside tail b
  | .mk _ _ none, _, h => ⟨reads_stmts h, fun _ he => by cases he⟩
  | .mk _ _ (some _), _, h =>
      ⟨reads_stmts h.2.1, fun _ he => ⟨h.1, Option.some.inj he ▸ (reads_expr h.2.2).2⟩⟩

end

end Parse

end Parlance
