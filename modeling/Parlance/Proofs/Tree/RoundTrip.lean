import Parlance.Proofs.Analysis.Accepted
import Parlance.Proofs.Tree.Recovery
import Parlance.Proofs.Tree.Reparsing

/-!
# Programs print and parse back

If a text is parsed, what its tree prints is parsed as the same tree, up to labels and places. Two
kinds of trees are left out (`Block.isPlain`): a float from `10 ^ 16` on prints as the digits of an
integer, and an assignment prints without parentheses, so as an operand it would take in what
follows. All others print as they were read. Their names, types and literals have the form that is
needed for that because they come from a text: a name is no keyword, a type can be named, and a
literal has no sign.

## Main definitions

* `Expr.isPlain`, `Stmt.isPlain`, `Block.isPlain`: the trees that print as they were read.

## Main results

* `Expr.Spelled.written`, `Stmt.Spelled.written`, `BodySpelled.written`: plain trees that were read
  can be written.
* `CompileOptions.parse_render`: programs print and parse back.
-/

namespace Parlance

/-! ### Names and literals that were read -/

/-- A name among the tokens of a text is a word, and a literal has no sign. -/
def Token.Sound (t : Token) : Prop :=
  (t.kind = .ident → isWord t.text = true ∧ Grammar.standard.wordKind t.text = .ident) ∧
    ∀ v, Parse.literal t = some (.ok v) → v.Unsigned

/-- The tokens that the lexer finds in a text. -/
theorem sound_of_lexItems {recovery : Recovery} {text : List Char} {t : Token}
    (ht : .ok t ∈ lexItems .standard recovery text) : t.Sound := by
  by_cases hk : t.kind = .eof
  · rw [Token.Sound, Parse.literal, hk]
    exact ⟨(fun h => by cases h), fun _ h => by cases h⟩
  · have hscanned := lexItems_scanned Grammar.usable_standard ht hk
    exact ⟨hscanned.ident, fun _ hv => hscanned.unsigned Grammar.usable_standard hv⟩

/-- An item of a list was read from some of its tokens. -/
theorem Listed.mem {α : Type} {spelled : List Token → α → Prop} {stop : TokenKind}
    {ts : List Token} {as : List α} (h : Listed spelled stop ts as) {a : α} (ha : a ∈ as) :
    ∃ us, us ⊆ ts ∧ spelled us a := by
  induction h with
  | nil => cases ha
  | last hspelled =>
      obtain rfl := List.mem_singleton.mp ha
      exact ⟨_, List.subset_append_left _ _, hspelled⟩
  | cons hspelled _ _ ih =>
      rcases List.mem_cons.mp ha with rfl | ha
      · exact ⟨_, List.subset_append_left _ _, hspelled⟩
      · obtain ⟨us, hus, hspelled⟩ := ih ha
        refine ⟨us, fun t ht => ?_, hspelled⟩
        exact List.mem_append_right _ (List.mem_append_right _ (hus ht))

/-- Each of the items in brackets is spelled by some of the tokens. -/
theorem Bracketed.mem {α : Type} {spelled : List Token → α → Prop} {start stop : TokenKind}
    {ts : List Token} {as : List α} (h : Bracketed spelled start stop ts as) {a : α}
    (ha : a ∈ as) : ∃ us, us ⊆ ts ∧ spelled us a := by
  obtain ⟨-, hlisted⟩ := h
  obtain ⟨us, hus, hspelled⟩ := hlisted.mem ha
  exact ⟨us, fun t ht => List.mem_append_right _ (hus ht), hspelled⟩

/-- What a sound token spells as a name is one. -/
theorem NameSpelled.isName {ts : List Token} {name : String} (h : NameSpelled ts name)
    (hts : ∀ t ∈ ts, t.Sound) : IsName name := by
  obtain ⟨hkind⟩ := h
  rw [IsName, String.toList_ofList]
  exact (hts _ List.mem_cons_self).1 hkind

/-- What a sound token spells as a literal has no sign. -/
theorem LitSpelled.unsigned {ts : List Token} {v : Lit} (h : LitSpelled ts v)
    (hts : ∀ t ∈ ts, t.Sound) : v.Unsigned := by
  obtain ⟨hv⟩ := h
  exact (hts _ List.mem_cons_self).2 v hv

/-- A named type is written with its name. -/
theorem written_of_namedType? {name : String} {t : Ty} (h : Parse.namedType? name = some t) :
    t.Written := by
  unfold Parse.namedType? at h
  split at h
  · cases h
    exact .unit
  · obtain ⟨s, -, rfl⟩ := Option.map_eq_some_iff.mp h
    cases s <;> constructor

/-- **Types that were read** can be written. -/
theorem Ty.Spelled.written : ∀ {ts : List Token} {t : Ty}, t.Spelled ts → t.Written
  | _, _, .name _ hname => written_of_namedType? hname
  | _, _, .list _ hitem _ => .list hitem.written
  | _, _, .procedure _ hparams => by
      refine .function (fun p hp => ?_) .unit
      obtain ⟨us, -, hspelled⟩ := hparams.mem hp
      have := List.sizeOf_lt_of_mem hp
      exact hspelled.written
  | _, _, .function _ hparams _ hreturns => by
      refine .function (fun p hp => ?_) hreturns.written
      obtain ⟨us, -, hspelled⟩ := hparams.mem hp
      have := List.sizeOf_lt_of_mem hp
      exact hspelled.written
termination_by _ t => sizeOf t

/-- A signature that was spelled can be written. -/
theorem Signature.Spelled.written {ts : List Token} {s : Signature} (h : s.Spelled ts)
    (hts : ∀ t ∈ ts, t.Sound) : s.Written := by
  have hparams : ∀ {ps : List Token} {params : List Param}, (∀ t ∈ ps, t.Sound) →
      Bracketed Param.Spelled (.punct .openParen) (.punct .closeParen) ps params →
      ∀ p ∈ params, IsName p.name ∧ p.ty.Written := fun hps h p hp => by
    obtain ⟨us, hus, hname, hcolon, hty⟩ := h.mem hp
    exact ⟨hname.isName fun t ht => hps t (hus (List.mem_append_left _ ht)), hty.written⟩
  cases h with
  | procedure h => exact ⟨hparams hts h, .unit⟩
  | function h _ hreturns =>
      exact ⟨hparams (fun t ht => hts t (List.mem_append_left _ ht)) h, hreturns.written⟩

/-! ### Plain trees -/

mutual

/-- Whether an expression prints as it was read: floats print with a point, and no operand is an
assignment, which prints without parentheses. -/
def Expr.isPlain : Expr → Bool
  | .lit _ v => v.isPlain
  | .ident _ _ => true
  | .unary _ _ e | .cast _ e _ => !e.isAssign && e.isPlain
  | .binary _ _ l r => !l.isAssign && !r.isAssign && l.isPlain && r.isPlain
  | .assign _ t v => !t.isAssign && t.isPlain && v.isPlain
  | .call _ f args => !f.isAssign && f.isPlain && Expr.allPlain args
  | .index _ t i => !t.isAssign && t.isPlain && i.isPlain
  | .list _ items => Expr.allPlain items
  | .lambda _ _ b => b.isPlain

def Expr.allPlain : List Expr → Bool
  | [] => true
  | e :: es => e.isPlain && Expr.allPlain es

/-- Whether a statement prints as it was read. -/
def Stmt.isPlain : Stmt → Bool
  | .block b | .loop _ b | .fnDecl _ _ _ b => b.isPlain
  | .letVar _ _ _ e | .expr _ e | .ret _ (some e) => e.isPlain
  | .ret _ none | .breakLoop _ | .continueLoop _ => true
  | .cond _ test yes none => test.isPlain && yes.isPlain
  | .cond _ test yes (some no) => test.isPlain && yes.isPlain && no.isPlain
  | .whileLoop _ test b => test.isPlain && b.isPlain

def Stmt.allPlain : List Stmt → Bool
  | [] => true
  | s :: ss => s.isPlain && Stmt.allPlain ss

/-- Whether a block prints as it was read. -/
def Block.isPlain : Block → Bool
  | .mk _ ss none => Stmt.allPlain ss
  | .mk _ ss (some e) => Stmt.allPlain ss && e.isPlain

end

/-- Expressions are plain if each of them is. -/
theorem Expr.allPlain_iff {es : List Expr} :
    Expr.allPlain es = true ↔ ∀ e ∈ es, e.isPlain = true := by
  induction es with
  | nil => simp [allPlain]
  | cons e es ih => simp [allPlain, ih]

/-- Expressions are regular if each of them is. -/
theorem Expr.allRegular_iff {es : List Expr} : Expr.AllRegular es ↔ ∀ e ∈ es, e.Regular := by
  induction es with
  | nil => simp [AllRegular]
  | cons e es ih => simp [AllRegular, ih]

/-- Expressions can be written if each of them can. -/
theorem Expr.allWritten_iff {es : List Expr} : Expr.AllWritten es ↔ ∀ e ∈ es, e.Written := by
  induction es with
  | nil => simp [AllWritten]
  | cons e es ih => simp [AllWritten, ih]

/-- A block is plain if its first statement is, and the block of the others. -/
theorem Block.isPlain_cons {n : Note} {s : Stmt} {ss : List Stmt} {result : Option Expr} :
    (Block.mk n (s :: ss) result).isPlain = true ↔
      s.isPlain = true ∧ (Block.mk n ss result).isPlain = true := by
  cases result <;> simp [isPlain, Stmt.allPlain, and_assoc]

/-- A block can be written if its first statement can, and the block of the others. -/
theorem Block.written_cons {n : Note} {s : Stmt} {ss : List Stmt} {result : Option Expr}
    {tail : Bool} : (Block.mk n (s :: ss) result).Written tail ↔
      s.Written ∧ (Block.mk n ss result).Written tail := by
  cases result <;> simp [Written, Stmt.AllWritten, and_assoc, and_left_comm]

/-- The node of an operator is a binary one or an assignment. -/
theorem Parse.infixNode_cases (op : Operator) (n : Note) (l r : Expr) :
    (∃ b, infixNode op n l r = .binary n b l r) ∨ infixNode op n l r = .assign n l r := by
  unfold infixNode
  split
  · exact .inl ⟨_, rfl⟩
  · exact .inr rfl

/-- Operands are smaller than the node that they are put in, which carries the induction over what
was spelled. -/
theorem Parse.sizeOf_lt_infixNode (op : Operator) (n : Note) (l r : Expr) :
    sizeOf l < sizeOf (infixNode op n l r) ∧ sizeOf r < sizeOf (infixNode op n l r) := by
  obtain ⟨b, hnode⟩ | hnode := infixNode_cases op n l r
  · rw [hnode, Expr.binary.sizeOf_spec]
    omega
  · rw [hnode, Expr.assign.sizeOf_spec]
    omega

mutual

/-- **Expressions that were read.** A plain expression that was read from the tokens of a text
can be written. -/
theorem Expr.Spelled.written : ∀ {ts : List Token} {e : Expr}, e.Spelled .standard ts →
    (∀ t ∈ ts, t.Sound) → e.Regular → e.isPlain = true → e.Written
  | _, _, .lit h, hts, _, hplain => by
      rw [Expr.Written]
      rw [Expr.isPlain] at hplain
      exact ⟨h.unsigned hts, hplain⟩
  | _, _, .ident h, hts, _, _ => by
      rw [Expr.Written]
      exact h.isName hts
  | _, _, .parens ho h hc, hts, hr, hplain => by
      -- parentheses leave no node: the tree stays, and the tokens get fewer
      obtain ⟨_, rfl, -⟩ := Parse.eq_singleton_of_lexeme ho rfl
      exact h.written (fun t ht => hts t (by simp [ht])) hr hplain
  | _, _, .list h, hts, hr, hplain => by
      rw [Expr.Written]
      exact Expr.Spelled.all_written h hts hr hplain
  | _, _, .lambda _ hs hb, hts, hr, hplain => by
      rw [Expr.Written]
      exact ⟨hs.written fun t ht => hts t (by simp [ht]),
        hb.written (fun t ht => hts t (by simp [ht])) hr.2 hplain⟩
  | _, _, .call hf hargs, hts, hr, hplain => by
      rw [Expr.isPlain, Bool.and_eq_true_iff, Bool.and_eq_true_iff] at hplain
      rw [Expr.Written]
      exact ⟨by simpa using hplain.1.1,
        hf.written (fun t ht => hts t (by simp [ht])) hr.1 hplain.1.2,
        Expr.Spelled.all_written hargs (fun t ht => hts t (by simp [ht])) hr.2 hplain.2⟩
  | _, _, .index ht _ hi _, hts, hr, hplain => by
      rw [Expr.isPlain, Bool.and_eq_true_iff, Bool.and_eq_true_iff] at hplain
      rw [Expr.Written]
      exact ⟨by simpa using hplain.1.1,
        ht.written (fun t ht => hts t (by simp [ht])) hr.1 hplain.1.2,
        hi.written (fun t ht => hts t (by simp [ht])) hr.2 hplain.2⟩
  | _, _, .unary _ _ he, hts, hr, hplain => by
      rw [Expr.isPlain, Bool.and_eq_true_iff] at hplain
      rw [Expr.Written]
      exact ⟨by simpa using hplain.1, he.written (fun t ht => hts t (by simp [ht])) hr hplain.2⟩
  | _, _, .cast he _ _ _, hts, hr, hplain => by
      rw [Expr.isPlain, Bool.and_eq_true_iff] at hplain
      rw [Expr.Written]
      exact ⟨by simpa using hplain.1, he.written (fun t ht => hts t (by simp [ht])) hr hplain.2⟩
  | _, _, @Expr.Spelled.operator _ _ _ _ n op _ l r hl _ _ hright, hts, hr, hplain => by
      -- the node is that of an assignment or of another operator, its parts are the same
      have ⟨hsizel, hsizer⟩ := Parse.sizeOf_lt_infixNode op n l r
      have hleft := hl.written fun t ht => hts t (by simp [ht])
      have hright := hright.written fun t ht => hts t (by simp [ht])
      obtain ⟨b, hnode⟩ | hnode := Parse.infixNode_cases op n l r
      · rw [hnode] at hr hplain ⊢
        simp only [Expr.isPlain, Bool.and_eq_true, Bool.not_eq_true'] at hplain
        rw [Expr.Written]
        exact ⟨hplain.1.1.1, hplain.1.1.2, hleft hr.2.1 hplain.1.2, hright hr.2.2 hplain.2⟩
      · rw [hnode] at hr hplain ⊢
        simp only [Expr.isPlain, Bool.and_eq_true, Bool.not_eq_true'] at hplain
        rw [Expr.Written]
        exact ⟨hplain.1.1, hleft hr.1 hplain.1.2, hright hr.2 hplain.2⟩
termination_by ts e => (sizeOf e, ts.length)

/-- Expressions that were spelled in brackets can be written if they are regular and plain. -/
theorem Expr.Spelled.all_written {start stop : TokenKind} {ts : List Token} {es : List Expr}
    (h : Bracketed (Expr.Spelled .standard) start stop ts es) (hts : ∀ t ∈ ts, t.Sound)
    (hr : Expr.AllRegular es) (hplain : Expr.allPlain es = true) : Expr.AllWritten es := by
  rw [Expr.allRegular_iff] at hr
  rw [Expr.allPlain_iff] at hplain
  rw [Expr.allWritten_iff]
  intro e he
  obtain ⟨us, hus, hspelled⟩ := h.mem he
  have := List.sizeOf_lt_of_mem he
  exact hspelled.written (fun t ht => hts t (hus ht)) (hr e he) (hplain e he)
termination_by (sizeOf es, ts.length)

/-- **Statements that were read.** If the tokens of a text spell a plain statement, its own text can
be read again: its names are words, its literals unsigned and its types those of a text. -/
theorem Stmt.Spelled.written : ∀ {ts : List Token} {s : Stmt}, s.Spelled .standard ts →
    (∀ t ∈ ts, t.Sound) → s.Regular → s.isPlain = true → s.Written
  | _, _, .letVar _ hname hd _ he _, hts, hr, hplain => by
      rw [Stmt.Written]
      refine ⟨hname.isName fun t ht => hts t (by simp [ht]), fun t hdeclared => ?_,
        he.written (fun t ht => hts t (by simp [ht])) hr.2 hplain⟩
      cases hd with
      | none => cases hdeclared
      | some _ hty => exact Option.some.inj hdeclared ▸ hty.written
  | _, _, .fnDecl _ hname hs hb, hts, hr, hplain => by
      rw [Stmt.Written]
      exact ⟨hname.isName fun t ht => hts t (by simp [ht]),
        hs.written fun t ht => hts t (by simp [ht]),
        hb.written (fun t ht => hts t (by simp [ht])) hr.2 hplain⟩
  | _, _, .ret _ _, _, _, _ | _, _, .breakLoop _ _, _, _, _ | _, _, .continueLoop _ _, _, _, _ => by
      rw [Stmt.Written]
      trivial
  | _, _, .retValue _ he _, hts, hr, hplain | _, _, .expr he _, hts, hr, hplain => by
      rw [Stmt.Written]
      exact he.written (fun t ht => hts t (by simp [ht])) hr hplain
  | _, _, .cond _ ht hy, hts, hr, hplain => by
      rw [Stmt.isPlain, Bool.and_eq_true_iff] at hplain
      rw [Stmt.Written]
      exact ⟨ht.written (fun t ht => hts t (by simp [ht])) hr.1 hplain.1,
        hy.written (fun t ht => hts t (by simp [ht])) hr.2 hplain.2⟩
  | _, _, .condElse _ ht hy _ hn, hts, hr, hplain => by
      rw [Stmt.isPlain, Bool.and_eq_true_iff, Bool.and_eq_true_iff] at hplain
      rw [Stmt.Written]
      exact ⟨ht.written (fun t ht => hts t (by simp [ht])) hr.1 hplain.1.1,
        hy.written (fun t ht => hts t (by simp [ht])) hr.2.1 hplain.1.2, hr.2.2.1,
        hn.written (fun t ht => hts t (by simp [ht])) hr.2.2.2 hplain.2⟩
  | _, _, .whileLoop _ ht hb, hts, hr, hplain => by
      rw [Stmt.isPlain, Bool.and_eq_true_iff] at hplain
      rw [Stmt.Written]
      exact ⟨ht.written (fun t ht => hts t (by simp [ht])) hr.1 hplain.1,
        hb.written (fun t ht => hts t (by simp [ht])) hr.2 hplain.2⟩
  | _, _, .loop _ hb, hts, hr, hplain | _, _, .block hb, hts, hr, hplain => by
      rw [Stmt.Written]
      exact hb.written (fun t ht => hts t (by simp [ht])) hr hplain
termination_by ts s => (sizeOf s, ts.length)

/-- **Blocks that were read.** -/
theorem Block.Spelled.written : ∀ {tail : Bool} {ts : List Token} {b : Block},
    b.Spelled .standard tail ts → (∀ t ∈ ts, t.Sound) → b.Regular tail → b.isPlain = true →
    b.Written tail
  | _, _, _, .mk _ h, hts, hr, hplain =>
      BodySpelled.written h (fun t ht => hts t (by simp [ht])) hr hplain
termination_by _ ts b => (sizeOf b, ts.length)

/-- **Bodies that were read.** -/
theorem BodySpelled.written : ∀ {stop : TokenKind} {tail : Bool} {ts : List Token}
    {ss : List Stmt} {result : Option Expr} {n : Note},
    BodySpelled .standard stop tail ts ss result → (∀ t ∈ ts, t.Sound) →
    (Block.mk n ss result).Regular tail → (Block.mk n ss result).isPlain = true →
    (Block.mk n ss result).Written tail
  | _, _, _, _, _, _, .nil _, _, _, _ => trivial
  | _, _, _, _, _, _, .result he _, hts, hr, hplain =>
      ⟨hr.1, trivial, he.written (fun t ht => hts t (by simp [ht])) hr.2.2 hplain⟩
  | _, _, _, _, _, _, .cons hs h, hts, hr, hplain => by
      have hr := Block.regular_cons.mp hr
      have hplain := Block.isPlain_cons.mp hplain
      exact Block.written_cons.mpr ⟨hs.written (fun t ht => hts t (by simp [ht])) hr.1 hplain.1,
        h.written (fun t ht => hts t (by simp [ht])) hr.2 hplain.2⟩
  | _, _, _, _, _, _, .lost hlenient _ _, _, _, _
  | _, _, _, _, _, _, .unclosed hlenient, _, _, _ => by cases hlenient
termination_by _ _ ts ss result => (sizeOf ss + sizeOf result, ts.length)

end

/-! ### Programs -/

/-- A program that was parsed without errors can be written if it is plain. -/
theorem parseTokens_written {size : Nat} {tokens : List Token} (hts : ∀ t ∈ tokens, t.Sound)
    (herr : (parseTokens .standard size tokens).2 = [])
    (hplain : (parseTokens .standard size tokens).1.root.isPlain = true) :
    (parseTokens .standard size tokens).1.root.Written true := by
  have hr := @parseTokens_regular .standard size tokens
  have hgoes := (Parse.same_body (8 * tokens.length + 8) _ .eof true (.start .standard tokens)
    (by simp [ParseState.start]) (Nat.le_refl _)).2
  unfold parseTokens at herr hplain hr ⊢
  split at herr
  · next hrun =>
      rw [hrun] at hplain hr
      obtain ⟨used, hused, hspelled⟩ := (Parse.Goes.of_ok hgoes hrun).2.used false
        fun _ => List.reverse_eq_nil_iff.mp herr
      refine hspelled.written (fun t ht => hts t ?_) hr hplain
      change tokens = used ++ _ at hused
      rw [hused]
      exact List.mem_append_left _ ht
  · exact absurd (List.reverse_eq_nil_iff.mp herr) (List.cons_ne_nil _ _)

/-- The tokens that a program prints are parsed without errors, as the same program. -/
theorem parseTokens_contents {b : Block} (h : b.Written true) {tokens : List Token} {eof : Token}
    (heof : eof.kind = .eof) (hts : tokens.map Token.content = b.lineContents) (size : Nat) :
    (parseTokens .standard size (tokens ++ [eof])).2 = [] ∧
      (parseTokens .standard size (tokens ++ [eof])).1.root.erase = b.erase := by
  have hcontents : (tokens ++ [eof]).map Token.content = b.lineContents ++ [(.eof, eof.text)] := by
    rw [List.map_append, hts, ← heof]
    rfl
  have hfuel : 8 * (b.lineContents ++ [(TokenKind.eof, eof.text)]).length + 6 ≤
      8 * (tokens ++ [eof]).length + 8 := by
    rw [← hcontents, List.length_map]
    omega
  obtain ⟨⟨stmts, tail⟩, s, hrun, herase, -, -, herrors⟩ :=
    (Parse.reads_body h).consumes (.inr rfl) hfuel (.start .standard (tokens ++ [eof])) rfl hcontents
  rw [parseTokens, hrun]
  exact ⟨congrArg List.reverse herrors, herase _⟩

namespace CompileOptions

variable {o : CompileOptions} {text : List Char}

/-- The tokens that lexing gives are items of the text. -/
theorem lex_mem {tokens : List Token} (h : o.lex text = .ok tokens) {t : Token} (ht : t ∈ tokens) :
    .ok t ∈ lexItems o.grammar o.recovery text := by
  unfold lex at h
  dsimp only at h
  split at h
  · obtain rfl := Except.ok.inj h
    obtain ⟨item, hitem, hok⟩ := List.mem_filterMap.mp ht
    cases item with
    | error e => cases hok
    | ok t' =>
        obtain rfl := Option.some.inj hok
        exact hitem
  · cases h

/-- A text without faulty items is lexed. -/
theorem lex_eq_ok {tokens : List Token} (h : lexItems o.grammar o.recovery text = tokens.map .ok) :
    o.lex text = .ok tokens := by
  have hok : ∀ tokens : List Token,
      (tokens.map (.ok : Token → LexItem)).filterMap Except.toOption = tokens := fun tokens => by
    induction tokens with
    | nil => rfl
    | cons t tokens ih => exact congrArg (t :: ·) ih
  unfold lex
  dsimp only
  rw [h, if_pos, hok]
  simp

/-- **Programs print and parse back.** If a text is parsed under the usual grammar and the tree is
plain, the text of the tree is parsed too, as the same tree up to the notes. -/
theorem parse_render {p : Program} (ho : o.grammar = .standard) (h : o.parse text = .ok p)
    (hplain : p.root.isPlain = true) :
    ∃ p', o.parse p.render.toList = .ok p' ∧ p'.root.erase = p.root.erase := by
  obtain ⟨tokens, hlex, -, hparsed⟩ := parse_eq_ok_iff.mp h
  rw [ho] at hparsed
  have hwritten : p.root.Written true := by
    have hw := @parseTokens_written (byteLength text) tokens
    rw [hparsed] at hw
    exact hw (fun t ht => sound_of_lexItems (ho ▸ lex_mem hlex ht)) rfl hplain
  obtain ⟨tokens', eof, hitems, heof, hcontents⟩ :=
    lexes_of_spells Grammar.usable_standard o.recovery (hwritten.spells_lines 0)
  obtain ⟨herr, herase⟩ := parseTokens_contents hwritten heof hcontents (byteLength p.render.toList)
  refine ⟨_, parse_eq_ok_iff.mpr ⟨tokens' ++ [eof], lex_eq_ok ?_, ?_, ?_⟩, herase⟩
  · rw [ho]
    exact hitems
  · rw [ho]
    exact parseOverflows_eq_false Grammar.bounded_standard _
  · rw [ho, ← herr]

end CompileOptions

/-- A float that prints without a point is not plain. -/
example : (Expr.lit default (.float (.ofDecimal false 1 16))).isPlain = false := by
  decide +kernel

/-- An assignment that is an operand is not plain: `(a = b) + 1` prints as `(a = b + 1)`. -/
example :
    (Expr.binary default .add (.assign default (.ident default "a") (.ident default "b"))
      (.lit default (.int 1))).isPlain = false := by
  decide

end Parlance
