import Parlance.Proofs.Tree.LiteralTexts
import Parlance.Proofs.Tree.Precedence
import Parlance.Proofs.Tree.Shape
import Parlance.Tree.Printer

/-!
# The texts of trees

The text of a tree has the tokens of its parts in order, with keywords, operators and punctuation
between them (`Expr.contents`, `Stmt.contents`, `Block.contents`). Blanks and lines make no tokens,
so the indentation is left out here. Operators and casts are in parentheses; an assignment is not,
and so it may not be an operand.

## Main definitions

* `Expr.contents`, `Stmt.contents`, `Block.contents`: the tokens that trees print.
* `Expr.Written`, `Stmt.Written`, `Block.Written`: the trees that print as they were read.

## Main results

* `Expr.Written.spells`, `Stmt.Written.spells`, `Block.Written.spells`: the texts of trees have the
  tokens of the trees.
* `Block.Written.spells_lines`: so has the text of a program.
-/

namespace Parlance

/-- The indentation of a line is left out. -/
theorem Spells.padding {g : Grammar} {cs : List Char} {contents : List Content} (indent : Nat)
    (h : Spells g cs contents) : Spells g ((padding indent).toList ++ cs) contents := by
  rw [Parlance.padding, String.toList_ofList]
  induction indent with
  | zero => exact h
  | succ indent ih => exact ih.space

/-! ### Names and lists -/

/-- A name of a program: a word that is neither a keyword nor an operator. -/
def IsName (name : String) : Prop :=
  isWord name.toList = true ∧ Grammar.standard.wordKind name.toList = .ident

/-- The content of a name. -/
def nameContent (name : String) : Content :=
  (.ident, name.toList)

/-- A new line stands apart. -/
theorem Grammar.apart_line (rest : List Char) : Apart ('\n' :: rest) := by
  rintro c ⟨⟩
  exact ⟨rfl, by decide⟩

namespace Grammar

variable {rest : List Char} {contents : List Content}

/-- A name, where the word does not go on. -/
theorem spells_name {name : String} (hname : IsName name) (hrest : Clear rest)
    (h : Spells standard rest contents) :
    Spells standard (name.toList ++ rest) (nameContent name :: contents) := by
  refine spells_word hname.1 hname.2 ?_ hrest h
  have hword := hname.1
  cases hn : name.toList with
  | nil =>
      rw [hn] at hword
      cases hword
  | cons c l =>
      rw [hn] at hword
      have hc : isIdStart c = true := (Bool.and_eq_true_iff.mp hword).1
      exact bare_standard (isBlank_of_isIdStart hc) (ne_slash_of_isIdStart hc)

/-- An operator between spaces. -/
theorem spells_spaced (op : Operator) (h : Spells standard rest contents) :
    Spells standard (' ' :: (op.name.toList ++ ' ' :: rest)) (op.content :: contents) :=
  (spells_operator op h.space).space

end Grammar

/-! ### Contents of trees -/

/-- The content of a parameter. -/
def Param.contents (p : Param) : List Content :=
  nameContent p.name :: Punct.colon.content :: p.ty.contents

/-- The content of a signature. The result is always written. -/
def Signature.contents (s : Signature) : List Content :=
  Punct.openParen.content :: (commaSeparated (s.params.map Param.contents) ++
    Punct.closeParen.content :: Punct.arrow.content :: s.returns.contents)

mutual

/-- The tokens that an expression prints. -/
def Expr.contents : Expr → List Content
  | .lit _ v => [v.content]
  | .ident _ name => [nameContent name]
  | .unary _ op e =>
    Punct.openParen.content :: op.toOperator.content :: (e.contents ++ [Punct.closeParen.content])
  | .binary _ op l r =>
    Punct.openParen.content ::
      (l.contents ++ op.toOperator.content :: (r.contents ++ [Punct.closeParen.content]))
  | .assign _ t v => t.contents ++ Operator.assign.content :: v.contents
  | .call _ f args =>
    f.contents ++ Punct.openParen.content ::
      (commaSeparated (Expr.eachContents args) ++ [Punct.closeParen.content])
  | .index _ t i =>
    t.contents ++ Punct.openBracket.content :: (i.contents ++ [Punct.closeBracket.content])
  | .list _ items =>
    Punct.openBracket.content ::
      (commaSeparated (Expr.eachContents items) ++ [Punct.closeBracket.content])
  | .cast _ e t =>
    Punct.openParen.content ::
      (e.contents ++ [Keyword.asKw.content, nameContent t.name, Punct.closeParen.content])
  | .lambda _ s b => Keyword.fnKw.content :: (s.contents ++ b.contents)

def Expr.eachContents : List Expr → List (List Content)
  | [] => []
  | e :: es => e.contents :: Expr.eachContents es

/-- The tokens that a statement prints. -/
def Stmt.contents : Stmt → List Content
  | .block b => b.contents
  | .letVar _ name none init =>
    Keyword.letKw.content :: nameContent name :: Operator.assign.content ::
      (init.contents ++ [Punct.semicolon.content])
  | .letVar _ name (some t) init =>
    Keyword.letKw.content :: nameContent name :: Punct.colon.content ::
      (t.contents ++ Operator.assign.content :: (init.contents ++ [Punct.semicolon.content]))
  | .fnDecl _ name s b => Keyword.fnKw.content :: nameContent name :: (s.contents ++ b.contents)
  | .ret _ none => [Keyword.returnKw.content, Punct.semicolon.content]
  | .ret _ (some e) => Keyword.returnKw.content :: (e.contents ++ [Punct.semicolon.content])
  | .cond _ test yes none => Keyword.ifKw.content :: (test.contents ++ yes.contents)
  | .cond _ test yes (some no) =>
    Keyword.ifKw.content ::
      (test.contents ++ (yes.contents ++ Keyword.elseKw.content :: no.contents))
  | .whileLoop _ test b => Keyword.whileKw.content :: (test.contents ++ b.contents)
  | .loop _ b => Keyword.loopKw.content :: b.contents
  | .breakLoop _ => [Keyword.breakKw.content, Punct.semicolon.content]
  | .continueLoop _ => [Keyword.continueKw.content, Punct.semicolon.content]
  | .expr _ e => e.contents ++ [Punct.semicolon.content]

def Stmt.contentsAll : List Stmt → List Content
  | [] => []
  | s :: ss => s.contents ++ Stmt.contentsAll ss

/-- The tokens that the lines of a block print. -/
def Block.lineContents : Block → List Content
  | .mk _ ss none => Stmt.contentsAll ss
  | .mk _ ss (some e) => Stmt.contentsAll ss ++ e.contents

/-- The tokens that a block prints. -/
def Block.contents : Block → List Content
  | .mk _ ss none =>
    Punct.openBrace.content :: (Stmt.contentsAll ss ++ [Punct.closeBrace.content])
  | .mk _ ss (some e) =>
    Punct.openBrace.content ::
      (Stmt.contentsAll ss ++ (e.contents ++ [Punct.closeBrace.content]))

end

/-! ### Trees that print as they were read -/

/-- The types of a signature can be named, and so can its parameters. -/
def Signature.Written (s : Signature) : Prop :=
  (∀ p ∈ s.params, IsName p.name ∧ p.ty.Written) ∧ s.returns.Written

/-- Whether an expression is an assignment, the one operator that prints without parentheses. -/
def Expr.isAssign : Expr → Bool
  | .assign _ _ _ => true
  | _ => false

mutual

/-- Expressions whose text has their tokens and groups as they do: no operand is an assignment. -/
def Expr.Written : Expr → Prop
  | .lit _ v => v.Written
  | .ident _ name => IsName name
  | .unary _ _ e | .cast _ e _ => e.isAssign = false ∧ e.Written
  | .binary _ _ l r => l.isAssign = false ∧ r.isAssign = false ∧ l.Written ∧ r.Written
  | .assign _ t v => t.isAssign = false ∧ t.Written ∧ v.Written
  | .call _ f args => f.isAssign = false ∧ f.Written ∧ Expr.AllWritten args
  | .index _ t i => t.isAssign = false ∧ t.Written ∧ i.Written
  | .list _ items => Expr.AllWritten items
  | .lambda _ s b => s.Written ∧ b.Written true

def Expr.AllWritten : List Expr → Prop
  | [] => True
  | e :: es => e.Written ∧ Expr.AllWritten es

/-- Statements whose text has their tokens. -/
def Stmt.Written : Stmt → Prop
  | .block b | .loop _ b => b.Written false
  | .letVar _ name declared init => IsName name ∧ (∀ t, declared = some t → t.Written) ∧ init.Written
  | .fnDecl _ name s b => IsName name ∧ s.Written ∧ b.Written true
  | .ret _ none | .breakLoop _ | .continueLoop _ => True
  | .expr _ e | .ret _ (some e) => e.Written
  | .cond _ test yes none => test.Written ∧ yes.Written false
  | .cond _ test yes (some no) =>
    test.Written ∧ yes.Written false ∧ no.IsAlternate ∧ no.Written
  | .whileLoop _ test b => test.Written ∧ b.Written false

def Stmt.AllWritten : List Stmt → Prop
  | [] => True
  | s :: ss => s.Written ∧ Stmt.AllWritten ss

/-- Blocks whose text has their tokens. They end with a result only if `tail` holds. -/
def Block.Written (tail : Bool) : Block → Prop
  | .mk _ ss none => Stmt.AllWritten ss
  | .mk _ ss (some e) => tail = true ∧ Stmt.AllWritten ss ∧ e.Written

end

/-! ### Texts of trees -/

/-- Expressions are printed one by one. -/
theorem Expr.renderAll_eq (indent : Nat) (es : List Expr) :
    Expr.renderAll indent es = es.map (Expr.render indent) := by
  induction es with
  | nil => rfl
  | cons e es ih => rw [renderAll, ih, List.map_cons]

/-- The tokens of expressions are those of each. -/
theorem Expr.eachContents_eq (es : List Expr) : Expr.eachContents es = es.map Expr.contents := by
  induction es with
  | nil => rfl
  | cons e es ih => rw [eachContents, ih, List.map_cons]

section

open Grammar

variable {rest : List Char} {contents : List Content}

/-- A printed parameter spells its tokens, in front of what stands apart. -/
theorem Param.spells {p : Param} (hname : IsName p.name) (hty : p.ty.Written)
    (hrest : Apart rest) (hs : Spells standard rest contents) :
    Spells standard ((p.name ++ ": " ++ p.ty.render).toList ++ rest) (p.contents ++ contents) := by
  rw [Param.contents]
  simp only [String.toList_append, List.append_assoc, List.cons_append]
  exact spells_name hname (apart_punct .colon _).clear
    (spells_punct .colon (hty.spells hrest.clear hs).space)

/-- A printed signature spells its tokens. -/
theorem Signature.Written.spells {s : Signature} (h : s.Written)
    (hs : Spells standard rest contents) :
    Spells standard (s.render.toList ++ ' ' :: rest) (s.contents ++ contents) := by
  obtain ⟨hparams, hreturns⟩ := h
  have hresult := spells_punct .arrow (hreturns.spells (apart_space _).clear hs.space).space
  have hitems := spells_commaSeparated (apart_punct .comma)
    (fun p hp _ _ => Param.spells (hparams p hp).1 (hparams p hp).2) (apart_punct .closeParen _)
    (spells_punct .closeParen hresult.space)
  rw [render, Signature.contents]
  simp only [String.toList_append, List.append_assoc, List.cons_append]
  exact spells_punct .openParen hitems

/-- A signature begins with a parenthesis and goes on with no word. -/
theorem Signature.clear (s : Signature) (rest : List Char) : Clear (s.render.toList ++ rest) := by
  rw [render]
  simp only [String.toList_append, List.append_assoc]
  exact (apart_punct .openParen _).clear

/-- The name of a scalar type is a name. -/
theorem Scalar.isName (t : Scalar) : IsName t.name := by
  unfold IsName
  rw [standard_eq]
  cases t <;> decide

/-- A literal begins with a character that does not join a symbol in front of it to a longer one. -/
theorem Lit.Written.head {v : Lit} (h : v.Written) :
    ∃ c cs, v.render.toList = c :: cs ∧ c ≠ '>' ∧ c ≠ '=' := by
  have hdecimal : ∀ {text : List Char} {d : Binary64.Decimal}, Binary64.DecimalText text d →
      ∃ c cs, text = c :: cs ∧ c ≠ '>' ∧ c ≠ '=' := fun hd => by
    obtain ⟨c, cs, htext, hc⟩ := hd.exists_head
    exact ⟨c, cs, htext, ne_of_isIdContinue (isIdContinue_of_isDigit hc)⟩
  cases v with
  | int n => exact hdecimal (int_written h.1).1
  | float x =>
      obtain ⟨d, hd, -, -⟩ := float_written h
      exact hdecimal hd
  | bool b => cases b <;> exact ⟨_, _, rfl, by decide, by decide⟩
  | str s => exact ⟨_, _, toList_quote s, by decide, by decide⟩

/-- The text of an expression goes on with no symbol: it begins with a letter, a digit, a quote, a
bracket or a prefix operator. -/
theorem Expr.Written.head (indent : Nat) : ∀ {e : Expr}, e.Written →
    ∃ c cs, (e.render indent).toList = c :: cs ∧ c ≠ '>' ∧ c ≠ '='
  | .lit _ v, h => by
      rw [render]
      exact Lit.Written.head h
  | .ident _ name, h => by
      obtain ⟨hword, -⟩ := h
      rw [render]
      cases hname : name.toList with
      | nil =>
          rw [hname] at hword
          cases hword
      | cons c cs =>
          rw [hname] at hword
          have hc : isIdStart c = true := (Bool.and_eq_true_iff.mp hword).1
          exact ⟨c, cs, rfl, by rintro rfl; exact absurd hc (by decide),
            by rintro rfl; exact absurd hc (by decide)⟩
  | .unary _ op e, _ => by
      rw [render]
      simp only [String.toList_append, List.append_assoc]
      exact ⟨_, _, rfl, by decide, by decide⟩
  | .binary _ op l r, _ => by
      rw [render]
      simp only [String.toList_append, List.append_assoc]
      exact ⟨_, _, rfl, by decide, by decide⟩
  | .assign _ t v, h => by
      obtain ⟨c, cs, htext, hc⟩ := head indent h.2.1
      rw [render, String.toList_append, String.toList_append, htext]
      exact ⟨c, _, rfl, hc⟩
  | .call _ f args, h => by
      obtain ⟨c, cs, htext, hc⟩ := head indent h.2.1
      rw [render]
      simp only [String.toList_append, htext]
      exact ⟨c, _, rfl, hc⟩
  | .index _ t i, h => by
      obtain ⟨c, cs, htext, hc⟩ := head indent h.2.1
      rw [render]
      simp only [String.toList_append, htext]
      exact ⟨c, _, rfl, hc⟩
  | .list _ items, _ => by
      rw [render]
      simp only [String.toList_append, List.append_assoc]
      exact ⟨_, _, rfl, by decide, by decide⟩
  | .cast _ e t, _ => by
      rw [render]
      simp only [String.toList_append, List.append_assoc]
      exact ⟨_, _, rfl, by decide, by decide⟩
  | .lambda _ s b, _ => by
      rw [render]
      simp only [String.toList_append, List.append_assoc]
      exact ⟨_, _, rfl, by decide, by decide⟩

mutual

/-- **The text of an expression** has the tokens of the expression, if it stands apart from what
follows. -/
theorem Expr.Written.spells (indent : Nat) : ∀ {e : Expr}, e.Written →
    ∀ {rest : List Char} {contents : List Content}, Apart rest → Spells standard rest contents →
      Spells standard ((e.render indent).toList ++ rest) (e.contents ++ contents)
  | .lit _ v, h, rest, contents, hrest, hs => by
      rw [Expr.render, Expr.contents]
      exact Lit.Written.spells h hrest hs
  | .ident _ name, h, rest, contents, hrest, hs => by
      rw [Expr.render, Expr.contents]
      exact spells_name h hrest.clear hs
  | .unary _ op e, h, rest, contents, _, hs => by
      obtain ⟨c, cs, htext, harrow, heq⟩ := h.2.head indent
      have hoperand := h.2.spells indent (apart_punct .closeParen _) (spells_punct .closeParen hs)
      rw [htext] at hoperand
      rw [Expr.render, Expr.contents]
      simp only [String.toList_append, List.append_assoc, List.cons_append, htext]
      exact spells_punct .openParen (spells_unary op harrow heq hoperand)
  | .binary _ op l r, h, rest, contents, _, hs => by
      have hright := h.2.2.2.spells indent (apart_punct .closeParen _) (spells_punct .closeParen hs)
      have hleft := h.2.2.1.spells indent (apart_space _) (spells_spaced op.toOperator hright)
      have hname : op.toOperator.name = op.name := by cases op <;> rfl
      rw [hname] at hleft
      rw [Expr.render, Expr.contents]
      simp only [String.toList_append, List.append_assoc, List.cons_append]
      exact spells_punct .openParen hleft
  | .assign _ t v, h, rest, contents, hrest, hs => by
      have hvalue := h.2.2.spells indent hrest hs
      have htarget := h.2.1.spells indent (apart_space _) (spells_spaced .assign hvalue)
      rw [Expr.render, Expr.contents]
      simp only [String.toList_append, List.append_assoc, List.cons_append]
      exact htarget
  | .call _ f args, h, rest, contents, _, hs => by
      have hargs := spells_commaSeparated (apart_punct .comma) (Expr.AllWritten.spells indent h.2.2)
        (apart_punct .closeParen _) (spells_punct .closeParen hs)
      have hcallee := h.2.1.spells indent (apart_punct .openParen _) (spells_punct .openParen hargs)
      rw [Expr.render, Expr.contents, Expr.renderAll_eq, Expr.eachContents_eq]
      simp only [String.toList_append, List.append_assoc, List.cons_append]
      exact hcallee
  | .index _ t i, h, rest, contents, _, hs => by
      have hindex := h.2.2.spells indent (apart_punct .closeBracket _)
        (spells_punct .closeBracket hs)
      have htarget := h.2.1.spells indent (apart_punct .openBracket _)
        (spells_punct .openBracket hindex)
      rw [Expr.render, Expr.contents]
      simp only [String.toList_append, List.append_assoc, List.cons_append]
      exact htarget
  | .list _ items, h, rest, contents, _, hs => by
      have hitems := spells_commaSeparated (apart_punct .comma) (Expr.AllWritten.spells indent h)
        (apart_punct .closeBracket _) (spells_punct .closeBracket hs)
      rw [Expr.render, Expr.contents, Expr.renderAll_eq, Expr.eachContents_eq]
      simp only [String.toList_append, List.append_assoc, List.cons_append]
      exact spells_punct .openBracket hitems
  | .cast _ e t, h, rest, contents, _, hs => by
      have htype := spells_name t.isName (apart_punct .closeParen _).clear (spells_punct .closeParen hs)
      have hoperand := h.2.spells indent (apart_space _)
        (spells_keyword .asKw (apart_space _).clear htype.space).space
      rw [Expr.render, Expr.contents]
      simp only [String.toList_append, List.append_assoc, List.cons_append]
      exact spells_punct .openParen hoperand
  | .lambda _ s b, h, rest, contents, _, hs => by
      have hbody := h.2.spells indent hs
      have hsignature := h.1.spells hbody
      rw [Expr.render, Expr.contents]
      simp only [String.toList_append, List.append_assoc, List.cons_append]
      exact spells_keyword .fnKw (s.clear _) hsignature

/-- Each of several printed expressions spells its tokens. -/
theorem Expr.AllWritten.spells (indent : Nat) : ∀ {es : List Expr}, Expr.AllWritten es →
    ∀ e ∈ es, ∀ {rest : List Char} {contents : List Content}, Apart rest →
      Spells standard rest contents →
      Spells standard ((e.render indent).toList ++ rest) (e.contents ++ contents)
  | [], _, e, he => by cases he
  | e :: es, h, e', he => by
      rcases List.mem_cons.mp he with heq | he
      · rw [heq]
        exact h.1.spells indent
      · exact Expr.AllWritten.spells indent h.2 e' he

/-- **The text of a statement** has the tokens of the statement, whatever follows. Each keyword and
each name is followed by what does not go on with it. -/
theorem Stmt.Written.spells (indent : Nat) : ∀ {s : Stmt}, s.Written →
    ∀ {rest : List Char} {contents : List Content}, Spells standard rest contents →
      Spells standard ((s.render indent).toList ++ rest) (s.contents ++ contents)
  | .block b, h, rest, contents, hs => by
      rw [Stmt.render, Stmt.contents]
      exact Block.Written.spells indent h hs
  | .letVar _ name none init, h, rest, contents, hs => by
      have hinit := h.2.2.spells indent (apart_punct .semicolon _) (spells_punct .semicolon hs)
      have hname := spells_name h.1 (apart_space _).clear (spells_spaced .assign hinit)
      rw [Stmt.render, Stmt.contents]
      simp only [String.toList_append, List.append_assoc, List.cons_append]
      exact spells_keyword .letKw (apart_space _).clear hname.space
  | .letVar _ name (some t) init, h, rest, contents, hs => by
      have hinit := h.2.2.spells indent (apart_punct .semicolon _) (spells_punct .semicolon hs)
      have htype := (h.2.1 t rfl).spells (apart_space _).clear (spells_spaced .assign hinit)
      have hname := spells_name h.1 (apart_punct .colon _).clear (spells_punct .colon htype.space)
      rw [Stmt.render, Stmt.contents]
      simp only [String.toList_append, List.append_assoc, List.cons_append]
      exact spells_keyword .letKw (apart_space _).clear hname.space
  | .fnDecl _ name s b, h, rest, contents, hs => by
      have hsignature := h.2.1.spells (h.2.2.spells indent hs)
      have hname := spells_name h.1 (s.clear _) hsignature
      rw [Stmt.render, Stmt.contents]
      simp only [String.toList_append, List.append_assoc, List.cons_append]
      exact spells_keyword .fnKw (apart_space _).clear hname.space
  | .ret _ none, _, rest, contents, hs => by
      rw [Stmt.render, Stmt.contents]
      exact spells_keyword .returnKw (apart_punct .semicolon _).clear (spells_punct .semicolon hs)
  | .ret _ (some e), h, rest, contents, hs => by
      have hvalue := Expr.Written.spells indent h (apart_punct .semicolon _)
        (spells_punct .semicolon hs)
      rw [Stmt.render, Stmt.contents]
      simp only [String.toList_append, List.append_assoc, List.cons_append]
      exact spells_keyword .returnKw (apart_space _).clear hvalue.space
  | .cond _ test yes none, h, rest, contents, hs => by
      have htest := h.1.spells indent (apart_space _) (h.2.spells indent hs).space
      rw [Stmt.render, Stmt.contents]
      simp only [String.toList_append, List.append_assoc, List.cons_append]
      exact spells_keyword .ifKw (apart_space _).clear htest.space
  | .cond _ test yes (some no), h, rest, contents, hs => by
      have hno := spells_keyword .elseKw (apart_space _).clear (h.2.2.2.spells indent hs).space
      have hyes := h.2.1.spells indent hno.space
      have htest := h.1.spells indent (apart_space _) hyes.space
      rw [Stmt.render, Stmt.contents]
      simp only [String.toList_append, List.append_assoc, List.cons_append]
      exact spells_keyword .ifKw (apart_space _).clear htest.space
  | .whileLoop _ test b, h, rest, contents, hs => by
      have htest := h.1.spells indent (apart_space _) (h.2.spells indent hs).space
      rw [Stmt.render, Stmt.contents]
      simp only [String.toList_append, List.append_assoc, List.cons_append]
      exact spells_keyword .whileKw (apart_space _).clear htest.space
  | .loop _ b, h, rest, contents, hs => by
      rw [Stmt.render, Stmt.contents]
      simp only [String.toList_append, List.append_assoc, List.cons_append]
      exact spells_keyword .loopKw (apart_space _).clear (Block.Written.spells indent h hs).space
  | .breakLoop _, _, rest, contents, hs => by
      rw [Stmt.render, Stmt.contents]
      exact spells_keyword .breakKw (apart_punct .semicolon _).clear (spells_punct .semicolon hs)
  | .continueLoop _, _, rest, contents, hs => by
      rw [Stmt.render, Stmt.contents]
      exact spells_keyword .continueKw (apart_punct .semicolon _).clear (spells_punct .semicolon hs)
  | .expr _ e, h, rest, contents, hs => by
      rw [Stmt.render, Stmt.contents]
      simp only [String.toList_append, List.append_assoc, List.cons_append]
      exact Expr.Written.spells indent h (apart_punct .semicolon _) (spells_punct .semicolon hs)

/-- The lines of statements. -/
theorem Stmt.AllWritten.spells (indent : Nat) : ∀ {ss : List Stmt}, Stmt.AllWritten ss →
    ∀ {rest : List Char} {contents : List Content}, Spells standard rest contents →
      Spells standard ((Stmt.renderLines indent ss).toList ++ rest)
        (Stmt.contentsAll ss ++ contents)
  | [], _, rest, contents, hs => by
      rw [Stmt.renderLines, Stmt.contentsAll]
      exact hs
  | s :: ss, h, rest, contents, hs => by
      have hlines := Stmt.AllWritten.spells indent h.2 hs
      rw [Stmt.renderLines, Stmt.contentsAll]
      simp only [String.toList_append, List.append_assoc]
      exact (h.1.spells indent hlines.line).padding indent

/-- **The text of a block** has the tokens of the block, whatever follows. -/
theorem Block.Written.spells (indent : Nat) : ∀ {b : Block} {tail : Bool}, b.Written tail →
    ∀ {rest : List Char} {contents : List Content}, Spells standard rest contents →
      Spells standard ((b.render indent).toList ++ rest) (b.contents ++ contents)
  | .mk _ ss none, tail, h, rest, contents, hs => by
      have hend := (spells_punct .closeBrace hs).padding indent
      have hlines := Stmt.AllWritten.spells (indent + 4) (show Stmt.AllWritten ss from h) hend
      rw [Block.render, Block.contents]
      simp only [String.toList_append, List.append_assoc, List.cons_append]
      exact spells_punct .openBrace hlines.line
  | .mk _ ss (some e), tail, h, rest, contents, hs => by
      have hend := (spells_punct .closeBrace hs).padding indent
      have hresult := h.2.2.spells (indent + 4) (apart_line _) hend.line
      have hlines := h.2.1.spells (indent + 4) (hresult.padding (indent + 4))
      rw [Block.render, Block.contents]
      simp only [String.toList_append, List.append_assoc, List.cons_append]
      exact spells_punct .openBrace hlines.line

end

/-- **The text of a program** has the tokens of its statements and its result. -/
theorem Block.Written.spells_lines {b : Block} {tail : Bool} (h : b.Written tail) (indent : Nat) :
    Spells standard (b.renderLines indent).toList b.lineContents := by
  have hnil : Spells standard [] [] := .done (bare_nil.skipTrivia _)
  obtain ⟨n, ss, _ | e⟩ := b
  · have hlines := Stmt.AllWritten.spells indent (show Stmt.AllWritten ss from h) hnil
    rw [List.append_nil, List.append_nil] at hlines
    rw [Block.renderLines, Block.lineContents]
    exact hlines
  · have hresult := h.2.2.spells indent (apart_line _) hnil.line
    have hlines := h.2.1.spells indent (hresult.padding indent)
    rw [List.append_nil] at hlines
    rw [Block.renderLines, Block.lineContents]
    simp only [String.toList_append, List.append_assoc]
    exact hlines

end

end Parlance
