import Parlance.Tree.Outline
import Parlance.Tree.Parser

/-!
# Properties of all nodes

`Outline.All` says that a property holds of the notes of all nodes of an outline, with the kinds
of the nodes. It is proved node by node: for a node with its parts, `simp` turns it into the
property of the node and of the parts.

Parsing fills in the label and the range of a note and leaves the rest blank, so every node of a
parsed program has the type `unit` and nothing else is noted yet.

## Main results

* `parseTokens_blank`: the notes of a parsed program.
-/

namespace Parlance

namespace Outline

variable {P : Note → NodeKind → Prop}

/-- A property of the notes of all nodes. -/
def All (P : Note → NodeKind → Prop) (o : Outline) : Prop :=
  ∀ n ∈ o.nodes, P n.note n.kind

/-- A property of the notes of all nodes of some outlines. -/
def AllOf (P : Note → NodeKind → Prop) (os : List (Option Outline)) : Prop :=
  ∀ n ∈ nodesOf os, P n.note n.kind

/-- A property holds of a whole outline if it holds of its first node and of the outlines below. -/
@[simp] theorem all_node {n : Note} {k : NodeKind} {d : String} {cs : List (Option Outline)} :
    (Outline.node n k d cs).All P ↔ P n k ∧ AllOf P cs := by
  simp [All, AllOf, nodes, note, kind]

/-- Where there are no outlines there are no notes. -/
@[simp] theorem allOf_nil : AllOf P [] := by
  simp [AllOf, nodesOf]

/-- A child that is missing has no notes. -/
@[simp] theorem allOf_none_cons {os : List (Option Outline)} :
    AllOf P (none :: os) ↔ AllOf P os := by
  simp [AllOf, nodesOf]

/-- A property holds of outlines if it holds of the first one and of the others. -/
@[simp] theorem allOf_some_cons {o : Outline} {os : List (Option Outline)} :
    AllOf P (some o :: os) ↔ o.All P ∧ AllOf P os := by
  simp [AllOf, All, nodesOf, or_imp, forall_and]

/-- A property holds of outlines in a row if it holds of both parts. -/
@[simp] theorem allOf_append {os os' : List (Option Outline)} :
    AllOf P (os ++ os') ↔ AllOf P os ∧ AllOf P os' := by
  induction os with
  | nil => simp
  | cons o os ih => cases o <;> simp [ih, and_assoc]

end Outline

/-- A property of the notes of all nodes of an expression. -/
def Expr.Notes (P : Note → NodeKind → Prop) (e : Expr) : Prop :=
  e.outline.All P

def Expr.AllNotes (P : Note → NodeKind → Prop) (es : List Expr) : Prop :=
  Outline.AllOf P (Expr.outlines es)

/-- A property of the notes of all nodes of a statement. -/
def Stmt.Notes (P : Note → NodeKind → Prop) (s : Stmt) : Prop :=
  s.outline.All P

def Stmt.AllNotes (P : Note → NodeKind → Prop) (ss : List Stmt) : Prop :=
  Outline.AllOf P (Stmt.outlines ss)

/-- A property of the notes of all nodes of a block. -/
def Block.Notes (P : Note → NodeKind → Prop) (kind : NodeKind) (b : Block) : Prop :=
  (b.outline kind).All P

section

variable {P : Note → NodeKind → Prop}

/-- Without expressions there are no notes. -/
@[simp] theorem Expr.allNotes_nil : Expr.AllNotes P [] := by
  simp [Expr.AllNotes, Expr.outlines]

/-- A property holds of the notes of expressions if it does so for the first one and for the others.
-/
@[simp] theorem Expr.allNotes_cons {e : Expr} {es : List Expr} :
    Expr.AllNotes P (e :: es) ↔ e.Notes P ∧ Expr.AllNotes P es := by
  simp [Expr.AllNotes, Expr.Notes, Expr.outlines]

/-- Without statements there are no notes. -/
@[simp] theorem Stmt.allNotes_nil : Stmt.AllNotes P [] := by
  simp [Stmt.AllNotes, Stmt.outlines]

/-- A property holds of the notes of statements if it does so for the first one and for the others.
-/
@[simp] theorem Stmt.allNotes_cons {s : Stmt} {ss : List Stmt} :
    Stmt.AllNotes P (s :: ss) ↔ s.Notes P ∧ Stmt.AllNotes P ss := by
  simp [Stmt.AllNotes, Stmt.Notes, Stmt.outlines]

/-- The notes of a block are its own, those of its statements and those of its result. -/
@[simp] theorem Block.notes_mk {n : Note} {kind : NodeKind} {ss : List Stmt} {tail : Option Expr} :
    (Block.mk n ss tail).Notes P kind ↔
      P n kind ∧ Stmt.AllNotes P ss ∧ ∀ e, tail = some e → e.Notes P := by
  cases tail <;> simp [Block.Notes, Block.outline, Stmt.AllNotes, Expr.Notes]

namespace Expr

/-- A literal has one note, its own. -/
@[simp] theorem notes_lit {n : Note} {v : Lit} : (Expr.lit n v).Notes P ↔ P n .lit :=
  Outline.all_node.trans (by simp)

/-- A name has one note, its own. -/
@[simp] theorem notes_ident {n : Note} {name : String} :
    (Expr.ident n name).Notes P ↔ P n .ident :=
  Outline.all_node.trans (by simp)

/-- The notes of a unary operation are its own and those of its operand. -/
@[simp] theorem notes_unary {n : Note} {op : UnaryOp} {e : Expr} :
    (Expr.unary n op e).Notes P ↔ P n .unary ∧ e.Notes P :=
  Outline.all_node.trans (by simp [Notes])

/-- The notes of a binary operation are its own and those of both operands. -/
@[simp] theorem notes_binary {n : Note} {op : BinaryOp} {l r : Expr} :
    (Expr.binary n op l r).Notes P ↔ P n .binary ∧ l.Notes P ∧ r.Notes P :=
  Outline.all_node.trans (by simp [Notes])

/-- The notes of an assignment are its own, those of its target and those of its value. -/
@[simp] theorem notes_assign {n : Note} {t v : Expr} :
    (Expr.assign n t v).Notes P ↔ P n .assign ∧ t.Notes P ∧ v.Notes P :=
  Outline.all_node.trans (by simp [Notes])

/-- The notes of a call are its own, those of its callee and those of its arguments. -/
@[simp] theorem notes_call {n : Note} {f : Expr} {args : List Expr} :
    (Expr.call n f args).Notes P ↔ P n .call ∧ f.Notes P ∧ Expr.AllNotes P args :=
  Outline.all_node.trans (by simp [Notes, AllNotes])

/-- The notes of an indexed list are its own, those of the list and those of the index. -/
@[simp] theorem notes_index {n : Note} {t i : Expr} :
    (Expr.index n t i).Notes P ↔ P n .index ∧ t.Notes P ∧ i.Notes P :=
  Outline.all_node.trans (by simp [Notes])

/-- The notes of a list are its own and those of its items. -/
@[simp] theorem notes_list {n : Note} {items : List Expr} :
    (Expr.list n items).Notes P ↔ P n .list ∧ Expr.AllNotes P items :=
  Outline.all_node.trans (by simp [AllNotes])

/-- The notes of a cast are its own and those of its operand, as the type behind `as` is no node. -/
@[simp] theorem notes_cast {n : Note} {e : Expr} {target : Scalar} :
    (Expr.cast n e target).Notes P ↔ P n .cast ∧ e.Notes P :=
  Outline.all_node.trans (by simp [Notes])

/-- The notes of a lambda are its own and those of its body, as the parameters are no nodes. -/
@[simp] theorem notes_lambda {n : Note} {s : Signature} {b : Block} :
    (Expr.lambda n s b).Notes P ↔ P n .lambda ∧ b.Notes P .block :=
  Outline.all_node.trans (by simp [Block.Notes])

end Expr

namespace Stmt

/-- A block as a statement has the notes of the block, and none beside. -/
@[simp] theorem notes_block {b : Block} : (Stmt.block b).Notes P ↔ b.Notes P .block :=
  Iff.rfl

/-- The notes of a `let` are its own and those of its value. -/
@[simp] theorem notes_letVar {n : Note} {name : String} {declared : Option Ty} {e : Expr} :
    (Stmt.letVar n name declared e).Notes P ↔ P n .letVar ∧ e.Notes P :=
  Outline.all_node.trans (by simp [Expr.Notes])

/-- The notes of a declared function are its own and those of its body. -/
@[simp] theorem notes_fnDecl {n : Note} {name : String} {s : Signature} {b : Block} :
    (Stmt.fnDecl n name s b).Notes P ↔ P n .fnDecl ∧ b.Notes P .block :=
  Outline.all_node.trans (by simp [Block.Notes])

/-- The notes of a `return` are its own and those of its value, if it has one. -/
@[simp] theorem notes_ret {n : Note} {value : Option Expr} :
    (Stmt.ret n value).Notes P ↔ P n .ret ∧ ∀ e, value = some e → e.Notes P := by
  cases value <;> simp [Notes, Expr.Notes, outline]

/-- The notes of a conditional are its own, those of its test and those of its branches. -/
@[simp] theorem notes_cond {n : Note} {test : Expr} {yes : Block} {no : Option Stmt} :
    (Stmt.cond n test yes no).Notes P ↔
      P n .cond ∧ test.Notes P ∧ yes.Notes P .block ∧ ∀ s, no = some s → s.Notes P := by
  cases no <;> simp [Notes, Expr.Notes, Block.Notes, outline]

/-- The notes of a loop with a test are its own, those of the test and those of the body. -/
@[simp] theorem notes_whileLoop {n : Note} {test : Expr} {b : Block} :
    (Stmt.whileLoop n test b).Notes P ↔ P n .whileLoop ∧ test.Notes P ∧ b.Notes P .block :=
  Outline.all_node.trans (by simp [Expr.Notes, Block.Notes])

/-- The notes of a loop without a test are its own and those of its body. -/
@[simp] theorem notes_loop {n : Note} {b : Block} :
    (Stmt.loop n b).Notes P ↔ P n .loop ∧ b.Notes P .block :=
  Outline.all_node.trans (by simp [Block.Notes])

/-- A `break` has one note, its own. -/
@[simp] theorem notes_breakLoop {n : Note} : (Stmt.breakLoop n).Notes P ↔ P n .breakLoop :=
  Outline.all_node.trans (by simp)

/-- A `continue` has one note, its own. -/
@[simp] theorem notes_continueLoop {n : Note} :
    (Stmt.continueLoop n).Notes P ↔ P n .continueLoop :=
  Outline.all_node.trans (by simp)

/-- The notes of an expression as a statement are those of the expression and one of the statement.
-/
@[simp] theorem notes_expr {n : Note} {e : Expr} :
    (Stmt.expr n e).Notes P ↔ P n .exprStmt ∧ e.Notes P :=
  Outline.all_node.trans (by simp [Expr.Notes])

end Stmt

end

/-! ### Parsed trees -/

/-- Nothing was noted yet. -/
def Note.Blank (n : Note) : Prop :=
  n.ty = .unit ∧ n.symbol = none ∧ n.function = none

namespace Parse

variable {α β : Type}

/-- What a parser gives has a property. -/
def Yields (p : Parse α) (P : α → Prop) : Prop :=
  ∀ s a s', p s = .ok a s' → P a

section Rules

variable {P : α → Prop} {Q : β → Prop}

/-- A result that is there already is what is given. -/
theorem Yields.pure {a : α} (h : P a) : Yields (Pure.pure a) P := by
  rintro s b s' ⟨⟩
  exact h

/-- Of two parsers in a row the second one gives the result, and it may rely on what the first one
gave. -/
theorem Yields.bind {p : Parse α} {f : α → Parse β} (hp : Yields p P)
    (hf : ∀ a, P a → Yields (f a) Q) : Yields (p >>= f) Q := by
  intro s b s' h
  change EStateM.bind p f s = _ at h
  unfold EStateM.bind at h
  split at h
  · next a t ha => exact hf a (hp s a t ha) t b s' h
  · cases h

/-- Nothing needs to be known about the first part of a sequence. -/
theorem Yields.after {p : Parse α} {f : α → Parse β} (hf : ∀ a, Yields (f a) Q) :
    Yields (p >>= f) Q :=
  Yields.bind (P := fun _ => True) (fun _ _ _ _ => trivial) fun a _ => hf a

/-- A choice between two parsers gives what both of them give. -/
theorem Yields.ite {c : Prop} [Decidable c] {p q : Parse α} (hp : Yields p P) (hq : Yields q P) :
    Yields (if c then p else q) P := by
  split
  · exact hp
  · exact hq

/-- A parser that fails gives nothing, so everything it gives has every property. -/
theorem yields_throw {e : SyntaxError} : Yields (throw e : Parse α) P := by
  rintro s a s' ⟨⟩

/-- A parser that fails at the current token gives nothing either. -/
theorem yields_fail : Yields (do throw (← unexpected) : Parse α) P :=
  .after fun _ => yields_throw

end Rules

/-- A new note is blank: it has a label and a range, and no type, symbol or function. -/
theorem yields_newNote (start : Nat) : Yields (newNote start) Note.Blank := by
  rintro s a s' ⟨⟩
  exact ⟨rfl, rfl, rfl⟩

/-- Where a parser is tried, a success has the property of what it gives. -/
theorem Yields.attempt {p : Parse α} {P : α → Prop} (h : Yields p P) :
    Yields (attempt p) fun r => ∀ a, r = .ok a → P a := by
  intro s r s' hr a ha
  unfold Parse.attempt at hr
  split at hr
  · next b t hb =>
      cases hr
      cases ha
      exact h s _ _ hb
  · cases hr
    cases ha

/-- Blank notes at all nodes. -/
abbrev BlankExpr (e : Expr) : Prop :=
  e.Notes fun n _ => n.Blank

abbrev BlankBody (r : List Stmt × Option Expr) : Prop :=
  (Stmt.AllNotes (fun n _ => n.Blank) r.1) ∧ ∀ e, r.2 = some e → BlankExpr e

def BlankItem : Item → Prop
  | .stmt s => s.Notes fun n _ => n.Blank
  | .tail e => BlankExpr e

/-- Items up to a closing token have blank notes if each of them has, by induction on the fuel. -/
theorem yields_itemsUntil {fuel : Nat} (h : Yields (expr fuel 1) BlankExpr) (stop : TokenKind) :
    ∀ n, Yields (itemsUntil (expr fuel 1) stop n) (Expr.AllNotes fun n _ => n.Blank)
  | 0 => .pure (by simp)
  | n + 1 => by
      rw [itemsUntil]
      exact .after fun _ => .ite (.pure (by simp)) <| h.bind fun e he => .after fun _ =>
        .ite (.pure (by simpa using he)) <| .after fun _ =>
          (yields_itemsUntil h stop n).bind fun es hes => .pure (by simpa using ⟨he, hes⟩)

/-- Items between brackets have blank notes if each of them has. -/
theorem yields_args {fuel : Nat} (h : Yields (expr fuel 1) BlankExpr) (start stop : TokenKind) :
    Yields (itemsBetween start (expr fuel 1) stop) (Expr.AllNotes fun n _ => n.Blank) :=
  .after fun _ => .after fun _ => yields_itemsUntil h stop _

/-- A binary node or an assignment with a blank note has blank notes if its operands have. -/
theorem blank_infixNode {op : Operator} {n : Note} {l r : Expr} (hn : n.Blank) (hl : BlankExpr l)
    (hr : BlankExpr r) : BlankExpr (infixNode op n l r) := by
  unfold infixNode
  split <;> simpa using ⟨hn, hl, hr⟩

mutual

/-- **Expressions.** A parsed expression has blank notes at all of its nodes, by induction on the
fuel together with the other parsers. -/
theorem yields_expr : ∀ (fuel : Nat) (least : UInt8), Yields (expr fuel least) BlankExpr
  | 0, _ => by rw [expr]; exact yields_fail
  | fuel + 1, least => by
      rw [expr]
      exact .after fun _ => (yields_unary fuel).bind fun _ h => yields_operators fuel least _ _ h

/-- The operators behind an operand with blank notes give an expression with blank notes. -/
theorem yields_operators : ∀ (fuel : Nat) (least : UInt8) (start : Nat) (left : Expr),
    BlankExpr left → Yields (operators fuel least start left) BlankExpr
  | 0, _, _, _, h => by rw [operators]; exact .pure h
  | fuel + 1, least, start, left, h => by
      rw [operators]
      refine .after fun t => ?_
      split
      · refine .after fun _ => .ite (.pure h) <| .after fun _ => .after fun _ => .after fun _ => ?_
        split
        · exact .after fun _ => yields_throw
        · exact (yields_newNote start).bind fun n hn =>
            yields_operators fuel least start _ (by simpa using ⟨hn, h⟩)
      · refine .after fun _ => ?_
        split
        · exact .pure h
        · exact .ite (.pure h) <| .after fun _ => .after fun _ => (yields_expr fuel _).bind
            fun r hr => (yields_newNote start).bind fun n hn =>
              yields_operators fuel least start _ (blank_infixNode hn h hr)
      · exact .pure h

/-- An operator in front gets a blank note. -/
theorem yields_unary : ∀ fuel : Nat, Yields (unary fuel) BlankExpr
  | 0 => by rw [unary]; exact yields_fail
  | fuel + 1 => by
      rw [unary]
      refine .after fun start => .after fun t => ?_
      split
      · exact .after fun _ => .ite
          (.after fun _ => .after fun _ => (yields_expr fuel _).bind fun e he =>
            (yields_newNote start).bind fun n hn => .pure (by simpa using ⟨hn, he⟩))
          (yields_primary fuel)
      · exact yields_primary fuel

/-- An expression with its suffixes has blank notes. -/
theorem yields_primary : ∀ fuel : Nat, Yields (primary fuel) BlankExpr
  | 0 => by rw [primary]; exact yields_fail
  | fuel + 1 => by
      rw [primary]
      exact .after fun _ => (yields_atom fuel).bind fun _ h => yields_suffixes fuel _ _ h

/-- Every call and every index behind an expression gets a blank note. -/
theorem yields_suffixes : ∀ (fuel start : Nat) (e : Expr), BlankExpr e →
    Yields (suffixes fuel start e) BlankExpr
  | 0, _, _, h => by rw [suffixes]; exact .pure h
  | fuel + 1, start, e, h => by
      rw [suffixes]
      exact .after fun _ => .ite
        ((yields_args (yields_expr fuel 1) _ _).bind fun _ hargs =>
          (yields_newNote start).bind fun n hn =>
            yields_suffixes fuel start _ (by simpa using ⟨hn, h, hargs⟩)) <|
        .after fun _ => .ite
          ((yields_expr fuel 1).bind fun _ hi => .after fun _ =>
            (yields_newNote start).bind fun n hn =>
              yields_suffixes fuel start _ (by simpa using ⟨hn, h, hi⟩))
          (.pure h)

/-- The smallest expressions get blank notes. -/
theorem yields_atom : ∀ fuel : Nat, Yields (atom fuel) BlankExpr
  | 0 => by rw [atom]; exact yields_fail
  | fuel + 1 => by
      rw [atom]
      exact .after fun start => .after fun _ => .ite
        ((yields_expr fuel 1).bind fun _ he => .after fun _ => .pure he) <|
        .after fun _ => .ite
          (.after fun _ => (yields_newNote start).bind fun n hn => .pure (by simpa using hn)) <|
        .after fun _ => .ite
          ((yields_args (yields_expr fuel 1) _ _).bind fun _ hitems =>
            (yields_newNote start).bind fun n hn => .pure (by simpa using ⟨hn, hitems⟩)) <|
        .after fun _ => .ite
          (.after fun _ => (yields_block fuel true).bind fun _ hb =>
            (yields_newNote start).bind fun n hn => .pure (by simpa using ⟨hn, hb⟩))
          (.after fun _ => (yields_newNote start).bind fun n hn => .pure (by simpa using hn))

/-- **Blocks.** A parsed block has blank notes at all of its nodes. -/
theorem yields_block : ∀ (fuel : Nat) (tail : Bool),
    Yields (block fuel tail) (Block.Notes (fun n _ => n.Blank) .block)
  | 0, _ => by rw [block]; exact yields_fail
  | fuel + 1, tail => by
      rw [block]
      exact .after fun start => .after fun _ => (yields_body fuel _ tail).bind fun r hr =>
        (yields_newNote start).bind fun n hn => .pure (by simpa using ⟨hn, hr⟩)

/-- The statements of a body have blank notes, and so has its result. -/
theorem yields_body : ∀ (fuel : Nat) (stop : TokenKind) (tail : Bool),
    Yields (body fuel stop tail) BlankBody
  | 0, _, _ => by rw [body]; exact .pure ⟨by simp, nofun⟩
  | fuel + 1, stop, tail => by
      rw [body]
      refine .after fun _ => .ite (.pure ⟨by simp, nofun⟩) <| .after fun _ => .ite
        (.after fun _ => .after fun _ => .pure ⟨by simp, nofun⟩) <|
        .after fun _ => (yields_item fuel stop tail).attempt.bind fun r hr => ?_
      split
      · next s =>
          have hs : BlankItem (.stmt s) := hr _ rfl
          exact (yields_body fuel stop tail).bind fun r hr => .pure ⟨by simpa using ⟨hs, hr.1⟩, hr.2⟩
      · next e =>
          have he : BlankItem (.tail e) := hr _ rfl
          exact .after fun _ => .pure ⟨by simp, fun e' h => Option.some.inj h ▸ he⟩
      · exact .after fun _ => .after fun _ => yields_body fuel stop tail

/-- An item has blank notes, as a statement and as a result. The parser only fills in the range and
the label of a note; analysis fills in the rest. -/
theorem yields_item : ∀ (fuel : Nat) (stop : TokenKind) (tail : Bool),
    Yields (item fuel stop tail) BlankItem
  | 0, _, _ => by rw [item]; exact yields_fail
  | fuel + 1, stop, tail => by
      have hleaf : ∀ {start : Nat} {node : Note → Stmt},
          (∀ n, n.Blank → (node n).Notes fun n _ => n.Blank) →
          Yields (do return Item.stmt (node (← newNote start))) BlankItem := fun h =>
        (yields_newNote _).bind fun n hn => .pure (h n hn)
      rw [item]
      refine .after fun start => .after fun _ => .ite ?_ <| .after fun _ => .after fun _ => .ite
        (.after fun _ => .after fun _ => .after fun _ => (yields_block fuel true).bind fun _ hb =>
          hleaf fun n hn => by simpa using ⟨hn, hb⟩) <|
        .after fun _ => .ite ?_ <|
        .after fun _ => .ite ((yields_conditional fuel).bind fun _ h => .pure h) <|
        .after fun _ => .ite
          ((yields_expr fuel 1).bind fun _ he => (yields_block fuel false).bind fun _ hb =>
            hleaf fun n hn => by simpa using ⟨hn, he, hb⟩) <|
        .after fun _ => .ite
          ((yields_block fuel false).bind fun _ hb => hleaf fun n hn => by simpa using ⟨hn, hb⟩) <|
        .after fun _ => .ite (.after fun _ => hleaf fun n hn => by simpa using hn) <|
        .after fun _ => .ite (.after fun _ => hleaf fun n hn => by simpa using hn) <|
        .after fun _ => .ite
          ((yields_block fuel false).bind fun b hb =>
            .pure (show (Stmt.block b).Notes _ by simpa using hb))
          ?_
      · refine .after fun name => .after fun _ => .ite ?_ ?_
        · rw [map_eq_pure_bind, bind_assoc]
          exact .after fun _ => .after fun _ => .after fun _ => (yields_expr fuel 1).bind fun e he =>
            .after fun _ => hleaf fun n hn => by simpa using ⟨hn, he⟩
        · exact .after fun _ => .after fun _ => (yields_expr fuel 1).bind fun e he =>
            .after fun _ => hleaf fun n hn => by simpa using ⟨hn, he⟩
      · refine .after fun _ => .ite ?_ ?_
        · rw [pure_bind]
          exact .after fun _ => hleaf fun n hn => by simpa using hn
        · rw [map_eq_pure_bind, bind_assoc]
          refine (yields_expr fuel 1).bind fun e he => ?_
          rw [pure_bind]
          exact .after fun _ => hleaf fun n hn => by simpa using ⟨hn, he⟩
      · refine (yields_expr fuel 1).bind fun e he => .ite ?_ ?_
        · exact .after fun b => .ite (.pure he) <| .after fun _ =>
            hleaf fun n hn => by simpa using ⟨hn, he⟩
        · exact .after fun b => .ite (.pure he) <| .after fun _ =>
            hleaf fun n hn => by simpa using ⟨hn, he⟩

/-- A conditional has blank notes, with all of its branches. -/
theorem yields_conditional : ∀ fuel : Nat,
    Yields (conditional fuel) fun s => s.Notes fun n _ => n.Blank
  | 0 => by rw [conditional]; exact yields_fail
  | fuel + 1 => by
      rw [conditional]
      exact .after fun start => .after fun _ => (yields_expr fuel 1).bind fun _ ht =>
        (yields_block fuel false).bind fun _ hy => .after fun _ => .ite
          (.after fun _ => .ite
            ((yields_conditional fuel).bind fun _ hno => (yields_newNote start).bind fun n hn =>
              .pure (by simpa using ⟨hn, ht, hy, hno⟩))
            ((yields_block fuel false).bind fun _ hno => (yields_newNote start).bind fun n hn =>
              .pure (by simpa using ⟨hn, ht, hy, hno⟩)))
          ((yields_newNote start).bind fun n hn => .pure (by simpa using ⟨hn, ht, hy⟩))

end

end Parse

/-- **Blank notes.** Parsing notes labels and ranges only. -/
theorem parseTokens_blank (g : Grammar) (size : Nat) (tokens : List Token) :
    (parseTokens g size tokens).1.root.Notes (fun n _ => n.Blank) .program := by
  have h := Parse.yields_body (8 * tokens.length + 8) .eof true
  unfold parseTokens
  split
  · next stmts tail s he =>
      have := h _ _ _ he
      simpa using ⟨⟨rfl, rfl, rfl⟩, this⟩
  · simpa using ⟨rfl, rfl, rfl⟩

end Parlance
