import Parlance.Proofs.Token.Matching
import Parlance.Proofs.Token.Scanning
import Parlance.Proofs.Tree.Moves

/-!
# Precedence climbing

An expression of names and binary operators is read as the table of the grammar says: the tree
has the operands and operators of the text in order, the right operand of an operator binds
tighter than the operator (or as tight, if the operator groups to the right), and so does the
left one (strictly, if the operator inside it groups to the right).

The table is data, and the least precedence of the right operand of an operator that groups to
the left is one more than its own. That is a precedence again unless its own is the largest,
`255`: there the sum is no byte, and the parse overflows instead of giving a tree. The law is
stated for the tables without such an operator, and it fails for the others.

## Main results

* `Parse.expr_climbs`: a sequence of names and operators is consumed and grouped by the table.
* `Parse.tightSubtraction_overflows`: a table for which there is no such law.
-/

namespace Parlance

/-! ### Texts of operands and operators -/

/-- What a token says in a sequence of operands and operators. -/
inductive Mark where
  | name (name : String)
  | operator (op : Operator)
  deriving DecidableEq

def Token.mark (t : Token) : Mark :=
  match t.kind with
  | .operator op => .operator op
  | _ => .name (String.ofList t.text)

/-- The operator that a binary operator is written with. -/
def BinaryOp.toOperator : BinaryOp → Operator
  | .add => .add
  | .sub => .sub
  | .mul => .mul
  | .div => .div
  | .rem => .rem
  | .pow => .pow
  | .eq => .eq
  | .ne => .ne
  | .lt => .lt
  | .le => .le
  | .gt => .gt
  | .ge => .ge
  | .and => .and
  | .or => .or

/-- The operator at the root of an expression. -/
def Expr.operator? : Expr → Option Operator
  | .binary _ op _ _ => some op.toOperator
  | .assign _ _ _ => some .assign
  | _ => none

/-- The names and operators of an expression, each operator between its operands. -/
def Expr.inorder : Expr → List Mark
  | .ident _ name => [.name name]
  | .binary _ op l r => l.inorder ++ .operator op.toOperator :: r.inorder
  | .assign _ l r => l.inorder ++ .operator .assign :: r.inorder
  | _ => []

/-! ### The law -/

/-- Whether an operator may stand at the root of the left operand of another one. -/
def BinaryRule.AllowsLeft (rule inner : BinaryRule) : Prop :=
  rule.precedence ≤ inner.precedence ∧ (inner.assoc = .right → rule.precedence < inner.precedence)

/-- Whether an operator may stand at the root of the right operand of another one. -/
def BinaryRule.AllowsRight (rule inner : BinaryRule) : Prop :=
  match rule.assoc with
  | .left => rule.precedence < inner.precedence
  | .right => rule.precedence ≤ inner.precedence

namespace Grammar

/-- The rule of the operator at the root of an expression. -/
def rootRule? (g : Grammar) (e : Expr) : Option BinaryRule :=
  e.operator?.bind g.binaryRule?

/-- An operator has a rule, and its operands may stand beside it. -/
def Allows (g : Grammar) (op : Operator) (l r : Expr) : Prop :=
  ∃ rule, g.binaryRule? op = some rule ∧ (∀ q, g.rootRule? l = some q → rule.AllowsLeft q) ∧
    ∀ q, g.rootRule? r = some q → rule.AllowsRight q

end Grammar

/-- An expression of names and operators in which all operators have operands that may stand
beside them. -/
def Expr.Obeys (g : Grammar) : Expr → Prop
  | .ident _ _ => True
  | .binary _ op l r => g.Allows op.toOperator l r ∧ l.Obeys g ∧ r.Obeys g
  | .assign _ l r => g.Allows .assign l r ∧ l.Obeys g ∧ r.Obeys g
  | _ => False

namespace Grammar

variable {g : Grammar}

/-- Operators with a rule, each with the name behind it. -/
inductive Infixes (g : Grammar) : List Token → Prop where
  | nil : Infixes g []
  | cons {o t : Token} {op : Operator} {rule : BinaryRule} {ts : List Token} :
    o.kind = .operator op → g.binaryRule? op = some rule → t.kind = .ident → Infixes g ts →
    Infixes g (o :: t :: ts)

/-- Tokens that can not go on an expression that ends in a name. -/
def Ends (g : Grammar) : List Token → Prop
  | [] => True
  | t :: _ => t.kind ≠ .keyword .asKw ∧ t.kind ≠ .punct .openParen ∧ t.kind ≠ .punct .openBracket ∧
      ∀ op, t.kind = .operator op → g.binaryRule? op = none

/-- The rule of the operator in front of some tokens. -/
def nextRule? (g : Grammar) : List Token → Option BinaryRule
  | t :: _ =>
    match t.kind with
    | .operator op => g.binaryRule? op
    | _ => none
  | [] => none

/-- A table whose rules are all usable: the inverse operator has none, and an operator that
groups to the left can demand more of its right operand. -/
structure Climbable (g : Grammar) : Prop where
  positive : ∀ {op rule}, g.binaryRule? op = some rule → rule.precedence ≠ 0
  rule_ne_not : ∀ {rule}, g.binaryRule? .not ≠ some rule
  bounded : g.Bounded

/-- A checked table has no precedence zero and no rule for the inverse operator. -/
theorem checkBinary_eq_ok {seen : List Operator} {rules : List BinaryRule}
    (h : checkBinary seen rules = .ok ()) :
    ∀ rule ∈ rules, rule.precedence ≠ 0 ∧ rule.operator ≠ .not := by
  induction rules generalizing seen with
  | nil => simp
  | cons rule rules ih =>
      unfold checkBinary at h
      split at h
      · cases h
      · split at h
        · cases h
        · next hzero =>
            split at h
            · cases h
            · next hnot =>
                rintro r (_ | ⟨_, hr⟩)
                · exact ⟨hzero, hnot⟩
                · exact ih h r hr

/-- The rules of a validated grammar have a precedence, and none is for `not`. -/
theorem binary_of_validate {g g' : Grammar} (h : g.validate = .ok g') :
    ∀ rule ∈ g'.binary, rule.precedence ≠ 0 ∧ rule.operator ≠ .not := by
  unfold validate at h
  simp only [bind, Except.bind] at h
  repeat (split at h; · cases h)
  next hbinary _ _ _ _ _ _ =>
    cases h
    exact checkBinary_eq_ok hbinary

/-- The rule that is found for an operator is one of the table. -/
theorem binaryRule?_mem {op : Operator} {rule : BinaryRule} (h : g.binaryRule? op = some rule) :
    rule ∈ g.binary ∧ rule.operator = op :=
  ⟨List.mem_of_find?_eq_some h, by simpa using List.find?_some h⟩

/-- A validated grammar can be climbed if no operator that groups to the left has the largest
precedence. -/
theorem climbable_of_validate {g g' : Grammar} (h : g.validate = .ok g')
    (hleft : ∀ rule ∈ g'.binary, rule.assoc = .left → rule.precedence ≠ 255) : g'.Climbable where
  positive hr := (binary_of_validate h _ (binaryRule?_mem hr).1).1
  rule_ne_not hr := (binary_of_validate h _ (binaryRule?_mem hr).1).2 (binaryRule?_mem hr).2
  bounded hr := hleft _ (binaryRule?_mem hr).1

/-- The precedence that a right operand has to have: the operator's own, or the next one. -/
theorem rightPrecedence?_eq_some {rule : BinaryRule} {least : UInt8}
    (h : Parse.rightPrecedence? rule = some least) :
    (rule.assoc = .left ∧ rule.precedence ≠ 255 ∧ least = rule.precedence + 1) ∨
      (rule.assoc = .right ∧ least = rule.precedence) := by
  unfold Parse.rightPrecedence? at h
  split at h
  · next ha =>
      split at h
      · cases h
      · next hmax => exact .inl ⟨ha, hmax, (Option.some.inj h).symm⟩
  · next ha => exact .inr ⟨ha, (Option.some.inj h).symm⟩

/-- What binds as tight as a right operand has to may stand there. -/
theorem allowsRight_of_le {rule q : BinaryRule} {least : UInt8}
    (hl : Parse.rightPrecedence? rule = some least) (h : least ≤ q.precedence) :
    rule.AllowsRight q := by
  unfold BinaryRule.AllowsRight
  rcases rightPrecedence?_eq_some hl with ⟨ha, hmax, rfl⟩ | ⟨ha, rfl⟩
  · simp only [ha]
    grind
  · simpa only [ha] using h

/-- An operator that does not go on a right operand takes it as a part of its left one. -/
theorem allowsLeft_of_lt {rule q : BinaryRule} {least : UInt8}
    (hl : Parse.rightPrecedence? rule = some least) (h : q.precedence < least) :
    q.AllowsLeft rule := by
  unfold BinaryRule.AllowsLeft
  rcases rightPrecedence?_eq_some hl with ⟨ha, hmax, rfl⟩ | ⟨ha, rfl⟩
  · simp only [ha]
    grind
  · simp only [ha]
    grind

end Grammar

/-- A binary operator is written with the operator that it is read from. -/
theorem Operator.toBinary?_eq_some {op : Operator} {b : BinaryOp} (h : op.toBinary? = some b) :
    b.toOperator = op := by
  cases op <;> cases h <;> rfl

/-- The one infix operator that is not binary is that of assignments. -/
theorem Operator.eq_of_toBinary?_eq_none {op : Operator} (h : op.toBinary? = none)
    (hnot : op ≠ .not) : op = .assign := by
  cases op <;> first | rfl | exact absurd rfl hnot | cases h

namespace Parse

open Grammar

variable {g : Grammar} {s : ParseState}

/-- The node of an operator of the table has that operator, and its parts as operands. -/
theorem infixNode_operator {op : Operator} {note : Note} {l r : Expr} (hnot : op ≠ .not) :
    (infixNode op note l r).operator? = some op ∧
      (infixNode op note l r).inorder = l.inorder ++ .operator op :: r.inorder ∧
      ((infixNode op note l r).Obeys g ↔ g.Allows op l r ∧ l.Obeys g ∧ r.Obeys g) := by
  unfold infixNode
  cases h : op.toBinary? with
  | some b =>
      obtain rfl := Operator.toBinary?_eq_some h
      exact ⟨rfl, rfl, by simp [Expr.Obeys]⟩
  | none =>
      obtain rfl := Operator.eq_of_toBinary?_eq_none h hnot
      exact ⟨rfl, rfl, by simp [Expr.Obeys]⟩

/-- The current token is a name, and it is consumed. -/
theorem runs_ident {t : Token} {rest : List Token} (hs : s.tokens = t :: rest)
    (ht : t.kind = .ident) : Runs s ident fun name s' =>
      name = String.ofList t.text ∧ s.Past rest s' := by
  refine runs_current.bind ?_
  rintro t' _ ⟨rfl, ⟨hnil, -⟩ | ⟨rest', hcons⟩⟩
  · simp [hnil] at hs
  obtain ⟨rfl, rfl⟩ := List.cons.inj (hcons.symm.trans hs)
  refine (runs_check _).bind ?_
  rintro b s₁ ⟨h₁, hb⟩
  have hb : b = true := hb.mpr (hs ▸ ht)
  rw [if_pos hb]
  refine runs_bump.bind ?_
  rintro - s₂ ⟨hg, htok, he, ho⟩
  have h₂ : s₁.Past rest' s₂ := ⟨hg, by rw [htok, h₁.tokens, hs]; rfl, he, fun _ => ho⟩
  exact .pure ⟨rfl, h₁.past.trans h₂⟩

/-- Nothing is called or indexed if no bracket follows. -/
theorem runs_suffixes_nil (hparen : nextKind s.tokens ≠ .punct .openParen)
    (hbracket : nextKind s.tokens ≠ .punct .openBracket) (fuel start : Nat) (e : Expr) :
    Runs s (suffixes (fuel + 1) start e) fun e' s' => e' = e ∧ s.Still s' := by
  rw [suffixes]
  refine (runs_check _).bind ?_
  rintro b s₁ ⟨h₁, hb⟩
  rw [if_neg fun h => hparen (hb.mp h)]
  refine (runs_eat _).bind ?_
  rintro b s₂ ⟨hb, -, hf⟩
  have hb : ¬b = true := fun h => hbracket (h₁.tokens ▸ hb.mp h)
  rw [if_neg hb]
  exact .pure ⟨rfl, h₁.trans (hf (by simpa using hb))⟩

/-- A name that no call and no index follows is an operand. The parser takes the name and nothing
else, and the state is the same but for the label. -/
theorem runs_unary_name {t : Token} {rest : List Token} (hs : s.tokens = t :: rest)
    (ht : t.kind = .ident) (hparen : nextKind rest ≠ .punct .openParen)
    (hbracket : nextKind rest ≠ .punct .openBracket) (fuel : Nat) :
    Runs s (unary (fuel + 3)) fun e s' =>
      (∃ note, e = .ident note (String.ofList t.text)) ∧ s.Past rest s' := by
  have hkind : nextKind s.tokens = .ident := hs ▸ ht
  have hatom : Runs s (atom (fuel + 1)) fun e s' =>
      (∃ note, e = .ident note (String.ofList t.text)) ∧ s.Past rest s' := by
    rw [atom]
    refine runs_startOffset.bind ?_
    rintro start _ rfl
    refine (runs_eat _).bind ?_
    rintro b s₁ ⟨hb, -, hf⟩
    rw [hkind] at hb
    have hb : b = false := by simpa using hb
    have h₁ := hf hb
    rw [if_neg (by simp [hb])]
    refine (runs_check _).bind ?_
    rintro b s₂ ⟨h₂, hb⟩
    rw [if_pos (hb.mpr (h₁.tokens ▸ hkind))]
    have h₂ := h₁.trans h₂
    refine (runs_ident (h₂.tokens.trans hs) ht).bind ?_
    rintro name s₃ ⟨rfl, h₃⟩
    exact (runs_newNote start).bind fun n s₄ h₄ =>
      .pure ⟨⟨n, rfl⟩, h₂.past.trans (h₃.still h₄)⟩
  rw [unary]
  refine runs_startOffset.bind ?_
  rintro start _ rfl
  refine runs_currentKind.bind ?_
  rintro t' _ ⟨rfl, ht'⟩
  rw [ht', hkind]
  change Runs _ (primary (fuel + 2)) _
  rw [primary]
  refine runs_startOffset.bind ?_
  rintro start' _ rfl
  refine hatom.bind ?_
  rintro e s₁ ⟨he, h₁⟩
  refine (runs_suffixes_nil (h₁.tokens ▸ hparen) (h₁.tokens ▸ hbracket) fuel start' e).mono ?_
  rintro e' s₂ ⟨rfl, h₂⟩
  exact ⟨he, h₁.still h₂⟩

/-- A name or a sequence of them ends before a bracket that would call or index it, and before
a cast. -/
theorem nextKind_of_infixes {infixes rest : List Token} (hi : g.Infixes infixes)
    (hr : g.Ends rest) :
    nextKind (infixes ++ rest) ≠ .punct .openParen ∧
      nextKind (infixes ++ rest) ≠ .punct .openBracket ∧
      nextKind (infixes ++ rest) ≠ .keyword .asKw := by
  cases hi with
  | nil =>
      cases rest with
      | nil => simp [nextKind]
      | cons t rest => exact ⟨hr.2.1, hr.2.2.1, hr.1⟩
  | cons ho _ _ _ => simp [nextKind, ho]

/-! ### Climbing -/

/-- Where the operators after a left operand end: some of the operators and operands were taken
into the expression, the first of the others binds less tightly than it has to, and would get
the expression as its left operand. -/
structure Climbed (g : Grammar) (s : ParseState) (least : UInt8) (before : List Mark)
    (infixes rest taken kept : List Token) (e : Expr) (s' : ParseState) : Prop where
  split : infixes = taken ++ kept
  infixes : g.Infixes kept
  past : s.Past (kept ++ rest) s'
  inorder : e.inorder = before ++ taken.map Token.mark
  obeys : e.Obeys g
  tight : ∀ q, g.rootRule? e = some q → least ≤ q.precedence
  loose : ∀ rule, g.nextRule? kept = some rule → rule.precedence < least
  allows : ∀ rule, g.nextRule? kept = some rule →
    ∀ q, g.rootRule? e = some q → rule.AllowsLeft q

variable {rest : List Token}

/-- What is known of a climb is known from an earlier state on, if only tokens were passed in
between. -/
theorem Climbed.after {s₀ s' : ParseState} {least : UInt8} {before : List Mark}
    {infixes taken kept mid : List Token} {e : Expr}
    (h : Climbed g s least before infixes rest taken kept e s') (h₀ : s₀.Past mid s) :
    Climbed g s₀ least before infixes rest taken kept e s' :=
  { h with past := h₀.trans h.past }

/-- The precedence of a right operand is found without a move, if there is one. -/
theorem runs_rightPrecedence {rule : BinaryRule} {least : UInt8}
    (hl : rightPrecedence? rule = some least) :
    Runs s (rightPrecedence rule) fun next s' => next = least ∧ s' = s := by
  unfold rightPrecedence
  rw [hl]
  exact .pure ⟨rfl, rfl⟩

mutual

/-- **Operands and operators.** The parser takes a name and then operators, as long as they bind
tightly enough. This and `runs_operators` are proved together, by induction on the fuel. -/
theorem runs_expr (hg : g.Climbable) (hr : g.Ends rest) : ∀ (fuel : Nat) (least : UInt8)
    (name : Token) (infixes : List Token) (s : ParseState), s.grammar = g → name.kind = .ident →
    g.Infixes infixes → s.tokens = name :: (infixes ++ rest) → infixes.length + 4 ≤ fuel →
    Runs s (expr fuel least) fun e s' => ∃ taken kept,
      Climbed g s least [name.mark] infixes rest taken kept e s'
  | 0, _, _, _, _, _, _, _, _, hfuel => absurd hfuel (by omega)
  | fuel + 1, least, name, infixes, s, hs, hname, hi, htok, hfuel => by
      rw [expr]
      refine runs_startOffset.bind ?_
      rintro start _ rfl
      obtain ⟨f, rfl⟩ : ∃ f, fuel = f + 3 := ⟨fuel - 3, by omega⟩
      obtain ⟨hparen, hbracket, -⟩ := nextKind_of_infixes hi hr
      refine (runs_unary_name htok hname hparen hbracket f).bind ?_
      rintro _ s₁ ⟨⟨note, rfl⟩, h₁⟩
      have hmark : (Expr.ident note (String.ofList name.text)).inorder = [name.mark] := by
        simp [Expr.inorder, Token.mark, hname]
      refine (runs_operators hg hr (f + 3) least start (.ident note (String.ofList name.text))
        infixes s₁ (h₁.grammar.trans hs) hi h₁.tokens (by omega) trivial nofun
        fun _ _ => nofun).mono ?_
      rintro e s₂ ⟨taken, kept, h₂⟩
      exact ⟨taken, kept, hmark ▸ h₂.after h₁⟩

/-- The loop over operators takes those that bind tightly enough, each with a right operand that
obeys the table. -/
theorem runs_operators (hg : g.Climbable) (hr : g.Ends rest) : ∀ (fuel : Nat) (least : UInt8)
    (start : Nat) (left : Expr) (infixes : List Token) (s : ParseState), s.grammar = g →
    g.Infixes infixes → s.tokens = infixes ++ rest → infixes.length + 3 ≤ fuel →
    left.Obeys g → (∀ q, g.rootRule? left = some q → least ≤ q.precedence) →
    (∀ rule, g.nextRule? infixes = some rule →
      ∀ q, g.rootRule? left = some q → rule.AllowsLeft q) →
    Runs s (operators fuel least start left) fun e s' => ∃ taken kept,
      Climbed g s least left.inorder infixes rest taken kept e s'
  | 0, _, _, _, _, _, _, _, _, hfuel, _, _, _ => absurd hfuel (by omega)
  | fuel + 1, least, start, left, infixes, s, hs, hi, htok, hfuel, hobeys, htight, hallows => by
      have hstop : (∀ rule, g.nextRule? infixes = some rule → rule.precedence < least) →
          Runs s (pure left) fun e s' => ∃ taken kept,
            Climbed g s least left.inorder infixes rest taken kept e s' := fun hloose =>
        .pure ⟨[], infixes, rfl, hi, htok ▸ (ParseState.Still.refl s).past,
          (List.append_nil _).symm, hobeys, htight, hloose, hallows⟩
      rw [operators]
      refine runs_currentKind.bind ?_
      rintro t _ ⟨rfl, ht⟩
      rw [ht, htok]
      obtain ⟨-, -, has⟩ := nextKind_of_infixes hi hr
      cases hi with
      | nil =>
          split
          · next h => exact absurd h has
          · next op h =>
              refine runs_get.bind ?_
              rintro _ _ ⟨rfl, rfl⟩
              have hnone : g.binaryRule? op = none := by
                cases rest with
                | nil => cases h
                | cons t rest => exact hr.2.2.2 op h
              rw [hs, hnone]
              exact hstop nofun
          · exact hstop nofun
      | @cons o t op rule ts ho hrule hname hts =>
          have hnext : g.nextRule? (o :: t :: ts) = some rule := by simp [nextRule?, ho, hrule]
          have hkind : nextKind (o :: t :: ts ++ rest) = .operator op := ho
          rw [hkind]
          refine runs_get.bind ?_
          rintro _ _ ⟨rfl, rfl⟩
          rw [hs, hrule]
          dsimp only
          split
          · next hlt =>
              refine hstop fun q hq => ?_
              rw [hnext] at hq
              exact Option.some.inj hq ▸ hlt
          next hle =>
          have hle : least ≤ rule.precedence := UInt8.not_lt.mp hle
          have hnot : op ≠ .not := fun h => hg.rule_ne_not (h ▸ hrule)
          simp only [List.length_cons] at hfuel
          refine runs_bump.bind ?_
          rintro - s₁ ⟨hs₁, htok₁, he₁, ho₁⟩
          rw [htok] at htok₁
          have h₁ : ParseState.Past _ (t :: (ts ++ rest)) s₁ := ⟨hs₁, htok₁, he₁, fun _ => ho₁⟩
          -- the table is bounded, so the right operand has a least precedence
          obtain ⟨next, hl⟩ := rightPrecedence?_isSome hg.bounded hrule
          refine (runs_rightPrecedence hl).bind ?_
          rintro next s₁ ⟨rfl, rfl⟩
          refine (runs_expr hg hr fuel next t ts s₁ (hs₁.trans hs) hname hts htok₁
            (by omega)).bind ?_
          rintro right s₂ ⟨taken, kept, hright⟩
          refine (runs_newNote start).bind fun note s₃ h₃ => ?_
          have h₃ := (h₁.trans hright.past).still h₃
          obtain ⟨hop, hin, hob⟩ := @infixNode_operator g op note left right hnot
          have hroot : g.rootRule? (infixNode op note left right) = some rule := by
            simp [rootRule?, hop, hrule]
          have hlen : kept.length ≤ ts.length := by simp [hright.split]
          refine (runs_operators hg hr fuel least start (infixNode op note left right) kept s₃
            (h₃.grammar.trans hs) hright.infixes h₃.tokens (by omega)
             (hob.mpr ⟨⟨rule, hrule, hallows rule hnext, ?_⟩, hobeys, hright.obeys⟩)
            ?_ ?_).mono ?_
          · exact fun q hq => allowsRight_of_le hl (hright.tight q hq)
          · intro q hq
            rw [hroot] at hq
            exact Option.some.inj hq ▸ hle
          · intro r hrk q hq
            rw [hroot] at hq
            exact Option.some.inj hq ▸ allowsLeft_of_lt hl (hright.loose r hrk)
          · rintro e s₄ ⟨taken', kept', hc⟩
            refine ⟨o :: t :: (taken ++ taken'), kept', ?_, hc.infixes, h₃.trans hc.past, ?_,
              hc.obeys, hc.tight, hc.loose, hc.allows⟩
            · rw [hright.split, hc.split]
              simp
            · rw [hc.inorder, hin, hright.inorder]
              simp [Token.mark, ho]

end

/-- **Precedence climbing.** Let a grammar be validated, with no operator of the largest
precedence that groups to the left. Then a sequence of names with operators between them is
consumed up to what follows it, if that can not go on the expression. The expression has the
names and operators in order, and all operators have operands that the table allows. The parse
does not overflow. -/
theorem expr_climbs {g₀ g : Grammar} (hg : g₀.validate = .ok g)
    (hleft : ∀ rule ∈ g.binary, rule.assoc = .left → rule.precedence ≠ 255)
    {name : Token} {infixes rest : List Token} (hname : name.kind = .ident)
    (hi : g.Infixes infixes) (hr : g.Ends rest) {s : ParseState} (hs : s.grammar = g)
    (htokens : s.tokens = name :: (infixes ++ rest)) {fuel : Nat}
    (hfuel : infixes.length + 4 ≤ fuel) :
    ∃ e s', expr fuel 1 s = .ok e s' ∧ s'.tokens = rest ∧ s'.errors = s.errors ∧
      s'.overflowed = s.overflowed ∧ e.inorder = (name :: infixes).map Token.mark ∧ e.Obeys g := by
  have hc := climbable_of_validate hg hleft
  obtain ⟨e, s', he, taken, kept, h⟩ :=
    runs_expr hc hr fuel 1 name infixes s hs hname hi htokens hfuel
  -- every operator of the table has a precedence, so none is left
  obtain rfl : kept = [] := by
    cases h.infixes with
    | nil => rfl
    | @cons o t op rule ts ho hrule _ _ =>
        have hlt : rule.precedence < 1 := h.loose rule (by simp [nextRule?, ho, hrule])
        exact absurd (UInt8.lt_one_iff.mp hlt) (hc.positive hrule)
  refine ⟨e, s', he, h.past.tokens, h.past.errors, h.past.overflowed (hs ▸ hc.bounded), ?_,
    h.obeys⟩
  rw [h.inorder, h.split]
  simp

/-- A grammar whose subtraction has the largest precedence and groups to the left. -/
def tightSubtraction : Grammar :=
  { Grammar.standard with
    operators := Operator.all.map fun op => ⟨op.name, op⟩
    punctuation := Punct.all.map fun p => ⟨p.name, p⟩
    binary := [⟨.sub, 255, .left⟩] }

/-- The tokens of `a - b`. -/
def subtraction : List Token :=
  [⟨.ident, ['a'], ⟨0, 1⟩, ⟨1, 1, 0⟩⟩, ⟨.operator .sub, ['-'], ⟨2, 3⟩, ⟨1, 3, 2⟩⟩,
    ⟨.ident, ['b'], ⟨4, 5⟩, ⟨1, 5, 4⟩⟩]

/-- The grammar `tightSubtraction` passes all checks. -/
theorem tightSubtraction_valid : tightSubtraction.Valid where
  spelled := by decide
  words := by decide
  marked := by decide
  symbols := by decide
  distinct := by decide
  apart := by decide
  binary := by decide
  unary := by decide
  operators := by decide

/-- The law needs its condition. With `tightSubtraction`, which is a valid grammar, a subtraction
has no tree: no byte is left for the least precedence of its right operand. -/
theorem tightSubtraction_overflows :
    ∃ g, tightSubtraction.validate = .ok g ∧ parseOverflows g subtraction = true :=
  ⟨_, Grammar.validate_eq_ok_iff.mpr ⟨tightSubtraction_valid, rfl⟩, by decide +kernel⟩

end Parse

end Parlance
