import Parlance.Proofs.Code.Flow

/-!
# Heights of the operand stack

Every offset of generated code has one height of the operand stack, whatever way control comes
there. An expression leaves the stack one higher than it found it, a statement as it found it,
and statements are only executed on an empty stack.

## Main results

* `Generate.pushes_expr`, `Generate.settles_stmt`: the heights of expressions and statements.
* `Generate.levels_body`: the heights of a function body, which always ends by returning.
* `Image.Assembled.disciplined`: each routine of an assembled program has heights.
-/

namespace Parlance

/-! ### Instructions -/

/-- How many operands an instruction takes. A closure takes as many as its routine has
captures. -/
def Instr.pops (captures : Nat → Nat) : Instr → Nat
  | .loadConst _ | .loadLocal _ | .loadGlobal _ | .loadCapture _ | .jump _ => 0
  | .pop | .copy | .storeLocal _ | .storeGlobal _ | .unary _ | .cast _ | .jumpIfFalse _
  | .jumpIfTrueOrPop _ | .jumpIfFalseOrPop _ | .ret => 1
  | .getItem | .binary _ => 2
  | .setItem => 3
  | .closure f => captures f
  | .buildList count => count
  | .call count => count + 1

/-- How many operands an instruction leaves for the next one. -/
def Instr.pushes : Instr → Nat
  | .pop | .storeLocal _ | .storeGlobal _ | .jump _ | .jumpIfFalse _ | .jumpIfTrueOrPop _
  | .jumpIfFalseOrPop _ | .ret => 0
  | .copy | .setItem => 2
  | _ => 1

/-- How many operands an instruction leaves if it jumps. -/
def Instr.keeps : Instr → Nat
  | .jumpIfTrueOrPop _ | .jumpIfFalseOrPop _ => 1
  | _ => 0

/-- An instruction at an offset of height `h` finds its operands, and the offsets after it have
the height it leaves. The targets of plain and conditional jumps are the boundaries of
statements. -/
structure Instr.Balanced (captures : Nat → Nat) (chart : Chart Nat) (pc h : Nat) (i : Instr) :
    Prop where
  enough : i.pops captures ≤ h
  next : i.isFinal = false → chart (pc + 1) = some (h - i.pops captures + i.pushes)
  target : ∀ t, i.target? = some t → chart t = some (h - i.pops captures + i.keeps)
  boundary : ∀ t, i = .jump t ∨ i = .jumpIfFalse t → chart t = some 0
  ret : i = .ret → h = 1

/-- Heights are judged exactly. -/
def heightRules (captures : Nat → Nat) : Rules Nat where
  Covers := Eq
  covers_refl _ := rfl
  Leads := Instr.Balanced captures

/-- Inside a loop its ends have height zero. -/
def loopHeights (inLoop : Bool) : Jumps Nat := fun chart loop =>
  inLoop = true → chart loop.start = some 0 ∧ chart loop.exit = some 0

/-- The rules accept a height at an offset exactly if the chart says it. -/
theorem heightRules_accepts {captures : Nat → Nat} {chart : Chart Nat} {pc h : Nat} :
    (heightRules captures).Accepts chart pc h ↔ chart pc = some h :=
  ⟨fun ⟨_, hq, he⟩ => he ▸ hq, Rules.accepts_of_eq⟩

/-! ### Fragments -/

/-- The offsets of a fragment have heights that lead from `h` to `q`. -/
def Fragment.Levels (captures : Nat → Nat) (inLoop : Bool) (h : Nat) (a : Fragment)
    (q : Option Nat) : Prop :=
  ∃ hs : List Nat, a.Flows (heightRules captures) (loopHeights inLoop) (some h) (hs.map some) q

namespace Fragment

variable {captures : Nat → Nat} {inLoop : Bool} {h k : Nat} {q : Option Nat}
  {a b test yes no : Fragment}

/-- No code leaves every height as it is. -/
theorem levels_empty : Levels captures inLoop h empty (some h) :=
  ⟨[], flows_empty⟩

/-- A single instruction that does not jump takes its operands from the stack, and leaves what it
pushes. -/
theorem levels_one {i : Instr} {n : Nat} (hf : i.isFinal = false) (ht : i.target? = none)
    (he : i.pops captures = n) : Levels captures inLoop (h + n) (one i) (some (h + i.pushes)) := by
  refine ⟨[h + n], flows_one fun chart pc hq => ?_⟩
  refine ⟨by omega, fun _ => ?_, by simp [ht], fun t hi => ?_, fun hi => ?_⟩
  · rw [he, Nat.add_sub_cancel]
    exact heightRules_accepts.mp hq
  · obtain rfl | rfl := hi <;> cases ht
  · subst hi
    cases hf

/-- A return takes the one value that is there, and no offset follows it. -/
theorem levels_ret : Levels captures inLoop 1 (one .ret) none := by
  refine ⟨[1], flows_one fun chart pc _ => ?_⟩
  exact ⟨Nat.le_refl _, by simp [Instr.isFinal], by simp [Instr.target?], by simp, fun _ => rfl⟩

/-- A plain jump between statements. -/
theorem balanced_jump {chart : Chart Nat} {pc target : Nat} (h : chart target = some 0) :
    Instr.Balanced captures chart pc 0 (.jump target) :=
  ⟨Nat.le_refl _, by simp [Instr.isFinal], by simpa [Instr.target?, Instr.pops, Instr.keeps] using h,
    by simpa using h, by simp⟩

/-- A conditional jump between statements. -/
theorem balanced_jumpIfFalse {chart : Chart Nat} {pc target : Nat}
    (hn : chart (pc + 1) = some 0) (h : chart target = some 0) :
    Instr.Balanced captures chart pc 1 (.jumpIfFalse target) :=
  ⟨Nat.le_refl _, fun _ => hn, by simpa [Instr.target?, Instr.pops, Instr.keeps] using h,
    by simpa using h, by simp⟩

/-- A `continue` jumps on an empty stack, as the start of a loop expects. -/
theorem levels_continueLoop : Levels captures true 0 continueLoop q :=
  ⟨[0], flows_single rfl (fun _ _ => rfl) fun _ _ _ _ hj => balanced_jump (hj rfl).1⟩

/-- A `break` jumps on an empty stack, as the end of a loop expects. -/
theorem levels_breakLoop : Levels captures true 0 breakLoop q :=
  ⟨[0], flows_single rfl (fun _ _ => rfl) fun _ _ _ _ hj => balanced_jump (hj rfl).2⟩

namespace Levels

/-- Code with heights is as long as its fragment says. -/
theorem sized (ha : Levels captures inLoop h a q) : a.Sized := by
  obtain ⟨hs, hf⟩ := ha
  exact hf.sized

/-- Code that does not jump to the ends of a loop may stand in one. -/
theorem anywhere (ha : Levels captures false h a q) : Levels captures inLoop h a q := by
  obtain ⟨hs, hf⟩ := ha
  exact ⟨hs, hf.mono fun _ _ _ => by simp [loopHeights]⟩

/-- Any height will do at an end where control does not come. -/
theorem of_none (ha : Levels captures inLoop h a none) : Levels captures inLoop h a q := by
  obtain ⟨hs, hf⟩ := ha
  exact ⟨hs, hf.strengthen fun _ _ _ => trivial⟩

/-- Code that leaves a height may be followed by code that begins with it. -/
theorem append (ha : Levels captures inLoop h a (some k)) (hb : Levels captures inLoop k b q) :
    Levels captures inLoop h (a ++ b) q := by
  obtain ⟨hs, ha⟩ := ha
  obtain ⟨ks, hb⟩ := hb
  refine ⟨hs ++ ks, ?_⟩
  rw [List.map_append]
  exact ha.append hb

/-- Both ways through a logical operator leave one value: the left one, which the jump keeps, or the
right one. -/
theorem skipJump (ha : Levels captures inLoop h a (some (k + 1)))
    (hb : Levels captures inLoop k b (some (k + 1))) (op : LogicalOp) :
    Levels captures inLoop h (skipping op.skipJump a b) (some (k + 1)) := by
  obtain ⟨hs, ha⟩ := ha
  obtain ⟨ks, hb⟩ := hb
  refine ⟨hs ++ (k + 1) :: ks, ?_⟩
  rw [List.map_append, List.map_cons]
  refine ha.skipping hb fun chart pc target hn ht => ?_
  rw [heightRules_accepts] at hn
  have ht := heightRules_accepts.mp ht
  cases op <;>
    exact ⟨by simp [LogicalOp.skipJump, Instr.pops], fun _ => hn, by
      simpa [LogicalOp.skipJump, Instr.target?, Instr.pops, Instr.keeps] using ht,
      by simp [LogicalOp.skipJump], by simp [LogicalOp.skipJump]⟩

/-- A conditional begins and ends on an empty stack, whether its branch is taken or not. -/
theorem ifTrue (ha : Levels captures inLoop 0 test (some 1))
    (hb : Levels captures inLoop 0 b (some 0)) :
    Levels captures inLoop 0 (skipping .jumpIfFalse test b) (some 0) := by
  obtain ⟨hs, ha⟩ := ha
  obtain ⟨ks, hb⟩ := hb
  refine ⟨hs ++ 1 :: ks, ?_⟩
  rw [List.map_append, List.map_cons]
  exact ha.skipping hb fun chart pc target hn ht =>
    balanced_jumpIfFalse (heightRules_accepts.mp hn) (heightRules_accepts.mp ht)

/-- A conditional with two branches begins and ends on an empty stack, by both of them. -/
theorem choice (ht : Levels captures inLoop 0 test (some 1))
    (hy : Levels captures inLoop 0 yes (some 0)) (hn : Levels captures inLoop 0 no (some 0)) :
    Levels captures inLoop 0 (choice test yes no) (some 0) := by
  obtain ⟨ts, ht⟩ := ht
  obtain ⟨ys, hy⟩ := hy
  obtain ⟨ns, hn⟩ := hn
  refine ⟨ts ++ 1 :: (ys ++ 0 :: ns), ?_⟩
  simp only [List.map_append, List.map_cons]
  refine ht.choice hy hn (fun chart pc target hn ht => ?_) fun chart pc target u hu hq => ?_
  · exact balanced_jumpIfFalse (heightRules_accepts.mp hn) (heightRules_accepts.mp ht)
  · cases hu
    exact balanced_jump (heightRules_accepts.mp hq)

/-- A loop without a test begins every round on an empty stack. -/
theorem forever (ha : Levels captures true 0 a (some 0)) :
    Levels captures inLoop 0 (forever a) (some 0) := by
  obtain ⟨hs, ha⟩ := ha
  refine ⟨hs ++ [0], ?_⟩
  rw [List.map_append]
  exact ha.forever (fun _ _ => Rules.accepts_of_eq)
    (fun chart pc target ht => balanced_jump (heightRules_accepts.mp ht))
    fun chart loop hs he _ => ⟨heightRules_accepts.mp hs, heightRules_accepts.mp he⟩

/-- A loop with a test begins every round on an empty stack. -/
theorem whileTrue (ht : Levels captures true 0 test (some 1))
    (ha : Levels captures true 0 a (some 0)) :
    Levels captures inLoop 0 (whileTrue test a) (some 0) := by
  obtain ⟨ts, ht⟩ := ht
  obtain ⟨hs, ha⟩ := ha
  refine ⟨ts ++ 1 :: (hs ++ [0]), ?_⟩
  simp only [List.map_append, List.map_cons]
  exact ht.whileTrue ha (fun _ _ => Rules.accepts_of_eq)
    (fun chart pc target hn ht =>
      balanced_jumpIfFalse (heightRules_accepts.mp hn) (heightRules_accepts.mp ht))
    (fun chart pc target ht => balanced_jump (heightRules_accepts.mp ht))
    fun chart loop hs he _ => ⟨heightRules_accepts.mp hs, heightRules_accepts.mp he⟩

end Levels

/-- Code that pushes one value. -/
structure Pushes (captures : Nat → Nat) (count : Nat) (a : Fragment) : Prop where
  falls : a.returns = false
  levels : ∀ h, Levels captures false h a (some (h + count))

/-- Code that takes one value. -/
structure Stores (captures : Nat → Nat) (a : Fragment) : Prop where
  falls : a.returns = false
  levels : ∀ h, Levels captures false (h + 1) a (some h)

/-- Code that is executed on an empty stack and leaves it empty. If it returns, control does
not come to its end. -/
structure Settles (captures : Nat → Nat) (inLoop : Bool) (a : Fragment) : Prop where
  levels : Levels captures inLoop 0 a (some 0)
  returns : a.returns = true → Levels captures inLoop 0 a none

/-- Code in a row does not return if no part of it does. -/
theorem returns_append (ha : a.returns = false) (hb : b.returns = false) :
    (a ++ b).returns = false := by
  change (if b.size = 0 then a.returns else b.returns) = false
  split <;> assumption

/-- An instruction that is not final does not return. -/
theorem returns_one {i : Instr} (hf : i.isFinal = false) : (one i).returns = false := by
  have : i ≠ .ret := by
    rintro rfl
    cases hf
  simpa [one] using this

/-- No code pushes no value. -/
theorem pushes_empty : Pushes captures 0 empty :=
  ⟨rfl, fun _ => levels_empty⟩

/-- An instruction that takes no operands and leaves one. -/
theorem pushes_one {i : Instr} (hf : i.isFinal = false) (ht : i.target? = none)
    (hi : i.pops captures = 0) (hp : i.pushes = 1) : Pushes captures 1 (one i) :=
  ⟨returns_one hf, fun _ => hp ▸ levels_one hf ht hi⟩

/-- A single instruction that takes one value and pushes none is code that takes one value. -/
theorem stores_one {i : Instr} (hf : i.isFinal = false) (ht : i.target? = none)
    (hi : i.pops captures = 1) (hp : i.pushes = 0) : Stores captures (one i) := by
  refine ⟨returns_one hf, fun h => ?_⟩
  have : Levels captures false (h + 1) (one i) (some (h + i.pushes)) := levels_one hf ht hi
  rwa [hp, Nat.add_zero] at this

namespace Pushes

variable {m n : Nat}

/-- Code in a row pushes the values of both parts. -/
theorem append (ha : Pushes captures m a) (hb : Pushes captures n b) :
    Pushes captures (m + n) (a ++ b) := by
  refine ⟨returns_append ha.falls hb.falls, fun h => ?_⟩
  rw [← Nat.add_assoc]
  exact (ha.levels h).append (hb.levels _)

/-- Operands and the instruction that takes them. -/
theorem apply (ha : Pushes captures n a) (i : Instr) (hf : i.isFinal = false)
    (ht : i.target? = none) (hi : i.pops captures = n) (hp : i.pushes = m) :
    Pushes captures m (a ++ one i) :=
  ⟨returns_append ha.falls (returns_one hf),
    fun h => (ha.levels h).append (hp ▸ levels_one hf ht hi)⟩

/-- Operands, the topmost of which is stored. -/
theorem store (ha : Pushes captures (n + 1) a) (hb : Stores captures b) :
    Pushes captures n (a ++ b) :=
  ⟨returns_append ha.falls hb.falls, fun h => (ha.levels h).append (hb.levels _)⟩

/-- A logical operator pushes one value if both of its operands do. -/
theorem skipJump (ha : Pushes captures 1 a) (hb : Pushes captures 1 b) (op : LogicalOp) :
    Pushes captures 1 (skipping op.skipJump a b) :=
  ⟨rfl, fun h => (ha.levels h).skipJump (hb.levels h) op⟩

/-- Code that leaves no value is that of a statement. -/
theorem settles (ha : Pushes captures 0 a) : Settles captures inLoop a :=
  ⟨(ha.levels 0).anywhere, fun h => by rw [ha.falls] at h; cases h⟩

/-- Code that pushes one value takes an empty stack to the height one, which a test needs. -/
theorem condition (ha : Pushes captures 1 a) : Levels captures inLoop 0 a (some 1) :=
  (ha.levels 0).anywhere

end Pushes

/-- Code that does not end by returning settles as soon as it has heights. -/
theorem Levels.settles (ha : Levels captures inLoop 0 a (some 0)) (hr : a.returns = false) :
    Settles captures inLoop a :=
  ⟨ha, fun h => by rw [hr] at h; cases h⟩

/-- Statements in a row leave the stack empty if each of them does. -/
theorem Settles.append (ha : Settles captures inLoop a) (hb : Settles captures inLoop b) :
    Settles captures inLoop (a ++ b) := by
  refine ⟨ha.levels.append hb.levels, fun h => ?_⟩
  change (if b.size = 0 then a.returns else b.returns) = true at h
  split at h
  · next hz =>
      obtain ⟨hs, hf⟩ := ha.returns h
      have hrest : b.Flows (heightRules captures) (loopHeights inLoop) none [] none := by
        simpa [hz] using hb.levels.sized.unreachable
      exact ⟨hs, by simpa using hf.append hrest⟩
  · exact ha.levels.append (hb.returns h)

end Fragment

/-! ### Code generation -/

/-- How many variables a function captures. -/
def Facts.captureCount (facts : Facts) (function : Nat) : Nat :=
  (facts.captures function).length

namespace Generate

open Fragment

variable {x : GenerateContext}

/-- The code that loads a constant pushes one value. -/
theorem pushes_loadConst {c : Const} (hc : c.IsCanonical) :
    Produces (Pushes x.facts.captureCount 1) (loadConst c) := by
  intro consts a after hd he
  obtain ⟨hx, hd', i, rfl, -⟩ := loadConst_eq_ok hd hc he
  exact ⟨hx, hd', pushes_one rfl rfl rfl rfl⟩

/-- The code that loads a variable pushes one value, wherever the variable is kept. -/
theorem pushes_loadVariable {symbol slot owner : Nat} {range : Range} :
    Produces (Pushes x.facts.captureCount 1) (loadVariable x symbol slot owner range) := by
  unfold loadVariable
  split
  · exact produces_pure (pushes_one rfl rfl rfl rfl)
  · split
    · exact produces_pure (pushes_one rfl rfl rfl rfl)
    · exact produces_unresolved

/-- The code that loads a name pushes one value. -/
theorem pushes_load {n : Note} : Produces (Pushes x.facts.captureCount 1) (load x n) := by
  unfold load
  split
  · exact produces_unresolved
  · split
    · exact produces_pure (pushes_one rfl rfl rfl rfl)
    · exact pushes_loadVariable
    · exact pushes_loadConst trivial
    · exact pushes_loadConst trivial

/-- The code that stores to a name takes one value. -/
theorem stores_store {n : Note} : Produces (Stores x.facts.captureCount) (store x n) := by
  unfold store
  split
  · exact produces_unresolved
  · split
    · exact produces_pure (stores_one rfl rfl rfl rfl)
    · split
      · exact produces_pure (stores_one rfl rfl rfl rfl)
      · exact produces_unresolved
    · exact produces_unresolved

/-- The code that loads captured variables pushes one value for each of them. -/
theorem pushes_loadAllCaptured {range : Range} (captures : List Nat) :
    Produces (Pushes x.facts.captureCount captures.length) (loadAllCaptured x range captures) := by
  induction captures with
  | nil => exact produces_pure pushes_empty
  | cons symbol rest ih =>
      have hload : Produces (Pushes x.facts.captureCount 1) (loadCaptured x range symbol) := by
        unfold loadCaptured
        split
        · exact pushes_loadVariable
        · exact produces_unresolved
      refine hload.bind fun a ha => ih.bind fun b hb => produces_pure ?_
      rw [List.length_cons, Nat.add_comm]
      exact ha.append hb

/-- The code of a lambda pushes one value, made of as many as it captures. -/
theorem pushes_lambda {n : Note} : Produces (Pushes x.facts.captureCount 1) (lambda x n) := by
  unfold lambda
  split
  · exact produces_unresolved
  · split
    · exact pushes_loadConst trivial
    · exact (pushes_loadAllCaptured _).bind fun a ha => produces_pure (ha.apply _ rfl rfl rfl rfl)

mutual

/-- **Expressions.** The code of an expression pushes one value and never takes operands from below
the height that it starts at. The induction is on the tree. -/
theorem pushes_expr : ∀ e : Expr, Produces (Pushes x.facts.captureCount 1) (expr x e)
  | .lit _ v => by rw [expr]; exact pushes_loadConst v.isCanonical_toConst
  | .ident n _ => by rw [expr]; exact pushes_load
  | .unary _ _ e => by
      rw [expr]
      exact (pushes_expr e).bind fun a ha => produces_pure (ha.apply _ rfl rfl rfl rfl)
  | .binary _ op l r => by
      rw [expr]
      refine (pushes_expr l).bind fun a ha => (pushes_expr r).bind fun b hb => ?_
      split
      · exact produces_pure ((ha.append hb).apply _ rfl rfl rfl rfl)
      · exact produces_pure (ha.skipJump hb _)
  | .assign _ target value => by
      cases target with
      | index _ base index =>
          rw [expr]
          exact pushes_load.bind fun a ha => (pushes_expr index).bind fun b hb =>
            (pushes_expr value).bind fun c hc => stores_store.bind fun d hd =>
              produces_pure ((((ha.append hb).append hc).apply .setItem rfl rfl rfl rfl).store hd)
      | _ =>
          rw [expr]
          · exact (pushes_expr value).bind fun a ha => stores_store.bind fun b hb =>
              produces_pure ((ha.apply .copy rfl rfl rfl rfl).store hb)
          · intros
            contradiction
  | .call _ callee args => by
      rw [expr]
      exact (pushes_expr callee).bind fun a ha => (pushes_exprs args).bind fun b hb =>
        produces_pure ((ha.append hb).apply _ rfl rfl (Nat.add_comm _ _) rfl)
  | .index _ target index => by
      rw [expr]
      exact (pushes_expr target).bind fun a ha => (pushes_expr index).bind fun b hb =>
        produces_pure ((ha.append hb).apply _ rfl rfl rfl rfl)
  | .list _ items => by
      rw [expr]
      exact (pushes_exprs items).bind fun a ha => produces_pure (ha.apply _ rfl rfl rfl rfl)
  | .cast _ e _ => by
      rw [expr]
      exact (pushes_expr e).bind fun a ha => produces_pure (ha.apply _ rfl rfl rfl rfl)
  | .lambda n _ _ => by rw [expr]; exact pushes_lambda

/-- The code of expressions pushes one value for each of them. -/
theorem pushes_exprs :
    ∀ es : List Expr, Produces (Pushes x.facts.captureCount es.length) (exprs x es)
  | [] => by rw [exprs]; exact produces_pure pushes_empty
  | e :: es => by
      rw [exprs]
      refine (pushes_expr e).bind fun a ha => (pushes_exprs es).bind fun b hb => produces_pure ?_
      rw [List.length_cons, Nat.add_comm]
      exact ha.append hb

end

/-- The code of an expression as a statement leaves the stack empty: its value is dropped, or never
pushed. -/
theorem settles_discard {inLoop : Bool} (e : Expr) :
    Produces (Settles x.facts.captureCount inLoop) (discard x e) := by
  unfold discard
  split
  · refine (pushes_expr _).bind fun a ha => stores_store.bind fun b hb => produces_pure ?_
    split
    · exact (ha.store hb).settles
    · exact (((ha.apply .copy rfl rfl rfl rfl).store hb).apply .pop rfl rfl rfl rfl).settles
  · refine (pushes_expr e).bind fun a ha => produces_pure ?_
    split
    · exact pushes_empty.settles
    · exact (ha.apply .pop rfl rfl rfl rfl).settles

/-- The code of a body's value pushes one value, also where there is none. -/
theorem pushes_result (value : Option Expr) :
    Produces (Pushes x.facts.captureCount 1) (result x value) := by
  cases value with
  | none => exact pushes_loadConst trivial
  | some e => exact pushes_expr e

mutual

/-- **Statements.** The code of a statement is executed on an empty stack and leaves it so, also
where it jumps to the ends of the loop around it. -/
theorem settles_stmt : ∀ (inLoop : Bool) (s : Stmt),
    Produces (Settles x.facts.captureCount inLoop) (stmt x inLoop s)
  | inLoop, .block b => by rw [stmt]; exact settles_block inLoop b
  | _, .letVar n _ _ init => by
      rw [stmt]
      exact (pushes_expr init).bind fun a ha => stores_store.bind fun b hb =>
        produces_pure (ha.store hb).settles
  | _, .fnDecl _ _ _ _ => by rw [stmt]; exact produces_pure pushes_empty.settles
  | inLoop, .ret _ value => by
      rw [stmt]
      refine (pushes_result value).bind fun a ha => produces_pure ?_
      have hret : Levels x.facts.captureCount inLoop 0 (a ++ one .ret) none :=
        ha.condition.append levels_ret
      exact ⟨hret.of_none, fun _ => hret⟩
  | inLoop, .cond _ test yes none => by
      rw [stmt]
      exact (pushes_expr test).bind fun a ha => (settles_block inLoop yes).bind fun b hb =>
        produces_pure ((ha.condition.ifTrue hb.levels).settles rfl)
  | inLoop, .cond _ test yes (some no) => by
      rw [stmt]
      exact (pushes_expr test).bind fun a ha => (settles_block inLoop yes).bind fun b hb =>
        (settles_stmt inLoop no).bind fun c hc =>
          produces_pure ((ha.condition.choice hb.levels hc.levels).settles rfl)
  | _, .whileLoop _ test body => by
      rw [stmt]
      exact (pushes_expr test).bind fun a ha => (settles_block true body).bind fun b hb =>
        produces_pure ((ha.condition.whileTrue hb.levels).settles rfl)
  | _, .loop _ body => by
      rw [stmt]
      exact (settles_block true body).bind fun a ha =>
        produces_pure (ha.levels.forever.settles rfl)
  | inLoop, .breakLoop n => by
      rw [stmt]
      split
      · next hin => exact produces_pure (hin ▸ levels_breakLoop.settles rfl)
      · exact produces_unresolved
  | inLoop, .continueLoop n => by
      rw [stmt]
      split
      · next hin => exact produces_pure (hin ▸ levels_continueLoop.settles rfl)
      · exact produces_unresolved
  | _, .expr _ e => by rw [stmt]; exact settles_discard e

/-- **Statements.** Their code leaves the stack empty, one after another. -/
theorem settles_stmts : ∀ (inLoop : Bool) (ss : List Stmt),
    Produces (Settles x.facts.captureCount inLoop) (stmts x inLoop ss)
  | _, [] => by rw [stmts]; exact produces_pure pushes_empty.settles
  | inLoop, s :: ss => by
      rw [stmts]
      exact (settles_stmt inLoop s).bind fun a ha => (settles_stmts inLoop ss).bind fun b hb =>
        produces_pure (ha.append hb)

/-- The code of a block leaves the stack empty. -/
theorem settles_block : ∀ (inLoop : Bool) (b : Block),
    Produces (Settles x.facts.captureCount inLoop) (block x inLoop b)
  | inLoop, .mk _ ss none => by rw [block]; exact settles_stmts inLoop ss
  | inLoop, .mk _ ss (some e) => by
      rw [block]
      exact (settles_stmts inLoop ss).bind fun a ha => (settles_discard e).bind fun b hb =>
        produces_pure (ha.append hb)

end

/-- **Functions.** The code of a function starts with an empty stack, and control does not come
to its end. -/
theorem levels_body (b : Block) :
    Produces (fun a => Levels x.facts.captureCount false 0 a none) (body x b) := by
  obtain ⟨n, ss, tail⟩ := b
  cases tail with
  | some e =>
      rw [body]
      exact (settles_stmts false ss).bind fun a ha => (pushes_expr e).bind fun b hb =>
        produces_pure ((ha.levels.append hb.condition).append levels_ret)
  | none =>
      rw [body]
      refine (settles_stmts false ss).bind fun a ha => ?_
      split
      · next hr => exact produces_pure (ha.returns hr)
      · exact (pushes_loadConst (c := .unit) trivial).bind fun b hb =>
          produces_pure ((ha.levels.append hb.condition).append levels_ret)

end Generate

/-! ### Routines -/

/-- How many values a routine captures. -/
def Image.captureCount (image : Image) (function : Nat) : Nat :=
  (image.routines[function]?.map Routine.captures).getD 0

/-- **The stack discipline of a routine.** Each offset has one height of the operand stack. -/
structure Routine.Disciplined (captures : Nat → Nat) (r : Routine) (height : Nat → Nat) : Prop where
  nonempty : 0 < r.code.size
  entry : height 0 = 0
  /-- Every instruction finds the operands it takes. -/
  enough : ∀ (pc : Nat) (i : Instr), r.code[pc]? = some i → i.pops captures ≤ height pc
  /-- The next instruction has the height that this one leaves. -/
  next : ∀ (pc : Nat) (i : Instr), r.code[pc]? = some i → i.isFinal = false →
    pc + 1 < r.code.size ∧ height (pc + 1) = height pc - i.pops captures + i.pushes
  /-- So has the one that this one jumps to. -/
  target : ∀ (pc : Nat) (i : Instr) (t : Nat), r.code[pc]? = some i → i.target? = some t →
    t < r.code.size ∧ height t = height pc - i.pops captures + i.keeps
  /-- Jumps that are not part of an expression lead to the boundaries of statements: to the
  starts and ends of loops, and to the branches and the end of a choice. -/
  boundary : ∀ pc t : Nat, r.code[pc]? = some (.jump t) ∨ r.code[pc]? = some (.jumpIfFalse t) →
    height t = 0
  ret : ∀ pc : Nat, r.code[pc]? = some .ret → height pc = 1

/-- Code with heights from its first offset on, at whose end control does not arrive, makes a
disciplined routine. -/
theorem Fragment.Levels.disciplined {captures : Nat → Nat} {a : Fragment}
    (h : a.Levels captures false 0 none) {r : Routine} (hr : r.code = a.code) :
    ∃ height, r.Disciplined captures height := by
  obtain ⟨hs, hf⟩ := h
  have hlists := Chart.lists_ofList (hs.map some)
  have hlead : (heightRules captures).AllLead (.ofList (hs.map some)) 0 (a.place 0 ⟨0, 0⟩) :=
    hf.leads hlists trivial (by simp [loopHeights])
  have hentry := heightRules_accepts.mp (hf.entry hlists trivial)
  have hchart : ∀ pc n, Chart.ofList (hs.map some) pc = some n ↔ hs[pc]? = some n := by
    intro pc n
    cases h : hs[pc]? <;> simp [Chart.ofList, h]
  have hsize : r.code.size = hs.length := by
    rw [hr, Fragment.code, List.size_toArray, hf.sized, ← hf.length, List.length_map]
  -- The offset of an instruction has a height, and the instruction is balanced there.
  have hbalanced : ∀ (pc : Nat) (i : Instr), r.code[pc]? = some i →
      i.Balanced captures (Chart.ofList (hs.map some)) pc (hs[pc]?.getD 0) := by
    intro pc i hi
    have hlt : pc < hs.length := by
      rw [← hsize]
      exact (Array.getElem?_eq_some_iff.mp hi).1
    have hpc : hs[pc]? = some (hs[pc]?.getD 0) := by
      rw [List.getElem?_eq_getElem hlt]
      rfl
    have hi' : (a.place 0 ⟨0, 0⟩)[pc]? = some i := by
      rw [hr] at hi
      simpa [Fragment.code] using hi
    have := hlead pc i _ hi' (by rw [Nat.zero_add]; exact (hchart _ _).mpr hpc)
    rwa [Nat.zero_add] at this
  have hat : ∀ pc n, Chart.ofList (hs.map some) pc = some n →
      pc < r.code.size ∧ hs[pc]?.getD 0 = n := by
    intro pc n h
    rw [hchart] at h
    exact ⟨hsize ▸ (List.getElem?_eq_some_iff.mp h).1, by rw [h]; rfl⟩
  refine ⟨fun pc => hs[pc]?.getD 0, (hat 0 0 hentry).1, (hat 0 0 hentry).2, fun pc i hi => (hbalanced pc i hi).enough,
    fun pc i hi hn => hat _ _ ((hbalanced pc i hi).next hn),
    fun pc i t hi ht => hat _ _ ((hbalanced pc i hi).target t ht), ?_,
    fun pc hi => (hbalanced pc _ hi).ret rfl⟩
  rintro pc t (hi | hi)
  · exact (hat _ _ ((hbalanced pc _ hi).boundary t (.inl rfl))).2
  · exact (hat _ _ ((hbalanced pc _ hi).boundary t (.inr rfl))).2

namespace Image

variable {a : Analyzed} {image : Image}

/-- The routines of a program capture what its functions capture. -/
theorem Assembled.captureCount_eq (h : image.Assembled a) :
    a.facts.captureCount = image.captureCount := by
  funext f
  unfold Facts.captureCount Facts.captures Facts.info captureCount
  cases hf : a.facts.functions[f]? with
  | none =>
      have hge : image.routines.size ≤ f := by
        rw [h.size_eq]
        exact Array.getElem?_eq_none_iff.mp hf
      rw [Array.getElem?_eq_none hge]
      rfl
  | some info =>
      obtain ⟨b, frag, -, -, -, hr⟩ := h.routine f info hf
      rw [hr]
      rfl

/-- **Programs.** Each routine of an assembled program has heights. -/
theorem Assembled.disciplined (h : image.Assembled a) {f : Nat} {r : Routine}
    (hr : image.routines[f]? = some r) : ∃ height, r.Disciplined image.captureCount height := by
  obtain ⟨info, hinfo⟩ := h.info_of_routine hr
  obtain ⟨b, frag, -, -, hy, hr'⟩ := h.routine f info hinfo
  cases hr.symm.trans hr'
  rw [← h.captureCount_eq]
  exact (hy.of_produces (Generate.levels_body b)).disciplined rfl

end Image

end Parlance
