import Parlance.Analysis.Checker
import Mathlib.Tactic.Common

/-!
# Analysis without errors

Analysis never takes an error back. So if it ends without errors, it had none at any point, and
no part of it took a branch that reports one. `Analyze.Passes` says that a part of analysis
went from one state to another without errors, and the lemmas of this module take such a part
apart.

## Main results

* `Analyze.Passes.bind`: if a sequence passes, so do its parts.
* `Analyze.keeps_expr`, `Analyze.keeps_stmt`: no part of analysis takes errors back.
-/

namespace Parlance

namespace Analyze

variable {α β : Type}

/-- A part of analysis does not take errors back. -/
def Keeps (m : Analyze α) : Prop :=
  ∀ s, (m s).2.errors = [] → s.errors = []

/-- A part of analysis leads from a state to another one, and there are no errors then. -/
def Passes (m : Analyze α) (s : AnalysisState) (a : α) (s' : AnalysisState) : Prop :=
  m s = (a, s') ∧ s'.errors = []

section Rules

variable {s s' : AnalysisState}

/-- A result that is there already takes no error back. -/
@[simp] theorem keeps_pure {a : α} : Keeps (pure a : Analyze α) :=
  fun _ h => h

/-- Looking at the state takes no error back. -/
@[simp] theorem keeps_get : Keeps (get : Analyze AnalysisState) :=
  fun _ h => h

/-- A change of the state that leaves the errors alone takes none of them back. -/
theorem keeps_modify {f : AnalysisState → AnalysisState} (h : ∀ s, (f s).errors = s.errors) :
    Keeps (modify f : Analyze Unit) :=
  fun s hs => (h s).symm.trans hs

/-- The facts are apart from the errors, whatever is changed in them. -/
@[simp] theorem keeps_modifyFacts {f : Facts → Facts} : Keeps (modifyFacts f) :=
  keeps_modify fun _ => rfl

/-- The context of the function is apart from the errors, whatever is changed in it. -/
@[simp] theorem keeps_modifyContext {f : FunctionContext → FunctionContext} :
    Keeps (modifyContext f) :=
  keeps_modify fun _ => rfl

/-- A report adds an error in front of those that are there. -/
@[simp] theorem keeps_report {fault : SemanticFault} {range : Range} :
    Keeps (report fault range) := by
  intro s h
  cases h

/-- If neither of two steps takes errors back, both together do not. -/
@[simp] theorem keeps_bind {m : Analyze α} {f : α → Analyze β} (hm : Keeps m)
    (hf : ∀ a, Keeps (f a)) : Keeps (m >>= f) :=
  fun s h => hm s (hf _ _ h)

/-- What is done to the result of a step does not change its errors. -/
@[simp] theorem keeps_map {m : Analyze α} {f : α → β} (hm : Keeps m) : Keeps (f <$> m) :=
  fun s h => hm s h

/-- A choice between two steps that keep the errors keeps them, however it is made. -/
@[simp] theorem keeps_ite {c : Prop} [Decidable c] {m n : Analyze α} (hm : Keeps m)
    (hn : Keeps n) : Keeps (if c then m else n) := by
  split
  · exact hm
  · exact hn

/-- **Inversion.** If a sequence passes, so do its parts. -/
theorem Passes.bind {m : Analyze α} {f : α → Analyze β} {b : β} (h : Passes (m >>= f) s b s')
    (hf : ∀ a, Keeps (f a)) : ∃ a t, Passes m s a t ∧ Passes (f a) t b s' := by
  refine ⟨(m s).1, (m s).2, ⟨rfl, hf (m s).1 (m s).2 ?_⟩, h⟩
  have heq : f (m s).1 (m s).2 = (b, s') := h.1
  rw [heq]
  exact h.2

/-- A result that is there already passes from a state without errors to the same state. -/
theorem passes_pure {a b : α} : Passes (pure a : Analyze α) s b s' ↔ b = a ∧ s' = s ∧ s.errors = [] := by
  constructor
  · rintro ⟨h, he⟩
    cases h
    exact ⟨rfl, rfl, he⟩
  · rintro ⟨rfl, rfl, he⟩
    exact ⟨rfl, he⟩

/-- Looking at a state without errors passes, and gives this state. -/
theorem passes_get {a : AnalysisState} :
    Passes (get : Analyze AnalysisState) s a s' ↔ a = s ∧ s' = s ∧ s.errors = [] := by
  constructor
  · rintro ⟨h, he⟩
    cases h
    exact ⟨rfl, rfl, he⟩
  · rintro ⟨rfl, rfl, he⟩
    exact ⟨rfl, he⟩

/-- Nothing passes through a report. So a branch that reports can be struck out wherever analysis is
known to pass. -/
theorem not_passes_report {fault : SemanticFault} {range : Range} {u : Unit} :
    ¬ Passes (report fault range) s u s' := by
  rintro ⟨h, he⟩
  cases h
  cases he

/-- What follows a report does not pass. -/
theorem not_passes_report_bind {fault : SemanticFault} {range : Range} {f : Unit → Analyze α} {a : α}
    (hf : ∀ u, Keeps (f u)) : ¬ Passes (report fault range >>= f) s a s' := by
  intro h
  obtain ⟨u, t, hr, -⟩ := h.bind hf
  exact not_passes_report hr

/-- After a look at the state, the rest passes with the state it has seen. -/
theorem passes_get_bind {f : AnalysisState → Analyze β} {b : β} :
    Passes (get >>= f) s b s' ↔ Passes (f s) s b s' :=
  Iff.rfl

/-- A function's record is read from the facts of the state. -/
theorem passes_functionInfo_bind {e : Nat} {f : FunctionInfo → Analyze β} {b : β} :
    Passes (functionInfo e >>= f) s b s' ↔
      Passes (f (s.facts.info e)) s b s' :=
  Iff.rfl

/-- A symbol is read from the facts of the state. -/
theorem passes_symbolInfo_bind {y : Nat} {f : Symbol → Analyze β} {b : β} :
    Passes (symbolInfo y >>= f) s b s' ↔ Passes (f (s.facts.symbol y)) s b s' :=
  Iff.rfl

/-- The scope that analysis is in is read from the facts of the state. -/
theorem passes_currentScope_bind {f : Scope → Analyze β} {b : β} :
    Passes (currentScope >>= f) s b s' ↔
      Passes (f (s.facts.scopes[s.scope]?.getD default)) s b s' :=
  Iff.rfl

/-- After a change of the facts, the rest passes from the state with the new facts. -/
theorem passes_modifyFacts_bind {m : Facts → Facts} {f : Unit → Analyze β} {b : β} :
    Passes (modifyFacts m >>= f) s b s' ↔ Passes (f ()) { s with facts := m s.facts } b s' :=
  Iff.rfl

/-- After a change of the context, the rest passes from the state with the new context. -/
theorem passes_modifyContext_bind {m : FunctionContext → FunctionContext} {f : Unit → Analyze β}
    {b : β} :
    Passes (modifyContext m >>= f) s b s' ↔ Passes (f ()) { s with context := m s.context } b s' :=
  Iff.rfl

end Rules

/-! ### Reading the state -/

/-- Reading a function's record takes no error back. -/
@[simp] theorem keeps_functionInfo {f : Nat} : Keeps (functionInfo f) :=
  fun _ h => h

/-- Reading a symbol takes no error back. -/
@[simp] theorem keeps_symbolInfo {y : Nat} : Keeps (symbolInfo y) :=
  fun _ h => h

/-- Reading the scope takes no error back. -/
@[simp] theorem keeps_currentScope : Keeps currentScope :=
  fun _ h => h

/-- A change of a function's record is one of the facts, and takes no error back. -/
@[simp] theorem keeps_modifyFunction {f : Nat} {g : FunctionInfo → FunctionInfo} :
    Keeps (modifyFunction f g) :=
  keeps_modifyFacts

/-- An operand of the wrong type is one more error. -/
@[simp] theorem keeps_invalidOperand {operator : String} {ty : Ty} {range : Range} :
    Keeps (invalidOperand operator ty range) := by
  unfold invalidOperand
  simp

/-! ### Scopes and symbols -/

/-- The state in a new scope. -/
def openScope (kind : ScopeKind) (s : AnalysisState) : AnalysisState :=
  { s with
    facts := { s.facts with
      scopes := s.facts.scopes.push
        { kind, parent := some s.scope, depth := (s.facts.scopes[s.scope]?.getD default).depth + 1,
          function := s.context.function, bindings := [] } }
    scope := s.facts.scopes.size }

/-- The state after a scope that was opened in the state `s`. -/
def closeScope (s t : AnalysisState) : AnalysisState :=
  { t with scope := s.scope, context := { t.context with nextSlot := s.context.nextSlot } }

/-- A part of analysis in a scope of its own runs from the state with the new scope, and the outer
scope is back afterwards. -/
theorem inScope_eq {kind : ScopeKind} {m : Analyze α} {s : AnalysisState} :
    inScope kind m s = ((m (openScope kind s)).1, closeScope s (m (openScope kind s)).2) :=
  rfl

/-- If something passes in a scope of its own, it passes from the state in which the scope is open.
-/
theorem passes_inScope {kind : ScopeKind} {m : Analyze α} {s s' : AnalysisState} {a : α}
    (h : Passes (inScope kind m) s a s') :
    ∃ t, Passes m (openScope kind s) a t ∧ s' = closeScope s t := by
  obtain ⟨h, he⟩ := h
  rw [inScope_eq] at h
  cases h
  exact ⟨_, ⟨rfl, he⟩, rfl⟩

/-- Opening and closing a scope does not change the errors of what is in between. -/
theorem keeps_inScope {kind : ScopeKind} {m : Analyze α} (hm : Keeps m) :
    Keeps (inScope kind m) :=
  fun s h => hm (openScope kind s) h

/-- A new slot takes no error back. -/
@[simp] theorem keeps_allocStorage : Keeps allocStorage :=
  keeps_bind keeps_get fun _ => keeps_bind keeps_functionInfo fun _ =>
    keeps_ite (by simp) (by simp)

/-- A declaration adds a symbol, or reports that the name is taken. No error is taken back either
way. -/
@[simp] theorem keeps_declare {name : String} {ty : Ty} {kind : SymbolKind} {storage : Storage}
    {place range : Range} : Keeps (declare name ty kind storage place range) :=
  keeps_bind keeps_get fun _ => keeps_bind keeps_currentScope fun _ =>
    keeps_bind keeps_modifyFacts fun _ => keeps_ite (by simp) (by simp)

/-- A new function adds a record to the facts, and takes no error back. -/
@[simp] theorem keeps_newFunction {name : String} {kind : FunctionKind} {node : Nat}
    {signature : Signature} : Keeps (newFunction name kind node signature) := by
  unfold newFunction
  simp

/-- A capture goes from function to function outwards and changes only their records. -/
theorem keeps_capture (symbol owner fuel : Nat) :
    ∀ function, Keeps (capture symbol owner fuel function) := by
  induction fuel with
  | zero => exact fun _ => keeps_pure
  | succ fuel ih =>
      intro function
      rw [capture]
      refine keeps_ite keeps_pure (keeps_bind keeps_functionInfo fun info => keeps_ite ?_ keeps_pure)
      refine keeps_bind keeps_modifyFunction fun _ => ?_
      split
      · exact keeps_pure
      · exact ih _

/-- A use of a name looks at its symbol and captures it where that is needed, and takes no error
back. -/
@[simp] theorem keeps_use {symbol : Nat} {outside : Bool} {access : Access} :
    Keeps (use symbol outside access) :=
  keeps_modifyFacts

/-- A name is found, or reported as undefined. No error is taken back either way. -/
@[simp] theorem keeps_resolve {name : String} {range : Range} {access : Access} :
    Keeps (resolve name range access) := by
  unfold resolve
  refine keeps_bind keeps_get fun s => ?_
  split
  · simp
  · refine keeps_bind keeps_symbolInfo fun info => ?_
    dsimp only
    split
    · refine keeps_ite (keeps_bind (keeps_capture _ _ _ _) fun allowed => ?_) ?_
      · exact keeps_ite (by simp) (keeps_ite (by simp) (by simp))
      · exact keeps_bind keeps_pure fun _ => keeps_ite (by simp) (keeps_ite (by simp) (by simp))
    · simp

/-! ### Types -/

/-- An expected type is settled on an expression without taking an error back. -/
@[simp] theorem keeps_settle {want : Option Ty} {e : Expr} : Keeps (settle want e) := by
  unfold settle
  split <;> simp

/-- The type of a binary operation is given without taking an error back. -/
@[simp] theorem keeps_binaryType {op : BinaryOp} {left : Ty} {range : Range} :
    Keeps (binaryType op left range) := by
  unfold binaryType
  dsimp only
  exact keeps_ite (by simp) (keeps_ite (by simp) (by simp))

/-- The type of a negation is given without taking an error back. -/
@[simp] theorem keeps_negationType {operand : Ty} {range : Range} :
    Keeps (negationType operand range) := by
  unfold negationType
  simp

/-- The type of an item that is read is given without taking an error back. -/
@[simp] theorem keeps_itemType {target : Ty} {range : Range} : Keeps (itemType target range) := by
  unfold itemType
  split <;> simp

/-- The type of an item that is assigned is given without taking an error back. -/
@[simp] theorem keeps_assignedItemType {target : Ty} {range : Range} :
    Keeps (assignedItemType target range) := by
  unfold assignedItemType
  split <;> simp

/-- A cast is checked without taking an error back. -/
@[simp] theorem keeps_checkCast {operand : Ty} {range : Range} : Keeps (checkCast operand range) := by
  unfold checkCast
  simp

/-- The type of a builtin's call is given without taking an error back. -/
@[simp] theorem keeps_builtinType {b : Builtin} {args : List Expr} : Keeps (builtinType b args) := by
  unfold builtinType
  split
  · split <;> simp
  · split <;> simp
  · simp

/-- The type of a call is given without taking an error back. -/
@[simp] theorem keeps_callType {callee : Ty} {args : List Expr} {range : Range} :
    Keeps (callType callee args range) := by
  unfold callType
  split <;> simp

/-- What a call expects of its arguments is decided without taking an error back. -/
@[simp] theorem keeps_argMode {callee : Ty} {count : Nat} {range : Range} :
    Keeps (argMode callee count range) := by
  unfold argMode
  split
  · simp
  · refine keeps_ite ?_ (by simp)
    split <;> simp
  · simp

/-- Whether a symbol can be assigned to is decided without a change to the errors. -/
@[simp] theorem keeps_assignable? {symbol : Nat} : Keeps (assignable? symbol) := by
  unfold assignable?
  refine keeps_bind keeps_symbolInfo fun info => ?_
  split <;> simp

/-- The variable behind an assigned item is checked without taking an error back. -/
@[simp] theorem keeps_assignedBase {symbol : Option Nat} {range : Range} :
    Keeps (assignedBase symbol range) := by
  unfold assignedBase
  split
  · simp
  · refine keeps_bind keeps_assignable? fun ty => ?_
    split <;> simp

/-! ### Functions -/

/-- The parameters are declared one after another, and a name that is taken is one more error. -/
theorem keeps_declareParams (place : Range) (ps : List Param) : Keeps (declareParams place ps) := by
  induction ps with
  | nil => exact keeps_pure
  | cons p ps ih =>
      exact keeps_bind keeps_allocStorage fun _ => keeps_bind keeps_declare fun _ =>
        keeps_bind ih fun _ => keeps_pure

/-- The body of a function is analyzed in a scope and a context of its own, and its errors stay when
these are closed. -/
theorem keeps_inFunction {function : Nat} {signature : Signature} {place : Range} {m : Analyze α}
    (hm : Keeps m) : Keeps (inFunction function signature place m) :=
  keeps_bind keeps_get fun _ => keeps_bind keeps_modifyContext fun _ =>
    keeps_bind
      (keeps_inScope (keeps_bind keeps_get fun _ => keeps_bind keeps_modifyFunction fun _ =>
        keeps_bind (keeps_declareParams place signature.params) fun _ =>
          keeps_bind keeps_modifyFunction fun _ => hm))
      fun _ => keeps_bind keeps_get fun _ => keeps_bind keeps_modifyFunction fun _ =>
        keeps_bind keeps_modifyContext fun _ => keeps_pure

/-- The depth of loops is apart from the errors. -/
theorem keeps_inLoop {m : Analyze α} (hm : Keeps m) : Keeps (inLoop m) :=
  keeps_bind keeps_modifyContext fun _ => keeps_bind hm fun _ =>
    keeps_bind keeps_modifyContext fun _ => keeps_pure

/-- The state with another depth of loops. -/
def atLoop (depth : Nat → Nat) (s : AnalysisState) : AnalysisState :=
  { s with context := { s.context with loopDepth := depth s.context.loopDepth } }

/-- If something passes inside a loop, it passes from the state that is one loop deeper. -/
theorem passes_inLoop {m : Analyze α} {s s' : AnalysisState} {a : α}
    (h : Passes (inLoop m) s a s') :
    ∃ t, Passes m (atLoop (· + 1) s) a t ∧ s' = atLoop (· - 1) t := by
  obtain ⟨h, he⟩ := h
  generalize hm : m (atLoop (· + 1) s) = r
  have heq : inLoop m s = (r.1, atLoop (· - 1) r.2) := by
    rw [← hm]
    rfl
  rw [heq] at h
  cases h
  exact ⟨r.2, ⟨hm, he⟩, rfl⟩

/-- A `break` or `continue` outside of all loops is one more error. -/
@[simp] theorem keeps_requireLoop {fault : SemanticFault} {range : Range} :
    Keeps (requireLoop fault range) := by
  unfold requireLoop
  simp

/-- A returned type that is not the declared one is one more error. -/
@[simp] theorem keeps_expectReturn {ty : Ty} {range : Range} : Keeps (expectReturn ty range) := by
  unfold expectReturn
  refine keeps_bind keeps_get fun s => ?_
  split <;> simp

/-- The functions of a block are declared ahead of it, and no error is taken back. -/
@[simp] theorem keeps_hoist (ss : List Stmt) : Keeps (hoist ss) := by
  induction ss with
  | nil => exact keeps_pure
  | cons s ss ih =>
      cases s with
      | fnDecl n name signature body =>
          exact keeps_bind keeps_newFunction fun _ => keeps_bind keeps_declare fun _ =>
            keeps_bind ih fun _ => keeps_pure
      | _ => exact keeps_bind ih fun _ => keeps_pure

/-! ### Trees -/

mutual

/-- **Expressions.** The analysis of an expression takes no error back, by induction on the tree
together with lists, blocks and statements. -/
@[simp] theorem keeps_expr : ∀ (want : Option Ty) (e : Expr), Keeps (expr want e)
  | _, .lit _ _ => by simp [expr]
  | _, .ident _ _ => by
      rw [expr]
      refine keeps_bind keeps_resolve fun y => ?_
      split <;> simp
  | _, .unary _ .neg e => by simp [expr, keeps_expr none e]
  | _, .unary _ .not e => by simp [expr, keeps_expr (some .bool) e]
  | _, .binary _ op l r => by
      rw [expr]
      refine keeps_ite ?_ ?_
      · simp [keeps_expr (some .bool) l, keeps_expr (some .bool) r]
      · refine keeps_bind (keeps_expr none l) fun l' => ?_
        simp [keeps_expr (some l'.ty) r]
  | _, .assign _ target value => by
      have hv := fun want => keeps_expr want value
      have hbad : ∀ (range : Range) (want : Option Ty) (e : Expr → Expr),
          Keeps (do
            report .invalidAssignTarget range
            let v ← expr none value
            settle want (e v)) :=
        fun _ _ _ => keeps_bind keeps_report fun _ => keeps_bind (hv none) fun _ => keeps_settle
      cases target with
      | ident tn name =>
          rw [expr]
          refine keeps_bind keeps_resolve fun y => ?_
          split
          · exact keeps_bind (hv none) fun _ => keeps_settle
          · refine keeps_bind keeps_assignable? fun ty => ?_
            split
            · exact hbad _ _ _
            · next ty => exact keeps_bind (hv (some ty)) fun _ => keeps_settle
      | index tn base index =>
          cases base with
          | ident bn name =>
              rw [expr]
              exact keeps_bind keeps_resolve fun _ => keeps_bind keeps_assignedBase fun _ =>
                keeps_bind (keeps_expr (some .int) index) fun _ =>
                  keeps_bind keeps_assignedItemType fun ty => keeps_bind (hv (some ty)) fun _ =>
                    keeps_settle
          | _ =>
              rw [expr]
              · exact hbad _ _ _
              all_goals simp
      | _ =>
          rw [expr]
          · exact hbad _ _ _
          all_goals simp
  | _, .call _ callee args => by
      rw [expr]
      refine keeps_bind (keeps_expr none callee) fun f => keeps_bind keeps_argMode fun mode => ?_
      have hlast : ∀ (range : Range) (want : Option Ty) (e : Ty → List Expr → Expr) (as : List Expr),
          Keeps (do
            let ty ← callType f.ty as range
            settle want (e ty as)) :=
        fun _ _ _ _ => keeps_bind keeps_callType fun _ => keeps_settle
      dsimp only
      split
      · exact keeps_bind (keeps_exprsAgainst _ args) fun _ => hlast _ _ (fun _ _ => _) _
      · exact keeps_bind (keeps_exprs _ args) fun _ => hlast _ _ (fun _ _ => _) _
      · exact keeps_bind (keeps_pushArgs args) fun _ => hlast _ _ (fun _ _ => _) _
  | _, .index _ target index => by
      rw [expr]
      exact keeps_bind (keeps_expr none target) fun _ =>
        keeps_bind (keeps_expr (some .int) index) fun _ => keeps_bind keeps_itemType fun _ =>
          keeps_settle
  | want, .list _ items => by
      have hlist : (∃ item, want = some (.list item)) ∨ ∀ item, want ≠ some (.list item) := by
        by_cases h : ∃ item, want = some (.list item)
        · exact .inl h
        · exact .inr fun item he => h ⟨item, he⟩
      rcases hlist with ⟨item, rfl⟩ | hw
      · cases items with
        | nil => simp [expr]
        | cons first rest =>
            rw [expr]
            exact keeps_bind (keeps_expr (some item) first) fun _ =>
              keeps_bind (keeps_exprs (some item) rest) fun _ => keeps_pure
      · cases items with
        | nil =>
            rw [expr]
            · exact keeps_bind keeps_report fun _ => keeps_settle
            · exact fun item he => hw item he
        | cons first rest =>
            rw [expr]
            · exact keeps_bind (keeps_expr none first) fun e =>
                keeps_bind (keeps_exprs (some e.ty) rest) fun _ => keeps_settle
            · exact fun item he => hw item he
  | _, .cast _ e _ => by simp [expr, keeps_expr none e]
  | _, .lambda _ signature body => by
      simp [expr, keeps_inFunction (keeps_functionBody signature body)]

/-- The analysis of expressions that are expected to have one type takes no error back. -/
@[simp] theorem keeps_exprs : ∀ (want : Option Ty) (es : List Expr), Keeps (exprs want es)
  | _, [] => by simp [exprs]
  | want, e :: es => by simp [exprs, keeps_expr want e, keeps_exprs want es]

/-- The analysis of expressions with a type for each of them takes no error back. -/
@[simp] theorem keeps_exprsAgainst : ∀ (tys : List Ty) (es : List Expr), Keeps (exprsAgainst tys es)
  | _, [] => by simp [exprsAgainst]
  | tys, e :: es => by simp [exprsAgainst, keeps_expr tys.head? e, keeps_exprsAgainst tys.tail es]

/-- The analysis of the arguments of `push` takes no error back. -/
@[simp] theorem keeps_pushArgs : ∀ es : List Expr, Keeps (pushArgs es)
  | [] => by simp [pushArgs]
  | e :: es => by
      rw [pushArgs]
      exact keeps_bind (keeps_expr none e) fun e' =>
        keeps_bind (keeps_exprs (listItem? e'.ty) es) fun _ => keeps_pure

/-- The analysis of a function's body takes no error back. -/
@[simp] theorem keeps_functionBody : ∀ (signature : Signature) (b : Block),
    Keeps (functionBody signature b)
  | signature, .mk n ss none => by
      rw [functionBody]
      exact keeps_bind (keeps_hoist ss) fun ds => keeps_bind (keeps_stmts ss ds) fun _ => by simp
  | signature, .mk n ss (some e) => by
      rw [functionBody]
      exact keeps_bind (keeps_hoist ss) fun ds => keeps_bind (keeps_stmts ss ds) fun _ =>
        keeps_bind (keeps_expr (some signature.returns) e) fun _ => keeps_pure

/-- The analysis of a block takes no error back. -/
@[simp] theorem keeps_block : ∀ b : Block, Keeps (block b)
  | .mk n ss tail => by
      rw [block]
      exact keeps_inScope (keeps_bind (keeps_hoist ss) fun ds =>
        keeps_bind (keeps_stmts ss ds) fun _ => keeps_pure)

/-- The analysis of statements takes no error back. -/
@[simp] theorem keeps_stmts : ∀ (ss : List Stmt) (ds : List (Option Declared)), Keeps (stmts ss ds)
  | [], _ => by simp [stmts]
  | s :: ss, ds => by simp [stmts, keeps_stmt s ds.head?.join, keeps_stmts ss ds.tail]

/-- **Statements.** The analysis of a statement takes no error back. So a run of analysis without
errors passes in each of its parts. -/
@[simp] theorem keeps_stmt : ∀ (s : Stmt) (d : Option Declared), Keeps (stmt s d)
  | .block b, _ => by simp [stmt, keeps_block b]
  | .letVar _ _ annotated init, _ => by
      rw [stmt]
      exact keeps_bind (keeps_expr annotated init) fun _ => keeps_bind keeps_allocStorage fun _ =>
        keeps_bind keeps_declare fun _ => keeps_pure
  | .fnDecl _ _ signature body, none => by simp [stmt]
  | .fnDecl _ _ signature body, some d => by
      simp [stmt, keeps_inFunction (keeps_functionBody signature body)]
  | .ret _ none, _ => by simp [stmt]
  | .ret _ (some e), _ => by
      rw [stmt]
      refine keeps_bind keeps_get fun s => ?_
      split
      · next returns hr => exact keeps_bind (keeps_expr (some returns) e) fun _ => keeps_pure
      · simp [keeps_expr none e]
  | .cond _ test yes none, _ => by simp [stmt, keeps_expr (some .bool) test, keeps_block yes]
  | .cond _ test yes (some no), _ => by
      rw [stmt]
      exact keeps_bind (keeps_expr (some .bool) test) fun _ => keeps_bind (keeps_block yes) fun _ =>
        keeps_bind (keeps_stmt no none) fun _ => keeps_pure
  | .whileLoop _ test body, _ => by
      simp [stmt, keeps_expr (some .bool) test, keeps_inLoop (keeps_block body)]
  | .loop _ body, _ => by simp [stmt, keeps_inLoop (keeps_block body)]
  | .breakLoop _, _ => by simp [stmt]
  | .continueLoop _, _ => by simp [stmt]
  | .expr _ e, _ => by simp [stmt, keeps_expr none e]

end

end Analyze

end Parlance
