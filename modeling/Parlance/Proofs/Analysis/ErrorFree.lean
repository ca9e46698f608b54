import Mathlib
import Parlance.Proofs.Analysis.Notes
import Parlance.Proofs.Tree.Blank

/-!
# No error type after a successful analysis

Analysis gives the error type to what is wrong, reports it, and lets the error type agree with
every type. So the type does not occur anywhere if nothing was reported: a state without it
leads to a state without it (`Analyze.Cleanly`), and so do the types of the nodes that were
analyzed. Names and declarations have a symbol for the same reason, since a name without one is
reported.

## Main results

* `Analyze.cleanly_expr`, `Analyze.cleanly_stmt`: the induction over trees.
* `analyze_errorFree`: types and symbols of a program that was analyzed without errors.
-/

namespace Parlance

/-- The kinds of nodes that refer to a symbol or make one. -/
def NodeKind.hasSymbol : NodeKind → Bool
  | .ident | .letVar | .fnDecl => true
  | _ => false

/-- The type that is noted has no errors, and there is a symbol where there should be one. -/
def Note.Clean (n : Note) (kind : NodeKind) : Prop :=
  n.ty.isError = false ∧ (kind.hasSymbol = true → n.symbol.isSome = true)

/-- A node of a kind that has no symbol is clean if its type has no errors. -/
theorem Note.Clean.of_ty {n : Note} {kind : NodeKind} (h : n.ty.isError = false)
    (hk : kind.hasSymbol = false) : n.Clean kind :=
  ⟨h, fun h => by simp [hk] at h⟩

/-- A node of which nothing is noted is clean if its kind has no symbol: the blank type is unit. -/
theorem Note.Blank.clean {n : Note} {kind : NodeKind} (h : n.Blank) (hk : kind.hasSymbol = false) :
    n.Clean kind :=
  .of_ty (by rw [h.1]; rfl) hk

/-- A node of which nothing is noted yet. -/
abbrev Unnoted (n : Note) (_ : NodeKind) : Prop :=
  n.Blank

/-- All nodes of an expression are clean. -/
abbrev Expr.Clean (e : Expr) : Prop :=
  e.Notes Note.Clean

/-- The type of a clean expression has no errors. -/
theorem Expr.Clean.ty {e : Expr} (h : e.Clean) : e.ty.isError = false := by
  cases e <;> simp [Expr.Clean] at h <;> first | exact h.1 | exact h.1.1

/-- The symbols have types without errors, and the results of the functions too. -/
structure Facts.ErrorFree (F : Facts) : Prop where
  symbol : ∀ y, (F.symbol y).ty.isError = false
  returns : ∀ f, (F.info f).returns.isError = false

namespace Facts.ErrorFree

variable {F : Facts}

/-- A new symbol whose type has no errors keeps the facts free of error types. -/
theorem pushSymbol {y : Symbol} (h : F.ErrorFree) (hy : y.ty.isError = false) :
    Facts.ErrorFree { F with symbols := F.symbols.push y } := by
  refine ⟨fun z => ?_, h.returns⟩
  rw [Facts.symbol_push]
  split
  · exact hy
  · exact h.symbol z

/-- A new function whose result has no errors keeps the facts free of error types. -/
theorem pushFunction {f : FunctionInfo} (h : F.ErrorFree) (hf : f.returns.isError = false) :
    Facts.ErrorFree { F with functions := F.functions.push f } := by
  refine ⟨h.symbol, fun g => ?_⟩
  rw [Facts.info_push]
  split
  · exact hf
  · exact h.returns g

/-- A change of a symbol that leaves its type alone keeps the facts free of error types. -/
theorem modifySymbol {x : Nat} {g : Symbol → Symbol} (h : F.ErrorFree)
    (hg : ∀ y, (g y).ty = y.ty) : Facts.ErrorFree { F with symbols := F.symbols.modify x g } := by
  refine ⟨fun z => ?_, h.returns⟩
  have hz := h.symbol z
  unfold Facts.symbol at hz ⊢
  rw [Array.getElem?_modify]
  split
  · cases hs : F.symbols[z]? with
    | none => rfl
    | some y =>
        rw [hs] at hz
        exact (congrArg Ty.isError (hg y)).trans hz
  · exact hz

/-- A change of a function that leaves its result without errors keeps the facts free of error
types. -/
theorem modifyFunction {e : Nat} {g : FunctionInfo → FunctionInfo} (h : F.ErrorFree)
    (hg : ∀ f, f.returns.isError = false → (g f).returns.isError = false) :
    Facts.ErrorFree { F with functions := F.functions.modify e g } := by
  refine ⟨h.symbol, fun f => ?_⟩
  have hf := h.returns f
  unfold Facts.info at hf ⊢
  rw [Array.getElem?_modify]
  split
  · cases hs : F.functions[f]? with
    | none => rfl
    | some i =>
        rw [hs] at hf
        exact hg i hf
  · exact hf

end Facts.ErrorFree

/-- There is no error type in the facts, and the result that the current function should give has
a type without errors. -/
structure AnalysisState.Clean (s : AnalysisState) : Prop where
  facts : s.facts.ErrorFree
  wanted : Wanted s.context.returns

namespace Analyze

variable {α β : Type}

/-- A part of analysis that passes leads from a clean state to a clean one, and what it gives has
a property. -/
def Cleanly (m : Analyze α) (P : α → Prop) : Prop :=
  ∀ s a s', Passes m s a s' → s.Clean → s'.Clean ∧ P a

section Rules

variable {P : α → Prop} {Q : β → Prop}

/-- A result that is there has the properties it has, and the state stays clean. -/
theorem Cleanly.pure {a : α} (h : P a) : Cleanly (Pure.pure a) P := by
  intro s b s' hp hs
  obtain ⟨rfl, rfl, -⟩ := passes_pure.mp hp
  exact ⟨hs, h⟩

/-- A sequence of two parts. That the second one passes shows that the first one did, since errors
are kept. -/
theorem Cleanly.bind {m : Analyze α} {f : α → Analyze β} (hm : Cleanly m P)
    (hf : ∀ a, P a → Cleanly (f a) Q) (hk : ∀ a, Keeps (f a) := by simp) :
    Cleanly (m >>= f) Q := by
  intro s b s' hp hs
  obtain ⟨a, t, hma, hfa⟩ := hp.bind hk
  obtain ⟨ht, ha⟩ := hm s a t hma hs
  exact hf a ha t b s' hfa ht

/-- Less may be said of what a part of analysis gives. -/
theorem Cleanly.mono {m : Analyze α} {R : α → Prop} (hm : Cleanly m P) (h : ∀ a, P a → R a) :
    Cleanly m R := by
  intro s a s' hp hs
  obtain ⟨hs', ha⟩ := hm s a s' hp hs
  exact ⟨hs', h a ha⟩

/-- What follows a report does not pass. -/
theorem Cleanly.report_bind {fault : SemanticFault} {range : Range} {f : Unit → Analyze α}
    (hk : ∀ u, Keeps (f u) := by simp) : Cleanly (report fault range >>= f) P :=
  fun _ _ _ h _ => (not_passes_report_bind hk h).elim

/-- A choice is clean if the branch that is taken is. Each branch may rely on the condition. -/
theorem Cleanly.ite {c : Prop} [Decidable c] {m n : Analyze α} (hm : c → Cleanly m P)
    (hn : ¬ c → Cleanly n P) : Cleanly (if c then m else n) P := by
  split
  · next h => exact hm h
  · next h => exact hn h

/-- A check that leaves the state alone. -/
theorem Cleanly.of_passes {m : Analyze α} (h : ∀ s a s', Passes m s a s' → s = s' ∧ P a) :
    Cleanly m P := by
  intro s a s' hp hs
  obtain ⟨rfl, ha⟩ := h s a s' hp
  exact ⟨hs, ha⟩

end Rules

/-- The state that is looked at is the clean one. -/
theorem cleanly_get : Cleanly get AnalysisState.Clean := by
  intro s a s' hp hs
  obtain ⟨rfl, rfl, -⟩ := passes_get.mp hp
  exact ⟨hs, hs⟩

/-- In a clean state the type of any symbol has no errors, also of one that does not exist: it would
be unit. -/
theorem cleanly_symbolInfo {y : Nat} :
    Cleanly (symbolInfo y) fun info => info.ty.isError = false :=
  fun s _ _ hp hs => by
    obtain ⟨hp, -⟩ := hp
    cases hp
    exact ⟨hs, hs.facts.symbol y⟩

/-! ### Scopes and symbols -/

/-- A part of analysis leads from a clean state to a clean one, with or without errors. -/
def Tidy (m : Analyze α) : Prop :=
  ∀ s : AnalysisState, s.Clean → (m s).2.Clean

section Rules

/-- A result that is there leaves the state alone. -/
@[simp] theorem tidy_pure {a : α} : Tidy (pure a) :=
  fun _ hs => hs

/-- Looking at the state leaves it alone. -/
@[simp] theorem tidy_get : Tidy get :=
  fun _ hs => hs

/-- Two parts that keep the state clean keep it so one after the other. -/
theorem Tidy.bind {m : Analyze α} {f : α → Analyze β} (hm : Tidy m) (hf : ∀ a, Tidy (f a)) :
    Tidy (m >>= f) :=
  fun s hs => hf _ _ (hm s hs)

/-- A choice between parts that keep the state clean keeps it so. -/
theorem Tidy.ite {c : Prop} [Decidable c] {m n : Analyze α} (hm : Tidy m) (hn : Tidy n) :
    Tidy (if c then m else n) := by
  split
  · exact hm
  · exact hn

/-- A part that keeps the state clean in any case does so if it passes. -/
theorem Tidy.cleanly {m : Analyze α} (h : Tidy m) : Cleanly m fun _ => True := by
  rintro s a s' ⟨hp, -⟩ hs
  have := h s hs
  rw [hp] at this
  exact ⟨this, trivial⟩

end Rules

/-- A report changes no type, so the state stays clean. -/
theorem tidy_report {fault : SemanticFault} {range : Range} : Tidy (report fault range) :=
  fun _ hs => ⟨hs.facts, hs.wanted⟩

/-- A change of the facts keeps the state clean if it brings no error type in. -/
theorem tidy_modifyFacts {f : Facts → Facts} (h : ∀ F : Facts, F.ErrorFree → (f F).ErrorFree) :
    Tidy (modifyFacts f) :=
  fun _ hs => ⟨h _ hs.facts, hs.wanted⟩

/-- A change of a function keeps the state clean if its result stays without errors. -/
theorem tidy_modifyFunction {e : Nat} {g : FunctionInfo → FunctionInfo}
    (h : ∀ f : FunctionInfo, f.returns.isError = false → (g f).returns.isError = false) :
    Tidy (modifyFunction e g) :=
  tidy_modifyFacts fun _ hF => hF.modifyFunction h

/-- Giving out a slot changes no type. -/
theorem tidy_allocStorage : Tidy allocStorage :=
  tidy_get.bind fun _ => Tidy.bind (fun _ hs => hs) fun _ => .ite
    (Tidy.bind (fun _ hs => ⟨⟨hs.facts.symbol, hs.facts.returns⟩, hs.wanted⟩) fun _ => tidy_pure)
    (Tidy.bind (fun _ hs => ⟨hs.facts, hs.wanted⟩) fun _ => tidy_pure)

/-- Declaring a name keeps the state clean if the declared type has no errors, also where the name
is taken. -/
theorem tidy_declare {name : String} {ty : Ty} {kind : SymbolKind} {storage : Storage}
    {place range : Range} (h : ty.isError = false) :
    Tidy (declare name ty kind storage place range) :=
  tidy_get.bind fun _ => Tidy.bind (fun _ hs => hs) fun _ =>
    (tidy_modifyFacts fun _ hF => hF.pushSymbol h).bind fun _ => .ite
      (tidy_report.bind fun _ => tidy_pure)
      (Tidy.bind (fun _ hs => ⟨⟨hs.facts.symbol, hs.facts.returns⟩, hs.wanted⟩) fun _ => tidy_pure)

/-- A new function keeps the state clean if the types of its signature were written in the program.
-/
theorem tidy_newFunction {name : String} {kind : FunctionKind} {node : Nat} {signature : Signature}
    (h : signature.Regular) : Tidy (newFunction name kind node signature) :=
  tidy_get.bind fun _ => (tidy_modifyFacts fun _ hF => hF.pushFunction h.2).bind fun _ => tidy_pure

/-- Capturing a symbol through the functions around it changes no type. -/
theorem tidy_capture (symbol owner fuel : Nat) :
    ∀ function, Tidy (capture symbol owner fuel function) := by
  induction fuel with
  | zero => exact fun _ => tidy_pure
  | succ fuel ih =>
      intro function
      rw [capture]
      refine .ite tidy_pure (Tidy.bind (fun _ hs => hs) fun info => .ite ?_ tidy_pure)
      refine (tidy_modifyFunction fun f hf => ?_).bind fun _ => ?_
      · split <;> exact hf
      · split
        · exact tidy_pure
        · exact ih _

/-- Using a symbol counts it and captures it, and changes no type. -/
theorem tidy_use {symbol : Nat} {outside : Bool} {access : Access} :
    Tidy (use symbol outside access) :=
  tidy_modifyFacts fun _ hF => hF.modifySymbol fun _ => rfl

/-- Resolving a name changes no type, whether it is found or reported. It may note a capture, in the
functions between the use and the declaration. -/
theorem tidy_resolve {name : String} {range : Range} {access : Access} :
    Tidy (resolve name range access) := by
  have hlast : ∀ (allowed captured : Bool) (y : Nat) (outside : Bool), Tidy (
      if !allowed then do
        report (.invalidCapture name) range
        return none
      else do
        if captured && access != .read then report (.assignToCapture name) range
        use y outside access
        return some y) := fun _ _ _ _ =>
    .ite (tidy_report.bind fun _ => tidy_pure) <| .ite
      (tidy_report.bind fun _ => tidy_use.bind fun _ => tidy_pure)
      (tidy_use.bind fun _ => tidy_pure)
  unfold resolve
  refine tidy_get.bind fun s => ?_
  split
  · exact tidy_report.bind fun _ => tidy_pure
  · refine Tidy.bind (fun _ hs => hs) fun info => .ite ?_ ?_
    · exact (tidy_capture _ _ _ _).bind fun _ => hlast _ _ _ _
    · exact tidy_pure.bind fun _ => hlast _ _ _ _

/-- What a part of analysis gives has a property, unless there are errors. -/
def Gives (m : Analyze α) (P : α → Prop) : Prop :=
  ∀ s, (m s).2.errors = [] → P (m s).1

/-- What the last part of a sequence gives, the sequence gives. -/
theorem Gives.after {P : β → Prop} {m : Analyze α} {f : α → Analyze β}
    (hf : ∀ a, Gives (f a) P) : Gives (m >>= f) P :=
  fun _ => hf _ _

/-- What both branches give, the choice gives. -/
theorem Gives.ite {P : α → Prop} {c : Prop} [Decidable c] {m n : Analyze α} (hm : Gives m P)
    (hn : Gives n P) : Gives (if c then m else n) P := by
  split
  · exact hm
  · exact hn

/-- Nothing needs to be shown about what is given behind a report. -/
theorem gives_report {P : α → Prop} {fault : SemanticFault} {range : Range} {a : α} :
    Gives (do report fault range; return a) P :=
  fun _ => nofun

/-- A name that does not resolve is reported, so without errors there is a symbol. -/
theorem gives_resolve {name : String} {range : Range} {access : Access} :
    Gives (resolve name range access) fun r => r.isSome = true := by
  have hlast : ∀ (allowed captured : Bool) (y : Nat) (outside : Bool), Gives (
      if !allowed then do
        report (.invalidCapture name) range
        return none
      else do
        if captured && access != .read then report (.assignToCapture name) range
        use y outside access
        return some y) fun r => r.isSome = true := fun _ _ _ _ =>
    .ite gives_report <| .ite (.after fun _ => .after fun _ _ _ => rfl) (.after fun _ _ _ => rfl)
  unfold resolve
  refine .after fun s => ?_
  split
  · exact gives_report
  · exact .after fun info => .ite (.after fun _ => hlast _ _ _ _) (.after fun _ => hlast _ _ _ _)

/-- **Names.** A name that is not reported has a symbol. -/
theorem cleanly_resolve {name : String} {range : Range} {access : Access} :
    Cleanly (resolve name range access) fun r => r.isSome = true := by
  rintro s r s' ⟨hp, he⟩ hs
  have hr : Gives (resolve name range access) _ := gives_resolve
  have ht : Tidy (resolve name range access) := tidy_resolve
  specialize hr s
  specialize ht s hs
  rw [hp] at hr ht
  exact ⟨ht, hr he⟩

/-- Declaring parameters keeps the state clean if their types have no errors. -/
theorem tidy_declareParams (place : Range) (ps : List Param) (h : ∀ p ∈ ps, p.ty.isError = false) :
    Tidy (declareParams place ps) := by
  induction ps with
  | nil => exact tidy_pure
  | cons p ps ih =>
      rw [List.forall_mem_cons] at h
      exact tidy_allocStorage.bind fun _ => (tidy_declare h.1).bind fun _ => (ih h.2).bind fun _ =>
        tidy_pure

/-- What passes cleanly does so inside a scope of its own. -/
theorem Cleanly.inScope {m : Analyze α} {P : α → Prop} {kind : ScopeKind} (h : Cleanly m P) :
    Cleanly (inScope kind m) P := by
  intro s a s' hp hs
  obtain ⟨t, ht, rfl⟩ := passes_inScope hp
  obtain ⟨hs', ha⟩ := h _ a t ht ⟨⟨hs.facts.symbol, hs.facts.returns⟩, hs.wanted⟩
  exact ⟨⟨hs'.facts, hs'.wanted⟩, ha⟩

/-- What passes cleanly does so inside a loop. -/
theorem Cleanly.inLoop {m : Analyze α} {P : α → Prop} (h : Cleanly m P) : Cleanly (inLoop m) P := by
  intro s a s' hp hs
  obtain ⟨t, ht, rfl⟩ := passes_inLoop hp
  obtain ⟨hs', ha⟩ := h _ a t ht ⟨hs.facts, hs.wanted⟩
  exact ⟨⟨hs'.facts, hs'.wanted⟩, ha⟩

/-- What passes cleanly does so inside a function whose signature was written in the program. -/
theorem Cleanly.inFunction {m : Analyze α} {P : α → Prop} {f : Nat} {signature : Signature}
    {place : Range} (hsig : signature.Regular) (h : Cleanly m P) (hk : Keeps m) :
    Cleanly (inFunction f signature place m) P := by
  intro s a s' hp hs
  obtain ⟨params, t, u, hparams, hm, rfl⟩ := passes_inFunction hp hk
  have henter : (enterFunction f signature s).Clean :=
    ⟨Facts.ErrorFree.modifyFunction ⟨hs.facts.symbol, hs.facts.returns⟩ fun _ hf => hf,
      wanted_some.mpr hsig.2⟩
  obtain ⟨ht, -⟩ := (tidy_declareParams place _ hsig.1).cleanly _ _ _ hparams henter
  obtain ⟨hu, ha⟩ := h _ a u hm ⟨ht.facts.modifyFunction fun _ hf => hf, ht.wanted⟩
  exact ⟨⟨hu.facts.modifyFunction fun _ hf => hf, hs.wanted⟩, ha⟩

/-- Checking a returned type changes none. -/
theorem cleanly_expectReturn {ty : Ty} {range : Range} (h : ty.isError = false) :
    Cleanly (expectReturn ty range) fun _ => True := by
  refine Tidy.cleanly (tidy_get.bind fun s => ?_)
  split
  · exact .ite tidy_report tidy_pure
  · exact fun _ hs => ⟨hs.facts, wanted_some.mpr h⟩

/-- Checking for a loop changes no type. -/
theorem cleanly_requireLoop {fault : SemanticFault} {range : Range} :
    Cleanly (requireLoop fault range) fun _ => True :=
  Tidy.cleanly (tidy_get.bind fun _ => .ite tidy_report tidy_pure)

/-- Declaring the functions of a block keeps the state clean, since their signatures were written in
the program. -/
theorem tidy_hoist (ss : List Stmt) (h : Stmt.AllRegular ss) : Tidy (hoist ss) := by
  induction ss with
  | nil => exact tidy_pure
  | cons s ss ih =>
      cases s with
      | fnDecl n name signature b =>
          exact (tidy_newFunction h.1.1).bind fun _ => (tidy_declare h.1.1.ty).bind fun _ =>
            (ih h.2).bind fun _ => tidy_pure
      | _ => exact (ih h.2).bind fun _ => tidy_pure

/-- Every declared function is given a symbol. -/
theorem cleanly_hoist {ss : List Stmt} (h : Stmt.AllRegular ss) :
    Cleanly (hoist ss) (Aligned ss) := by
  rintro s ds s' ⟨hp, -⟩ hs
  have ht := tidy_hoist ss h s hs
  have hl := leaves_hoist ss s
  rw [hp] at ht hl
  exact ⟨ht, hl⟩

/-! ### Types -/

section

variable {ty : Ty} {range : Range} (h : ty.isError = false)

include h

/-- An operand that does not fit is reported, so what would be given then does not matter. -/
theorem cleanly_invalidOperand {operator : String} {P : Ty → Prop} :
    Cleanly (invalidOperand operator ty range) P :=
  fun _ _ _ hp _ => (not_passes_invalidOperand h hp).elim

/-- The type of a negation has no errors if its operand has none. -/
theorem cleanly_negationType :
    Cleanly (negationType ty range) fun ty => ty.isError = false :=
  .of_passes fun _ _ _ hp => by
    obtain ⟨rfl, rfl, -⟩ := passes_negationType h hp
    exact ⟨rfl, h⟩

/-- The type of a binary operation has no errors if its operands have none. -/
theorem cleanly_binaryType {op : BinaryOp} :
    Cleanly (binaryType op ty range) fun ty => ty.isError = false :=
  .of_passes fun _ _ _ hp => by
    obtain ⟨rfl, -, rfl⟩ := passes_binaryType h hp
    refine ⟨rfl, ?_⟩
    split
    · rfl
    · exact h

/-- The type of an item has no errors if the list or string has none. -/
theorem cleanly_itemType : Cleanly (itemType ty range) fun ty => ty.isError = false :=
  .of_passes fun _ _ _ hp => (passes_itemType h hp).imp_right And.right

/-- The type of an item that is assigned has no errors if the list has none. -/
theorem cleanly_assignedItemType :
    Cleanly (assignedItemType ty range) fun ty => ty.isError = false :=
  .of_passes fun _ _ _ hp => (passes_assignedItemType h hp).imp_right And.right

/-- A cast that passes has a type that may be cast. -/
theorem cleanly_checkCast : Cleanly (checkCast ty range) fun _ => True :=
  .of_passes fun _ _ _ hp => (passes_checkCast h hp).imp_right fun _ => trivial

omit h in
/-- The type of a call to a builtin. Only the result of `push` is not known in advance, and it is
found if there are two arguments. -/
theorem cleanly_builtinType {b : Builtin} {args : List Expr} (hl : args.length = b.arity)
    (hargs : ∀ e ∈ args, e.ty.isError = false) :
    Cleanly (builtinType b args) fun ty => ty.isError = false := by
  unfold builtinType
  split
  · next a =>
      split
      all_goals first
        | exact .pure rfl
        | exact (cleanly_invalidOperand (P := fun _ => True) (hargs a (by simp))).bind fun _ _ =>
            .pure rfl
  · next a c =>
      have ha := hargs a (by simp)
      split
      · next item hty => exact .pure (by rwa [← hty])
      · next hty => simp [hty, Ty.isError] at ha
      · exact cleanly_invalidOperand ha
  · next hpush =>
      cases b with
      | push =>
          obtain ⟨a, c, rfl⟩ := List.length_eq_two.mp hl
          exact (hpush a c rfl rfl).elim
      | _ => exact .pure rfl

omit h in
/-- How arguments are checked follows from the type of the callee, and if no error is reported,
there are as many as it takes. -/
theorem cleanly_argMode (callee : Ty) {count : Nat} :
    Cleanly (argMode callee count range) fun mode =>
      mode = argModeOf callee ∧ Takes callee count :=
  .of_passes fun _ _ _ hp => passes_argMode hp

/-- The types of the parameters of a function have no errors if its type has none. -/
theorem argModeOf_params {tys : List Ty} (hm : argModeOf ty = .params tys) :
    ∀ t ∈ tys, t.isError = false := by
  obtain ⟨returns, rfl⟩ := argModeOf_eq_params hm
  simp only [Ty.isError, Bool.or_eq_false_iff] at h
  exact Ty.anyError_eq_false.mp h.1

/-- The type of a call. The callee takes as many arguments as there are, so nothing is known of
a call only if it was reported. -/
theorem cleanly_callType {args : List Expr} (hl : Takes ty args.length)
    (hargs : ∀ e ∈ args, e.ty.isError = false) :
    Cleanly (callType ty args range) fun ty => ty.isError = false := by
  cases ty with
  | function params returns =>
      simp only [Ty.isError, Bool.or_eq_false_iff] at h
      exact .pure h.2
  | builtin b =>
      rw [callType, if_pos (Eq.symm hl)]
      exact cleanly_builtinType (Eq.symm hl) hargs
  | error => simp [Ty.isError] at h
  | _ => exact cleanly_invalidOperand h

end

/-- The items of a list that is wanted are wanted without errors if the list is. -/
theorem wanted_listItem? {ty : Ty} (h : ty.isError = false) : Wanted (listItem? ty) := by
  rintro item hitem
  unfold listItem? at hitem
  split at hitem
  · cases hitem
    exact h
  · cases hitem

/-- Comparing the type of an expression with the wanted one leaves the expression as it is. -/
theorem cleanly_settle {P : Expr → Prop} {want : Option Ty} {e : Expr} (h : P e) :
    Cleanly (settle want e) P := by
  unfold settle
  split
  · exact .pure h
  · exact .ite (fun _ => .report_bind) fun _ => .pure h

/-! ### Trees -/

/-- Clean expressions. -/
abbrev AllClean (es : List Expr) : Prop :=
  Expr.AllNotes Note.Clean es

/-- The types of clean expressions have no errors. -/
theorem AllClean.ty {es : List Expr} (h : AllClean es) : ∀ e ∈ es, e.ty.isError = false := by
  induction es with
  | nil => nofun
  | cons e es ih =>
      obtain ⟨he, hes⟩ := Expr.allNotes_cons.mp h
      rintro c (_ | ⟨_, hc⟩)
      · exact Expr.Clean.ty he
      · exact ih hes c hc

/-- Clean expressions, as many as there were. -/
def Kept (es es' : List Expr) : Prop :=
  AllClean es' ∧ es'.length = es.length

/-- A clean expression in front of clean expressions. -/
theorem Kept.cons {e e' : Expr} {es es' : List Expr} (hes : Kept es es') (he : e'.Clean) :
    Kept (e :: es) (e' :: es') :=
  ⟨Expr.allNotes_cons.mpr ⟨he, hes.1⟩, congrArg (· + 1) hes.2⟩

/-- A symbol that may be assigned has a type without errors. -/
theorem cleanly_assignable? {y : Nat} :
    Cleanly (assignable? y) fun r => ∀ ty, r = some ty → ty.isError = false := by
  refine cleanly_symbolInfo.bind (fun info h => ?_) fun info => by split <;> simp
  split <;> refine .pure ?_
  · rintro _ ⟨⟩
    exact h
  · rintro _ ⟨⟩
    exact h
  · intro ty hty
    cases hty

/-- The base of an assignment to an item has a type without errors, given that its name resolved. -/
theorem cleanly_assignedBase {symbol : Option Nat} {range : Range} (h : symbol.isSome = true) :
    Cleanly (assignedBase symbol range) fun ty => ty.isError = false := by
  obtain ⟨y, rfl⟩ := Option.isSome_iff_exists.mp h
  refine cleanly_assignable?.bind (fun r hr => ?_) fun r => by split <;> simp
  split
  · exact .pure (hr _ rfl)
  · exact .report_bind

/-! ### Assignments and calls -/

section Formers

variable {n tn bn : Note} {name : String} {i v : Expr} {want : Option Ty} {good : Expr → Expr}

/-- Errors are kept while an assigned value is checked and settled. -/
theorem keeps_value {ty : Option Ty} : Keeps (do
    let v ← expr ty v
    settle want (good v)) :=
  keeps_bind (keeps_expr ty v) fun _ => keeps_settle

/-- An assignment to what is not a place is reported. -/
theorem cleanly_invalidTarget {range : Range} {P : Expr → Prop} : Cleanly (do
    report .invalidAssignTarget range
    let v ← expr none v
    settle want (good v)) P :=
  .report_bind fun _ => keeps_value

/-- The value of an assignment to what may be a variable. -/
theorem keeps_assigned (r : Option Ty) (range : Range) (bad : Expr → Expr)
    (good : Ty → Expr → Expr) : Keeps (match r with
      | none => do
        report .invalidAssignTarget range
        let v ← expr none v
        settle want (bad v)
      | some ty => do
        let v ← expr (some ty) v
        settle want (good ty v)) := by
  split
  · exact keeps_bind keeps_report fun _ => keeps_value
  · exact keeps_value

/-- An assignment to a name. The value is wanted with the type of the symbol. -/
theorem cleanly_assignName
    (hv : ∀ ty : Ty, ty.isError = false → Cleanly (expr (some ty) v) Expr.Clean) :
    Cleanly (expr want (.assign n (.ident tn name) v)) Expr.Clean := by
  rw [expr]
  refine cleanly_resolve.bind (fun y hy => ?_) fun y => ?_
  · obtain ⟨y, rfl⟩ := Option.isSome_iff_exists.mp hy
    refine cleanly_assignable?.bind (fun ty hty => ?_) fun _ => keeps_assigned _ _ _ fun _ _ => _
    cases ty with
    | none => exact cleanly_invalidTarget
    | some ty =>
        have hty := hty ty rfl
        exact (hv ty hty).bind fun _ hv => cleanly_settle (Expr.notes_assign.mpr
          ⟨.of_ty hty rfl, Expr.notes_ident.mpr ⟨hty, fun _ => rfl⟩, hv⟩)
  · cases y with
    | none => exact keeps_value
    | some y => exact keeps_bind keeps_assignable? fun _ => keeps_assigned _ _ _ fun _ _ => _

/-- An assignment to an item of a list. The value is wanted with the type of the items. -/
theorem cleanly_assignItem (hi : Cleanly (expr (some .int) i) Expr.Clean)
    (hv : ∀ ty : Ty, ty.isError = false → Cleanly (expr (some ty) v) Expr.Clean) :
    Cleanly (expr want (.assign n (.index tn (.ident bn name) i) v)) Expr.Clean := by
  have hvalue : ∀ (base : Ty) (range : Range) (good : Ty → Expr → Expr), Keeps (do
      let ty ← assignedItemType base range
      let v ← expr (some ty) v
      settle want (good ty v)) := fun _ _ _ =>
    keeps_bind keeps_assignedItemType fun _ => keeps_value
  rw [expr]
  refine cleanly_resolve.bind (fun y hy => ?_) fun y =>
    keeps_bind keeps_assignedBase fun _ => keeps_bind (keeps_expr _ i) fun _ =>
      hvalue _ _ fun _ _ => _
  refine (cleanly_assignedBase hy).bind (fun base hbase => ?_) fun base =>
    keeps_bind (keeps_expr _ i) fun _ => hvalue _ _ fun _ _ => _
  refine hi.bind (fun i hi => ?_) fun i => hvalue _ _ fun _ _ => _
  refine (cleanly_assignedItemType hbase).bind (fun ty hty => ?_) fun ty => keeps_value
  exact (hv ty hty).bind fun v hv => cleanly_settle (Expr.notes_assign.mpr ⟨.of_ty hty rfl,
    Expr.notes_index.mpr ⟨.of_ty hty rfl, Expr.notes_ident.mpr ⟨hbase, fun _ => hy⟩, hi⟩, hv⟩)

variable {f : Expr} {args : List Expr}

/-- Errors are kept while a call is checked and settled. -/
theorem keeps_called {ty : Ty} {range : Range} {make : Ty → Expr} : Keeps (do
    let ty ← callType ty args range
    settle want (make ty)) :=
  keeps_bind keeps_callType fun _ => keeps_settle

/-- The arguments of a call, in each way to find their wanted types. -/
theorem keeps_callArgs (mode : ArgMode) (ty : Ty) (range : Range)
    (make : List Expr → Ty → Expr) : Keeps (do
      let args ← match mode with
        | .params tys => exprsAgainst tys args
        | .all want => exprs want args
        | .push => pushArgs args
      let ty ← callType ty args range
      settle want (make args ty)) := by
  cases mode with
  | params tys => exact keeps_bind (keeps_exprsAgainst tys args) fun _ => keeps_called
  | all want => exact keeps_bind (keeps_exprs want args) fun _ => keeps_called
  | push => exact keeps_bind (keeps_pushArgs args) fun _ => keeps_called

/-- A call, with arguments for each way to find their wanted types. -/
theorem cleanly_call (hf : Cleanly (expr none f) Expr.Clean)
    (hparams : ∀ {tys : List Ty}, (∀ ty ∈ tys, ty.isError = false) →
      Cleanly (exprsAgainst tys args) (Kept args))
    (hall : ∀ {want : Option Ty}, Wanted want → Cleanly (exprs want args) (Kept args))
    (hpush : Cleanly (pushArgs args) (Kept args)) :
    Cleanly (expr want (.call n f args)) Expr.Clean := by
  rw [expr]
  refine hf.bind (fun f' hf' => ?_) fun f' =>
    keeps_bind keeps_argMode fun mode => keeps_callArgs mode _ _ fun _ _ => _
  refine (cleanly_argMode f'.ty).bind (fun mode hmode => ?_) fun mode =>
    keeps_callArgs mode _ _ fun _ _ => _
  obtain ⟨rfl, ht⟩ := hmode
  have hlast : ∀ args', Kept args args' → Cleanly (do
      let ty ← callType f'.ty args' n.range
      settle want (.call { n with ty } f' args')) Expr.Clean := fun args' ha =>
    (cleanly_callType hf'.ty (ha.2 ▸ ht) ha.1.ty).bind fun _ hty =>
      cleanly_settle (Expr.notes_call.mpr ⟨.of_ty hty rfl, hf', ha.1⟩)
  dsimp only
  split
  · next tys hm => exact (hparams (argModeOf_params hf'.ty hm)).bind hlast fun _ => keeps_called
  · next want hm => exact (hall (wanted_of_argModeOf hm)).bind hlast fun _ => keeps_called
  · exact hpush.bind hlast fun _ => keeps_called

end Formers

/-! ### All trees -/

mutual

/-- **Expressions.** An expression that analysis passes has a symbol wherever one belongs, and no
error type at any depth. -/
theorem cleanly_expr : ∀ (e : Expr) {want : Option Ty}, e.Regular → e.Notes Unnoted → Wanted want →
    Cleanly (expr want e) Expr.Clean
  | .lit _ v, _, _, _, _ => by
      rw [expr]
      exact cleanly_settle (Expr.notes_lit.mpr (.of_ty (lit_isError v) rfl))
  | .ident _ _, _, _, _, _ => by
      rw [expr]
      refine cleanly_resolve.bind (fun y hy => ?_) fun y => by split <;> simp
      cases y with
      | some y =>
          exact cleanly_symbolInfo.bind fun info h =>
            cleanly_settle (Expr.notes_ident.mpr ⟨h, fun _ => rfl⟩)
      | none => cases hy
  | .unary _ .neg e, _, hr, hb, _ => by
      rw [expr]
      exact (cleanly_expr e hr (Expr.notes_unary.mp hb).2 wanted_none).bind fun _ he =>
        (cleanly_negationType he.ty).bind fun _ hty =>
          cleanly_settle (Expr.notes_unary.mpr ⟨.of_ty hty rfl, he⟩)
  | .unary _ .not e, _, hr, hb, _ => by
      rw [expr]
      exact (cleanly_expr e hr (Expr.notes_unary.mp hb).2 (wanted_some.mpr rfl)).bind fun _ he =>
        cleanly_settle (Expr.notes_unary.mpr ⟨.of_ty rfl rfl, he⟩)
  | .binary _ op l r, _, hr, hb, _ => by
      obtain ⟨-, hl, hrest⟩ := Expr.notes_binary.mp hb
      rw [expr]
      refine .ite (fun _ => ?_) fun _ => ?_
      · exact (cleanly_expr l hr.2.1 hl (wanted_some.mpr rfl)).bind fun _ hl =>
          (cleanly_expr r hr.2.2 hrest (wanted_some.mpr rfl)).bind fun _ hr =>
            cleanly_settle (Expr.notes_binary.mpr ⟨.of_ty rfl rfl, hl, hr⟩)
      · exact (cleanly_expr l hr.2.1 hl wanted_none).bind (fun _ hl =>
          (cleanly_expr r hr.2.2 hrest (wanted_some.mpr hl.ty)).bind fun _ hr =>
            (cleanly_binaryType hl.ty).bind fun _ hty =>
              cleanly_settle (Expr.notes_binary.mpr ⟨.of_ty hty rfl, hl, hr⟩))
          fun l => keeps_bind (keeps_expr _ r) fun _ => by simp
  | .assign _ target v, _, hr, hb, _ => by
      obtain ⟨-, ht, hv⟩ := Expr.notes_assign.mp hb
      have hvalue : ∀ ty : Ty, ty.isError = false → Cleanly (expr (some ty) v) Expr.Clean :=
        fun ty hty => cleanly_expr v hr.2 hv (wanted_some.mpr hty)
      cases target with
      | ident => exact cleanly_assignName hvalue
      | index tn base i =>
          obtain ⟨-, -, hi⟩ := Expr.notes_index.mp ht
          cases base with
          | ident => exact cleanly_assignItem (cleanly_expr i hr.1.2 hi (wanted_some.mpr rfl)) hvalue
          | _ =>
              simp only [expr]
              exact cleanly_invalidTarget
      | _ =>
          simp only [expr]
          exact cleanly_invalidTarget
  | .call _ f args, _, hr, hb, _ => by
      obtain ⟨-, hf, hargs⟩ := Expr.notes_call.mp hb
      exact cleanly_call (cleanly_expr f hr.1 hf wanted_none)
        (cleanly_exprsAgainst args hr.2 hargs) (cleanly_exprs args hr.2 hargs)
        (cleanly_pushArgs args hr.2 hargs)
  | .index _ t i, _, hr, hb, _ => by
      obtain ⟨-, ht, hi⟩ := Expr.notes_index.mp hb
      rw [expr]
      exact (cleanly_expr t hr.1 ht wanted_none).bind (fun _ ht =>
        (cleanly_expr i hr.2 hi (wanted_some.mpr rfl)).bind fun _ hi =>
          (cleanly_itemType ht.ty).bind fun _ hty =>
            cleanly_settle (Expr.notes_index.mpr ⟨.of_ty hty rfl, ht, hi⟩))
        fun _ => keeps_bind (keeps_expr _ i) fun _ => by simp
  | .list _ [], want, _, _, hw => by
      rw [expr.eq_def]
      dsimp only
      split
      · exact .pure (Expr.notes_list.mpr ⟨.of_ty (wanted_some.mp hw) rfl, Expr.allNotes_nil⟩)
      · exact .report_bind
  | .list _ (e :: es), want, hr, hb, hw => by
      obtain ⟨he, hes⟩ := Expr.allNotes_cons.mp (Expr.notes_list.mp hb).2
      rw [expr.eq_def]
      dsimp only
      split
      · next item =>
          have hitem : item.isError = false := by
            rw [wanted_some, Ty.isError] at hw
            exact hw
          exact (cleanly_expr e hr.1 he (wanted_some.mpr hitem)).bind (fun _ he =>
            (cleanly_exprs es hr.2 hes (wanted_some.mpr hitem)).bind fun _ hes =>
              .pure (Expr.notes_list.mpr ⟨.of_ty hitem rfl, Expr.allNotes_cons.mpr ⟨he, hes.1⟩⟩))
            fun _ => keeps_bind (keeps_exprs _ es) fun _ => keeps_pure
      · exact (cleanly_expr e hr.1 he wanted_none).bind (fun _ he =>
          (cleanly_exprs es hr.2 hes (wanted_some.mpr he.ty)).bind fun _ hes =>
            cleanly_settle (Expr.notes_list.mpr ⟨.of_ty he.ty rfl, Expr.allNotes_cons.mpr ⟨he, hes.1⟩⟩))
          fun _ => keeps_bind (keeps_exprs _ es) fun _ => keeps_settle
  | .cast _ e target, _, hr, hb, _ => by
      rw [expr]
      exact (cleanly_expr e hr (Expr.notes_cast.mp hb).2 wanted_none).bind fun _ he =>
        (cleanly_checkCast he.ty).bind fun _ _ =>
          cleanly_settle (Expr.notes_cast.mpr ⟨.of_ty (by cases target <;> rfl) rfl, he⟩)
  | .lambda _ signature b, _, hr, hb, _ => by
      rw [expr]
      exact (tidy_newFunction hr.1).cleanly.bind (fun f _ =>
        (Cleanly.inFunction hr.1 (cleanly_functionBody b hr.2 (Expr.notes_lambda.mp hb).2 hr.1)
          (keeps_functionBody signature b)).bind fun _ hb =>
            cleanly_settle (Expr.notes_lambda.mpr ⟨.of_ty hr.1.ty rfl, hb⟩))
        fun f => keeps_bind (keeps_inFunction (keeps_functionBody signature b)) fun _ => keeps_settle

/-- So have expressions that all should have one type. There are as many as before. -/
theorem cleanly_exprs : ∀ (es : List Expr) {want : Option Ty}, Expr.AllRegular es →
    Expr.AllNotes Unnoted es → Wanted want → Cleanly (exprs want es) (Kept es)
  | [], _, _, _, _ => .pure ⟨Expr.allNotes_nil, rfl⟩
  | e :: es, want, hr, hb, hw => by
      obtain ⟨he, hes⟩ := Expr.allNotes_cons.mp hb
      rw [exprs]
      exact (cleanly_expr e hr.1 he hw).bind fun _ he => (cleanly_exprs es hr.2 hes hw).bind
        fun _ hes => .pure (hes.cons he)

/-- So have arguments that are checked against the types of parameters. -/
theorem cleanly_exprsAgainst : ∀ (es : List Expr) {tys : List Ty}, Expr.AllRegular es →
    Expr.AllNotes Unnoted es → (∀ ty ∈ tys, ty.isError = false) →
    Cleanly (exprsAgainst tys es) (Kept es)
  | [], _, _, _, _ => by
      rw [exprsAgainst]
      exact .pure ⟨Expr.allNotes_nil, rfl⟩
  | e :: es, tys, hr, hb, ht => by
      obtain ⟨he, hes⟩ := Expr.allNotes_cons.mp hb
      rw [exprsAgainst]
      exact (cleanly_expr e hr.1 he fun ty h => ht ty (List.mem_of_mem_head? h)).bind fun _ he =>
        (cleanly_exprsAgainst es hr.2 hes fun ty h => ht ty (List.mem_of_mem_tail h)).bind
          fun _ hes => .pure (hes.cons he)

/-- So have the arguments of the builtin that appends to a list, whose first one gives the type of
the second one. -/
theorem cleanly_pushArgs : ∀ es : List Expr, Expr.AllRegular es → Expr.AllNotes Unnoted es →
    Cleanly (pushArgs es) (Kept es)
  | [], _, _ => by
      rw [pushArgs]
      exact .pure ⟨Expr.allNotes_nil, rfl⟩
  | e :: es, hr, hb => by
      obtain ⟨he, hes⟩ := Expr.allNotes_cons.mp hb
      rw [pushArgs]
      exact (cleanly_expr e hr.1 he wanted_none).bind
        (fun _ he => (cleanly_exprs es hr.2 hes (wanted_listItem? he.ty)).bind fun _ hes =>
          .pure (hes.cons he))
        fun e => keeps_bind (keeps_exprs _ es) fun _ => keeps_pure

/-- **Functions.** So has the body of a function, whose result is checked as well. -/
theorem cleanly_functionBody : ∀ (b : Block) {signature : Signature}, b.Regular true →
    b.Notes Unnoted .block → signature.Regular →
    Cleanly (functionBody signature b) (Block.Notes Note.Clean .block)
  | .mk n ss none, signature, hr, hb, hs => by
      obtain ⟨hn, hss, -⟩ := Block.notes_mk.mp hb
      rw [functionBody]
      refine (cleanly_hoist hr).bind (fun ds hds => (cleanly_stmts ss hr hss hds).bind
        fun ss' hss' => .ite (fun _ => .report_bind) fun _ => ?_)
        fun ds => keeps_bind (keeps_stmts ss ds) fun _ => by simp
      exact .pure (Block.notes_mk.mpr ⟨hn.clean rfl, hss', nofun⟩)
  | .mk n ss (some e), signature, hr, hb, hs => by
      obtain ⟨hn, hss, he⟩ := Block.notes_mk.mp hb
      rw [functionBody]
      exact (cleanly_hoist hr.2.1).bind (fun ds hds => (cleanly_stmts ss hr.2.1 hss hds).bind
        fun ss' hss' => (cleanly_expr e hr.2.2 (he e rfl) (wanted_some.mpr hs.2)).bind
          fun e' he' => .pure (Block.notes_mk.mpr ⟨hn.clean rfl, hss', by simpa using he'⟩))
        fun ds => keeps_bind (keeps_stmts ss ds) fun _ =>
          keeps_bind (keeps_expr (some signature.returns) e) fun _ => keeps_pure

/-- So has a block without a result. -/
theorem cleanly_block : ∀ b : Block, b.Regular false → b.Notes Unnoted .block →
    Cleanly (block b) (Block.Notes Note.Clean .block)
  | .mk n ss none, hr, hb => by
      obtain ⟨hn, hss, -⟩ := Block.notes_mk.mp hb
      rw [block]
      exact Cleanly.inScope <| (cleanly_hoist hr).bind (fun ds hds =>
        (cleanly_stmts ss hr hss hds).bind fun ss' hss' =>
          .pure (Block.notes_mk.mpr ⟨hn.clean rfl, hss', nofun⟩))
        fun ds => keeps_bind (keeps_stmts ss ds) fun _ => keeps_pure
  | .mk n ss (some e), hr, _ => by simp [Block.Regular] at hr

/-- So have statements, whose functions were declared before. -/
theorem cleanly_stmts : ∀ (ss : List Stmt) {ds : List (Option Declared)}, Stmt.AllRegular ss →
    Stmt.AllNotes Unnoted ss → Aligned ss ds → Cleanly (stmts ss ds) (Stmt.AllNotes Note.Clean)
  | [], _, _, _, _ => .pure Stmt.allNotes_nil
  | s :: ss, ds, hr, hb, hds => by
      obtain ⟨hs, hss⟩ := Stmt.allNotes_cons.mp hb
      rw [stmts]
      exact (cleanly_stmt s hr.1 hs hds.1).bind fun _ hs => (cleanly_stmts ss hr.2 hss hds.2).bind
        fun _ hss => .pure (Stmt.allNotes_cons.mpr ⟨hs, hss⟩)

/-- **Statements.** A statement that analysis passes has a symbol wherever one belongs, and no error
type at any depth. -/
theorem cleanly_stmt : ∀ (s : Stmt) {d : Option Declared}, s.Regular → s.Notes Unnoted →
    (s.isFnDecl = true → d.isSome = true) → Cleanly (stmt s d) (Stmt.Notes Note.Clean)
  | .block b, _, hr, hb, _ => by
      rw [stmt]
      exact (cleanly_block b hr hb).bind fun _ hb => .pure hb
  | .letVar n name annotated init, _, hr, hb, _ => by
      obtain ⟨hn, he⟩ := Stmt.notes_letVar.mp hb
      rw [stmt]
      refine (cleanly_expr init hr.2 he hr.1).bind (fun e he => ?_) fun e =>
        keeps_bind keeps_allocStorage fun _ => by simp
      have hty : (annotated.getD e.ty).isError = false := by
        cases annotated with
        | none => exact he.ty
        | some ty => exact hr.1 ty rfl
      exact tidy_allocStorage.cleanly.bind fun _ _ => (tidy_declare hty).cleanly.bind fun _ _ =>
        .pure (Stmt.notes_letVar.mpr ⟨⟨by rw [hn.1]; rfl, fun _ => rfl⟩, he⟩)
  | .fnDecl _ _ _ _, none, _, _, hd => by simp [Stmt.isFnDecl] at hd
  | .fnDecl n name signature b, some d, hr, hb, _ => by
      obtain ⟨hn, hb⟩ := Stmt.notes_fnDecl.mp hb
      rw [stmt]
      exact (Cleanly.inFunction hr.1 (cleanly_functionBody b hr.2 hb hr.1)
        (keeps_functionBody signature b)).bind fun _ hb =>
          .pure (Stmt.notes_fnDecl.mpr ⟨⟨by rw [hn.1]; rfl, fun _ => rfl⟩, hb⟩)
  | .ret n none, _, _, hb, _ => by
      obtain ⟨hn, -⟩ := Stmt.notes_ret.mp hb
      rw [stmt]
      exact (cleanly_expectReturn rfl).bind fun _ _ =>
        .pure (Stmt.notes_ret.mpr ⟨hn.clean rfl, nofun⟩)
  | .ret n (some e), _, hr, hb, _ => by
      obtain ⟨hn, he⟩ := Stmt.notes_ret.mp hb
      rw [stmt]
      refine cleanly_get.bind (fun s hs => ?_) fun s => ?_
      · split
        · next returns hreturns =>
            exact (cleanly_expr e hr (he e rfl) (hreturns ▸ hs.wanted)).bind fun _ he =>
              .pure (Stmt.notes_ret.mpr ⟨hn.clean rfl, by simpa using he⟩)
        · exact (cleanly_expr e hr (he e rfl) wanted_none).bind fun _ he =>
            (cleanly_expectReturn he.ty).bind fun _ _ =>
              .pure (Stmt.notes_ret.mpr ⟨hn.clean rfl, by simpa using he⟩)
      · split
        · next returns _ => exact keeps_bind (keeps_expr (some returns) e) fun _ => keeps_pure
        · simp
  | .cond n test yes none, _, hr, hb, _ => by
      obtain ⟨hn, ht, hy, -⟩ := Stmt.notes_cond.mp hb
      rw [stmt]
      exact (cleanly_expr test hr.1 ht (wanted_some.mpr rfl)).bind fun _ ht =>
        (cleanly_block yes hr.2 hy).bind fun _ hy =>
          .pure (Stmt.notes_cond.mpr ⟨hn.clean rfl, ht, hy, nofun⟩)
  | .cond n test yes (some no), _, hr, hb, _ => by
      obtain ⟨hn, ht, hy, hno⟩ := Stmt.notes_cond.mp hb
      have hfn : no.isFnDecl = true → (none : Option Declared).isSome = true := by
        cases no <;> first | exact hr.2.2.1.elim | exact nofun
      rw [stmt]
      exact (cleanly_expr test hr.1 ht (wanted_some.mpr rfl)).bind fun _ ht =>
        (cleanly_block yes hr.2.1 hy).bind fun _ hy =>
          (cleanly_stmt no hr.2.2.2 (hno no rfl) hfn).bind fun _ hno =>
            .pure (Stmt.notes_cond.mpr ⟨hn.clean rfl, ht, hy, by simpa using hno⟩)
  | .whileLoop n test b, _, hr, hb, _ => by
      obtain ⟨hn, ht, hb⟩ := Stmt.notes_whileLoop.mp hb
      rw [stmt]
      exact (cleanly_expr test hr.1 ht (wanted_some.mpr rfl)).bind (fun _ ht =>
        (Cleanly.inLoop (cleanly_block b hr.2 hb)).bind fun _ hb =>
          .pure (Stmt.notes_whileLoop.mpr ⟨hn.clean rfl, ht, hb⟩))
        fun _ => keeps_bind (keeps_inLoop (keeps_block b)) fun _ => keeps_pure
  | .loop n b, _, hr, hb, _ => by
      obtain ⟨hn, hb⟩ := Stmt.notes_loop.mp hb
      rw [stmt]
      exact (Cleanly.inLoop (cleanly_block b hr hb)).bind fun _ hb =>
        .pure (Stmt.notes_loop.mpr ⟨hn.clean rfl, hb⟩)
  | .breakLoop n, _, _, hb, _ => by
      rw [stmt]
      exact (cleanly_requireLoop).bind fun _ _ =>
        .pure (Stmt.notes_breakLoop.mpr ((Stmt.notes_breakLoop.mp hb).clean rfl))
  | .continueLoop n, _, _, hb, _ => by
      rw [stmt]
      exact (cleanly_requireLoop).bind fun _ _ =>
        .pure (Stmt.notes_continueLoop.mpr ((Stmt.notes_continueLoop.mp hb).clean rfl))
  | .expr n e, _, hr, hb, _ => by
      obtain ⟨hn, he⟩ := Stmt.notes_expr.mp hb
      rw [stmt]
      exact (cleanly_expr e hr he wanted_none).bind fun _ he =>
        .pure (Stmt.notes_expr.mpr ⟨hn.clean rfl, he⟩)

end

/-- **Clean programs.** If no error is reported, every type that analysis has noted in the program
is free of errors. -/
theorem cleanly_programBody {b : Block} (hr : b.Regular true) (hb : b.Notes Unnoted .program) :
    Cleanly (programBody b) (Block.Notes Note.Clean .program) := by
  obtain ⟨n, ss, tail⟩ := b
  obtain ⟨hn, hss, ht⟩ := Block.notes_mk.mp hb
  have hn : Note.Clean { n with function := some 0 } .program := .of_ty (by rw [hn.1]; rfl) rfl
  cases tail with
  | none =>
      rw [programBody]
      refine (cleanly_hoist hr).bind (fun ds hds => (cleanly_stmts ss hr hss hds).bind
        fun ss' hss' => .ite (fun _ => ?_) fun _ => ?_)
        fun ds => keeps_bind (keeps_stmts ss ds) fun _ => by simp
      · exact (cleanly_expectReturn rfl).bind fun _ _ =>
          .pure (Block.notes_mk.mpr ⟨hn, hss', nofun⟩)
      · exact .pure (Block.notes_mk.mpr ⟨hn, hss', nofun⟩)
  | some e =>
      rw [programBody]
      exact (cleanly_hoist hr.2.1).bind (fun ds hds => (cleanly_stmts ss hr.2.1 hss hds).bind
        fun ss' hss' => (cleanly_expr e hr.2.2 (ht e rfl) wanted_none).bind fun e' he' =>
          (cleanly_expectReturn he'.ty).bind fun _ _ =>
            .pure (Block.notes_mk.mpr ⟨hn, hss', by simpa using he'⟩))
        fun ds => keeps_bind (keeps_stmts ss ds) fun _ => keeps_bind (keeps_expr none e) fun _ => by
          simp

/-- Before analysis there are only the builtins and the program itself, and none of their types has
errors. -/
theorem clean_initial : initial.Clean where
  facts := by
    refine ⟨fun y => ?_, fun f => ?_⟩
    · by_cases hy : y < initial.facts.symbols.size
      · obtain ⟨b, -, -, ht⟩ := symbol_initial hy
        rw [ht]
        rfl
      · rw [Facts.symbol, Array.getElem?_eq_none (Nat.le_of_not_lt hy)]
        rfl
    · cases f <;> rfl
  wanted := wanted_none

/-- Closing the facts at the end changes no type. -/
theorem errorFree_finish {s : AnalysisState} (h : s.Clean) : (finish s).ErrorFree := by
  have hreturns : (s.context.returns.getD .unit).isError = false := by
    cases hr : s.context.returns with
    | none => rfl
    | some ty => exact h.wanted ty hr
  obtain ⟨hsymbol, hinfo⟩ := h.facts.modifyFunction (e := 0)
    (g := fun f => { f with returns := s.context.returns.getD .unit }) fun _ _ => hreturns
  exact ⟨hsymbol, hinfo⟩

end Analyze

/-- The notes of a program that is analyzed without errors are clean, and the error type does not
occur in the facts. -/
theorem analyze_clean {p : Program} (hr : p.root.Regular true)
    (hb : p.root.Notes Unnoted .program) (h : (analyze p).2 = []) :
    (analyze p).1.program.root.Notes Note.Clean .program ∧ (analyze p).1.facts.ErrorFree := by
  generalize hrun : (Analyze.programBody p.root).run Analyze.initial = r
  obtain ⟨root, s⟩ := r
  have ha : analyze p =
      ({ program := { p with root, types := { p with root }.typeTable }
         facts := Analyze.finish s }, s.errors.reverse) := by
    unfold analyze
    rw [hrun]
    rfl
  rw [ha] at h ⊢
  have hp : Analyze.Passes (Analyze.programBody p.root) Analyze.initial root s :=
    ⟨hrun, by simpa using h⟩
  obtain ⟨hs, hroot⟩ := Analyze.cleanly_programBody hr hb _ _ _ hp Analyze.clean_initial
  exact ⟨hroot, Analyze.errorFree_finish hs⟩

/-- **The error type does not escape.** If analysis reports nothing, the error type does not occur
in the type of a node, a symbol or the result of a function, and every name, variable and function
declaration has a symbol. The expressions in the body of every function have the types that the
rules of typing give them. -/
theorem analyze_errorFree (g : Grammar) (size : Nat) (tokens : List Token)
    (h : (analyze (parseTokens g size tokens).1).2 = []) :
    let a := (analyze (parseTokens g size tokens).1).1
    (∀ n ∈ a.program.nodes, n.note.ty.isError = false ∧
      (n.kind.hasSymbol = true → n.note.symbol.isSome = true)) ∧
    (∀ y ∈ a.facts.symbols, y.ty.isError = false) ∧
    (∀ f ∈ a.facts.functions, f.returns.isError = false) ∧
    ∀ p ∈ a.bodies, p.2.TypedBody a.facts (a.facts.info p.1).returns := by
  intro a
  obtain ⟨hnodes, hfacts⟩ := analyze_clean parseTokens_regular (parseTokens_blank g size tokens) h
  refine ⟨hnodes, fun y hy => ?_, fun f hf => ?_, fun p hp => ?_⟩
  · obtain ⟨i, hi, rfl⟩ := Array.mem_iff_getElem.mp hy
    have := hfacts.symbol i
    rwa [Facts.symbol, Array.getElem?_eq_getElem hi] at this
  · obtain ⟨i, hi, rfl⟩ := Array.mem_iff_getElem.mp hf
    have := hfacts.returns i
    rwa [Facts.info, Array.getElem?_eq_getElem hi] at this
  · exact ((analyze_accepted parseTokens_regular h).1.accepts hp).typed

/-- An empty list, whose type comes from the variable it is for. -/
def pushesOne : List Char :=
  "let x: [int] = []; push(x, 1)".toList

/-- What analysis makes of `pushesOne`, computed: the empty list has the type that its variable was
declared with. -/
theorem types_pushesOne :
    (CompileOptions.lex {} pushesOne).toOption.map (fun tokens =>
      let a := analyze (parseTokens .standard 29 tokens).1
      (a.2.isEmpty, a.1.program.nodes.map fun n => n.note.ty)) =
    some (true, [.unit, .unit, .list .int, .list .int, .builtin .push, .list .int, .int]) := by
  rw [Grammar.standard_eq]
  decide +kernel

/-- Analysis of `pushesOne` reports nothing, so its empty list has found a type. -/
theorem pushesOne_errorFree :
    ∃ tokens, CompileOptions.lex {} pushesOne = .ok tokens ∧
      let a := analyze (parseTokens .standard 29 tokens).1
      a.2 = [] ∧ (.list .int) ∈ a.1.program.nodes.map (fun n => n.note.ty) ∧
        ∀ n ∈ a.1.program.nodes, n.note.ty.isError = false := by
  have h := types_pushesOne
  cases hl : CompileOptions.lex {} pushesOne with
  | error e => simp [hl, Except.toOption] at h
  | ok tokens =>
      simp only [hl, Except.toOption, Option.map_some, Option.some.injEq, Prod.mk.injEq,
        List.isEmpty_iff] at h
      obtain ⟨herrors, hnodes⟩ := h
      exact ⟨tokens, rfl, herrors, by simp [hnodes], fun n hn =>
        ((analyze_errorFree .standard 29 tokens herrors).1 n hn).1⟩

end Parlance
