import Parlance.Proofs.Analysis.Notes
import Parlance.Proofs.Tree.Items

/-!
# What analysis does with names

Most of analysis is about types, and does nothing to scopes, symbols and functions. `Walk` keeps
the rest: it says how analysis goes from one state to another one along the items of the tree
that it gives. A name is resolved, a variable gets storage and is declared, a block is a scope,
and a function has a scope and a frame of its own. The functions of a list of statements are
declared before its items.

This covers every run of analysis, with or without errors. Properties of names and slots are
inductions on walks.

## Main definitions

* `Analyze.Walk`, `Analyze.Fills`: walks over items, and over the items of a list of statements.

## Main results

* `Analyze.fills_functionBody`, `Analyze.fills_programBody`: analysis is a walk.
-/

namespace Parlance

namespace Analyze

variable {α β : Type}

/-! ### Steps -/

/-- Nothing changes but errors, loops and the type of the result. -/
structure Still (s t : AnalysisState) : Prop where
  facts : t.facts = s.facts
  scope : t.scope = s.scope
  function : t.context.function = s.context.function
  nextSlot : t.context.nextSlot = s.context.nextSlot
  maxSlot : t.context.maxSlot = s.context.maxSlot
  errors : t.errors = [] → s.errors = []

/-- A variable gets storage: a global slot in the program, a slot of the frame elsewhere. -/
inductive Allocates (s : AnalysisState) : Storage → AnalysisState → Prop
  | global (h : (s.facts.info s.context.function).kind = .main) :
    Allocates s (.global s.facts.globals)
      { s with facts := { s.facts with globals := s.facts.globals + 1 } }
  | frame (h : (s.facts.info s.context.function).kind ≠ .main) :
    Allocates s (.frame s.context.nextSlot)
      { s with context := { s.context with
          nextSlot := s.context.nextSlot + 1
          maxSlot := max s.context.maxSlot (s.context.nextSlot + 1) } }

/-- A symbol is declared in the current scope. -/
structure Declares (s : AnalysisState) (name : String) (kind : SymbolKind) (storage : Storage)
    (y : Nat) (t : AnalysisState) : Prop where
  number : y = s.facts.symbols.size
  symbols : ∃ symbol : Symbol, symbol.name = name ∧ symbol.kind = kind ∧
    symbol.storage = storage ∧ symbol.function = s.context.function ∧
    t.facts.symbols = s.facts.symbols.push symbol
  functions : t.facts.functions = s.facts.functions
  globals : t.facts.globals = s.facts.globals
  scope : t.scope = s.scope
  context : t.context = s.context
  errors : t.errors = [] → s.errors = [] ∧
    t.facts.scopes = s.facts.scopes.modify s.scope (withBinding name y)

/-- A function is made inside the current one. -/
structure Founds (s : AnalysisState) (kind : FunctionKind) (f : Nat) (t : AnalysisState) :
    Prop where
  number : f = s.facts.functions.size
  state : ∃ info : FunctionInfo, info.kind = kind ∧ info.parent = some s.context.function ∧
    info.captures = [] ∧
    t = { s with facts := { s.facts with functions := s.facts.functions.push info } }

/-- The functions of a list of statements are declared, with their names. -/
inductive Hoists : AnalysisState → List (String × Declared) → AnalysisState → Prop
  | nil {s : AnalysisState} : Hoists s [] s
  | cons {s t u v : AnalysisState} {name : String} {d : Declared} {ds : List (String × Declared)}
    (hf : Founds s .named d.function t)
    (hd : Declares t name .function (.function d.function) d.symbol u) (h : Hoists u ds v) :
    Hoists s ((name, d) :: ds) v

/-- The parameters of a function are declared. -/
inductive DeclaresAll : AnalysisState → List String → List Nat → AnalysisState → Prop
  | nil {s : AnalysisState} : DeclaresAll s [] [] s
  | cons {s t u v : AnalysisState} {name : String} {storage : Storage} {y : Nat}
    {names : List String} {ys : List Nat} (ha : Allocates s storage t)
    (hd : Declares t name .parameter storage y u) (h : DeclaresAll u names ys v) :
    DeclaresAll s (name :: names) (y :: ys) v

/-- A function is entered, and its parameters are declared. -/
inductive Enters (f : Nat) (names : List String) (s : AnalysisState) : AnalysisState → Prop
  | mk {signature : Signature} {ys : List Nat} {t : AnalysisState}
    (h : DeclaresAll (enterFunction f signature s) names ys t) :
    Enters f names s (withFunction f (fun i => { i with params := ys }) t)

/-- The function of an item: a lambda is made where it stands, a declared function is the next
one of those that wait for their bodies. -/
inductive Begins (s : AnalysisState) :
    List (String × Declared) → Nat → Option (String × Nat) → List (String × Declared) →
      AnalysisState → Prop
  | lambda {f : Nat} {t : AnalysisState} {ds : List (String × Declared)}
    (h : Founds s .lambda f t) : Begins s ds f none ds t
  | named {name : String} {d : Declared} {ds : List (String × Declared)} :
    Begins s ((name, d) :: ds) d.function (some (name, d.symbol)) ds s

/-- Analysis goes along items. The functions in `ds` are declared and wait for their bodies. -/
inductive Walk : AnalysisState → List (String × Declared) → List Item → AnalysisState → Prop
  | nil {s : AnalysisState} : Walk s [] [] s
  | still {s t u : AnalysisState} {ds : List (String × Declared)} {is : List Item}
    (h : Still s t) (hr : Walk t ds is u) : Walk s ds is u
  | use {s t u : AnalysisState} {ds : List (String × Declared)} {is : List Item} {name : String}
    {range : Range} {access : Access} {found symbol : Option Nat}
    (h : resolve name range access s = (found, t)) (hs : ∀ y, found = some y → symbol = some y)
    (hr : Walk t ds is u) : Walk s ds (.use symbol name :: is) u
  | rejected {s u : AnalysisState} {ds : List (String × Declared)} {is : List Item} {name : String}
    (h : s.errors ≠ []) (hr : Walk s ds is u) : Walk s ds (.use none name :: is) u
  | variable {s t u v : AnalysisState} {ds : List (String × Declared)} {is : List Item}
    {name : String} {storage : Storage} {y : Nat} (ha : Allocates s storage t)
    (hd : Declares t name .variable storage y u) (hr : Walk u ds is v) :
    Walk s ds (.variable (some y) name :: is) v
  | block {s t u v : AnalysisState} {ds es : List (String × Declared)} {body is : List Item}
    (hh : Hoists (openScope .block s) es t) (hb : Walk t es body u)
    (hr : Walk (closeScope s u) ds is v) : Walk s ds (.block body :: is) v
  | function {s t u v w x : AnalysisState} {ds es rest : List (String × Declared)}
    {body is : List Item} {f : Nat} {declaration : Option (String × Nat)} {names : List String}
    (hf : Begins s ds f declaration rest t) (he : Enters f names t u) (hh : Hoists u es v)
    (hb : Walk v es body w) (hr : Walk (leaveFunction f t w) rest is x) :
    Walk s ds (.function (some f) declaration names body :: is) x

/-- Analysis goes along the items of a list of statements, whose functions it declares first. -/
def Fills (s : AnalysisState) (is : List Item) (u : AnalysisState) : Prop :=
  ∃ ds t, Hoists s ds t ∧ Walk t ds is u

section

variable {s t u v : AnalysisState} {ds es : List (String × Declared)} {is js : List Item}

/-- Nothing changes where nothing happens. -/
theorem Still.refl (s : AnalysisState) : Still s s :=
  ⟨rfl, rfl, rfl, rfl, rfl, id⟩

/-- Nothing changes in two steps of which neither changes anything. -/
theorem Still.trans (h : Still s t) (h' : Still t u) : Still s u :=
  ⟨h'.facts.trans h.facts, h'.scope.trans h.scope, h'.function.trans h.function,
    h'.nextSlot.trans h.nextSlot, h'.maxSlot.trans h.maxSlot, fun he => h.errors (h'.errors he)⟩

/-- A walk along some items and a walk from there along others make one walk. The functions that
wait are those of both, in order. -/
theorem Walk.append (h : Walk s ds is t) (h' : Walk t es js u) :
    Walk s (ds ++ es) (is ++ js) u := by
  induction h with
  | nil => exact h'
  | still hs _ ih => exact .still hs (ih h')
  | use hu hs _ ih => exact .use hu hs (ih h')
  | rejected he _ ih => exact .rejected he (ih h')
  | «variable» ha hd _ ih => exact .variable ha hd (ih h')
  | block hh hb _ _ ih => exact .block hh hb (ih h')
  | function hf he hh hb _ _ ih =>
      cases hf with
      | lambda hf => exact .function (.lambda hf) he hh hb (ih h')
      | named => exact .function .named he hh hb (ih h')

/-- A step that changes nothing may follow a walk. -/
theorem Walk.append_still (h : Walk s ds is t) (h' : Still t u) : Walk s ds is u := by
  have := h.append (.still h' .nil)
  rwa [List.append_nil, List.append_nil] at this

/-- The functions that wait for their bodies are those that the items declare. -/
theorem Walk.declarations_eq (h : Walk s ds is t) :
    Item.declarations is = ds.map fun d => (d.1, d.2.symbol) := by
  induction h with
  | nil => rfl
  | still _ _ ih => exact ih
  | use _ _ _ ih => exact ih
  | rejected _ _ ih => exact ih
  | «variable» _ _ _ ih => exact ih
  | block _ _ _ _ ih => exact ih
  | function hf _ _ _ _ _ ih =>
      cases hf with
      | lambda _ => exact ih
      | named => exact congrArg _ ih

/-- Statements that declare their functions first may be followed by a walk along more items, as
long as no function waits there. -/
theorem Fills.append (h : Fills s is t) (h' : Walk t [] js u) : Fills s (is ++ js) u := by
  obtain ⟨ds, v, hh, hw⟩ := h
  exact ⟨ds, v, hh, List.append_nil ds ▸ hw.append h'⟩

/-- A step that changes nothing may follow the statements. -/
theorem Fills.append_still (h : Fills s is t) (h' : Still t u) : Fills s is u := by
  obtain ⟨ds, v, hh, hw⟩ := h
  exact ⟨ds, v, hh, hw.append_still h'⟩

end

/-! ### Parts without names -/

/-- A part of analysis does nothing to scopes, symbols and functions. -/
def Neutral (m : Analyze α) : Prop :=
  ∀ s, Still s (m s).2

section Neutral

/-- A result that is there already does nothing to the state. -/
theorem neutral_pure {a : α} : Neutral (pure a : Analyze α) :=
  fun s => .refl s

/-- Looking at the state does nothing to it. -/
theorem neutral_get : Neutral (get : Analyze AnalysisState) :=
  fun s => .refl s

/-- Reading a symbol does nothing to the state. -/
theorem neutral_symbolInfo {y : Nat} : Neutral (symbolInfo y) :=
  fun s => .refl s

/-- A report changes only the errors. -/
theorem neutral_report {fault : SemanticFault} {range : Range} : Neutral (report fault range) :=
  fun _ => ⟨rfl, rfl, rfl, rfl, rfl, fun h => absurd h (List.cons_ne_nil _ _)⟩

/-- Two steps that do nothing to scopes, symbols and functions do nothing together. -/
theorem Neutral.bind {m : Analyze α} {f : α → Analyze β} (hm : Neutral m)
    (hf : ∀ a, Neutral (f a)) : Neutral (m >>= f) :=
  fun s => (hm s).trans (hf _ _)

/-- A choice between two steps of which neither does anything does nothing. -/
theorem Neutral.ite {c : Prop} [Decidable c] {m n : Analyze α} (hm : Neutral m)
    (hn : Neutral n) : Neutral (if c then m else n) := by
  split
  · exact hm
  · exact hn

/-- An operand of the wrong type is only reported. -/
theorem neutral_invalidOperand {operator : String} {ty : Ty} {range : Range} :
    Neutral (invalidOperand operator ty range) :=
  .ite neutral_pure (neutral_report.bind fun _ => neutral_pure)

/-- An expected type is only compared, and a difference is only reported. -/
theorem neutral_settle {want : Option Ty} {e : Expr} : Neutral (settle want e) := by
  unfold settle
  split
  · exact neutral_pure
  · exact .ite (neutral_report.bind fun _ => neutral_pure) neutral_pure

/-- The type of a binary operation is found from the types of its operands alone. -/
theorem neutral_binaryType {op : BinaryOp} {left : Ty} {range : Range} :
    Neutral (binaryType op left range) := by
  unfold binaryType
  refine .ite ?_ (.ite ?_ ?_)
  · exact neutral_pure.bind fun _ => neutral_pure
  · exact neutral_pure.bind fun _ => neutral_pure
  · exact neutral_invalidOperand.bind fun _ => neutral_pure

/-- The type of a negation is found from the type of its operand alone. -/
theorem neutral_negationType {operand : Ty} {range : Range} :
    Neutral (negationType operand range) :=
  .ite neutral_pure neutral_invalidOperand

/-- The type of an item that is read is found from the type of the list alone. -/
theorem neutral_itemType {target : Ty} {range : Range} : Neutral (itemType target range) := by
  unfold itemType
  split
  · exact neutral_pure
  · exact neutral_pure
  · exact neutral_pure
  · exact neutral_invalidOperand

/-- The type of an item that is assigned is found from the type of the list alone. -/
theorem neutral_assignedItemType {target : Ty} {range : Range} :
    Neutral (assignedItemType target range) := by
  unfold assignedItemType
  split
  · exact neutral_pure
  · exact neutral_pure
  · exact neutral_invalidOperand

/-- A cast is checked by its two types alone. -/
theorem neutral_checkCast {operand : Ty} {range : Range} :
    Neutral (checkCast operand range) :=
  .ite (neutral_invalidOperand.bind fun _ => neutral_pure) neutral_pure

/-- The type of a builtin's call is found from its analyzed arguments alone. -/
theorem neutral_builtinType {b : Builtin} {args : List Expr} :
    Neutral (builtinType b args) := by
  unfold builtinType
  split
  · split
    · exact neutral_pure
    · exact neutral_pure
    · exact neutral_pure
    · exact neutral_invalidOperand.bind fun _ => neutral_pure
  · split
    · exact neutral_pure
    · exact neutral_pure
    · exact neutral_invalidOperand
  · exact neutral_pure

/-- The type of a call is found from the type of the callee and the analyzed arguments alone. -/
theorem neutral_callType {callee : Ty} {args : List Expr} {range : Range} :
    Neutral (callType callee args range) := by
  unfold callType
  split
  · exact neutral_pure
  · exact .ite neutral_builtinType neutral_pure
  · exact neutral_pure
  · exact neutral_invalidOperand

/-- How arguments are analyzed is found from the type of the callee and their number alone. -/
theorem neutral_argMode {callee : Ty} {count : Nat} {range : Range} :
    Neutral (argMode callee count range) := by
  unfold argMode
  split
  · exact .ite neutral_pure (neutral_report.bind fun _ => neutral_pure)
  · refine .ite ?_ (neutral_report.bind fun _ => neutral_pure)
    split
    · exact neutral_pure
    · exact neutral_pure
    · exact neutral_pure
  · exact neutral_pure

/-- Whether a symbol can be assigned to is read off the symbol. -/
theorem neutral_assignable? {y : Nat} : Neutral (assignable? y) := by
  refine neutral_symbolInfo.bind fun info => ?_
  split
  · exact neutral_pure
  · exact neutral_pure
  · exact neutral_pure

/-- The variable behind an assigned item is read off the symbol. -/
theorem neutral_assignedBase {symbol : Option Nat} {range : Range} :
    Neutral (assignedBase symbol range) := by
  unfold assignedBase
  split
  · exact neutral_pure
  · refine neutral_assignable?.bind fun ty => ?_
    split
    · exact neutral_pure
    · exact neutral_report.bind fun _ => neutral_pure

/-- A returned type changes at most the type of the result. -/
theorem neutral_expectReturn {ty : Ty} {range : Range} : Neutral (expectReturn ty range) := by
  refine neutral_get.bind fun s => ?_
  split
  · exact .ite neutral_report neutral_pure
  · exact fun _ => ⟨rfl, rfl, rfl, rfl, rfl, id⟩

/-- The place of a `break` or `continue` is only checked. -/
theorem neutral_requireLoop {fault : SemanticFault} {range : Range} :
    Neutral (requireLoop fault range) :=
  neutral_get.bind fun _ => .ite neutral_report neutral_pure

end Neutral

/-! ### Single steps -/

/-- The storage that analysis gives to a variable is the next slot, of the globals in the program
and of the frame in a function. -/
theorem allocates_allocStorage (s : AnalysisState) :
    Allocates s (allocStorage s).1 (allocStorage s).2 := by
  have heq : allocStorage s =
      (if (s.facts.info s.context.function).kind = .main then
        modifyFacts (fun facts => { facts with globals := facts.globals + 1 }) >>= fun _ =>
          pure (.global s.facts.globals)
      else
        modifyContext (fun c =>
          { c with
            nextSlot := s.context.nextSlot + 1
            maxSlot := max c.maxSlot (s.context.nextSlot + 1) }) >>= fun _ =>
          pure (.frame s.context.nextSlot) : Analyze Storage) s := rfl
  rw [heq]
  split
  · next h => exact .global h
  · next h => exact .frame h

/-- Analysis declares a name as the rules say: it binds the new symbol in the current scope unless
the name is taken there. -/
theorem declares_declare (s : AnalysisState) (name : String) (ty : Ty) (kind : SymbolKind)
    (storage : Storage) (place range : Range) :
    Declares s name kind storage (declare name ty kind storage place range s).1
      (declare name ty kind storage place range s).2 := by
  have heq : declare name ty kind storage place range s =
      (if ((s.facts.scopes[s.scope]?.getD default).bindings.lookup name).isSome = true then
        report (.redeclaration name) place >>= fun _ => pure s.facts.symbols.size
      else
        modifyFacts (fun facts =>
          { facts with
            scopes := facts.scopes.modify s.scope (withBinding name s.facts.symbols.size) }) >>=
          fun _ => pure s.facts.symbols.size : Analyze Nat)
        { s with facts := { s.facts with
            symbols := s.facts.symbols.push (newSymbol s name ty kind storage range) } } := rfl
  rw [heq]
  split
  · exact ⟨rfl, ⟨_, rfl, rfl, rfl, rfl, rfl⟩, rfl, rfl, rfl, rfl,
      fun h => absurd h (List.cons_ne_nil _ _)⟩
  · exact ⟨rfl, ⟨_, rfl, rfl, rfl, rfl, rfl⟩, rfl, rfl, rfl, rfl, fun h => ⟨h, rfl⟩⟩

/-- Analysis makes a function as the rules say, inside the current one. -/
theorem founds_newFunction (s : AnalysisState) (name : String) (kind : FunctionKind) (node : Nat)
    (signature : Signature) :
    Founds s kind (newFunction name kind node signature s).1
      (newFunction name kind node signature s).2 :=
  ⟨rfl, _, rfl, rfl, rfl, rfl⟩

/-- Analysis declares parameters as the rules say, one after another. -/
theorem declaresAll_declareParams (place : Range) (ps : List Param) :
    ∀ s, DeclaresAll s (ps.map (·.name)) (declareParams place ps s).1
      (declareParams place ps s).2 := by
  induction ps with
  | nil => exact fun _ => .nil
  | cons p ps ih =>
      exact fun s => .cons (allocates_allocStorage s) (declares_declare _ _ _ _ _ _ _) (ih _)

/-- The declared function of a statement, with its name. -/
def awaited (d : Option Declared) : Stmt → List (String × Declared)
  | .fnDecl _ name _ _ => (d.map fun d => (name, d)).toList
  | _ => []

/-- A statement without a declared function waits for none. -/
theorem awaited_none (s : Stmt) : awaited none s = [] := by
  cases s <;> rfl

/-- The declared functions of statements, with their names. -/
def awaitedAll : List Stmt → List (Option Declared) → List (String × Declared)
  | [], _ => []
  | s :: ss, ds => awaited ds.head?.join s ++ awaitedAll ss ds.tail

/-- Analysis declares the functions of statements ahead of them as the rules say. -/
theorem hoists_hoist (ss : List Stmt) :
    ∀ s, Hoists s (awaitedAll ss (hoist ss s).1) (hoist ss s).2 := by
  induction ss with
  | nil => exact fun _ => .nil
  | cons stmt ss ih =>
      intro s
      cases stmt with
      | fnDecl n name signature b =>
          exact .cons (founds_newFunction _ _ _ _ _) (declares_declare _ _ _ _ _ _ _) (ih _)
      | _ => exact ih s

/-- Analysis enters a function with its parameters, goes through the body, and comes back to the
function around it. -/
theorem inFunction_eq (f : Nat) (signature : Signature) (place : Range) (run : Analyze α)
    (s : AnalysisState) :
    ∃ t, Enters f signature.names s t ∧
      inFunction f signature place run s = ((run t).1, leaveFunction f s (run t).2) :=
  ⟨_, .mk (declaresAll_declareParams place signature.params _), rfl⟩

/-- A settled type changes the note of an expression, and none of its items. -/
theorem items_settle (want : Option Ty) (e : Expr) (s : AnalysisState) :
    (settle want e s).1.items = e.items := by
  unfold settle
  split
  · rfl
  · split
    · rfl
    · rfl

/-! ### Walks of parts -/

/-- If a walk over `before` leads to a part of analysis, a walk over `after` leads on. -/
def Walks (before : List Item) (m : Analyze α) (after : α → List Item) : Prop :=
  ∀ s₀ ds s, Walk s₀ ds before s → Walk s₀ ds (after (m s).1) (m s).2

/-- A part of analysis starts with the functions of its statements. -/
def AllFills (m : Analyze α) (items : α → List Item) : Prop :=
  ∀ s, Fills s (items (m s).1) (m s).2

section Walks

variable {before is : List Item} {after : α → List Item} {after' : β → List Item}

/-- If a walk leads to a first step and one leads from its result to a second step, a walk leads to
the second. -/
theorem Walks.bind {m : Analyze α} {f : α → Analyze β} (hm : Walks before m after)
    (hf : ∀ a, Walks (after a) (f a) after') : Walks before (m >>= f) after' :=
  fun s₀ ds s h => hf _ s₀ ds _ (hm s₀ ds s h)

/-- A step that does nothing may stand anywhere in a walk. -/
theorem Neutral.walks {m : Analyze α} (hm : Neutral m) : Walks before m fun _ => before :=
  fun _ _ s h => h.append_still (hm s)

/-- A part without names in front of others. -/
theorem Neutral.then {m : Analyze α} {f : α → Analyze β} (hm : Neutral m)
    (hf : ∀ a, Walks before (f a) after') : Walks before (m >>= f) after' :=
  hm.walks.bind hf

/-- What walks on its own from every state may stand behind any walk. -/
theorem Walks.of_walk {m : Analyze α} (h : ∀ s, Walk s [] (after (m s).1) (m s).2) :
    Walks before m fun a => before ++ after a := by
  intro s₀ ds s hw
  have := hw.append (h s)
  rwa [List.append_nil] at this

/-- What continues the empty walk walks on its own from every state. -/
theorem Walks.walk {m : Analyze α} (h : Walks [] m after) (s : AnalysisState) :
    Walk s [] (after (m s).1) (m s).2 :=
  h s [] s .nil

/-- A walk ends with a result whose items are those walked along. -/
theorem walks_pure {a : α} (h : is = after a) : Walks is (pure a : Analyze α) after :=
  fun _ _ _ hw => h ▸ hw

/-- A settled expression has the items of the expression, so a walk along these goes on. -/
theorem walks_settle {want : Option Ty} {e : Expr} (h : is = before ++ e.items) :
    Walks is (settle want e) fun e' => before ++ e'.items := by
  intro s₀ ds s hw
  dsimp only
  rw [items_settle, ← h]
  exact hw.append_still (neutral_settle s)

/-- Resolving a name is one step along a use of it, found or not. -/
theorem walks_resolve {name : String} {range : Range} {access : Access}
    (symbol : Option Nat → Option Nat) (hs : ∀ y, symbol (some y) = some y) :
    Walks before (resolve name range access) fun found => before ++ [.use (symbol found) name] :=
  .of_walk fun _ => .use Prod.mk.eta.symm (fun y hy => (congrArg symbol hy).trans (hs y)) .nil

/-- A use that is rejected outright is one step along a use without a symbol. -/
theorem walks_reject {fault : SemanticFault} {range : Range} {name : String} :
    Walks before (report fault range) fun _ => before ++ [.use none name] :=
  .of_walk fun s => .still (neutral_report s) (.rejected (List.cons_ne_nil _ _) .nil)

/-- The functions of statements are declared, the statements are analyzed, and the rest follows. -/
theorem fills_stmts {ss : List Stmt} {rest : List Stmt → Analyze β}
    (hw : ∀ ds, Aligned ss ds → ∀ s,
      Walk s (awaitedAll ss ds) (Stmt.itemsOf (stmts ss ds s).1) (stmts ss ds s).2)
    (hr : ∀ ss', Walks (Stmt.itemsOf ss') (rest ss') after') :
    AllFills (hoist ss >>= fun ds => stmts ss ds >>= rest) after' :=
  fun s => ⟨_, _, hoists_hoist ss s, hr _ _ _ _ (hw _ (leaves_hoist ss s) _)⟩

/-- A check in front of the result does not matter. -/
theorem walks_checked {m : Analyze β} {c : Prop} [Decidable c] {a : α} (hm : Neutral m)
    (h : is = after a) : Walks is (if c then m >>= fun _ => pure a else pure a) after := by
  split
  · exact hm.then fun _ => walks_pure h
  · exact walks_pure h

/-- A block is one step along an item that holds its own items. Its scope is opened and closed
there. -/
theorem AllFills.block {m : Analyze Block} (h : AllFills m Block.items) :
    Walks before (inScope .block m) fun b => before ++ [.block b.items] := by
  refine .of_walk fun s => ?_
  obtain ⟨ds, t, hh, hw⟩ := h (openScope .block s)
  exact .block hh hw .nil

/-- A function is one step along an item that holds its parameters and the items of its body, where
its record was made before. -/
theorem AllFills.walk_function {m : Analyze Block} (h : AllFills m Block.items)
    (signature : Signature) (place : Range) {s t : AnalysisState} {ds : List (String × Declared)}
    {f : Nat} {declaration : Option (String × Nat)} (hb : Begins s ds f declaration [] t) :
    Walk s ds
      [.function (some f) declaration signature.names (inFunction f signature place m t).1.items]
      (inFunction f signature place m t).2 := by
  obtain ⟨u, he, heq⟩ := inFunction_eq f signature place m t
  obtain ⟨es, v, hh, hw⟩ := h u
  rw [heq]
  exact .function hb he hh hw .nil

/-- A lambda makes its function where it stands, and is one step along it. -/
theorem AllFills.lambda {m : Analyze Block} (h : AllFills m Block.items) {n : Note}
    {signature : Signature} {want : Option Ty} :
    Walks before (newFunction "lambda" .lambda n.id signature >>= fun f =>
      inFunction f signature n.range m >>= fun body =>
        settle want (.lambda { n with ty := signature.ty, function := some f } signature body))
      fun e => before ++ e.items := by
  refine .of_walk fun s => ?_
  have hf := founds_newFunction s "lambda" .lambda n.id signature
  have hw := h.walk_function signature n.range (.lambda hf)
  exact walks_settle (List.nil_append _).symm s [] _ hw

/-- A variable gets its storage and its declaration, and is one step along an item with its symbol.
-/
theorem walks_variable {f : Nat → Analyze β} {name : String} {ty : Ty} {place range : Range}
    (hf : ∀ y, Walks (is ++ [.variable (some y) name]) (f y) after') :
    Walks is (allocStorage >>= fun storage =>
      declare name ty .variable storage place range >>= f) after' := by
  intro s₀ ds s h
  have hw : Walk s₀ (ds ++ []) _ _ := h.append
    (.variable (allocates_allocStorage s) (declares_declare _ name ty _ _ place range) .nil)
  rw [List.append_nil] at hw
  exact hf _ s₀ ds _ hw

/-- The depth of loops is no part of a walk. -/
theorem Walks.inLoop {m : Analyze α} (h : Walks before m after) :
    Walks before (inLoop m) after := by
  have hloop : ∀ f : Nat → Nat,
      Neutral (modifyContext fun c => { c with loopDepth := f c.loopDepth }) :=
    fun _ _ => ⟨rfl, rfl, rfl, rfl, rfl, id⟩
  exact (hloop (· + 1)).then fun _ => h.bind fun _ => (hloop (· - 1)).then fun _ => walks_pure rfl

end Walks

/-! ### Walks of trees -/

mutual

/-- **Expressions.** The analysis of an expression is a walk along the items of the analyzed
expression, by induction on the tree. -/
theorem walks_expr : ∀ (e : Expr) (want : Option Ty) (before : List Item), e.Regular →
    Walks before (expr want e) fun e' => before ++ e'.items
  | .lit _ _, _, _, _ => by
      rw [expr]
      exact walks_settle (List.append_nil _).symm
  | .ident n _, _, _, _ => by
      rw [expr]
      refine (walks_resolve (fun found => found.or n.symbol) fun _ => rfl).bind fun found => ?_
      cases found with
      | some y => exact neutral_symbolInfo.then fun _ => walks_settle rfl
      | none => exact walks_settle rfl
  | .unary _ .neg e, _, _, h => by
      rw [expr]
      exact (walks_expr e _ _ h).bind fun _ => neutral_negationType.then fun _ =>
        walks_settle rfl
  | .unary _ .not e, _, _, h => by
      rw [expr]
      exact (walks_expr e _ _ h).bind fun _ => walks_settle rfl
  | .binary _ op l r, _, _, h => by
      rw [expr]
      split
      · exact (walks_expr l _ _ h.2.1).bind fun _ => (walks_expr r _ _ h.2.2).bind fun _ =>
          walks_settle (List.append_assoc _ _ _)
      · exact (walks_expr l _ _ h.2.1).bind fun _ => (walks_expr r _ _ h.2.2).bind fun _ =>
          neutral_binaryType.then fun _ => walks_settle (List.append_assoc _ _ _)
  | .assign _ (.ident tn _) v, _, _, h => by
      rw [expr]
      refine (walks_resolve (fun found => found.or tn.symbol) fun _ => rfl).bind fun found => ?_
      cases found with
      | none =>
          exact (walks_expr v _ _ h.2).bind fun _ => walks_settle (List.append_assoc _ _ _)
      | some y =>
          refine neutral_assignable?.then fun ty => ?_
          cases ty with
          | none =>
              exact neutral_report.then fun _ => (walks_expr v _ _ h.2).bind fun _ =>
                walks_settle (List.append_assoc _ _ _)
          | some ty =>
              exact (walks_expr v _ _ h.2).bind fun _ => walks_settle (List.append_assoc _ _ _)
  | .assign _ (.index _ (.ident _ _) i) v, _, before, h => by
      rw [expr]
      refine (walks_resolve id fun _ => rfl).bind fun found => neutral_assignedBase.then fun _ =>
        (walks_expr i _ _ h.1.2).bind fun i' => neutral_assignedItemType.then fun _ =>
          (walks_expr v _ _ h.2).bind fun v' => walks_settle ?_
      simp only [Expr.items, List.append_assoc, List.cons_append, List.nil_append, id]
  | .assign _ (.lit _ _) v, _, _, h | .assign _ (.unary _ _ _) v, _, _, h
  | .assign _ (.binary _ _ _ _) v, _, _, h | .assign _ (.assign _ _ _) v, _, _, h
  | .assign _ (.call _ _ _) v, _, _, h | .assign _ (.list _ _) v, _, _, h
  | .assign _ (.cast _ _ _) v, _, _, h | .assign _ (.lambda _ _ _) v, _, _, h
  | .assign _ (.index _ (.lit _ _) _) v, _, _, h
  | .assign _ (.index _ (.unary _ _ _) _) v, _, _, h
  | .assign _ (.index _ (.binary _ _ _ _) _) v, _, _, h
  | .assign _ (.index _ (.assign _ _ _) _) v, _, _, h
  | .assign _ (.index _ (.call _ _ _) _) v, _, _, h
  | .assign _ (.index _ (.index _ _ _) _) v, _, _, h
  | .assign _ (.index _ (.list _ _) _) v, _, _, h
  | .assign _ (.index _ (.cast _ _ _) _) v, _, _, h
  | .assign _ (.index _ (.lambda _ _ _) _) v, _, _, h => by
      simp only [expr]
      exact walks_reject.bind fun _ => (walks_expr v _ _ h.2).bind fun _ =>
        walks_settle (List.append_assoc _ _ _)
  | .call _ f args, _, _, h => by
      rw [expr]
      refine (walks_expr f _ _ h.1).bind fun f' => neutral_argMode.then fun mode => ?_
      cases mode with
      | params tys =>
          exact (walks_exprsAgainst args tys _ h.2).bind fun _ => neutral_callType.then fun _ =>
            walks_settle (List.append_assoc _ _ _)
      | all want =>
          exact (walks_exprs args want _ h.2).bind fun _ => neutral_callType.then fun _ =>
            walks_settle (List.append_assoc _ _ _)
      | push =>
          exact (walks_pushArgs args _ h.2).bind fun _ => neutral_callType.then fun _ =>
            walks_settle (List.append_assoc _ _ _)
  | .index _ t i, _, _, h => by
      rw [expr]
      exact (walks_expr t _ _ h.1).bind fun _ => (walks_expr i _ _ h.2).bind fun _ =>
        neutral_itemType.then fun _ => walks_settle (List.append_assoc _ _ _)
  | .list _ [], want, _, _ => by
      rw [expr.eq_def]
      dsimp only
      split
      · exact walks_pure (List.append_nil _).symm
      · exact neutral_report.then fun _ => walks_settle (List.append_nil _).symm
  | .list _ (e :: es), want, _, h => by
      rw [expr.eq_def]
      dsimp only
      split
      · exact (walks_expr e _ _ h.1).bind fun _ => (walks_exprs es _ _ h.2).bind fun _ =>
          walks_pure (List.append_assoc _ _ _)
      · exact (walks_expr e _ _ h.1).bind fun _ => (walks_exprs es _ _ h.2).bind fun _ =>
          walks_settle (List.append_assoc _ _ _)
  | .cast _ e _, _, _, h => by
      rw [expr]
      exact (walks_expr e _ _ h).bind fun _ => neutral_checkCast.then fun _ => walks_settle rfl
  | .lambda _ signature b, _, _, h => by
      rw [expr]
      exact (fills_functionBody b signature h.2).lambda

/-- Expressions that are expected to have one type are walked along one after another. -/
theorem walks_exprs : ∀ (es : List Expr) (want : Option Ty) (before : List Item),
    Expr.AllRegular es → Walks before (exprs want es) fun es' => before ++ Expr.itemsOf es'
  | [], _, _, _ => walks_pure (List.append_nil _).symm
  | e :: es, want, _, h => by
      rw [exprs]
      exact (walks_expr e want _ h.1).bind fun _ => (walks_exprs es want _ h.2).bind fun _ =>
        walks_pure (List.append_assoc _ _ _)

/-- Expressions with a type for each of them are walked along one after another. -/
theorem walks_exprsAgainst : ∀ (es : List Expr) (tys : List Ty) (before : List Item),
    Expr.AllRegular es → Walks before (exprsAgainst tys es) fun es' => before ++ Expr.itemsOf es'
  | [], _, _, _ => by
      rw [exprsAgainst]
      exact walks_pure (List.append_nil _).symm
  | e :: es, tys, _, h => by
      rw [exprsAgainst]
      exact (walks_expr e _ _ h.1).bind fun _ => (walks_exprsAgainst es _ _ h.2).bind fun _ =>
        walks_pure (List.append_assoc _ _ _)

/-- The arguments of `push` are walked along one after another. -/
theorem walks_pushArgs : ∀ (es : List Expr) (before : List Item), Expr.AllRegular es →
    Walks before (pushArgs es) fun es' => before ++ Expr.itemsOf es'
  | [], _, _ => by
      rw [pushArgs]
      exact walks_pure (List.append_nil _).symm
  | e :: es, _, h => by
      rw [pushArgs]
      exact (walks_expr e _ _ h.1).bind fun _ => (walks_exprs es _ _ h.2).bind fun _ =>
        walks_pure (List.append_assoc _ _ _)

/-- **Function bodies.** -/
theorem fills_functionBody : ∀ (b : Block) (signature : Signature), b.Regular true →
    AllFills (functionBody signature b) Block.items
  | .mk n ss none, signature, h => by
      rw [functionBody]
      exact fills_stmts (fun ds hds => walk_stmts ss ds h hds) fun _ =>
        walks_checked neutral_report rfl
  | .mk n ss (some e), signature, h => by
      rw [functionBody]
      exact fills_stmts (fun ds hds => walk_stmts ss ds h.2.1 hds) fun _ =>
        (walks_expr e _ _ h.2.2).bind fun _ => walks_pure rfl

/-- A block is walked along as an item of its own. -/
theorem walks_block : ∀ (b : Block) (before : List Item), b.Regular false →
    Walks before (block b) fun b' => before ++ [.block b'.items]
  | .mk n ss none, _, h => by
      rw [block]
      exact (fills_stmts (fun ds hds => walk_stmts ss ds h hds) fun _ => walks_pure rfl).block
  | .mk n ss (some e), _, h => by simp [Block.Regular] at h

/-- Statements are walked along one after another. The functions that wait are those of the
statements that declare them. -/
theorem walk_stmts : ∀ (ss : List Stmt) (ds : List (Option Declared)), Stmt.AllRegular ss →
    Aligned ss ds → ∀ s, Walk s (awaitedAll ss ds) (Stmt.itemsOf (stmts ss ds s).1) (stmts ss ds s).2
  | [], _, _, _, _ => .nil
  | stmt :: ss, ds, h, hds, s => by
      rw [stmts]
      exact (walk_stmt stmt _ h.1 hds.1 s).append (walk_stmts ss _ h.2 hds.2 _)

/-- **Statements.** The analysis of a statement is a walk along its items, in which its own
function, if it declares one, is the one that waits. -/
theorem walk_stmt : ∀ (s : Stmt) (d : Option Declared), s.Regular →
    (s.isFnDecl = true → d.isSome = true) →
    ∀ σ, Walk σ (awaited d s) (stmt s d σ).1.items (stmt s d σ).2
  | .block b, _, h, _ => by
      rw [stmt]
      exact ((walks_block b [] h).bind fun _ => walks_pure rfl).walk
  | .letVar _ _ _ e, _, h, _ => by
      rw [stmt]
      exact ((walks_expr e _ [] h.2).bind fun _ => walks_variable fun _ => walks_pure rfl).walk
  | .fnDecl _ _ signature b, none, _, hd => by simp [Stmt.isFnDecl] at hd
  | .fnDecl _ _ signature b, some d, h, _ => by
      intro σ
      rw [stmt]
      exact (fills_functionBody b signature h.2).walk_function signature _ .named
  | .ret _ none, _, _, _ => by
      rw [stmt]
      refine (neutral_expectReturn.then fun _ => ?_).walk
      exact walks_pure rfl
  | .ret _ (some e), _, h, _ => by
      rw [stmt]
      refine (neutral_get.then fun s => ?_).walk
      cases s.context.returns with
      | some returns => exact (walks_expr e _ [] h).bind fun _ => walks_pure rfl
      | none =>
          exact (walks_expr e _ [] h).bind fun _ => neutral_expectReturn.then fun _ =>
            walks_pure rfl
  | .cond _ test yes none, _, h, _ => by
      rw [stmt]
      exact ((walks_expr test _ [] h.1).bind fun _ => (walks_block yes _ h.2).bind fun _ =>
        walks_pure rfl).walk
  | .cond _ test yes (some no), _, h, _ => by
      have hno : no.isFnDecl = true → (none : Option Declared).isSome = true := by
        intro hfn
        cases no <;> first | exact h.2.2.1.elim | cases hfn
      rw [stmt]
      refine ((walks_expr test _ [] h.1).bind fun _ => (walks_block yes _ h.2.1).bind fun _ =>
        (Walks.of_walk fun s => ?_).bind fun _ => walks_pure (List.append_assoc _ _ _)).walk
      exact awaited_none no ▸ walk_stmt no none h.2.2.2 hno s
  | .whileLoop _ test b, _, h, _ => by
      rw [stmt]
      exact ((walks_expr test _ [] h.1).bind fun _ => (walks_block b _ h.2).inLoop.bind fun _ =>
        walks_pure rfl).walk
  | .loop _ b, _, h, _ => by
      rw [stmt]
      exact ((walks_block b [] h).inLoop.bind fun _ => walks_pure rfl).walk
  | .breakLoop _, _, _, _ => by
      rw [stmt]
      refine (neutral_requireLoop.then fun _ => ?_).walk
      exact walks_pure rfl
  | .continueLoop _, _, _, _ => by
      rw [stmt]
      refine (neutral_requireLoop.then fun _ => ?_).walk
      exact walks_pure rfl
  | .expr _ e, _, h, _ => by
      rw [stmt]
      exact ((walks_expr e _ [] h).bind fun _ => walks_pure rfl).walk

end

/-- **Programs.** -/
theorem fills_programBody (b : Block) (h : b.Regular true) :
    AllFills (programBody b) Block.items := by
  obtain ⟨n, ss, tail⟩ := b
  cases tail with
  | none =>
      rw [programBody]
      exact fills_stmts (fun ds hds => walk_stmts ss ds h hds) fun _ =>
        walks_checked neutral_expectReturn rfl
  | some e =>
      rw [programBody]
      exact fills_stmts (fun ds hds => walk_stmts ss ds h.2.1 hds) fun _ =>
        (walks_expr e _ _ h.2.2).bind fun _ => neutral_expectReturn.then fun _ => walks_pure rfl

end Analyze

/-- **Analysis is a walk.** Analysis of a program goes along the items of the tree that it
gives. -/
theorem analyze_fills {p : Program} (h : p.root.Regular true) :
    ∃ s, Analyze.Fills Analyze.initial (analyze p).1.program.root.items s ∧
      (analyze p).1.facts = Analyze.finish s ∧ (analyze p).2 = s.errors.reverse :=
  ⟨_, Analyze.fills_programBody p.root h Analyze.initial, rfl, rfl⟩

end Parlance
