import Parlance.Proofs.Analysis.Slots

/-!
# Scopes in analysis

The scopes around a point of a program stand in a table, each with the number of the scope
around it. Analysis adds scopes to the table, and bindings to the current scope. The other scopes
stay what they are, also while the scopes inside the current one are filled. So a chain of scopes
can be followed through a walk, and it declares what the items say.

All this is about analysis without errors. A name that is declared twice in one scope is an
error, and is not bound again.

## Main definitions

* `ScopeChain`: what the scopes around a point declare, the innermost first.
* `Analyze.Binds`: the current scope gets bindings, and nothing else changes outside.

## Main results

* `ScopeChain.lookup`: analysis looks up names as `resolveIn` does.
* `Analyze.Walk.binds`: a walk binds what its items declare.
-/

namespace Parlance

/-- A scope with more bindings. -/
def Scope.withBindings (new : Bindings) (s : Scope) : Scope :=
  { s with bindings := s.bindings ++ new }

/-! ### Chains -/

/-- What a scope and those around it declare. The scopes around it stand before it. -/
inductive ScopeChain (table : Array Scope) : Nat → List Bindings → Prop
  | outer {i : Nat} {s : Scope} (hs : table[i]? = some s) (hp : s.parent = none) :
    ScopeChain table i [s.bindings]
  | inner {i p : Nat} {s : Scope} {scopes : List Bindings} (hs : table[i]? = some s)
    (hp : s.parent = some p) (hlt : p < i) (h : ScopeChain table p scopes) :
    ScopeChain table i (s.bindings :: scopes)

namespace ScopeChain

variable {table table' : Array Scope} {i : Nat} {scopes : List Bindings}

/-- A chain of scopes begins at a scope that is there. -/
theorem lt (h : ScopeChain table i scopes) : i < table.size := by
  cases h with
  | outer hs _ => exact (Array.getElem?_eq_some_iff.mp hs).1
  | inner hs _ _ _ => exact (Array.getElem?_eq_some_iff.mp hs).1

/-- Only the scopes up to this one matter. -/
theorem congr (h : ScopeChain table i scopes) (ha : ∀ j ≤ i, table'[j]? = table[j]?) :
    ScopeChain table' i scopes := by
  induction h with
  | outer hs hp => exact .outer ((ha _ (Nat.le_refl _)).trans hs) hp
  | inner hs hp hlt _ ih =>
      exact .inner ((ha _ (Nat.le_refl _)).trans hs) hp hlt
        (ih fun j hj => ha j (Nat.le_trans hj (Nat.le_of_lt hlt)))

/-- A new scope inside the others. -/
theorem push (h : ScopeChain table i scopes) {s : Scope} (hp : s.parent = some i) :
    ScopeChain (table.push s) table.size (s.bindings :: scopes) := by
  refine .inner (Array.getElem?_push_size) hp h.lt (h.congr fun j hj => ?_)
  have hlt := Nat.lt_of_le_of_lt hj h.lt
  rw [Array.getElem?_push_lt hlt, Array.getElem?_eq_getElem hlt]

/-- **Lookup.** Analysis finds what the first scope says that declares the name. -/
theorem lookup {F : Facts} (h : ScopeChain F.scopes i scopes) (name : String) {fuel : Nat}
    (hf : i < fuel) : Analyze.lookup F name fuel i = resolveIn scopes name := by
  induction h generalizing fuel with
  | @outer i s hs hp =>
      obtain ⟨fuel, rfl⟩ := Nat.exists_eq_succ_of_ne_zero (Nat.ne_zero_of_lt hf)
      simp only [Analyze.lookup, hs, hp, resolveIn, List.findSome?_cons, List.findSome?_nil]
      cases s.bindings.lookup name <;> rfl
  | @inner i p s scopes hs hp hlt _ ih =>
      obtain ⟨fuel, rfl⟩ := Nat.exists_eq_succ_of_ne_zero (Nat.ne_zero_of_lt hf)
      have hrest := ih (Nat.lt_of_lt_of_le hlt (Nat.le_of_lt_succ hf))
      simp only [Analyze.lookup, hs, hp, hrest, resolveIn, List.findSome?_cons]
      cases s.bindings.lookup name <;> rfl

end ScopeChain

namespace Item

/-- What items bind goes behind what is bound already. -/
theorem bindAll_eq (here : Bindings) (is : List Item) : bindAll here is = here ++ bindAll [] is := by
  induction is generalizing here with
  | nil => exact (List.append_nil _).symm
  | cons i is ih =>
      have hi : i.bind here = here ++ i.bind [] := by
        cases i with
        | «variable» symbol name => cases symbol <;> simp [bind]
        | _ => simp [bind]
      change bindAll (i.bind here) is = here ++ bindAll (i.bind []) is
      rw [ih, ih (i.bind []), hi, List.append_assoc]

end Item

namespace Analyze

/-! ### Bindings of the current scope -/

/-- Facts were added, and any functions may have got parameters and slots. -/
def Later (F F' : Facts) : Prop :=
  ∃ pend, F.Adds pend F'

/-- Facts may be added again and again. -/
theorem Later.trans {F F' F'' : Facts} (h : Later F F') (h' : Later F' F'') : Later F F'' := by
  obtain ⟨p, h⟩ := h
  obtain ⟨q, h'⟩ := h'
  exact ⟨_, h.trans h'⟩

/-- No function is removed. -/
theorem Later.functions_le {F F' : Facts} (h : Later F F') : F.functions.size ≤ F'.functions.size := by
  obtain ⟨pend, h⟩ := h
  exact h.functions_le

/-- Analysis goes on in the current scope without errors. The scope gets bindings, for symbols of
the current function, and the scopes around it do not change. -/
structure Binds (new : Bindings) (s t : AnalysisState) : Prop where
  errors : s.errors = []
  later : Later s.facts t.facts
  function : t.context.function = s.context.function
  scope : t.scope = s.scope
  scopes_le : s.facts.scopes.size ≤ t.facts.scopes.size
  kept : ∀ i < s.facts.scopes.size, i ≠ s.scope → t.facts.scopes[i]? = s.facts.scopes[i]?
  current : t.facts.scopes[s.scope]? = s.facts.scopes[s.scope]?.map (Scope.withBindings new)
  bound : ∀ b ∈ new, b.2 < t.facts.symbols.size ∧
    (t.facts.symbol b.2).function = s.context.function

namespace Binds

variable {s t u : AnalysisState} {new new' : Bindings} {here : Bindings} {scopes : List Bindings}

/-- The scopes that were there do not change. -/
theorem of_kept (he : s.errors = []) (hl : Later s.facts t.facts)
    (hf : t.context.function = s.context.function) (hs : t.scope = s.scope)
    (hle : s.facts.scopes.size ≤ t.facts.scopes.size) (hlt : s.scope < s.facts.scopes.size)
    (hk : ∀ i < s.facts.scopes.size, t.facts.scopes[i]? = s.facts.scopes[i]?) : Binds [] s t where
  errors := he
  later := hl
  function := hf
  scope := hs
  scopes_le := hle
  kept i hi _ := hk i hi
  current := by
    rw [hk _ hlt, Array.getElem?_eq_getElem hlt]
    simp [Scope.withBindings]
  bound := by simp

/-- There are no other scopes. -/
theorem of_scopes (he : s.errors = []) (hl : Later s.facts t.facts)
    (hf : t.context.function = s.context.function) (hs : t.scope = s.scope)
    (hscopes : t.facts.scopes = s.facts.scopes) : Binds [] s t where
  errors := he
  later := hl
  function := hf
  scope := hs
  scopes_le := Nat.le_of_eq (by rw [hscopes])
  kept i _ _ := by rw [hscopes]
  current := by
    rw [hscopes]
    cases s.facts.scopes[s.scope]? <;> simp [Scope.withBindings]
  bound := by simp

/-- Two parts of the analysis that bind names bind those of both, the later ones last, so that a
later name hides an earlier one. -/
theorem trans (h : Binds new s t) (h' : Binds new' t u) : Binds (new ++ new') s u where
  errors := h.errors
  later := h.later.trans h'.later
  function := h'.function.trans h.function
  scope := h'.scope.trans h.scope
  scopes_le := Nat.le_trans h.scopes_le h'.scopes_le
  kept i hi hne := by
    rw [h'.kept i (Nat.lt_of_lt_of_le hi h.scopes_le) (h.scope ▸ hne), h.kept i hi hne]
  current := by
    have hcurrent := h'.current
    rw [h.scope, h.current, Option.map_map] at hcurrent
    rw [hcurrent]
    congr 1
    funext x
    exact congrArg (fun b => { x with bindings := b }) (List.append_assoc _ _ _)
  bound := by
    obtain ⟨pend, hadds⟩ := h'.later
    refine List.forall_mem_append.mpr ⟨fun b hb => ?_, fun b hb => ?_⟩
    · obtain ⟨hlt, ho⟩ := h.bound b hb
      exact ⟨Nat.lt_of_lt_of_le hlt hadds.symbols_le, (hadds.symbol b.2 hlt).function.trans ho⟩
    · rw [← h.function]
      exact h'.bound b hb

/-- The current scope stays one that is there. -/
theorem scope_lt (h : Binds new s t) (hlt : s.scope < s.facts.scopes.size) :
    t.scope < t.facts.scopes.size := by
  rw [h.scope]
  exact Nat.lt_of_lt_of_le hlt h.scopes_le

/-- **Chains.** The innermost scope of a chain gets the bindings. -/
theorem chain (h : Binds new s t) (hc : ScopeChain s.facts.scopes s.scope (here :: scopes)) :
    ScopeChain t.facts.scopes t.scope ((here ++ new) :: scopes) := by
  rw [h.scope]
  have hlt := hc.lt
  have hcurrent := h.current
  cases hc with
  | outer hs hp =>
      rw [hs] at hcurrent
      exact .outer hcurrent hp
  | inner hs hp hlt' hc =>
      rw [hs] at hcurrent
      refine .inner hcurrent hp hlt' (hc.congr fun j hj => ?_)
      have hj' : j < s.scope := Nat.lt_of_le_of_lt hj hlt'
      exact h.kept j (Nat.lt_trans hj' hlt) (Nat.ne_of_lt hj')

end Binds

/-! ### Single steps -/

section Steps

variable {s t u : AnalysisState} {name : String} {kind : SymbolKind} {storage : Storage} {y f : Nat}

/-- A step that touches no scope binds nothing. -/
theorem Touches.binds (h : Touches s t) (he : t.errors = []) : Binds [] s t :=
  .of_scopes (h.errors he) ⟨[], h.adds⟩ h.function h.scope h.scopes

/-- A new slot binds nothing. -/
theorem Allocates.binds (h : Allocates s storage t) (he : t.errors = []) : Binds [] s t := by
  have hl : Later s.facts t.facts := ⟨[], h.steps.adds⟩
  have hf := h.steps.function
  cases h with
  | global _ => exact .of_scopes he hl hf rfl rfl
  | frame _ => exact .of_scopes he hl hf rfl rfl

/-- A new function binds nothing. -/
theorem Founds.binds {kind : FunctionKind} (h : Founds s kind f t) (he : t.errors = []) :
    Binds [] s t := by
  have hl : Later s.facts t.facts := ⟨[], h.adds⟩
  obtain ⟨info, -, -, -, rfl⟩ := h.state
  exact .of_scopes he hl rfl rfl rfl

/-- A declaration binds its name, if it is not refused. -/
theorem Declares.binds (h : Declares s name kind storage y t) (he : t.errors = []) :
    Binds [(name, y)] s t := by
  obtain ⟨hs, hscopes⟩ := h.errors he
  obtain ⟨-, -, -, ho⟩ := h.symbol_new
  refine ⟨hs, ⟨[], h.adds⟩, by rw [h.context], h.scope, Nat.le_of_eq ?_, fun i hi hne => ?_, ?_, ?_⟩
  · rw [hscopes, Array.size_modify]
  · rw [hscopes, Array.getElem?_modify, if_neg hne.symm]
  · rw [hscopes, Array.getElem?_modify, if_pos rfl]
    rfl
  · rintro b hb
    obtain rfl := List.mem_singleton.mp hb
    refine ⟨?_, ho⟩
    rw [h.size, h.number]
    exact Nat.lt_succ_self _

/-- The functions of a block are bound before its statements, in order. -/
theorem Hoists.binds {ds : List (String × Declared)} (h : Hoists s ds t) (he : t.errors = []) :
    Binds (ds.map fun d => (d.1, d.2.symbol)) s t := by
  induction h with
  | nil => exact (Still.refl _).touches.binds he
  | cons hf hd _ ih =>
      have hrest := ih he
      have hd := hd.binds hrest.errors
      exact ((hf.binds hd.errors).trans hd).trans hrest

/-- Parameters are bound in order. -/
theorem DeclaresAll.binds {names : List String} {ys : List Nat} (h : DeclaresAll s names ys t)
    (he : t.errors = []) : Binds (names.zip ys) s t := by
  induction h with
  | nil => exact (Still.refl _).touches.binds he
  | cons ha hd _ ih =>
      have hrest := ih he
      have hd := hd.binds hrest.errors
      exact ((ha.binds hd.errors).trans hd).trans hrest

end Steps

/-! ### Errors are not taken back -/

section Errors

variable {s t u : AnalysisState}

/-- Errors stay, so if there are none behind the declarations of functions there were none before.
-/
theorem Hoists.errors {ds : List (String × Declared)} (h : Hoists s ds t) :
    t.errors = [] → s.errors = [] := by
  induction h with
  | nil => exact id
  | cons hf hd _ ih => exact fun he => (hf.binds (hd.errors (ih he)).1).errors

/-- Errors stay, so if there are none behind the parameters there were none before. -/
theorem DeclaresAll.errors {names : List String} {ys : List Nat} (h : DeclaresAll s names ys t) :
    t.errors = [] → s.errors = [] := by
  induction h with
  | nil => exact id
  | cons ha hd _ ih => exact fun he => (ha.binds (hd.errors (ih he)).1).errors

/-- Errors stay, so if there are none behind the head of a function there were none before. -/
theorem Enters.errors {f : Nat} {names : List String} (h : Enters f names s t) (he : t.errors = []) :
    s.errors = [] := by
  obtain @⟨signature, ys, t, h⟩ := h
  exact h.errors he

variable {ds rest : List (String × Declared)} {is : List Item}

/-- The beginning of a function binds nothing where the function stands. -/
theorem Begins.binds {f : Nat} {declaration : Option (String × Nat)}
    (h : Begins s ds f declaration rest t) (he : t.errors = []) : Binds [] s t := by
  cases h with
  | lambda hf => exact hf.binds he
  | named => exact (Still.refl _).touches.binds he

/-- Errors stay over a whole walk. All other facts about walks are for those without errors, and
this one hands that on to each step. -/
theorem Walk.errors (h : Walk s ds is t) : t.errors = [] → s.errors = [] := by
  induction h with
  | nil => exact id
  | still hs _ ih => exact fun he => hs.errors (ih he)
  | use hu _ _ ih => exact fun he => (touches_of_resolve hu).errors (ih he)
  | rejected _ _ ih => exact ih
  | «variable» ha hd _ ih => exact fun he => (ha.binds (hd.errors (ih he)).1).errors
  | block hh _ _ ihb ih => exact fun he => hh.errors (ihb (ih he))
  | function hf he hh _ _ ihb ih =>
      intro herrors
      exact (hf.binds (he.errors (hh.errors (ihb (ih herrors))))).errors

end Errors

/-! ### Scopes inside the current one -/

/-- A scope was opened inside the current one, and declares `here`. -/
structure Opened (here : Bindings) (s t : AnalysisState) : Prop where
  errors : s.errors = []
  later : Later s.facts t.facts
  scope : t.scope = s.facts.scopes.size
  scopes_lt : s.facts.scopes.size < t.facts.scopes.size
  kept : ∀ i < s.facts.scopes.size, t.facts.scopes[i]? = s.facts.scopes[i]?
  chain : ∀ scopes, ScopeChain s.facts.scopes s.scope scopes →
    ScopeChain t.facts.scopes t.scope (here :: scopes)
  bound : ∀ b ∈ here, b.2 < t.facts.symbols.size ∧
    (t.facts.symbol b.2).function = t.context.function

section Opened

variable {s t u v : AnalysisState} {here new : Bindings} {f : Nat} {names : List String}

/-- A new scope inside the current one is open and declares nothing yet. -/
theorem opened_push {x : Scope} (he : s.errors = []) (hl : Later s.facts t.facts)
    (hs : t.scope = s.facts.scopes.size) (hscopes : t.facts.scopes = s.facts.scopes.push x)
    (hp : x.parent = some s.scope) (hb : x.bindings = []) : Opened [] s t := by
  refine ⟨he, hl, hs, ?_, fun i hi => ?_, fun scopes hc => ?_, by simp⟩
  · rw [hscopes, Array.size_push]
    exact Nat.lt_succ_self _
  · rw [hscopes, Array.getElem?_push_lt hi, Array.getElem?_eq_getElem hi]
  · rw [hscopes, hs, ← hb]
    exact hc.push hp

/-- An opened scope is there. -/
theorem Opened.scope_lt (h : Opened here s t) : t.scope < t.facts.scopes.size := by
  rw [h.scope]
  exact h.scopes_lt

/-- Then it gets more bindings. -/
theorem Opened.binds (h : Opened here s t) (h' : Binds new t u) : Opened (here ++ new) s u where
  errors := h.errors
  later := h.later.trans h'.later
  scope := h'.scope.trans h.scope
  scopes_lt := Nat.lt_of_lt_of_le h.scopes_lt h'.scopes_le
  kept i hi := by
    rw [h'.kept i (Nat.lt_trans hi h.scopes_lt) (by rw [h.scope]; exact Nat.ne_of_lt hi),
      h.kept i hi]
  chain scopes hc := h'.chain (h.chain scopes hc)
  bound := by
    obtain ⟨pend, hadds⟩ := h'.later
    rw [h'.function]
    refine List.forall_mem_append.mpr ⟨fun b hb => ?_, h'.bound⟩
    obtain ⟨hlt, ho⟩ := h.bound b hb
    exact ⟨Nat.lt_of_lt_of_le hlt hadds.symbols_le, (hadds.symbol b.2 hlt).function.trans ho⟩

/-- Then it is closed again. -/
theorem Opened.close (h : Opened here s t) (hl : Later t.facts u.facts)
    (hscopes : u.facts.scopes = t.facts.scopes) (hf : u.context.function = s.context.function)
    (hs : u.scope = s.scope) (hlt : s.scope < s.facts.scopes.size) : Binds [] s u :=
  .of_kept h.errors (h.later.trans hl) hf hs (hscopes ▸ Nat.le_of_lt h.scopes_lt) hlt
    (hscopes ▸ h.kept)

/-- Opening a scope opens it. -/
theorem opened_openScope (kind : ScopeKind) (he : s.errors = []) :
    Opened [] s (openScope kind s) :=
  opened_push he ⟨[], adds_openScope kind⟩ rfl rfl rfl rfl

/-- The scope of a function declares its parameters. -/
theorem Enters.opened (h : Enters f names s t) (hf : f < s.facts.functions.size)
    (he : t.errors = []) : Opened (names.zip (t.facts.info f).params) s t := by
  obtain @⟨signature, ys, t, h⟩ := h
  have hb := h.binds he
  have hopen : Opened [] s (enterFunction f signature s) :=
    opened_push hb.errors ⟨_, adds_enterFunction signature hf⟩ rfl rfl rfl rfl
  obtain ⟨pend, hadds⟩ := hb.later
  have hsize : f < t.facts.functions.size :=
    Nat.lt_of_lt_of_le (hf.trans_eq Array.size_modify.symm) hadds.functions_le
  have hend : t.facts.Adds [f] (withFunction f (fun i => { i with params := ys }) t).facts :=
    adds_withFunction hsize (fun _ => rfl) fun _ => rfl
  have h := hopen.binds hb
  rw [withFunction, Facts.info_modify hsize, if_pos rfl]
  exact { h with later := h.later.trans ⟨_, hend⟩ }

end Opened

/-! ### Walks -/

section Walks

variable {s t u v w : AnalysisState} {ds es rest : List (String × Declared)} {is body : List Item}
  {f : Nat} {declaration : Option (String × Nat)} {names : List String} {pend p q : List Nat}

/-- Items that are ready are ready without the last ones of them. -/
theorem Ready.left (hr : Ready s (p ++ q)) : Ready s p :=
  { hr with
    nodup := (List.nodup_append.mp hr.nodup).1
    lt := fun f hf => hr.lt f (List.mem_append_left _ hf)
    inner := fun f hf => hr.inner f (List.mem_append_left _ hf)
    kind := fun f hf => hr.kind f (List.mem_append_left _ hf)
    parent := fun f hf => hr.parent f (List.mem_append_left _ hf) }

/-- A function alone. Those that still wait for their bodies do not matter to it. -/
theorem Begins.alone (hf : Begins s ds f declaration rest t) (he : Enters f names t u)
    (hh : Hoists u es v) (hb : Walk v es body w) : ∃ p, ds = p ++ rest ∧
      Walk s p [.function (some f) declaration names body] (leaveFunction f t w) := by
  cases hf with
  | lambda hf => exact ⟨[], rfl, .function (.lambda hf) he hh hb .nil⟩
  | @named name d => exact ⟨[(name, d)], rfl, .function .named he hh hb .nil⟩

/-- Functions that were made do not wait any more, now or later. -/
theorem Settled.done_append {js : List Item} {r : List Nat} (h : Settled p is s t)
    (hr : Ready s (p ++ q)) (hdone : ∀ m ∈ Item.madeOf (is ++ js), m.number ∉ r) :
    ∀ m ∈ Item.madeOf is, m.number ∉ q ++ r := by
  intro m hm
  rw [Item.madeOf_append] at hdone
  exact List.not_mem_append (h.done hr m hm) (hdone m (List.mem_append_left _ hm))

/-- What is added after a function was left. Its parameters stay. -/
theorem Walk.inside {F : Facts} (hb : Walk v es body w) (he : Enters f names t u) (hh : Hoists u es v)
    (hf : f < t.facts.functions.size) (h0 : f ≠ 0) (hk : (t.facts.info f).kind ≠ .main)
    (ha : (leaveFunction f t w).facts.Adds q F)
    (hq : ∀ m ∈ Item.madeOf [.function (some f) declaration names body], m.number ∉ q) :
    f < w.facts.functions.size ∧ (F.info f).params = (u.facts.info f).params ∧
      w.facts.Adds ([f] ++ q) F ∧ ∀ m ∈ Item.madeOf body, m.number ∉ [f] ++ q := by
  have hbody := (hb.settled (he.ready hh hf h0 hk)).opened hh.opens
  have hfu : f < u.facts.functions.size := by
    rw [(he.entered hf h0 hk).size]
    exact hf
  have hfw : f < w.facts.functions.size := Nat.lt_of_lt_of_le hfu hbody.adds.functions_le
  have hslots : w.facts.Adds [f] (leaveFunction f t w).facts :=
    adds_withFunction hfw (fun _ => rfl) fun _ => rfl
  refine ⟨hfw, ?_, hslots.trans ha, fun m hm => ?_⟩
  · rw [ha.params f (Nat.lt_of_lt_of_le hfw hslots.functions_le)
      (hq ⟨f, names, body⟩ List.mem_cons_self), leaveFunction, withFunction,
      Facts.info_modify hfw, if_pos rfl]
    exact hbody.adds.params f hfu List.not_mem_nil
  · have hmem : m ∈ Item.madeOf [.function (some f) declaration names body] :=
      List.mem_cons_of_mem _ (List.mem_append_left _ hm)
    refine List.not_mem_append (List.mem_singleton.not.mpr ?_) (hq m hmem)
    rintro rfl
    exact Nat.lt_irrefl _
      (Nat.lt_of_lt_of_le hfu ((hbody.made m hm).resolve_left List.not_mem_nil))

/-- A block declares its functions at its start. -/
theorem Hoists.opened (hh : Hoists (openScope .block s) es v) (he : v.errors = []) :
    Opened (es.map fun d => (d.1, d.2.symbol)) s v :=
  (opened_openScope (s := s) .block (hh.errors he)).binds (hh.binds he)

/-- A body declares the parameters and its functions at its start. -/
theorem Enters.inside (hen : Enters f names t u) (hh : Hoists u es v)
    (hf : f < t.facts.functions.size) (he : v.errors = []) :
    Opened (names.zip (u.facts.info f).params ++ es.map fun d => (d.1, d.2.symbol)) t v :=
  (hen.opened hf (hh.errors he)).binds (hh.binds he)

/-- **Walks.** A walk without errors binds what its items declare. The induction follows the walk; a
block or a function binds in a scope of its own, which is closed behind it. -/
theorem Walk.binds (h : Walk s ds is t) : Ready s (ds.map fun d => d.2.function) →
    s.scope < s.facts.scopes.size → t.errors = [] → Binds (Item.bindAll [] is) s t := by
  induction h with
  | nil => exact fun _ _ he => (Still.refl _).touches.binds he
  | still hs hw ih =>
      intro hr hlt he
      have h := hs.touches.binds (hw.errors he)
      exact h.trans (ih (hr.steps hs.touches.steps) (h.scope_lt hlt) he)
  | use hu _ hw ih =>
      intro hr hlt he
      have ht := touches_of_resolve hu
      have h := ht.binds (hw.errors he)
      exact h.trans (ih (hr.steps ht.steps) (h.scope_lt hlt) he)
  | rejected hs hw _ => exact fun _ _ he => absurd (hw.errors he) hs
  | «variable» ha hd hw ih =>
      intro hr hlt he
      have hd' := hd.binds (hw.errors he)
      have h := (ha.binds hd'.errors).trans hd'
      have hr' := hr.steps (p := []) (ha.stores hr.main_iff hd).toSteps
      rw [Item.bindAll, List.foldl_cons, ← Item.bindAll, Item.bindAll_eq]
      exact h.trans (ih hr' (h.scope_lt hlt) he)
  | @block s t u v ds es body is hh hb hw ihb ih =>
      intro hr hlt he
      have hu : u.errors = [] := hw.errors he
      have ho := hh.opened (hb.errors hu)
      have hinside := ho.binds (ihb (hr.block hh) ho.scope_lt hu)
      have hset : Settled [] [.block body] s (closeScope s u) :=
        (Walk.block hh hb .nil).settled hr.nil
      have h : Binds [] s (closeScope s u) :=
        hinside.close ⟨[], .refl _ _⟩ rfl hset.function rfl hlt
      exact h.trans (ih (hr.steps hset.toSteps) (h.scope_lt hlt) he)
  | @function s t u v w x ds es rest body is f declaration names hf hen hh hb hw ihb ih =>
      intro hr hlt he
      have hw' : w.errors = [] := hw.errors he
      obtain ⟨hft, h0, hk, -⟩ := hf.inner hr
      obtain ⟨hscopes, hscope, -, -⟩ := hf.same
      have ho := hen.inside hh hft (hb.errors hw')
      have hinside := ho.binds (ihb (hen.ready hh hft (Nat.ne_zero_of_lt h0) hk) ho.scope_lt hw')
      obtain ⟨p, rfl, halone⟩ := hf.alone hen hh hb
      have hfw := Nat.lt_of_lt_of_le hft hinside.later.functions_le
      have hleave : w.facts.Adds [f] (leaveFunction f t w).facts :=
        adds_withFunction hfw (fun _ => rfl) fun _ => rfl
      have h' : Binds [] t (leaveFunction f t w) :=
        hinside.close ⟨_, hleave⟩ rfl rfl rfl (by rw [hscope, hscopes]; exact hlt)
      have h : Binds [] s (leaveFunction f t w) := (hf.binds h'.errors).trans h'
      rw [List.map_append] at hr
      exact h.trans (ih (hr.steps (halone.settled hr.left).toSteps) (h.scope_lt hlt) he)

end Walks

end Analyze

end Parlance
