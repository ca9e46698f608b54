import Parlance.Proofs.Analysis.Invariant
import Parlance.Proofs.Tree.Shape

/-!
# Declarations

What analysis does when it declares symbols and functions and when it enters scopes and
functions, in terms of its invariant.

## Main results

* `Analyze.Inv.declareVariable`: a declared variable has a place of its own.
* `Analyze.Inv.openScope`, `Analyze.Inv.closeScope`: blocks.
* `Analyze.Inv.enter`, `Analyze.Inv.leave`: functions.
-/

namespace Parlance

namespace Analyze

variable {opens : Opens} {s s' t : AnalysisState} {g : Nat} {live : List Nat} {outer : Nesting}

/-! ### Places -/

/-- The place of a new variable of the function `g`, which no variable in sight has. -/
structure Place (g : Nat) (live : List Nat) (s : AnalysisState) (place : Storage) : Prop where
  separate : ∀ y ∈ live, (s.facts.symbol y).storage ≠ place
  kind : g = 0 ∧ (∃ k, place = .global k) ∨ g ≠ 0 ∧ ∃ k, place = .frame k
  global : ∀ k, place = .global k → k < s.facts.globals ∧
    ∀ y < s.facts.symbols.size, (s.facts.symbol y).storage ≠ .global k
  frame : ∀ k, place = .frame k → k < s.context.nextSlot

/-- The program is the function number zero, and no other function is. -/
theorem Linked.kind_eq_main_iff {F : Facts} (h : Linked F ((g, live) :: outer)) :
    (F.info g).kind = .main ↔ g = 0 := by
  cases outer with
  | nil => exact ⟨fun _ => h.1, fun _ => h.2.2⟩
  | cons first rest =>
      refine ⟨fun hk => absurd hk h.2.1, fun h0 => ?_⟩
      have := h.2.2.2.1
      omega

/-- New storage keeps the invariant, and gives a place that no variable in sight has. In the program
the place is the next global, and in a function the next slot of its frame. -/
theorem Inv.allocStorage (hi : Inv g live outer opens s) {place : Storage}
    (h : Passes allocStorage s place s') :
    Inv g live outer opens s' ∧ Moves opens s s' ∧ s'.facts.scopes = s.facts.scopes ∧
      Place g live s' place ∧
      (∀ k, place = .frame k → k = s.context.nextSlot ∧ s'.context.nextSlot = k + 1) ∧
      s'.facts.symbols = s.facts.symbols ∧ s'.facts.functions = s.facts.functions := by
  unfold Analyze.allocStorage at h
  rw [passes_get_bind, passes_functionInfo_bind, hi.function] at h
  change Passes (if (s.facts.info g).kind = .main then _ else _) s place s' at h
  split at h
  · next hk =>
      have hg := hi.linked.kind_eq_main_iff.mp hk
      rw [passes_modifyFacts_bind] at h
      obtain ⟨rfl, rfl, -⟩ := passes_pure.mp h
      have hgrows : s.facts.Grows opens { s.facts with globals := s.facts.globals + 1 } :=
        { Facts.Grows.refl opens s.facts with globals_le := Nat.le_succ _ }
      have hcalm : Calm opens s
          { s with facts := { s.facts with globals := s.facts.globals + 1 } } :=
        calm_of_eq hgrows rfl rfl rfl fun _ _ => rfl
      refine ⟨hi.calm hcalm ?_ hi.nested ?_, hcalm.toMoves, rfl,
        ⟨?_, .inl ⟨hg, _, rfl⟩, ?_, nofun⟩, nofun, rfl, rfl⟩
      · exact hi.linked.of_info (fun _ _ => rfl) (fun _ _ _ => rfl) (Nat.le_refl _)
      · exact hi.coherent.grows hgrows rfl (fun f z hz => .inl hz) hi.coherent.params_lt
          hi.coherent.named
      · intro y hy he
        exact Nat.lt_irrefl _ (hi.coherent.global_lt y (hi.live_lt y hy) _ he)
      · rintro k he
        cases he
        refine ⟨Nat.lt_succ_self _, fun y hy he => ?_⟩
        exact Nat.lt_irrefl _ (hi.coherent.global_lt y hy _ he)
  · next hk =>
      have hg : g ≠ 0 := fun h0 => hk (hi.linked.kind_eq_main_iff.mpr h0)
      rw [passes_modifyContext_bind] at h
      obtain ⟨rfl, rfl, -⟩ := passes_pure.mp h
      refine ⟨?_, ?_, rfl, ⟨?_, .inr ⟨hg, _, rfl⟩, nofun, ?_⟩, ?_, rfl, rfl⟩
      · exact { hi with
          live_slot := fun y hy k hk => Nat.lt_succ_of_lt (hi.live_slot y hy k hk)
          slots_le := Nat.le_max_right _ _ }
      · exact { Moves.refl opens s with
          nextSlot_le := Nat.le_succ _
          maxSlot_le := Nat.le_max_left _ _ }
      · intro y hy he
        exact Nat.lt_irrefl _ (hi.live_slot y hy _ he)
      · rintro k he
        cases he
        exact Nat.lt_succ_self _
      · rintro k he
        cases he
        exact ⟨rfl, rfl⟩

/-! ### Symbols -/

/-- The symbol that a declaration makes. -/
def newSymbol (s : AnalysisState) (name : String) (ty : Ty) (kind : SymbolKind) (storage : Storage)
    (range : Range) : Symbol :=
  { name, ty, depth := (s.facts.scopes[s.scope]?.getD default).depth, kind, storage,
    function := s.context.function, scope := s.scope, range, reads := 0, escapes := false }

/-- A scope with one more binding. -/
def withBinding (name : String) (y : Nat) (scope : Scope) : Scope :=
  { scope with bindings := scope.bindings ++ [(name, y)] }

/-- A declaration that passes adds one symbol and binds its name in the current scope. -/
theorem passes_declare {name : String} {ty : Ty} {kind : SymbolKind} {storage : Storage}
    {place range : Range} {y : Nat} (h : Passes (declare name ty kind storage place range) s y s') :
    y = s.facts.symbols.size ∧
      s' = { s with facts := { s.facts with
        symbols := s.facts.symbols.push (newSymbol s name ty kind storage range)
        scopes := s.facts.scopes.modify s.scope (withBinding name s.facts.symbols.size) } } := by
  unfold declare at h
  rw [passes_get_bind, passes_currentScope_bind] at h
  dsimp only at h
  rw [passes_modifyFacts_bind] at h
  split at h
  · exact absurd h (not_passes_report_bind fun _ => keeps_pure)
  · rw [passes_modifyFacts_bind] at h
    obtain ⟨rfl, rfl, -⟩ := passes_pure.mp h
    exact ⟨rfl, rfl⟩

/-- A new binding leaves the nesting of scopes as it is. -/
theorem nested_modify {scopes : Array Scope} (hn : Nested scopes) {i y : Nat} {name : String} :
    Nested (scopes.modify i (withBinding name y)) := by
  intro j t p hj hp
  rw [Array.getElem?_modify] at hj
  split at hj
  · obtain ⟨u, hu, rfl⟩ := Option.map_eq_some_iff.mp hj
    exact hn j u p hu hp
  · exact hn j t p hj hp

/-- What a scope shows after a binding was added to it: the new symbol, or what it showed before.
Scopes inside the changed one see the new symbol too. -/
theorem sees_modify {scopes : Array Scope} {i j y z : Nat} {name : String}
    (h : Sees (scopes.modify i (withBinding name y)) j z) : z = y ∨ Sees scopes j z := by
  induction h with
  | here hs hb =>
      rw [Array.getElem?_modify] at hs
      split at hs
      · obtain ⟨u, hu, rfl⟩ := Option.map_eq_some_iff.mp hs
        rcases List.mem_append.mp hb with hb | hb
        · exact .inr (.here hu hb)
        · simp only [List.mem_singleton, Prod.mk.injEq] at hb
          exact .inl hb.2
      · exact .inr (.here hs hb)
  | outer hs hp _ ih =>
      rcases ih with rfl | ih
      · exact .inl rfl
      · right
        rw [Array.getElem?_modify] at hs
        split at hs
        · obtain ⟨u, hu, rfl⟩ := Option.map_eq_some_iff.mp hs
          exact .outer hu hp ih
        · exact .outer hs hp ih

/-- Growth by a declaration. -/
theorem grows_declare (sym : Symbol) (scopes : Array Scope) :
    s.facts.Grows opens { s.facts with symbols := s.facts.symbols.push sym, scopes := scopes } := by
  have h : s.facts.Grows opens { s.facts with symbols := s.facts.symbols.push sym } :=
    Facts.grows_push_symbol sym
  exact ⟨h.symbols_le, h.symbol, h.functions_le, h.function, h.returns, h.closed, h.globals_le⟩

/-- A declaration keeps the facts coherent if the new symbol is. The symbols before it have changed
nothing but what they are used for, so each condition is asked of the new one alone. -/
theorem Coherent.declare {F F' : Facts} (hc : Coherent F opens) (sym : Symbol)
    (hg : F.Grows opens F') (hsymbols : F'.symbols = F.symbols.push sym)
    (hfunctions : F'.functions = F.functions) (hsym : sym.Coherent)
    (hfun : ∀ f, sym.storage = .function f →
      f < F.functions.size ∧ sym.ty = typeOf F opens f ∧ (F.info f).kind ≠ .lambda)
    (hglobal : ∀ k, sym.storage = .global k → k < F'.globals ∧
      ∀ y < F.symbols.size, (F.symbol y).storage ≠ .global k) : Coherent F' opens := by
  have hsize : F'.symbols.size = F.symbols.size + 1 := by rw [hsymbols, Array.size_push]
  have hnew : F'.symbol F.symbols.size = sym := by
    rw [Facts.symbol, hsymbols]
    simp
  have hcases : ∀ y < F'.symbols.size, y = F.symbols.size ∨ y < F.symbols.size := by
    intro y hy
    omega
  have hinfo : ∀ f, F'.info f = F.info f := fun f => by rw [Facts.info, Facts.info, hfunctions]
  refine ⟨fun y hy => ?_, fun y hy f hs => ?_, fun y hy k hs => ?_, fun y hy z hz k hs hs' => ?_,
    fun f y hy => ?_, fun f hf y hy => ?_, fun f hf hk => ?_, fun y hy f hs => ?_⟩
  · rcases hcases y hy with rfl | hy
    · rwa [hnew]
    · exact (hc.symbol y hy).grows (hg.symbol y hy)
  · rw [hfunctions]
    rcases hcases y hy with rfl | hy
    · rw [hnew] at hs ⊢
      obtain ⟨hf, ht, -⟩ := hfun f hs
      exact ⟨hf, by rw [hc.typeOf_grows hg hf, ht]⟩
    · rw [(hg.symbol y hy).storage] at hs
      obtain ⟨hf, ht⟩ := hc.function y hy f hs
      exact ⟨hf, by rw [hc.typeOf_grows hg hf, (hg.symbol y hy).ty, ht]⟩
  · rcases hcases y hy with rfl | hy
    · rw [hnew] at hs
      exact (hglobal k hs).1
    · rw [(hg.symbol y hy).storage] at hs
      exact Nat.lt_of_lt_of_le (hc.global_lt y hy k hs) hg.globals_le
  · rcases hcases y hy with rfl | hy <;> rcases hcases z hz with rfl | hz
    · rfl
    · rw [hnew] at hs
      rw [(hg.symbol z hz).storage] at hs'
      exact absurd hs' ((hglobal k hs).2 z hz)
    · rw [hnew] at hs'
      rw [(hg.symbol y hy).storage] at hs
      exact absurd hs ((hglobal k hs').2 y hy)
    · rw [(hg.symbol y hy).storage] at hs
      rw [(hg.symbol z hz).storage] at hs'
      exact hc.global_inj y hy z hz k hs hs'
  · rw [Facts.captures, hinfo] at hy
    obtain ⟨hlt, he, k, hk⟩ := hc.captured f y hy
    exact ⟨Nat.lt_of_lt_of_le hlt hg.symbols_le, (hg.symbol y hlt).escapes he, k,
      (hg.symbol y hlt).storage.trans hk⟩
  · rw [hinfo] at hy
    rw [hfunctions] at hf
    exact Nat.lt_of_lt_of_le (hc.params_lt f hf y hy) hg.symbols_le
  · rw [hinfo] at hk
    rw [hfunctions] at hf
    rw [Facts.captures, hinfo]
    exact hc.named f hf hk
  · rw [hinfo]
    rcases hcases y hy with rfl | hy
    · rw [hnew] at hs
      exact (hfun f hs).2.2
    · rw [(hg.symbol y hy).storage] at hs
      exact hc.declared y hy f hs

/-- Functions inside each other stay so whatever the innermost one has declared. -/
theorem Linked.head {F : Facts} {live' : List Nat} (h : Linked F ((g, live) :: outer)) :
    Linked F ((g, live') :: outer) := by
  cases outer with
  | nil => exact h
  | cons first rest => exact h

/-- A variable that is known stays known when the innermost function declares more. -/
theorem Known.head {F : Facts} {live' : List Nat} {y : Nat} (h : Known F ((g, live) :: outer) y)
    (hl : live ⊆ live') : Known F ((g, live') :: outer) y := by
  unfold Known at h ⊢
  split at h
  · next ho =>
      rw [if_pos ho]
      exact hl h
  · next ho => rwa [if_neg ho]

/-- What a declaration does to the invariant. `live'` has the new symbol if it is a variable. The
scope shows the new symbol under its name and all others as before, and nothing else moves. -/
theorem Inv.declare (hi : Inv g live outer opens s) {name : String} {ty : Ty} {kind : SymbolKind}
    {storage : Storage} {place range : Range} {y : Nat} {live' : List Nat}
    (h : Passes (declare name ty kind storage place range) s y s')
    (hsym : (newSymbol s name ty kind storage range).Coherent)
    (hfun : ∀ f, storage = .function f →
      f < s.facts.functions.size ∧ ty = typeOf s.facts opens f ∧ (s.facts.info f).kind ≠ .lambda)
    (hglobal : ∀ k, storage = .global k → k < s.facts.globals ∧
      ∀ y < s.facts.symbols.size, (s.facts.symbol y).storage ≠ .global k)
    (hframe : ∀ k, storage = .frame k → k < s.context.nextSlot)
    (hsub : live ⊆ live') (hnew : ∀ z ∈ live', z ∈ live ∨ z = s.facts.symbols.size)
    (hvar : kind = .variable ∨ kind = .parameter → s.facts.symbols.size ∈ live') :
    y = s.facts.symbols.size ∧ Inv g live' outer opens s' ∧ Moves opens s s' ∧
      s'.facts.symbol y = newSymbol s name ty kind storage range ∧ s'.context = s.context ∧
      s'.facts.functions = s.facts.functions := by
  obtain ⟨rfl, hs⟩ := passes_declare h
  have hg : s.facts.Grows opens s'.facts := by
    rw [hs]
    exact grows_declare _ _
  have hsymbols : s'.facts.symbols = s.facts.symbols.push (newSymbol s name ty kind storage range) := by
    rw [hs]
  have hscopes : s'.facts.scopes =
      s.facts.scopes.modify s.scope (withBinding name s.facts.symbols.size) := by
    rw [hs]
  have hfunctions : s'.facts.functions = s.facts.functions := by rw [hs]
  have hscope : s'.scope = s.scope := by rw [hs]
  have hcontext : s'.context = s.context := by rw [hs]
  have hglobals : s'.facts.globals = s.facts.globals := by rw [hs]
  have hlt : s.facts.symbols.size < s'.facts.symbols.size := by simp [hsymbols]
  have hsymbol : s'.facts.symbol s.facts.symbols.size = newSymbol s name ty kind storage range := by
    rw [Facts.symbol, hsymbols]
    simp
  have hlive : ∀ z ∈ live', (z ∈ live ∧ z < s.facts.symbols.size) ∨ z = s.facts.symbols.size :=
    fun z hz => (hnew z hz).imp_left fun hm => ⟨hm, hi.live_lt z hm⟩
  refine ⟨rfl, ?_, ?_, hsymbol, hcontext, hfunctions⟩
  · refine
      { function := by rw [hcontext]; exact hi.function
        linked := ?_, opened := hi.opened, nodup := hi.nodup
        opens_lt := by rw [hfunctions]; exact hi.opens_lt
        scope_lt := by rw [hscope, hscopes, Array.size_modify]; exact hi.scope_lt
        nested := by rw [hscopes]; exact nested_modify hi.nested
        sees := fun z hz => ?_, live_lt := fun z hz => ?_, live_function := fun z hz => ?_
        live_slot := fun z hz k hk => ?_
        slots_le := by rw [hcontext]; exact hi.slots_le
        coherent := hi.coherent.declare _ hg hsymbols hfunctions hsym hfun
          (by rw [hglobals]; exact hglobal) }
    · refine (hi.linked.of_info (fun f _ => ?_) (fun f z hz => ?_) hg.functions_le).head
      · rw [Facts.info, Facts.info, hfunctions]
      · exact (hg.symbol z (hi.coherent.captured f z hz).1).function
    · rw [hscope, hscopes] at hz
      rcases sees_modify hz with rfl | hz
      · refine ⟨hlt, fun hv => ?_⟩
        rw [IsVariable, hsymbol] at hv
        rw [Known, hsymbol, if_pos]
        · exact hvar hv
        · exact hi.function
      · obtain ⟨hz', hk⟩ := hi.sees z hz
        refine ⟨Nat.lt_trans hz' hlt, fun hv => ?_⟩
        rw [IsVariable, (hg.symbol z hz').kind] at hv
        exact ((hk hv).congr (hg.symbol z hz').function).head hsub
    · rcases hlive z hz with ⟨-, hz⟩ | rfl
      · exact Nat.lt_trans hz hlt
      · exact hlt
    · rcases hlive z hz with ⟨hm, hz⟩ | rfl
      · rw [(hg.symbol z hz).function]
        exact hi.live_function z hm
      · rw [hsymbol]
        exact hi.function
    · rw [hcontext]
      rcases hlive z hz with ⟨hm, hz⟩ | rfl
      · rw [(hg.symbol z hz).storage] at hk
        exact hi.live_slot z hm k hk
      · rw [hsymbol] at hk
        exact hframe k hk
  · refine
      { grows := hg, scope := hscope
        scopes_le := by simp [hscopes]
        scopes := fun i _ hne => by rw [hscopes, Array.getElem?_modify, if_neg (Ne.symm hne)]
        function := by rw [hcontext], depth := by rw [hcontext]
        nextSlot_le := by simp [hcontext]
        maxSlot_le := by simp [hcontext], returns := fun t ht => by rw [hcontext]; exact ht
        regular := fun h => by rw [AnalysisState.Regular, hcontext]; exact h
        params := fun f _ => by rw [Facts.info, Facts.info, hfunctions] }

/-! ### Scopes -/

/-- The state in a scope that was just made. -/
def pushScope (scope : Scope) (s : AnalysisState) : AnalysisState :=
  { s with
    facts := { s.facts with scopes := s.facts.scopes.push scope }
    scope := s.facts.scopes.size }

/-- A new scope leaves the others as they are. -/
theorem scopes_pushScope {scope : Scope} {i : Nat} (hi : i < s.facts.scopes.size) :
    (pushScope scope s).facts.scopes[i]? = s.facts.scopes[i]? := by
  rw [pushScope, Array.getElem?_push_lt hi, Array.getElem?_eq_getElem hi]

/-- A new scope without bindings keeps the invariant, since it shows the same names. What is seen
from it is seen from the scope that it is opened in. -/
theorem Inv.pushScope (hi : Inv g live outer opens s) {scope : Scope} (hb : scope.bindings = [])
    (hp : scope.parent = some s.scope) : Inv g live outer opens (pushScope scope s) := by
  have hnew : (Analyze.pushScope scope s).facts.scopes[s.facts.scopes.size]? = some scope := by
    simp [Analyze.pushScope]
  refine { hi with
    linked := hi.linked.of_info (fun _ _ => rfl) (fun _ _ _ => rfl) (Nat.le_refl _)
    scope_lt := by simp [Analyze.pushScope]
    nested := fun i sc p h hpar => ?_
    sees := fun y hy => ?_
    coherent := ⟨hi.coherent.symbol, hi.coherent.function, hi.coherent.global_lt,
      hi.coherent.global_inj, hi.coherent.captured, hi.coherent.params_lt, hi.coherent.named,
      hi.coherent.declared⟩ }
  · by_cases hlt : i < s.facts.scopes.size
    · rw [scopes_pushScope hlt] at h
      exact hi.nested i sc p h hpar
    · obtain rfl : i = s.facts.scopes.size := by
        have := (Array.getElem?_eq_some_iff.mp h).1
        simp only [Analyze.pushScope, Array.size_push] at this
        omega
      obtain rfl := Option.some.inj (h.symm.trans hnew)
      obtain rfl := Option.some.inj (hpar.symm.trans hp)
      exact hi.scope_lt
  · cases hy with
    | here hs hm =>
        obtain rfl := Option.some.inj (hs.symm.trans hnew)
        rw [hb] at hm
        cases hm
    | outer hs hpar h =>
        obtain rfl := Option.some.inj (hs.symm.trans hnew)
        obtain rfl := Option.some.inj (hpar.symm.trans hp)
        have := hi.sees y (h.of_agree hi.scope_lt (fun _ hj => scopes_pushScope hj) hi.nested)
        exact ⟨this.1, fun hv => (this.2 hv).congr rfl⟩

/-- Opening a scope keeps the invariant. -/
theorem Inv.openScope (hi : Inv g live outer opens s) (kind : ScopeKind) :
    Inv g live outer opens (openScope kind s) :=
  hi.pushScope rfl rfl

/-- What happens in a scope of its own is calm for the scope around it, whose names are the same
after it as before. -/
theorem calm_closeScope {kind : ScopeKind} (h : Moves opens (openScope kind s) t)
    (hs : s.scope < s.facts.scopes.size) : Calm opens s (closeScope s t) := by
  have hsize : (openScope kind s).facts.scopes.size = s.facts.scopes.size + 1 := by
    simp [openScope]
  have hagree : ∀ i < s.facts.scopes.size, t.facts.scopes[i]? = s.facts.scopes[i]? := by
    intro i hi
    rw [h.scopes i (by omega) (Nat.ne_of_lt hi)]
    exact scopes_pushScope hi
  have hg := h.grows
  exact
    { grows := ⟨hg.symbols_le, hg.symbol, hg.functions_le, hg.function, hg.returns, hg.closed,
        hg.globals_le⟩
      scope := rfl
      scopes_le := Nat.le_trans (by omega) h.scopes_le
      scopes := fun i hi _ => hagree i hi
      function := h.function
      depth := h.depth
      nextSlot_le := Nat.le_refl _
      maxSlot_le := h.maxSlot_le
      returns := h.returns
      regular := h.regular
      params := h.params
      current := hagree s.scope hs
      nextSlot := rfl }

/-- Closing a scope restores the invariant from before it: what was declared inside is out of sight.
-/
theorem Inv.closeScope {kind : ScopeKind} {live' : List Nat} (hi : Inv g live outer opens s)
    (h : Moves opens (Analyze.openScope kind s) t) (ht : Inv g live' outer opens t) :
    Inv g live outer opens (closeScope s t) := by
  refine hi.calm (calm_closeScope h hi.scope_lt) ?_ ht.nested ?_
  · exact (ht.linked.of_info (fun _ _ => rfl) (fun _ _ _ => rfl) (Nat.le_refl _)).head
  · exact ⟨ht.coherent.symbol, ht.coherent.function, ht.coherent.global_lt, ht.coherent.global_inj,
      ht.coherent.captured, ht.coherent.params_lt, ht.coherent.named, ht.coherent.declared⟩

/-! ### New functions -/

/-- A function inside `g` whose body is still to be analyzed. -/
structure Pending (F : Facts) (g f node : Nat) (signature : Signature) : Prop where
  lt : f < F.functions.size
  kind : (F.info f).kind ≠ .main
  parent : (F.info f).parent = some g
  inner : g < f
  node_eq : (F.info f).node = node
  returns : (F.info f).returns = signature.returns
  captures : F.captures f = []

/-- Another open function in front does not matter to a function. -/
theorem lookup_cons_of_ne {f e : Nat} {ty : Ty} (h : f ≠ e) :
    ((e, ty) :: opens).lookup f = opens.lookup f := by
  rw [List.lookup_cons, beq_false_of_ne h]

/-- A function is not found among the open ones exactly if it is none of them. -/
theorem lookup_eq_none_iff {f : Nat} : opens.lookup f = none ↔ f ∉ opens.map Prod.fst := by
  induction opens with
  | nil => simp
  | cons first rest ih =>
      obtain ⟨e, ty⟩ := first
      by_cases h : f = e
      · simp [h]
      · rw [lookup_cons_of_ne h, ih]
        simp [h]

/-- A function that is none of the open ones is none of fewer either. -/
theorem lookup_of_cons_eq_none {f e : Nat} {ty : Ty} (h : ((e, ty) :: opens).lookup f = none) :
    opens.lookup f = none := by
  rw [lookup_eq_none_iff] at h ⊢
  exact fun hm => h (List.mem_cons_of_mem _ hm)

/-- Another open function in front does not change the type of a function. -/
theorem typeOf_cons_of_ne {F : Facts} {f e : Nat} {ty : Ty} (h : f ≠ e) :
    typeOf F ((e, ty) :: opens) f = typeOf F opens f := by
  rw [typeOf, typeOf, lookup_cons_of_ne h]

/-- A function that no symbol stands for may count as not finished: no name leads to it, so nothing
is known of its type yet. -/
theorem Inv.begin (hi : Inv g live outer opens s) {f : Nat} {ty : Ty}
    (hlt : f < s.facts.functions.size) (hf : opens.lookup f = none)
    (hn : ∀ y < s.facts.symbols.size, (s.facts.symbol y).storage ≠ .function f) :
    Inv g live outer ((f, ty) :: opens) s := by
  have hne : ∀ e, opens.lookup e ≠ none → e ≠ f := by
    rintro e he rfl
    exact he hf
  refine { hi with
    opened := fun e he => ?_
    nodup := List.nodup_cons.mpr ⟨lookup_eq_none_iff.mp hf, hi.nodup⟩
    opens_lt := fun e he => ?_
    coherent := { hi.coherent with function := fun y hy e hs => ?_ } }
  · rw [lookup_cons_of_ne (hne e (hi.opened e he))]
    exact hi.opened e he
  · rcases List.mem_cons.mp he with rfl | he
    · exact hlt
    · exact hi.opens_lt e he
  · rw [typeOf_cons_of_ne]
    · exact hi.coherent.function y hy e hs
    · rintro rfl
      exact hn y hy hs

/-- **New functions.** A new function is not finished, and its body is to be analyzed. Its number is
the next one, so it is none of the functions that are open, and it has no parameters or captures
yet. -/
theorem Inv.newFunction (hi : Inv g live outer opens s) {name : String} {kind : FunctionKind}
    {node f : Nat} {signature : Signature} (hk : kind ≠ .main)
    (h : Passes (newFunction name kind node signature) s f s') :
    f = s.facts.functions.size ∧ Inv g live outer ((f, signature.ty) :: opens) s' ∧
      Calm opens s s' ∧ Pending s'.facts g f node signature ∧ (s'.facts.info f).kind = kind ∧
      s'.facts.functions.size = f + 1 := by
  unfold Analyze.newFunction at h
  rw [passes_get_bind] at h
  dsimp only at h
  rw [passes_modifyFacts_bind] at h
  obtain ⟨rfl, rfl, -⟩ := passes_pure.mp h
  generalize hnew : (FunctionInfo.mk name kind node (some s.context.function) s.scope []
    signature.returns 0 []) = new
  have hg : s.facts.Grows opens { s.facts with functions := s.facts.functions.push new } :=
    Facts.grows_push_function new
  have hinfo : ∀ f, f ≠ s.facts.functions.size →
      Facts.info { s.facts with functions := s.facts.functions.push new } f = s.facts.info f := by
    intro f hf
    rw [Facts.info_push, if_neg hf]
  have hself : Facts.info { s.facts with functions := s.facts.functions.push new }
      s.facts.functions.size = new := by
    rw [Facts.info_push, if_pos rfl]
  have hcalm : Calm opens s { s with facts :=
      { s.facts with functions := s.facts.functions.push new } } :=
    calm_of_eq hg rfl rfl rfl fun f hf => by
      rw [hinfo f (Nat.ne_of_lt (Nat.lt_of_le_of_lt hf (hi.function ▸ hi.linked.head_lt)))]
  have hlt : ∀ f ∈ opens.map Prod.fst, f ≠ s.facts.functions.size := fun f hf =>
    Nat.ne_of_lt (hi.opens_lt f hf)
  have hcaptures : ∀ f y, y ∈ Facts.captures
      { s.facts with functions := s.facts.functions.push new } f → y ∈ s.facts.captures f := by
    intro f y hy
    by_cases hf : f = s.facts.functions.size
    · rw [Facts.captures, hf, hself, ← hnew] at hy
      cases hy
    · rwa [Facts.captures, hinfo f hf] at hy
  refine ⟨rfl, ?_, hcalm, ?_, by rw [hself, ← hnew], Array.size_push _⟩
  · have hinv : Inv g live outer opens { s with facts :=
        { s.facts with functions := s.facts.functions.push new } } := by
      refine hi.calm hcalm ?_ hi.nested (hi.coherent.grows hg rfl ?_ ?_ ?_)
      · refine hi.linked.of_info (fun f hf => hinfo f ?_) (fun _ _ _ => rfl) hg.functions_le
        exact hlt f (by simpa [lookup_eq_none_iff] using hi.opened f hf)
      · exact fun f y hy => .inl (hcaptures f y hy)
      · intro f hf y hy
        by_cases he : f = s.facts.functions.size
        · rw [he, hself, ← hnew] at hy
          cases hy
        · rw [hinfo f he] at hy
          simp only [Array.size_push] at hf
          exact hi.coherent.params_lt f (by omega) y hy
      · intro f hf hkind
        by_cases he : f = s.facts.functions.size
        · rw [Facts.captures, he, hself, ← hnew]
        · rw [hinfo f he] at hkind
          rw [Facts.captures, hinfo f he]
          simp only [Array.size_push] at hf
          exact hi.coherent.named f (by omega) hkind
    refine hinv.begin (by simp) ?_ fun y hy hs => ?_
    · rw [lookup_eq_none_iff]
      exact fun hm => hlt _ hm rfl
    · exact Nat.lt_irrefl _ (hi.coherent.function y hy _ hs).1
  · have hg' := hi.linked.head_lt
    refine ⟨by simp, ?_, ?_, hg', ?_, ?_, ?_⟩
    · rwa [hself, ← hnew]
    · rw [hself, ← hnew]
      exact congrArg some hi.function
    · rw [hself, ← hnew]
    · rw [hself, ← hnew]
    · rw [Facts.captures, hself, ← hnew]

/-! ### The bodies of functions -/

/-- The state with a changed function. -/
def withFunction (f : Nat) (change : FunctionInfo → FunctionInfo) (s : AnalysisState) :
    AnalysisState :=
  { s with facts := { s.facts with functions := s.facts.functions.modify f change } }

/-- The context at the start of a function. -/
def startContext (f : Nat) (signature : Signature) : FunctionContext :=
  { function := f, loopDepth := 0, nextSlot := 0, maxSlot := 0, returns := some signature.returns }

/-- The state at the start of a function, before its parameters are declared. -/
def enterFunction (f : Nat) (signature : Signature) (s : AnalysisState) : AnalysisState :=
  withFunction f (fun i => { i with scope := s.facts.scopes.size })
    (openScope .function { s with context := startContext f signature })

/-- The state after a function that was entered in the state `s`. -/
def leaveFunction (f : Nat) (s t : AnalysisState) : AnalysisState :=
  withFunction f (fun i => { i with slots := t.context.maxSlot })
    { t with scope := s.scope, context := s.context }

/-- A function that passes enters, declares its parameters, runs its body and leaves, and each of
these steps passes. -/
theorem passes_inFunction {α : Type} {f : Nat} {signature : Signature} {place : Range}
    {run : Analyze α} {a : α} (h : Passes (inFunction f signature place run) s a s')
    (hr : Keeps run) :
    ∃ params t u, Passes (declareParams place signature.params) (enterFunction f signature s) params t ∧
      Passes run (withFunction f (fun i => { i with params }) t) a u ∧ s' = leaveFunction f s u := by
  obtain ⟨h, he⟩ := h
  generalize hp : declareParams place signature.params (enterFunction f signature s) = r at h
  generalize hq : run (withFunction f (fun i => { i with params := r.1 }) r.2) = q
  have heq : inFunction f signature place run s = (q.1, leaveFunction f s q.2) := by
    rw [← hq, ← hp]
    rfl
  rw [heq] at h
  cases h
  have hrun : Passes run (withFunction f (fun i => { i with params := r.1 }) r.2) q.1 q.2 := ⟨hq, he⟩
  have hbefore := hr (withFunction f (fun i => { i with params := r.1 }) r.2) (by rw [hq]; exact he)
  exact ⟨r.1, r.2, q.2, ⟨hp, hbefore⟩, hrun, rfl⟩

/-- A variable that is known belongs to one of the functions around. -/
theorem known_mem {F : Facts} {nest : Nesting} {y : Nat} (h : Known F nest y) :
    (F.symbol y).function ∈ nest.map Prod.fst := by
  induction nest with
  | nil => exact h.elim
  | cons first rest ih =>
      unfold Known at h
      split at h
      · next ho => simp [ho]
      · exact List.mem_cons_of_mem _ (ih h)

/-- The facts with a changed function that is not finished are coherent, if the change keeps what
the function captures and its parameters are symbols. -/
theorem Coherent.withFunction {f : Nat} {change : FunctionInfo → FunctionInfo}
    (hc : Coherent s.facts opens) (hlt : f < s.facts.functions.size)
    (hg : s.facts.Grows opens (Analyze.withFunction f change s).facts)
    (hcap : (change (s.facts.info f)).captures = (s.facts.info f).captures)
    (hparams : ∀ y ∈ (change (s.facts.info f)).params, y < s.facts.symbols.size) :
    Coherent (Analyze.withFunction f change s).facts opens := by
  have hinfo : ∀ e, (Analyze.withFunction f change s).facts.info e =
      if e = f then change (s.facts.info e) else s.facts.info e := fun e => Facts.info_modify hlt
  have hcaps : ∀ e, (Analyze.withFunction f change s).facts.captures e = s.facts.captures e := by
    intro e
    rw [Facts.captures, Facts.captures, hinfo]
    split
    · next h => exact h ▸ hcap
    · rfl
  have hsize : (Analyze.withFunction f change s).facts.functions.size = s.facts.functions.size := by
    simp [Analyze.withFunction]
  refine hc.grows hg rfl ?_ ?_ ?_
  · intro e y hy
    rw [hcaps] at hy
    exact .inl hy
  · intro e he y hy
    rw [hsize] at he
    rw [hinfo] at hy
    split at hy
    · next h =>
        subst h
        exact hparams y hy
    · exact hc.params_lt e he y hy
  · intro e he hk
    rw [hsize] at he
    rw [(hg.function e he).kind] at hk
    rw [hcaps]
    exact hc.named e he hk

/-- Functions inside each other stay so if one record changes, but not its kind or its parent. -/
theorem Linked.withFunction {nest : Nesting} {f : Nat} {change : FunctionInfo → FunctionInfo}
    (h : Linked s.facts nest) (hlt : f < s.facts.functions.size)
    (hk : (change (s.facts.info f)).kind = (s.facts.info f).kind)
    (hp : (change (s.facts.info f)).parent = (s.facts.info f).parent)
    (hc : (change (s.facts.info f)).captures = (s.facts.info f).captures) :
    Linked (Analyze.withFunction f change s).facts nest := by
  refine h.congr (fun e _ => ?_) (fun _ _ _ => rfl) (by simp [Analyze.withFunction])
  rw [Facts.captures, Facts.captures, Analyze.withFunction, Facts.info_modify hlt]
  split
  · next he =>
      subst he
      exact ⟨hk, hp, hc⟩
  · exact ⟨rfl, rfl, rfl⟩

/-- A change of a function that is not finished, as growth of the facts of a state. -/
theorem grows_withFunction {f : Nat} {change : FunctionInfo → FunctionInfo}
    (hlt : f < s.facts.functions.size) (hf : opens.lookup f ≠ none)
    (hg : (s.facts.info f).Grows (change (s.facts.info f)))
    (hr : (change (s.facts.info f)).returns = (s.facts.info f).returns) :
    s.facts.Grows opens (withFunction f change s).facts :=
  Facts.grows_modify_function hlt hf hg fun _ => hr

/-- Entering a function only makes its record grow, and it is one of the open ones. -/
theorem grows_enterFunction {f node : Nat} {signature : Signature}
    (hp : Pending s.facts g f node signature) (hf : opens.lookup f ≠ none) :
    s.facts.Grows opens (enterFunction f signature s).facts := by
  have h : s.facts.Grows opens
      (withFunction f (fun i => { i with scope := s.facts.scopes.size }) s).facts :=
    grows_withFunction hp.lt hf ⟨rfl, rfl, rfl, List.Subset.refl _⟩ rfl
  exact ⟨h.symbols_le, h.symbol, h.functions_le, h.function, h.returns, h.closed, h.globals_le⟩

/-- **Entering a function.** The functions around it wait. No variable is live in the new one, and
those in sight belong to the functions around it. -/
theorem Inv.enter (hi : Inv g live outer opens s) {f node : Nat} {signature : Signature}
    (hp : Pending s.facts g f node signature) (hf : opens.lookup f ≠ none) :
    Inv f [] ((g, live) :: outer) opens (enterFunction f signature s) := by
  generalize hscope : Scope.mk .function (some s.scope)
    ((s.facts.scopes[s.scope]?.getD default).depth + 1) f [] = scope
  have hopen : Inv g live outer opens (Analyze.pushScope scope s) :=
    hi.pushScope (by rw [← hscope]) (by rw [← hscope])
  have hscopes : (enterFunction f signature s).facts.scopes =
      (Analyze.pushScope scope s).facts.scopes := by
    rw [← hscope]
    rfl
  have hgrows := grows_enterFunction hp hf
  have hcoherent : Coherent (enterFunction f signature s).facts opens := by
    have h : Coherent (Analyze.withFunction f (fun i => { i with scope := s.facts.scopes.size })
        (Analyze.pushScope scope s)).facts opens := hopen.coherent.withFunction
      hp.lt ⟨hgrows.symbols_le, hgrows.symbol, hgrows.functions_le, hgrows.function, hgrows.returns,
        hgrows.closed, hgrows.globals_le⟩ rfl (hi.coherent.params_lt f hp.lt)
    exact ⟨h.symbol, h.function, h.global_lt, h.global_inj, h.captured, h.params_lt, h.named,
      h.declared⟩
  have hinfo : ∀ e, (enterFunction f signature s).facts.info e =
      if e = f then { s.facts.info e with scope := s.facts.scopes.size } else s.facts.info e :=
    fun e => Facts.info_modify (F := (Analyze.openScope ScopeKind.function
      { s with context := startContext f signature }).facts) hp.lt
  have hlt : ∀ e ∈ ((g, live) :: outer).map Prod.fst, e < f := by
    intro e he
    rcases List.mem_cons.mp he with rfl | he
    · exact hp.inner
    · exact Nat.lt_trans (hi.linked.lt_of_mem e he) hp.inner
  refine
    { function := rfl
      linked := ⟨Nat.lt_of_lt_of_le hp.lt hgrows.functions_le, ?_, ?_, hp.inner, ?_, ?_⟩
      opened := fun e he => ?_, nodup := hi.nodup
      opens_lt := fun e he => Nat.lt_of_lt_of_le (hi.opens_lt e he) hgrows.functions_le
      scope_lt := by rw [hscopes]; exact hopen.scope_lt
      nested := by rw [hscopes]; exact hopen.nested
      sees := fun y hy => ?_
      live_lt := by simp, live_function := by simp, live_slot := by simp
      slots_le := Nat.le_refl _, coherent := hcoherent }
  · rw [hinfo, if_pos rfl]
    exact hp.kind
  · rw [hinfo, if_pos rfl]
    exact hp.parent
  · intro y hy
    rw [Facts.captures, hinfo, if_pos rfl] at hy
    have := hp.captures
    rw [Facts.captures] at this
    rw [this] at hy
    cases hy
  · refine hi.linked.of_info (fun e he => ?_) (fun _ _ _ => rfl) hgrows.functions_le
    rw [hinfo, if_neg (Nat.ne_of_lt (hlt e he))]
  · rcases List.mem_cons.mp he with rfl | he
    · exact hf
    · exact hi.opened e he
  · rw [hscopes] at hy
    obtain ⟨hy', hk⟩ := hopen.sees y hy
    refine ⟨hy', fun hv => ?_⟩
    have hknown : Known (enterFunction f signature s).facts ((g, live) :: outer) y :=
      (hk hv).congr rfl
    rw [Known, if_neg]
    · exact hknown
    · exact Nat.ne_of_lt (hlt _ (known_mem hknown))

/-- **Parameters.** Each parameter has the slot of its number. The induction is on the parameters
that are left, with those declared already as the variables in sight. -/
theorem Inv.declareParams {nest : Nesting} {f : Nat} {place : Range} (hf : f ≠ 0)
    (params : List Param) :
    ∀ {declared ps : List Nat} {s s' : AnalysisState}, Inv f declared nest opens s →
      s.context.nextSlot = declared.length → (∀ p ∈ params, p.ty.isError = false) →
      Passes (declareParams place params) s ps s' →
      Inv f (declared ++ ps) nest opens s' ∧ Moves opens s s' ∧
        s'.facts.functions = s.facts.functions ∧
        s'.context.nextSlot = declared.length + ps.length ∧
        (ps.map fun y => (s'.facts.symbol y).ty) = params.map (·.ty) ∧
        ∀ i y, ps[i]? = some y → s'.facts.IsParam f (declared.length + i) y := by
  induction params with
  | nil =>
      intro declared ps s s' hi hn _ h
      obtain ⟨rfl, rfl, -⟩ := passes_pure.mp h
      refine ⟨by rwa [List.append_nil], .refl _ _, rfl, hn, rfl, by simp⟩
  | cons p params ih =>
      intro declared ps s s' hi hn hty h
      obtain ⟨storage, t, ha, h⟩ := h.bind fun _ => keeps_bind keeps_declare fun _ =>
        keeps_bind (keeps_declareParams place params) fun _ => keeps_pure
      obtain ⟨y, u, hd, h⟩ := h.bind fun _ =>
        keeps_bind (keeps_declareParams place params) fun _ => keeps_pure
      obtain ⟨ys, v, hr, h⟩ := h.bind fun _ => keeps_pure
      obtain ⟨rfl, rfl, -⟩ := passes_pure.mp h
      obtain ⟨hti, htm, -, hplace, hslot, -, htf⟩ := hi.allocStorage ha
      obtain ⟨k, rfl⟩ : ∃ k, storage = .frame k := by
        rcases hplace.kind with ⟨h0, -⟩ | ⟨-, h⟩
        · exact absurd h0 hf
        · exact h
      obtain ⟨rfl, hnext⟩ := hslot k rfl
      have hsize := hti.live_lt
      have hsub := List.subset_append_left declared [t.facts.symbols.size]
      obtain ⟨rfl, hui, hum, hsym, huc, huf⟩ := hti.declare hd
        ⟨hty p (by simp), hti.function.trans_ne hf⟩ nofun nofun hplace.frame hsub (by simp) (by simp)
      have hlen : (declared ++ [t.facts.symbols.size]).length = declared.length + 1 := by simp
      obtain ⟨hvi, hvm, hvf, hvn, htys, hps⟩ := ih hui (by rw [huc, hnext, hn, hlen])
        (fun q hq => hty q (List.mem_cons_of_mem _ hq)) hr
      have hlt : t.facts.symbols.size < u.facts.symbols.size := hui.live_lt _ (by simp)
      have hgrow := hvm.grows.symbol _ hlt
      refine ⟨by rwa [List.append_assoc] at hvi, (htm.trans hum).trans hvm,
        hvf.trans (huf.trans htf), ?_, ?_, ?_⟩
      · rw [hvn, hlen, List.length_cons]
        omega
      · rw [List.map_cons, List.map_cons, htys, hgrow.ty, hsym]
        rfl
      · intro i y hy
        cases i with
        | zero =>
            cases hy
            refine hvm.grows.isParam ⟨hlt, ?_, ?_, ?_⟩
            · rw [hsym]
              rfl
            · rw [hsym, ← hn]
              rfl
            · rw [hsym]
              exact hti.function
        | succ i =>
            have := hps i y hy
            rwa [hlen, Nat.add_right_comm, Nat.add_assoc] at this

/-- Setting the parameters of an open function only makes its record grow. -/
theorem grows_setParams {f : Nat} {params : List Nat} (hlt : f < s.facts.functions.size)
    (hf : opens.lookup f ≠ none) :
    s.facts.Grows opens (withFunction f (fun i => { i with params }) s).facts :=
  grows_withFunction hlt hf ⟨rfl, rfl, rfl, List.Subset.refl _⟩ rfl

/-- The parameters of a function are noted when they are declared. -/
theorem Inv.setParams {nest : Nesting} {f : Nat} {params : List Nat} (hi : Inv f live nest opens s)
    (hparams : ∀ y ∈ params, y < s.facts.symbols.size) :
    Inv f live nest opens (withFunction f (fun i => { i with params }) s) := by
  have hlt := hi.linked.head_lt
  have hg : s.facts.Grows opens (withFunction f (fun i => { i with params }) s).facts :=
    grows_setParams hlt (hi.opened f (by simp))
  exact { hi with
    linked := hi.linked.withFunction hlt rfl rfl rfl
    opens_lt := fun e he => Nat.lt_of_lt_of_le (hi.opens_lt e he) hg.functions_le
    sees := fun y hy => ⟨(hi.sees y hy).1, fun hv => ((hi.sees y hy).2 hv).congr rfl⟩
    coherent := hi.coherent.withFunction hlt hg rfl hparams }

/-- A function counts as finished when what is known about it has the type it was declared
with. -/
theorem Inv.finish {f : Nat} {ty : Ty} (hi : Inv g live outer ((f, ty) :: opens) s)
    (hty : s.facts.signature f = ty) (hne : ∀ e ∈ ((g, live) :: outer).map Prod.fst, e ≠ f) :
    Inv g live outer opens s := by
  obtain ⟨hf, hnodup⟩ := List.nodup_cons.mp hi.nodup
  refine { hi with
    opened := fun e he => ?_
    nodup := hnodup
    opens_lt := fun e he => hi.opens_lt e (List.mem_cons_of_mem _ he)
    coherent := { hi.coherent with function := fun y hy e hs => ?_ } }
  · rw [← lookup_cons_of_ne (hne e he)]
    exact hi.opened e he
  · obtain ⟨he, ht⟩ := hi.coherent.function y hy e hs
    refine ⟨he, ht.trans ?_⟩
    by_cases hef : e = f
    · rw [typeOf, typeOf, hef, lookup_eq_none_iff.mpr hf, List.lookup_cons_self]
      exact hty.symm
    · exact typeOf_cons_of_ne hef

/-- What happens in a function is calm for the function around it: scopes, slots and parameters are
the same behind it, and the symbols and functions have only become more. -/
theorem Inv.calm_leave {f node : Nat} {signature : Signature} {params : List Nat}
    {u : AnalysisState} (hi : Inv g live outer opens s) (hp : Pending s.facts g f node signature)
    (hf : opens.lookup f ≠ none) (hm : Moves opens (enterFunction f signature s) t)
    (hm' : Moves opens (withFunction f (fun i => { i with params }) t) u) :
    Calm opens s (leaveFunction f s u) := by
  have hsize : (enterFunction f signature s).facts.scopes.size = s.facts.scopes.size + 1 := by
    simp [enterFunction, withFunction, Analyze.openScope]
  have hle := hm.scopes_le
  have hscope : t.scope = s.facts.scopes.size := hm.scope
  have hagree : ∀ i < s.facts.scopes.size, u.facts.scopes[i]? = s.facts.scopes[i]? := by
    intro i hi
    rw [hm'.scopes i (Nat.lt_of_lt_of_le (by omega) hle) (hscope ▸ Nat.ne_of_lt hi)]
    exact (hm.scopes i (by omega) (Nat.ne_of_lt hi)).trans (scopes_pushScope hi)
  have henter := (grows_enterFunction hp hf).trans hm.grows
  have hlt : f < t.facts.functions.size := Nat.lt_of_lt_of_le hp.lt henter.functions_le
  have hbody : s.facts.Grows opens u.facts :=
    (henter.trans (grows_setParams hlt hf)).trans hm'.grows
  have hlt' : f < u.facts.functions.size := Nat.lt_of_lt_of_le hp.lt hbody.functions_le
  have hlast : u.facts.Grows opens (leaveFunction f s u).facts :=
    grows_withFunction hlt' hf ⟨rfl, rfl, rfl, List.Subset.refl _⟩ rfl
  refine
    { grows := hbody.trans hlast
      scope := rfl
      scopes_le := Nat.le_trans (by omega) (Nat.le_trans hle hm'.scopes_le)
      scopes := fun i hi _ => hagree i hi
      function := rfl
      depth := rfl
      nextSlot_le := Nat.le_refl _
      maxSlot_le := Nat.le_refl _
      returns := fun _ h => h
      regular := fun h => h
      params := fun e he => ?_
      current := hagree s.scope hi.scope_lt
      nextSlot := rfl }
  have hef : e < f := Nat.lt_of_le_of_lt (hi.function ▸ he) hp.inner
  have hfun : t.context.function = f := hm.function
  have hself : ∀ {v : AnalysisState} {change : FunctionInfo → FunctionInfo},
      f < v.facts.functions.size → (withFunction f change v).facts.info e = v.facts.info e := by
    intro v change hv
    rw [withFunction, Facts.info_modify hv, if_neg (Nat.ne_of_lt hef)]
  calc ((leaveFunction f s u).facts.info e).params
      = (u.facts.info e).params := congrArg (·.params) (hself hlt')
    _ = (t.facts.info e).params := by
        rw [hm'.params e (Nat.le_of_lt (hfun ▸ hef)), hself hlt]
    _ = ((enterFunction f signature s).facts.info e).params := hm.params e (Nat.le_of_lt hef)
    _ = (s.facts.info e).params := congrArg (·.params) (hself hp.lt)

/-- **Leaving a function.** The function around it goes on where it waited. -/
theorem Inv.leave {f : Nat} {live' : List Nat} {ty : Ty} (hi : Inv g live outer ((f, ty) :: opens) s)
    (hcalm : Calm ((f, ty) :: opens) s (leaveFunction f s t))
    (ht : Inv f live' ((g, live) :: outer) ((f, ty) :: opens) t)
    (hty : t.facts.signature f = ty) : Inv g live outer opens (leaveFunction f s t) := by
  have hf : ((f, ty) :: opens).lookup f ≠ none := by simp
  have hlt : f < t.facts.functions.size := ht.linked.head_lt
  have hg : t.facts.Grows ((f, ty) :: opens) (leaveFunction f s t).facts :=
    grows_withFunction hlt hf ⟨rfl, rfl, rfl, List.Subset.refl _⟩ rfl
  have hinv : Inv g live outer ((f, ty) :: opens) (leaveFunction f s t) := by
    refine hi.calm hcalm (ht.linked.tail.withFunction hlt rfl rfl rfl) ht.nested ?_
    exact ht.coherent.withFunction hlt hg rfl (ht.coherent.params_lt f hlt)
  refine hinv.finish ?_ fun e he => Nat.ne_of_lt (ht.linked.lt_of_mem e he)
  rw [← hty, Facts.signature, Facts.signature, leaveFunction, withFunction, Facts.info_modify hlt,
    if_pos rfl]
  rfl

/-! ### Finished functions -/

/-- The body of a function was analyzed. -/
def Finished (opens : Opens) (s : AnalysisState) (f : Nat) : Prop :=
  f < s.facts.functions.size ∧ opens.lookup f = none

/-- The functions that were finished on the way from `s` to `s'` are among those in `fs`. -/
def Finishes (opens opens' : Opens) (s s' : AnalysisState) (fs : List FunctionBody) : Prop :=
  ∀ f, Finished opens' s' f → Finished opens s f ∨ f ∈ fs.map Prod.fst

/-- Where nothing happens no function is finished. -/
theorem Finishes.refl (opens : Opens) (s : AnalysisState) : Finishes opens opens s s [] :=
  fun _ => .inl

/-- Where no function is made none is finished. -/
theorem Finishes.of_size (h : s'.facts.functions.size = s.facts.functions.size) :
    Finishes opens opens s s' [] :=
  fun _ hf => .inl ⟨h ▸ hf.1, hf.2⟩

/-- Functions are finished on one part of the way or on the other. -/
theorem Finishes.trans {opens' opens'' : Opens} {fs gs : List FunctionBody}
    (h : Finishes opens opens' s t fs) (h' : Finishes opens' opens'' t s' gs) :
    Finishes opens opens'' s s' (fs ++ gs) := by
  intro f hf
  rw [List.map_append, List.mem_append]
  rcases h' f hf with hf | hf
  · exact (h f hf).imp_right .inl
  · exact .inr (.inr hf)

/-! ### Hoisted functions -/

/-- The function that a statement declares, as long as its body is to be analyzed. -/
def pending : Stmt → Option Declared → Opens
  | .fnDecl _ _ signature _, some d => [(d.function, signature.ty)]
  | _, _ => []

/-- The functions that statements declare. -/
def pendings : List Stmt → List (Option Declared) → Opens
  | [], _ => []
  | s :: ss, ds => pending s ds.head?.join ++ pendings ss ds.tail

/-- The function that a statement in `g` declares is numbered. -/
def Awaits (F : Facts) (g : Nat) : Stmt → Option Declared → Prop
  | .fnDecl n _ signature _, d => ∃ d', d = some d' ∧ Pending F g d'.function n.id signature ∧
      (F.info d'.function).kind = .named
  | _, _ => True

/-- The functions that statements in `g` declare are numbered. -/
def AllAwait (F : Facts) (g : Nat) : List Stmt → List (Option Declared) → Prop
  | [], _ => True
  | s :: ss, ds => Awaits F g s ds.head?.join ∧ AllAwait F g ss ds.tail

/-- A declared function stays to be analyzed, because it captures nothing. -/
theorem Pending.grows {F F' : Facts} {f node : Nat} {signature : Signature} {opens' : Opens}
    (hp : Pending F g f node signature) (hk : (F.info f).kind = .named) (hg : F.Grows opens F')
    (hc : Coherent F' opens') : Pending F' g f node signature := by
  have hlt := Nat.lt_of_lt_of_le hp.lt hg.functions_le
  have hf := hg.function f hp.lt
  have hinner := hp.inner
  exact
    { lt := hlt
      kind := by rw [hf.kind]; exact hp.kind
      parent := hf.parent.trans hp.parent
      inner := hp.inner
      node_eq := hf.node.trans hp.node_eq
      returns := (hg.returns f hp.lt (by omega)).trans hp.returns
      captures := hc.named f hlt (by rw [hf.kind, hk]; decide) }

/-- A function that waits has its number also when the facts grow. -/
theorem Awaits.grows {F F' : Facts} {stmt : Stmt} {d : Option Declared} {opens' : Opens}
    (h : Awaits F g stmt d) (hg : F.Grows opens F') (hc : Coherent F' opens') : Awaits F' g stmt d := by
  cases stmt with
  | fnDecl n name signature body =>
      obtain ⟨d', rfl, hp, hk⟩ := h
      exact ⟨d', rfl, hp.grows hk hg hc, (hg.function _ hp.lt).kind.trans hk⟩
  | _ => trivial

/-- Functions that wait have their numbers also when the facts grow. -/
theorem AllAwait.grows {F F' : Facts} {opens' : Opens} (hg : F.Grows opens F')
    (hc : Coherent F' opens') : ∀ {ss : List Stmt} {ds : List (Option Declared)},
    AllAwait F g ss ds → AllAwait F' g ss ds := by
  intro ss
  induction ss with
  | nil => exact fun _ => trivial
  | cons stmt ss ih => exact fun h => ⟨h.1.grows hg hc, ih h.2⟩

/-- A function is looked up in the first part, and then in the second. -/
theorem lookup_append {opens opens' : Opens} {f : Nat} :
    (opens ++ opens').lookup f = (opens.lookup f).or (opens'.lookup f) := by
  induction opens with
  | nil => rfl
  | cons first rest ih =>
      obtain ⟨e, ty⟩ := first
      by_cases h : f = e
      · simp [h]
      · rw [List.cons_append, lookup_cons_of_ne h, lookup_cons_of_ne h, ih]

/-- The order of open functions does not matter, as each is there once. -/
theorem lookup_perm {opens opens' : Opens} (h : opens.Perm opens')
    (hn : (opens.map Prod.fst).Nodup) (f : Nat) : opens.lookup f = opens'.lookup f := by
  induction h with
  | nil => rfl
  | cons first _ ih =>
      obtain ⟨e, ty⟩ := first
      by_cases hf : f = e
      · simp [hf]
      · rw [lookup_cons_of_ne hf, lookup_cons_of_ne hf]
        exact ih (List.nodup_cons.mp hn).2
  | swap a b rest =>
      obtain ⟨a, ta⟩ := a
      obtain ⟨b, tb⟩ := b
      have hab : b ≠ a := by
        rintro rfl
        simp at hn
      by_cases hfa : f = a
      · rw [hfa, lookup_cons_of_ne hab.symm, List.lookup_cons_self, List.lookup_cons_self]
      · by_cases hfb : f = b
        · rw [hfb, lookup_cons_of_ne hab, List.lookup_cons_self, List.lookup_cons_self]
        · rw [lookup_cons_of_ne hfb, lookup_cons_of_ne hfa, lookup_cons_of_ne hfa,
            lookup_cons_of_ne hfb]
  | trans h _ ih ih' =>
      rw [ih hn]
      exact ih' ((h.map Prod.fst).nodup_iff.mp hn)

/-- The order of the functions that are not finished does not matter. -/
theorem Inv.perm {opens' : Opens} (hi : Inv g live outer opens s) (h : opens.Perm opens') :
    Inv g live outer opens' s := by
  have hl := lookup_perm h hi.nodup
  exact { hi with
    opened := fun f hf => by rw [← hl]; exact hi.opened f hf
    nodup := (h.map Prod.fst).nodup_iff.mp hi.nodup
    opens_lt := fun f hf => hi.opens_lt f ((h.map Prod.fst).mem_iff.mpr hf)
    coherent := { hi.coherent with
      function := fun y hy f hs => by
        rw [typeOf, ← hl]
        exact hi.coherent.function y hy f hs } }

/-- **Hoisting.** After it the functions of the statements are declared, and their bodies are
to be analyzed. -/
theorem Inv.hoist (ss : List Stmt) : ∀ {opens : Opens} {s s' : AnalysisState}
    {ds : List (Option Declared)}, Inv g live outer opens s → Stmt.AllRegular ss →
    Passes (hoist ss) s ds s' → Inv g live outer (pendings ss ds ++ opens) s' ∧ Moves opens s s' ∧
      AllAwait s'.facts g ss ds ∧
      (∀ f ∈ (pendings ss ds).map Prod.fst, s.facts.functions.size ≤ f) ∧
      Finishes opens (pendings ss ds ++ opens) s s' [] := by
  induction ss with
  | nil =>
      intro opens s s' ds hi _ h
      obtain ⟨rfl, rfl, -⟩ := passes_pure.mp h
      exact ⟨hi, .refl _ _, trivial, by simp [pendings], .refl _ _⟩
  | cons stmt ss ih =>
      intro opens s s' ds hi hreg h
      cases stmt with
      | fnDecl n name signature body =>
          obtain ⟨f, t, hf, h⟩ := h.bind fun _ => keeps_bind keeps_declare fun _ =>
            keeps_bind (keeps_hoist ss) fun _ => keeps_pure
          obtain ⟨y, u, hd, h⟩ := h.bind fun _ => keeps_bind (keeps_hoist ss) fun _ => keeps_pure
          obtain ⟨rest, v, hr, h⟩ := h.bind fun _ => keeps_pure
          obtain ⟨rfl, rfl, -⟩ := passes_pure.mp h
          obtain ⟨rfl, hti, htc, hp, hkind, hsize⟩ := hi.newFunction (by decide) hf
          have hne : s.facts.functions.size ≠ 0 :=
            Nat.ne_of_gt (Nat.lt_of_le_of_lt (Nat.zero_le _) hp.inner)
          obtain ⟨rfl, hui, hum, -, -, huf⟩ := hti.declare hd ⟨hreg.1.1.ty, hne⟩
            (by rintro f ⟨⟩; exact ⟨hp.lt, by simp [typeOf], by rw [hkind]; decide⟩) nofun nofun
            (List.Subset.refl live) (fun _ => .inl) (by simp)
          obtain ⟨hvi, hvm, hva, hvn, hvf⟩ := ih hui hreg.2 hr
          have hmove : Moves ((s.facts.functions.size, signature.ty) :: opens) s s' :=
            ((htc.toMoves.mono fun _ _ => lookup_of_cons_eq_none).trans hum).trans hvm
          have hgrows := hum.grows.trans hvm.grows
          refine ⟨hvi.perm List.perm_middle, hmove.mono fun e he hn => ?_,
            ⟨⟨_, rfl, hp.grows hkind hgrows hvi.coherent,
              (hgrows.function _ hp.lt).kind.trans hkind⟩, hva⟩, fun f hf => ?_, fun f hf => ?_⟩
          · rwa [lookup_cons_of_ne (Nat.ne_of_lt he)]
          · rcases List.mem_cons.mp hf with rfl | hf
            · exact Nat.le_refl _
            · have hle := htc.grows.functions_le
              have hle' := hum.grows.functions_le
              have hf' := hvn f hf
              omega
          · -- The new function is not finished.
            have hne : f ≠ s.facts.functions.size := by
              rintro rfl
              have := hf.2
              simp [pendings, pending] at this
            have hlast := hvf f ⟨hf.1, ?_⟩
            · rcases hlast with ⟨hlt, hopen⟩ | hlast
              · rw [huf, hsize] at hlt
                exact .inl ⟨by omega, lookup_of_cons_eq_none hopen⟩
              · exact .inr hlast
            · rw [← hf.2]
              exact lookup_perm List.perm_middle hvi.nodup f
      | _ =>
          obtain ⟨rest, v, hr, h⟩ := h.bind fun _ => keeps_pure
          obtain ⟨rfl, rfl, -⟩ := passes_pure.mp h
          obtain ⟨hvi, hvm, hva, hvn, hvf⟩ := ih hi hreg.2 hr
          exact ⟨hvi, hvm, ⟨trivial, hva⟩, hvn, hvf⟩

end Analyze

end Parlance
