import Parlance.Proofs.Analysis.Growth

/-!
# The invariant of analysis

While a function is analyzed, the functions around it wait. `Nesting` lists them all, the
innermost first, each with the variables it has declared so far at this place. The invariant
says that the scopes show exactly such variables, that every waiting function has what the
function inside it captures, and that the facts are coherent.

## Main definitions

* `Analyze.Inv`: the invariant.
* `Analyze.Moves`, `Analyze.Calm`: what a statement, an expression or a block changes.

## Main results

* `Analyze.passes_resolve`: a name that was resolved may be used where it stands.
-/

namespace Parlance

/-- The result type of the current function has no errors, as far as it is known. -/
def AnalysisState.Regular (s : AnalysisState) : Prop :=
  ∀ t, s.context.returns = some t → t.isError = false

namespace Analyze

/-- The functions being analyzed, the innermost first, each with its declared variables. -/
abbrev Nesting := List (Nat × List Nat)

/-! ### Visible symbols -/

/-- A scope or one around it binds a symbol. -/
inductive Sees (scopes : Array Scope) : Nat → Nat → Prop where
  | here {i : Nat} {s : Scope} {name : String} {y : Nat} (hs : scopes[i]? = some s)
      (h : (name, y) ∈ s.bindings) : Sees scopes i y
  | outer {i p y : Nat} {s : Scope} (hs : scopes[i]? = some s) (hp : s.parent = some p)
      (h : Sees scopes p y) : Sees scopes i y

/-- What a scope answers for a name is one of its bindings. -/
theorem mem_of_lookup {name : String} {y : Nat} {bindings : List (String × Nat)}
    (h : bindings.lookup name = some y) : (name, y) ∈ bindings := by
  induction bindings with
  | nil => cases h
  | cons b bs ih =>
      obtain ⟨name', z⟩ := b
      rw [List.lookup_cons] at h
      split at h
      · next he =>
          cases h
          rw [eq_of_beq he]
          exact List.mem_cons_self
      · exact List.mem_cons_of_mem _ (ih h)

/-- A name that resolves to a symbol is answered by the scope or by one around it, so `Sees` forgets
only the name. -/
theorem sees_of_lookup {F : Facts} {name : String} {y : Nat} (fuel : Nat) :
    ∀ scope, lookup F name fuel scope = some y → Sees F.scopes scope y := by
  induction fuel with
  | zero =>
      intro scope h
      cases h
  | succ fuel ih =>
      intro scope h
      rw [lookup] at h
      split at h
      · cases h
      · next s hs =>
          split at h
          · next z hz =>
              cases h
              exact .here hs (mem_of_lookup hz)
          · split at h
            · cases h
            · next p hp => exact .outer hs hp (ih p h)

/-- Parents come before their children. -/
def Nested (scopes : Array Scope) : Prop :=
  ∀ (i : Nat) (s : Scope) (p : Nat), scopes[i]? = some s → s.parent = some p → p < i

/-- What a scope shows depends only on the scopes up to it. -/
theorem Sees.of_agree {scopes scopes' : Array Scope} {n i y : Nat} (h : Sees scopes' i y)
    (hi : i < n) (ha : ∀ j < n, scopes'[j]? = scopes[j]?) (hn : Nested scopes) :
    Sees scopes i y := by
  induction h with
  | here hs hb =>
      rw [ha _ hi] at hs
      exact .here hs hb
  | outer hs hp _ ih =>
      rw [ha _ hi] at hs
      exact .outer hs hp (ih (Nat.lt_trans (hn _ _ _ hs hp) hi))

/-! ### Waiting functions -/

section

variable (F : Facts)

/-- A variable is declared in one of the functions being analyzed. -/
def Known : Nesting → Nat → Prop
  | [], _ => False
  | (g, live) :: outer, y => if (F.symbol y).function = g then y ∈ live else Known outer y

/-- Each function has what the function inside it captures. -/
def Linked : Nesting → Prop
  | [] => False
  | [(g, _)] => g = 0 ∧ g < F.functions.size ∧ (F.info g).kind = .main
  | (g, _) :: (h, live) :: outer =>
    g < F.functions.size ∧ (F.info g).kind ≠ .main ∧ (F.info g).parent = some h ∧ h < g ∧
      (∀ y ∈ F.captures g, F.Has h live y) ∧ Linked ((h, live) :: outer)

/-- A symbol is a variable or a parameter. -/
def IsVariable (y : Nat) : Prop :=
  (F.symbol y).kind = .variable ∨ (F.symbol y).kind = .parameter

/-- The type of the values of a function that may not be finished. -/
def typeOf (opens : Opens) (f : Nat) : Ty :=
  (opens.lookup f).getD (F.signature f)

/-- The facts are coherent, with the functions in `opens` not finished. -/
structure Coherent (opens : Opens) : Prop where
  symbol : ∀ y < F.symbols.size, (F.symbol y).Coherent
  function : ∀ y < F.symbols.size, ∀ f, (F.symbol y).storage = .function f →
    f < F.functions.size ∧ (F.symbol y).ty = typeOf F opens f
  global_lt : ∀ y < F.symbols.size, ∀ k, (F.symbol y).storage = .global k → k < F.globals
  global_inj : ∀ y < F.symbols.size, ∀ z < F.symbols.size, ∀ k,
    (F.symbol y).storage = .global k → (F.symbol z).storage = .global k → y = z
  captured : ∀ f y, y ∈ F.captures f →
    y < F.symbols.size ∧ (F.symbol y).escapes = true ∧ ∃ k, (F.symbol y).storage = .frame k
  params_lt : ∀ f < F.functions.size, ∀ y ∈ (F.info f).params, y < F.symbols.size
  named : ∀ f < F.functions.size, (F.info f).kind ≠ .lambda → F.captures f = []
  declared : ∀ y < F.symbols.size, ∀ f, (F.symbol y).storage = .function f →
    (F.info f).kind ≠ .lambda

end

/-! ### The invariant -/

/-- The state while the function `g` is analyzed, which has declared `live`, inside the
functions `outer`. The functions in `opens` are not finished. -/
structure Inv (g : Nat) (live : List Nat) (outer : Nesting) (opens : Opens) (s : AnalysisState) :
    Prop where
  function : s.context.function = g
  linked : Linked s.facts ((g, live) :: outer)
  opened : ∀ f ∈ ((g, live) :: outer).map Prod.fst, opens.lookup f ≠ none
  nodup : (opens.map Prod.fst).Nodup
  opens_lt : ∀ f ∈ opens.map Prod.fst, f < s.facts.functions.size
  scope_lt : s.scope < s.facts.scopes.size
  nested : Nested s.facts.scopes
  sees : ∀ y, Sees s.facts.scopes s.scope y → y < s.facts.symbols.size ∧
    (IsVariable s.facts y → Known s.facts ((g, live) :: outer) y)
  live_lt : ∀ y ∈ live, y < s.facts.symbols.size
  live_function : ∀ y ∈ live, (s.facts.symbol y).function = g
  live_slot : ∀ y ∈ live, ∀ k, (s.facts.symbol y).storage = .frame k → k < s.context.nextSlot
  slots_le : s.context.nextSlot ≤ s.context.maxSlot
  coherent : Coherent s.facts opens

/-- What a statement changes: the facts grow, the current scope may get bindings, and the
result type of the function may become known. The parameters of the function and of those
around it stay what they are. -/
structure Moves (opens : Opens) (s s' : AnalysisState) : Prop where
  grows : s.facts.Grows opens s'.facts
  scope : s'.scope = s.scope
  scopes_le : s.facts.scopes.size ≤ s'.facts.scopes.size
  scopes : ∀ i < s.facts.scopes.size, i ≠ s.scope → s'.facts.scopes[i]? = s.facts.scopes[i]?
  function : s'.context.function = s.context.function
  depth : s'.context.loopDepth = s.context.loopDepth
  nextSlot_le : s.context.nextSlot ≤ s'.context.nextSlot
  maxSlot_le : s.context.maxSlot ≤ s'.context.maxSlot
  returns : ∀ t, s.context.returns = some t → s'.context.returns = some t
  regular : s.Regular → s'.Regular
  params : ∀ f ≤ s.context.function, (s'.facts.info f).params = (s.facts.info f).params

/-- What an expression or a block changes: no binding and no slot of the current scope. -/
structure Calm (opens : Opens) (s s' : AnalysisState) : Prop extends Moves opens s s' where
  current : s'.facts.scopes[s.scope]? = s.facts.scopes[s.scope]?
  nextSlot : s'.context.nextSlot = s.context.nextSlot

variable {opens opens' : Opens} {s s' s'' : AnalysisState}

/-- A statement that does nothing moves nothing. -/
theorem Moves.refl (opens : Opens) (s : AnalysisState) : Moves opens s s :=
  ⟨.refl _ _, rfl, Nat.le_refl _, fun _ _ _ => rfl, rfl, rfl, Nat.le_refl _, Nat.le_refl _,
    fun _ h => h, fun h => h, fun _ _ => rfl⟩

/-- The moves of two statements add up, which is what the rule for a sequence needs. -/
theorem Moves.trans (h : Moves opens s s') (h' : Moves opens s' s'') : Moves opens s s'' where
  grows := h.grows.trans h'.grows
  scope := h'.scope.trans h.scope
  scopes_le := Nat.le_trans h.scopes_le h'.scopes_le
  scopes i hi hs :=
    (h'.scopes i (Nat.lt_of_lt_of_le hi h.scopes_le) (h.scope.symm ▸ hs)).trans (h.scopes i hi hs)
  function := h'.function.trans h.function
  depth := h'.depth.trans h.depth
  nextSlot_le := Nat.le_trans h.nextSlot_le h'.nextSlot_le
  maxSlot_le := Nat.le_trans h.maxSlot_le h'.maxSlot_le
  returns t ht := h'.returns t (h.returns t ht)
  regular hr := h'.regular (h.regular hr)
  params f hf := (h'.params f (h.function ▸ hf)).trans (h.params f hf)

/-- Moves that are stated for some open functions hold for others, as long as every function that
the second list leaves out is finished in the first one too. -/
theorem Moves.mono (h : Moves opens s s')
    (ho : ∀ f < s.facts.functions.size, opens'.lookup f = none → opens.lookup f = none) :
    Moves opens' s s' :=
  { h with grows := h.grows.mono ho }

/-- What changes nothing is calm. -/
theorem Calm.refl (opens : Opens) (s : AnalysisState) : Calm opens s s :=
  { Moves.refl opens s with current := rfl, nextSlot := rfl }

/-- Two calm steps are calm together. -/
theorem Calm.trans (h : Calm opens s s') (h' : Calm opens s' s'') : Calm opens s s'' :=
  { h.toMoves.trans h'.toMoves with
    current := by
      have := h'.current
      rw [h.scope] at this
      exact this.trans h.current
    nextSlot := h'.nextSlot.trans h.nextSlot }

/-- A calm step stays calm when other functions count as open, under the condition of `Moves.mono`.
-/
theorem Calm.mono (h : Calm opens s s')
    (ho : ∀ f < s.facts.functions.size, opens'.lookup f = none → opens.lookup f = none) :
    Calm opens' s s' :=
  { h with grows := h.grows.mono ho }

/-- A calm step leaves every scope that existed as it was, the current one included. -/
theorem Calm.scopes_eq (h : Calm opens s s') {i : Nat} (hi : i < s.facts.scopes.size) :
    s'.facts.scopes[i]? = s.facts.scopes[i]? := by
  by_cases hs : i = s.scope
  · rw [hs]
    exact h.current
  · exact h.scopes i hi hs

/-! ### Captures -/

section Nesting

variable {F F' : Facts} {g : Nat} {live : List Nat} {outer nest : Nesting} {y : Nat}

/-- Only the function of a symbol decides whether it is known, so other facts about it may change.
-/
theorem Known.congr (h : Known F nest y) (hs : (F'.symbol y).function = (F.symbol y).function) :
    Known F' nest y := by
  induction nest with
  | nil => exact h
  | cons first rest ih =>
      unfold Known at h ⊢
      rw [hs]
      split at h
      · next ho => rwa [if_pos ho]
      · next ho =>
          rw [if_neg ho]
          exact ih h

/-- The innermost function has an entry. -/
theorem Linked.head_lt (h : Linked F ((g, live) :: outer)) : g < F.functions.size := by
  cases outer with
  | nil => exact h.2.1
  | cons first rest => exact h.1

/-- The functions around the innermost one are linked among themselves. -/
theorem Linked.tail {first : Nat × List Nat} (h : Linked F ((g, live) :: first :: outer)) :
    Linked F (first :: outer) :=
  h.2.2.2.2.2

/-- A function is entered after those around it, so its number is larger. -/
theorem Linked.lt_of_mem (h : Linked F ((g, live) :: outer)) : ∀ f ∈ outer.map Prod.fst, f < g := by
  induction outer generalizing g live with
  | nil => simp
  | cons first rest ih =>
      intro f hf
      rcases List.mem_cons.mp hf with rfl | hf
      · exact h.2.2.2.1
      · exact Nat.lt_trans (ih h.tail f hf) h.2.2.2.1

/-- The links only depend on the functions that are linked. -/
theorem Linked.congr (h : Linked F nest)
    (hf : ∀ f ∈ nest.map Prod.fst, (F'.info f).kind = (F.info f).kind ∧
      (F'.info f).parent = (F.info f).parent ∧ F'.captures f = F.captures f)
    (hs : ∀ f, ∀ y ∈ F.captures f, (F'.symbol y).function = (F.symbol y).function)
    (hn : F.functions.size ≤ F'.functions.size) : Linked F' nest := by
  induction nest with
  | nil => exact h
  | cons first rest ih =>
      obtain ⟨g, live⟩ := first
      obtain ⟨hkind, hparent, hcap⟩ := hf g (by simp)
      cases rest with
      | nil => exact ⟨h.1, Nat.lt_of_lt_of_le h.2.1 hn, hkind.trans h.2.2⟩
      | cons second rest =>
          obtain ⟨e, elive⟩ := second
          obtain ⟨hlt, hk, hp, he, hc, hr⟩ := h
          refine ⟨Nat.lt_of_lt_of_le hlt hn, hkind ▸ hk, hparent.trans hp, he, fun y hy => ?_,
            ih hr fun f hm => hf f (List.mem_cons_of_mem _ hm)⟩
          rw [hcap] at hy
          exact (hc y hy).mono (hs g y hy) (by rw [(hf e (by simp)).2.2]; exact List.Subset.refl _)

/-- Links are kept by facts that leave the entries of the open functions and the owners of their
captures alone. -/
theorem Linked.of_info (h : Linked F nest) (hf : ∀ f ∈ nest.map Prod.fst, F'.info f = F.info f)
    (hs : ∀ f, ∀ y ∈ F.captures f, (F'.symbol y).function = (F.symbol y).function)
    (hn : F.functions.size ≤ F'.functions.size) : Linked F' nest := by
  refine h.congr (fun f hm => ?_) hs hn
  rw [Facts.captures, Facts.captures, hf f hm]
  exact ⟨rfl, rfl, rfl⟩

/-- What a capture does: the functions from `g` to the owner of the variable have it then. -/
structure Captures (opens : Opens) (y g : Nat) (live : List Nat) (outer : Nesting)
    (s s' : AnalysisState) : Prop where
  rest : s' = { s with facts := { s.facts with functions := s'.facts.functions } }
  size : s'.facts.functions.size = s.facts.functions.size
  grows : s.facts.Grows opens s'.facts
  linked : Linked s'.facts ((g, live) :: outer)
  has : s'.facts.Has g live y
  captures : ∀ f z, z ∈ s'.facts.captures f → z ∈ s.facts.captures f ∨ z = y
  params : ∀ f, (s'.facts.info f).params = (s.facts.info f).params
  named : ∀ f, (s.facts.info f).kind ≠ .lambda → s'.facts.captures f = s.facts.captures f
  inner : ∀ f, g < f → s'.facts.info f = s.facts.info f

/-- A function with one more capture. -/
def addCapture (y : Nat) (f : FunctionInfo) : FunctionInfo :=
  if f.captures.contains y then f else { f with captures := f.captures ++ [y] }

/-- One more capture adds one symbol and removes none. -/
theorem mem_addCapture {z : Nat} {f : FunctionInfo} :
    z ∈ (addCapture y f).captures ↔ z ∈ f.captures ∨ z = y := by
  unfold addCapture
  split
  · next h =>
      constructor
      · exact .inl
      · rintro (hz | rfl)
        · exact hz
        · exact List.contains_iff_mem.mp h
  · simp

/-- One more capture only makes an entry grow. -/
theorem addCapture_grows (f : FunctionInfo) : f.Grows (addCapture y f) := by
  refine ⟨?_, ?_, ?_, fun z hz => mem_addCapture.mpr (.inl hz)⟩ <;> unfold addCapture <;> split <;> rfl

/-- A capture is no parameter. -/
theorem addCapture_params (f : FunctionInfo) : (addCapture y f).params = f.params := by
  unfold addCapture
  split <;> rfl

/-- A capture says nothing about the result type. -/
theorem addCapture_returns (f : FunctionInfo) : (addCapture y f).returns = f.returns := by
  unfold addCapture
  split <;> rfl

/-- The function that owns the variable has it already. -/
theorem captures_owner (hl : Linked s.facts ((g, live) :: outer))
    (hk : Known s.facts ((g, live) :: outer) y) (ho : (s.facts.symbol y).function = g) :
    Captures opens y g live outer s s := by
  rw [Known, if_pos ho] at hk
  refine ⟨rfl, rfl, .refl _ _, hl, ?_, fun f z hz => .inl hz, fun _ => rfl, fun _ _ => rfl,
    fun _ _ => rfl⟩
  rw [Facts.Has, if_pos ho]
  exact hk

/-- The state after a function has got one more capture. -/
def withCapture (y g : Nat) (s : AnalysisState) : AnalysisState :=
  { s with facts := { s.facts with functions := s.facts.functions.modify g (addCapture y) } }

/-- Only the entry of the function changes. -/
theorem info_withCapture (hg : g < s.facts.functions.size) (f : Nat) :
    (withCapture y g s).facts.info f =
      if f = g then addCapture y (s.facts.info f) else s.facts.info f :=
  Facts.info_modify hg

/-- The facts grow if the function is not finished. -/
theorem grows_withCapture (hg : g < s.facts.functions.size) (hopen : opens.lookup g ≠ none) :
    s.facts.Grows opens (withCapture y g s).facts :=
  Facts.grows_modify_function hg hopen (addCapture_grows _) fun _ => addCapture_returns _

/-- The functions around the one that gets a capture are linked as before. -/
theorem linked_withCapture {first : Nat × List Nat}
    (hl : Linked s.facts ((g, live) :: first :: outer)) :
    Linked (withCapture y g s).facts (first :: outer) := by
  refine hl.tail.of_info (fun f hf => ?_) (fun _ _ _ => rfl) (by simp [withCapture])
  rw [info_withCapture hl.head_lt, if_neg (Nat.ne_of_lt (hl.lt_of_mem f hf))]

/-- **One function on the way.** A lambda gets the capture, and the walk goes on with the function
around it. -/
theorem Captures.cons {e : Nat} {elive : List Nat}
    (hc : Captures opens y e elive outer (withCapture y g s) s')
    (hl : Linked s.facts ((g, live) :: (e, elive) :: outer)) (hopen : opens.lookup g ≠ none)
    (hkind : (s.facts.info g).kind = .lambda) (ho : (s.facts.symbol y).function ≠ g) :
    Captures opens y g live ((e, elive) :: outer) s s' := by
  have hsize := hl.head_lt
  have hge : e < g := hl.lt_of_mem e (by simp)
  have hinfo : ∀ f, (withCapture y g s).facts.info f =
      if f = g then addCapture y (s.facts.info f) else s.facts.info f := info_withCapture hsize
  have hgrows : s.facts.Grows opens s'.facts := (grows_withCapture hsize hopen).trans hc.grows
  have hcount : s'.facts.functions.size = s.facts.functions.size := by
    rw [hc.size]
    simp [withCapture]
  have hsymbol : ∀ z, s'.facts.symbol z = s.facts.symbol z := by
    intro z
    have hs : s'.facts.symbols = s.facts.symbols := congrArg (·.facts.symbols) hc.rest
    rw [Facts.symbol, Facts.symbol, hs]
  -- The walk goes on outside `g`, so its entry stays what this step has made of it.
  have hcap : s'.facts.info g = addCapture y (s.facts.info g) := by
    rw [hc.inner g hge, hinfo, if_pos rfl]
  refine ⟨?_, hcount, hgrows, ?_, ?_, ?_, ?_, ?_, ?_⟩
  · rw [hc.rest]
    rfl
  · obtain ⟨-, hmain, hparent, -, hcaptured, -⟩ := hl
    refine ⟨hcount ▸ hsize, ?_, ?_, hge, fun z hz => ?_, hc.linked⟩
    · rw [hcap, (addCapture_grows _).kind]
      exact hmain
    · rw [hcap, (addCapture_grows _).parent]
      exact hparent
    · rw [Facts.captures, hcap, mem_addCapture] at hz
      rcases hz with hz | rfl
      · exact (hcaptured z hz).mono (by rw [hsymbol]) (hgrows.captures (Nat.lt_trans hge hsize))
      · exact hc.has
  · rw [Facts.Has, hsymbol, if_neg ho, Facts.captures, hcap, mem_addCapture]
    exact .inr rfl
  · intro f z hz
    rcases hc.captures f z hz with hz | rfl
    · rw [Facts.captures, hinfo] at hz
      split at hz
      · exact mem_addCapture.mp hz
      · exact .inl hz
    · exact .inr rfl
  · intro f
    rw [hc.params, hinfo]
    split
    · exact addCapture_params _
    · rfl
  · intro f hkf
    have hfg : f ≠ g := by
      rintro rfl
      exact hkf hkind
    have hsame : (withCapture y g s).facts.info f = s.facts.info f := by rw [hinfo, if_neg hfg]
    rw [hc.named f (by rw [hsame]; exact hkf), Facts.captures, Facts.captures, hsame]
  · intro f hf
    rw [hc.inner f (Nat.lt_trans hge hf), hinfo, if_neg (Nat.ne_of_gt hf)]

/-- The walk goes on in the function around, if there is one, and the symbols stay. -/
theorem keeps_captureParent {owner fuel : Nat} (parent : Option Nat) :
    Keeps (match parent with
      | none => return true
      | some parent => capture y owner fuel parent) := by
  cases parent with
  | none => exact keeps_pure
  | some parent => exact keeps_capture _ _ _ _

/-- **Captures.** The walk from a function out to the owner of a variable gives the variable to
every function on the way and stops at the owner. The induction is on the fuel; linked functions
make the walk end before it runs out. -/
theorem passes_capture {owner : Nat} (fuel : Nat) :
    ∀ {g : Nat} {live : List Nat} {outer : Nesting} {s s' : AnalysisState},
      Passes (capture y owner fuel g) s true s' → Linked s.facts ((g, live) :: outer) →
      Known s.facts ((g, live) :: outer) y → (s.facts.symbol y).function = owner → g < fuel →
      (∀ f ∈ ((g, live) :: outer).map Prod.fst, opens.lookup f ≠ none) →
      Captures opens y g live outer s s' := by
  induction fuel with
  | zero =>
      intro g live outer s s' _ _ _ _ hlt
      cases hlt
  | succ fuel ih =>
      intro g live outer s s' hp hl hk ho hlt hopen
      rw [capture] at hp
      by_cases hg : g = owner
      · rw [if_pos hg] at hp
        obtain ⟨-, rfl, -⟩ := passes_pure.mp hp
        exact captures_owner hl hk (ho.trans hg.symm)
      · have hne : (s.facts.symbol y).function ≠ g := fun h => hg (h.symm.trans ho)
        rw [if_neg hg] at hp
        obtain ⟨info, t, ⟨hi, -⟩, hp⟩ := hp.bind fun info =>
          keeps_ite (keeps_bind keeps_modifyFunction fun _ => keeps_captureParent info.parent) keeps_pure
        cases hi
        split at hp
        · next hkind =>
            cases outer with
            | nil =>
                -- The program itself is no lambda, so it owns the variable.
                rw [hl.2.2] at hkind
                cases hkind
            | cons second outer =>
                obtain ⟨e, elive⟩ := second
                obtain ⟨u, t, ⟨ht, -⟩, hp⟩ := hp.bind fun _ => keeps_captureParent _
                obtain rfl : withCapture y g s = t := congrArg Prod.snd ht
                simp only [hl.2.2.1] at hp
                rw [Known, if_neg hne] at hk
                have hlt' : ∀ f ∈ ((e, elive) :: outer).map Prod.fst, f < g := hl.lt_of_mem
                refine (ih hp (linked_withCapture hl) (hk.congr rfl) ho
                  (Nat.lt_of_lt_of_le (hlt' e (by simp)) (Nat.le_of_lt_succ hlt))
                  fun f hf => hopen f (List.mem_cons_of_mem _ hf)).cons hl (hopen g (by simp))
                  hkind hne
        · obtain ⟨h, -, -⟩ := passes_pure.mp hp
          cases h

end Nesting

/-! ### Names -/

section Names

variable {F F' : Facts} {g : Nat} {live : List Nat} {outer : Nesting} {y : Nat}

/-- The type of a function stays the same while facts are added. -/
theorem Coherent.typeOf_grows (hc : Coherent F opens) (hg : F.Grows opens F') {f : Nat}
    (hf : f < F.functions.size) : typeOf F' opens f = typeOf F opens f := by
  unfold typeOf
  cases ho : opens.lookup f with
  | some t => rfl
  | none =>
      rw [Option.getD_none, Option.getD_none, Facts.signature, Facts.signature, hg.closed f hf ho]
      congr 1
      refine List.map_congr_left fun p hp => ?_
      exact (hg.symbol p (hc.params_lt f hf p hp)).ty

/-- Coherence is kept if there are no new symbols. What may be new are captures, of variables that
escape and live in a frame, and functions, whose parameters are symbols. -/
theorem Coherent.grows (hc : Coherent F opens) (hg : F.Grows opens F')
    (hsize : F'.symbols.size = F.symbols.size)
    (hcap : ∀ f z, z ∈ F'.captures f → z ∈ F.captures f ∨
      z < F.symbols.size ∧ (F'.symbol z).escapes = true ∧ ∃ k, (F.symbol z).storage = .frame k)
    (hparams : ∀ f < F'.functions.size, ∀ z ∈ (F'.info f).params, z < F.symbols.size)
    (hnamed : ∀ f < F'.functions.size, (F'.info f).kind ≠ .lambda → F'.captures f = []) :
    Coherent F' opens where
  symbol z hz := by
    rw [hsize] at hz
    exact (hc.symbol z hz).grows (hg.symbol z hz)
  function z hz f hs := by
    rw [hsize] at hz
    rw [(hg.symbol z hz).storage] at hs
    obtain ⟨hf, ht⟩ := hc.function z hz f hs
    rw [(hg.symbol z hz).ty, hc.typeOf_grows hg hf]
    exact ⟨Nat.lt_of_lt_of_le hf hg.functions_le, ht⟩
  global_lt z hz k hs := by
    rw [hsize] at hz
    rw [(hg.symbol z hz).storage] at hs
    exact Nat.lt_of_lt_of_le (hc.global_lt z hz k hs) hg.globals_le
  global_inj x hx z hz k hs hs' := by
    rw [hsize] at hx hz
    rw [(hg.symbol x hx).storage] at hs
    rw [(hg.symbol z hz).storage] at hs'
    exact hc.global_inj x hx z hz k hs hs'
  captured f z hz := by
    rw [hsize]
    rcases hcap f z hz with h | ⟨hlt, he, k, hk⟩
    · obtain ⟨hlt, he, k, hk⟩ := hc.captured f z h
      exact ⟨hlt, (hg.symbol z hlt).escapes he, k, (hg.symbol z hlt).storage.trans hk⟩
    · exact ⟨hlt, he, k, (hg.symbol z hlt).storage.trans hk⟩
  params_lt f hf z hz := by
    rw [hsize]
    exact hparams f hf z hz
  named := hnamed
  declared z hz f hs := by
    rw [hsize] at hz
    rw [(hg.symbol z hz).storage] at hs
    rw [(hg.function f (hc.function z hz f hs).1).kind]
    exact hc.declared z hz f hs

/-- What changes the facts only, and no scope, no context and no parameters of the open functions,
is calm. -/
theorem calm_of_eq (hg : s.facts.Grows opens s'.facts) (hscopes : s'.facts.scopes = s.facts.scopes)
    (hscope : s'.scope = s.scope) (hcontext : s'.context = s.context)
    (hparams : ∀ f ≤ s.context.function, (s'.facts.info f).params = (s.facts.info f).params) :
    Calm opens s s' where
  grows := hg
  scope := hscope
  scopes_le := Nat.le_of_eq (by rw [hscopes])
  scopes _ _ _ := by rw [hscopes]
  function := by rw [hcontext]
  depth := by rw [hcontext]
  nextSlot_le := Nat.le_of_eq (by rw [hcontext])
  maxSlot_le := Nat.le_of_eq (by rw [hcontext])
  returns _ h := by rw [hcontext]; exact h
  regular h := by rw [AnalysisState.Regular, hcontext]; exact h
  params := hparams
  current := by rw [hscopes]
  nextSlot := by rw [hcontext]

/-- The invariant is kept by what leaves the current scope alone. Only the three parts of it that
speak of all functions and scopes have to be given anew. -/
theorem Inv.calm (hi : Inv g live outer opens s) (h : Calm opens s s')
    (hlinked : Linked s'.facts ((g, live) :: outer)) (hnested : Nested s'.facts.scopes)
    (hcoherent : Coherent s'.facts opens) : Inv g live outer opens s' where
  function := h.function.trans hi.function
  linked := hlinked
  opened := hi.opened
  nodup := hi.nodup
  opens_lt f hf := Nat.lt_of_lt_of_le (hi.opens_lt f hf) h.grows.functions_le
  scope_lt := by
    rw [h.scope]
    exact Nat.lt_of_lt_of_le hi.scope_lt h.scopes_le
  nested := hnested
  sees z hz := by
    rw [h.scope] at hz
    obtain ⟨hlt, hk⟩ := hi.sees z (hz.of_agree hi.scope_lt (fun _ hj => h.scopes_eq hj) hi.nested)
    refine ⟨Nat.lt_of_lt_of_le hlt h.grows.symbols_le, fun hv => ?_⟩
    rw [IsVariable, (h.grows.symbol z hlt).kind] at hv
    exact (hk hv).congr (h.grows.symbol z hlt).function
  live_lt z hz := Nat.lt_of_lt_of_le (hi.live_lt z hz) h.grows.symbols_le
  live_function z hz := by
    rw [(h.grows.symbol z (hi.live_lt z hz)).function]
    exact hi.live_function z hz
  live_slot z hz k hk := by
    rw [(h.grows.symbol z (hi.live_lt z hz)).storage] at hk
    rw [h.nextSlot]
    exact hi.live_slot z hz k hk
  slots_le := by
    rw [h.nextSlot]
    exact Nat.le_trans hi.slots_le h.maxSlot_le
  coherent := hcoherent

/-- A symbol that is used once more. -/
def useOnce (outside : Bool) (access : Access) (y : Symbol) : Symbol :=
  { y with
    escapes := y.escapes || outside
    reads := if access = .write then y.reads else y.reads + 1 }

/-- A use counts, and changes nothing else about a symbol. -/
theorem useOnce_grows (outside : Bool) (access : Access) (y : Symbol) :
    y.Grows (useOnce outside access y) :=
  ⟨rfl, rfl, rfl, rfl, fun h => by simp [useOnce, h]⟩

/-- Noting a use changes the table of symbols at the used symbol only. -/
theorem passes_use {outside : Bool} {access : Access} {u : Unit}
    (h : Passes (use y outside access) s u s') :
    s' = { s with facts := { s.facts with symbols := s.facts.symbols.modify y (useOnce outside access) } } := by
  obtain ⟨h, -⟩ := h
  cases h
  rfl

/-- The facts grow when a use is noted. -/
theorem grows_use {outside : Bool} {access : Access} (hy : y < F.symbols.size) :
    F.Grows opens { F with symbols := F.symbols.modify y (useOnce outside access) } where
  symbols_le := by simp
  symbol z hz := by
    rw [Facts.symbol_modify hy]
    split
    · exact useOnce_grows outside access _
    · exact .refl _
  functions_le := Nat.le_refl _
  function _ _ := .refl _
  returns _ _ _ := rfl
  closed _ _ _ := rfl
  globals_le := Nat.le_refl _

/-- A use of a symbol keeps the invariant, also after a capture. Here `t` is the state behind the
capture, which differs from `s` in the functions, and the use differs from it in one symbol. -/
theorem Inv.use (hi : Inv g live outer opens s) {t : AnalysisState} {outside : Bool}
    {access : Access} {u : Unit} (ht : t = { s with facts := { s.facts with functions := t.facts.functions } })
    (hsize : t.facts.functions.size = s.facts.functions.size)
    (hgrows : s.facts.Grows opens t.facts) (hlinked : Linked t.facts ((g, live) :: outer))
    (hcap : ∀ f z, z ∈ t.facts.captures f → z ∈ s.facts.captures f ∨
      z = y ∧ outside = true ∧ ∃ k, (s.facts.symbol y).storage = .frame k)
    (hparams : ∀ f, (t.facts.info f).params = (s.facts.info f).params)
    (hnamed : ∀ f, (s.facts.info f).kind ≠ .lambda → t.facts.captures f = s.facts.captures f)
    (h : Passes (Analyze.use y outside access) t u s') (hy : y < s.facts.symbols.size) :
    Inv g live outer opens s' ∧ Calm opens s s' ∧
      s'.facts.symbol y = useOnce outside access (s.facts.symbol y) ∧
      s'.facts.functions = t.facts.functions := by
  have hs := passes_use h
  have hsym : t.facts.symbols = s.facts.symbols := congrArg (·.facts.symbols) ht
  have hy' : y < t.facts.symbols.size := hsym ▸ hy
  have hgrows' : t.facts.Grows opens s'.facts := by
    rw [hs]
    exact grows_use hy'
  have hsymbol : ∀ z, s'.facts.symbol z =
      if z = y then useOnce outside access (s.facts.symbol z) else s.facts.symbol z := by
    intro z
    rw [hs, Facts.symbol_modify hy', Facts.symbol, Facts.symbol, hsym]
  have hscopes : s'.facts.scopes = s.facts.scopes := by
    rw [hs]
    exact congrArg (·.facts.scopes) ht
  have hscope : s'.scope = s.scope := by
    rw [hs]
    exact congrArg (·.scope) ht
  have hcontext : s'.context = s.context := by
    rw [hs]
    exact congrArg (·.context) ht
  have hg := hgrows.trans hgrows'
  have hinfo : ∀ f, s'.facts.info f = t.facts.info f := by
    intro f
    rw [hs]
    rfl
  have hfs : s'.facts.functions = t.facts.functions := by rw [hs]
  have hcalm : Calm opens s s' :=
    calm_of_eq hg hscopes hscope hcontext fun f _ => by rw [hinfo, hparams]
  refine ⟨hi.calm hcalm ?_ (by rw [hscopes]; exact hi.nested) (hi.coherent.grows hg ?_ ?_ ?_ ?_), hcalm,
    by rw [hsymbol, if_pos rfl], hfs⟩
  · refine hlinked.of_info (fun f _ => hinfo f) (fun _ z _ => ?_) (Nat.le_of_eq (by rw [hfs]))
    rw [hsymbol, Facts.symbol, Facts.symbol, hsym]
    split <;> rfl
  · rw [hs, ← hsym]
    simp
  · intro f z hz
    rw [Facts.captures, hinfo] at hz
    rcases hcap f z hz with hz | ⟨rfl, ho, hk⟩
    · exact .inl hz
    · refine .inr ⟨hy, ?_, hk⟩
      rw [hsymbol, if_pos rfl]
      simp [useOnce, ho]
  · intro f hf z hz
    rw [hfs, hsize] at hf
    rw [hinfo, hparams] at hz
    exact hi.coherent.params_lt f hf z hz
  · intro f hf hk
    rw [hfs, hsize] at hf
    rw [(hg.function f hf).kind] at hk
    rw [Facts.captures, hinfo, ← Facts.captures, hnamed f hk]
    exact hi.coherent.named f hf hk

/-- What a use of a symbol leaves: the invariant holds, and the function at hand may read the symbol.
A use that writes to a variable shows that it may write it as well. -/
structure Refers (opens : Opens) (g : Nat) (live : List Nat) (outer : Nesting) (access : Access)
    (y : Nat) (s s' : AnalysisState) : Prop where
  inv : Inv g live outer opens s'
  calm : Calm opens s s'
  size : s'.facts.functions.size = s.facts.functions.size
  readable : s'.facts.Readable g live y
  writable : access ≠ .read → IsVariable s'.facts y → s'.facts.Writable g live y

/-- **Symbols at hand.** A symbol that is no variable of a function around this one may be used
without a capture. -/
theorem Inv.use_own (hi : Inv g live outer opens s) {access : Access} {u : Unit}
    (hy : y < s.facts.symbols.size)
    (hlive : IsVariable s.facts y → (s.facts.symbol y).function = g → y ∈ live)
    (hframe : ∀ k, (s.facts.symbol y).storage = .frame k → (s.facts.symbol y).function = g)
    (hu : Passes (Analyze.use y ((s.facts.symbol y).function != g) access) s u s') :
    Refers opens g live outer access y s s' := by
  have hcoh := hi.coherent.symbol y hy
  obtain ⟨hinv, hcalm, hsym, hfs⟩ := hi.use rfl rfl (.refl _ _) hi.linked
    (fun f z hz => .inl hz) (fun _ => rfl) (fun _ _ => rfl) hu hy
  have hlt := Nat.lt_of_lt_of_le hy hcalm.grows.symbols_le
  have hst := (hcalm.grows.symbol y hy).storage
  have hown := (hcalm.grows.symbol y hy).function
  cases hs : (s.facts.symbol y).storage with
  | global k =>
      have hzero := (hcoh.of_global hs).2
      have hglobal : g ≠ 0 ∧ (s'.facts.symbol y).escapes = true ∨ g = 0 ∧ y ∈ live := by
        by_cases ho : (s.facts.symbol y).function = g
        · exact .inr ⟨ho ▸ hzero, hlive (.inl (hcoh.of_global hs).1) ho⟩
        · refine .inl ⟨fun hg => ho (hzero.trans hg.symm), ?_⟩
          rw [hsym]
          simp [useOnce, ho]
      refine ⟨hinv, hcalm, by rw [hfs], ⟨hlt, ?_⟩, fun _ _ => ⟨hlt, ?_⟩⟩ <;>
        simpa only [hst, hs] using hglobal
  | frame k =>
      have ho := hframe k hs
      have hm := hlive (hcoh.of_frame hs).1 ho
      refine ⟨hinv, hcalm, by rw [hfs], ⟨hlt, ?_⟩, fun _ _ => ⟨hlt, ?_⟩⟩
      · simp only [hst, hs, Facts.Has, hown, ho, if_true]
        exact hm
      · simp only [hst, hs, hown]
        exact ⟨ho, hm⟩
  | _ =>
      refine ⟨hinv, hcalm, by rw [hfs], ⟨hlt, by simp only [hst, hs]⟩, fun _ hv => ?_⟩
      -- A variable has a slot.
      unfold IsVariable at hv
      rw [(hcalm.grows.symbol y hy).kind] at hv
      obtain ⟨k, hk⟩ := hcoh.exists_slot hv
      simp [hs] at hk

/-- **Captured variables.** A variable of a function around this one may be read after this one
has captured it. -/
theorem Inv.use_captured (hi : Inv g live outer opens s) {t : AnalysisState} {k : Nat} {u : Unit}
    (hy : y < s.facts.symbols.size) (hs : (s.facts.symbol y).storage = .frame k)
    (hc : Captures opens y g live outer s t) (hu : Passes (Analyze.use y true .read) t u s') :
    Refers opens g live outer .read y s s' := by
  obtain ⟨hinv, hcalm, hsym, hfs⟩ := hi.use hc.rest hc.size hc.grows hc.linked
    (fun f z hz => (hc.captures f z hz).imp_right fun he => ⟨he, rfl, k, hs⟩)
    hc.params hc.named hu hy
  refine ⟨hinv, hcalm, by rw [hfs, hc.size],
    ⟨Nat.lt_of_lt_of_le hy hcalm.grows.symbols_le, ?_⟩, fun ha => (ha rfl).elim⟩
  rw [(hcalm.grows.symbol y hy).storage, hs]
  refine hc.has.mono ?_ ?_
  · have hs : t.facts.symbols = s.facts.symbols := congrArg (·.facts.symbols) hc.rest
    rw [hsym, Facts.symbol, Facts.symbol, hs]
    rfl
  · rw [Facts.captures, Facts.captures, Facts.info, Facts.info, hfs]
    exact List.Subset.refl _

/-- **Names.** A name that analysis resolves may be read where it stands. If it is a variable
and was resolved to be written, it may be written. -/
theorem passes_resolve {name : String} {range : Range} {access : Access} {r : Option Nat}
    (h : Passes (resolve name range access) s r s') (hi : Inv g live outer opens s) :
    ∃ y, r = some y ∧ Inv g live outer opens s' ∧ Calm opens s s' ∧
      s'.facts.functions.size = s.facts.functions.size ∧ s'.facts.Readable g live y ∧
      (access ≠ .read → IsVariable s'.facts y → s'.facts.Writable g live y) := by
  suffices h : ∃ y, r = some y ∧ Refers opens g live outer access y s s' by
    obtain ⟨y, rfl, hr⟩ := h
    exact ⟨y, rfl, hr.inv, hr.calm, hr.size, hr.readable, hr.writable⟩
  unfold resolve at h
  rw [passes_get_bind] at h
  cases hl : lookup s.facts name s.facts.scopes.size s.scope with
  | none =>
      simp only [hl] at h
      exact absurd h (not_passes_report_bind fun _ => keeps_pure)
  | some y =>
      simp only [hl, passes_symbolInfo_bind] at h
      obtain ⟨hy, hknown⟩ := hi.sees y (sees_of_lookup _ _ hl)
      have hlive : IsVariable s.facts y → (s.facts.symbol y).function = g → y ∈ live := by
        intro hv ho
        have := hknown hv
        rwa [Known, if_pos ho] at this
      rw [hi.function] at h
      have hown : Passes (do
            use y ((s.facts.symbol y).function != g) access
            return some y) s r s' →
          (∀ k, (s.facts.symbol y).storage = .frame k → (s.facts.symbol y).function = g) →
          ∃ y, r = some y ∧ Refers opens g live outer access y s s' := by
        intro h hframe
        obtain ⟨u, t', hu, h⟩ := h.bind (by simp)
        obtain ⟨rfl, rfl, -⟩ := passes_pure.mp h
        exact ⟨y, rfl, hi.use_own hy hlive hframe hu⟩
      cases hs : (s.facts.symbol y).storage with
      | frame k =>
          simp only [hs] at h
          cases hb : ((s.facts.symbol y).function != g) with
          | false =>
              simp only [hb, Bool.false_eq_true, if_false, pure_bind, Bool.not_true,
                Bool.false_and] at h
              rw [hb] at hown
              exact hown h fun _ _ => by simpa using hb
          | true =>
              -- A variable of a function around this one, which captures it.
              simp only [hb, if_true, Bool.true_and] at h
              obtain ⟨allowed, t, hc, h⟩ := h.bind fun allowed =>
                keeps_ite (by simp) (keeps_ite (by simp) (by simp))
              cases allowed with
              | false =>
                  simp only [Bool.not_false, if_true] at h
                  exact absurd h (not_passes_report_bind fun _ => keeps_pure)
              | true =>
                  simp only [Bool.not_true, Bool.false_eq_true, if_false] at h
                  split at h
                  · exact absurd h (not_passes_report_bind (by simp))
                  · next hread =>
                      obtain ⟨u, t', hu, h⟩ := h.bind (by simp)
                      obtain ⟨rfl, rfl, -⟩ := passes_pure.mp h
                      obtain rfl : access = .read := not_not.mp (mt bne_iff_ne.mpr hread)
                      have hcoh := hi.coherent.symbol y hy
                      exact ⟨y, rfl, hi.use_captured hy hs (passes_capture _ hc hi.linked
                        (hknown (hcoh.of_frame hs).1) rfl hi.linked.head_lt hi.opened) hu⟩
      | _ =>
          simp only [hs, Bool.false_eq_true, if_false, pure_bind, Bool.not_true,
            Bool.false_and] at h
          exact hown h fun k hk => by simp [hs] at hk

end Names

end Analyze

end Parlance
