import Parlance.Proofs.Analysis.Walk

/-!
# Slots of variables

Frame slots come from a counter that goes back at the end of a scope and starts anew in a
function. So a slot is used again, but never by two variables that are visible at the same point,
and a frame has room for all of them. This is shown for every analyzed tree, also where analysis
reports errors.

The functions of a list of statements wait for their bodies while statements before them are
analyzed. Until then they have no parameters and no slots, and after that these stay what they
are. `Facts.Adds` says which functions may have got them.

## Main definitions

* `Facts.Apart`: variables of a function with different slots.
* `Facts.Slotted`: the parameters and variables of a function have slots.

## Main results

* `Analyze.Walk.settled`: a walk keeps variables apart.
-/

namespace Parlance

/-- The same symbol with other uses. -/
structure Symbol.Alike (y y' : Symbol) : Prop where
  name : y'.name = y.name
  kind : y'.kind = y.kind
  storage : y'.storage = y.storage
  function : y'.function = y.function

/-- A symbol is itself, with the same uses. -/
theorem Symbol.Alike.refl (y : Symbol) : y.Alike y :=
  ⟨rfl, rfl, rfl, rfl⟩

/-- Symbols differ in their uses only, step after step. -/
theorem Symbol.Alike.trans {x y z : Symbol} (h : x.Alike y) (h' : y.Alike z) : x.Alike z :=
  ⟨h'.name.trans h.name, h'.kind.trans h.kind, h'.storage.trans h.storage,
    h'.function.trans h.function⟩

namespace Facts

variable {F F' F'' : Facts}

/-- Facts were added. Of the functions before, only those in `pend` got parameters and slots. -/
structure Adds (pend : List Nat) (F F' : Facts) : Prop where
  symbols_le : F.symbols.size ≤ F'.symbols.size
  symbol : ∀ y < F.symbols.size, (F.symbol y).Alike (F'.symbol y)
  functions_le : F.functions.size ≤ F'.functions.size
  kind : ∀ f < F.functions.size, (F'.info f).kind = (F.info f).kind
  parent : ∀ f < F.functions.size, (F'.info f).parent = (F.info f).parent
  params : ∀ f < F.functions.size, f ∉ pend → (F'.info f).params = (F.info f).params
  slots : ∀ f < F.functions.size, f ∉ pend → (F'.info f).slots = (F.info f).slots
  globals_le : F.globals ≤ F'.globals

/-- Facts to which nothing is added have nothing new. -/
theorem Adds.refl (pend : List Nat) (F : Facts) : F.Adds pend F :=
  ⟨Nat.le_refl _, fun _ _ => .refl _, Nat.le_refl _, fun _ _ => rfl, fun _ _ => rfl,
    fun _ _ _ => rfl, fun _ _ _ => rfl, Nat.le_refl _⟩

/-- Facts are added step after step, and the functions that got their slots are those of both steps.
-/
theorem Adds.trans {p q : List Nat} (h : F.Adds p F') (h' : F'.Adds q F'') :
    F.Adds (p ++ q) F'' where
  symbols_le := Nat.le_trans h.symbols_le h'.symbols_le
  symbol y hy := (h.symbol y hy).trans (h'.symbol y (Nat.lt_of_lt_of_le hy h.symbols_le))
  functions_le := Nat.le_trans h.functions_le h'.functions_le
  kind f hf := (h'.kind f (Nat.lt_of_lt_of_le hf h.functions_le)).trans (h.kind f hf)
  parent f hf := (h'.parent f (Nat.lt_of_lt_of_le hf h.functions_le)).trans (h.parent f hf)
  params f hf hp := by
    rw [List.mem_append, not_or] at hp
    exact (h'.params f (Nat.lt_of_lt_of_le hf h.functions_le) hp.2).trans (h.params f hf hp.1)
  slots f hf hp := by
    rw [List.mem_append, not_or] at hp
    exact (h'.slots f (Nat.lt_of_lt_of_le hf h.functions_le) hp.2).trans (h.slots f hf hp.1)
  globals_le := Nat.le_trans h.globals_le h'.globals_le

/-- Only functions that were there before count. -/
theorem Adds.mono {p q : List Nat} (h : F.Adds p F') (hpq : ∀ f ∈ p, f < F.functions.size → f ∈ q) :
    F.Adds q F' :=
  { h with
    params := fun f hf hq => h.params f hf fun hp => hq (hpq f hp hf)
    slots := fun f hf hq => h.slots f hf fun hp => hq (hpq f hp hf) }

/-! ### Variables with slots -/

/-- Variables of a function have slots of its frame below a bound, all different. -/
structure Apart (F : Facts) (f bound : Nat) (view : List Nat) : Prop where
  nodup : (view.map fun y => (F.symbol y).storage).Nodup
  lt : ∀ y ∈ view, y < F.symbols.size
  function : ∀ y ∈ view, (F.symbol y).function = f
  slot : ∀ y ∈ view, ∃ k < bound, (F.symbol y).storage = .frame k

/-- A function has its parameters in the first slots, in order. At every point of its body the
visible variables have different slots, and its frame has room for them. -/
structure Slotted (F : Facts) (m : Item.Made) : Prop where
  names : (F.info m.number).params.map (fun y => (F.symbol y).name) = m.params
  params : (F.info m.number).params.map (fun y => (F.symbol y).storage) =
    (List.range m.params.length).map .frame
  views : ∀ view ∈ Item.viewsOf (F.info m.number).params m.body,
    F.Apart m.number (F.info m.number).slots view

/-- Variables and parameters have storage: those of the program a global slot each, those of
other functions a frame slot. -/
structure Lodged (F : Facts) : Prop where
  global : ∀ y < F.symbols.size, (F.symbol y).kind = .variable ∨ (F.symbol y).kind = .parameter →
    (F.symbol y).function = 0 → ∃ k, (F.symbol y).storage = .global k
  frame : ∀ y < F.symbols.size, (F.symbol y).kind = .variable ∨ (F.symbol y).kind = .parameter →
    (F.symbol y).function ≠ 0 → ∃ k, (F.symbol y).storage = .frame k
  global_lt : ∀ y < F.symbols.size, ∀ k, (F.symbol y).storage = .global k → k < F.globals
  global_inj : ∀ y < F.symbols.size, ∀ z < F.symbols.size, ∀ k,
    (F.symbol y).storage = .global k → (F.symbol z).storage = .global k → y = z

/-- Slots that are different stay different when facts are added, and below every larger bound. -/
theorem Apart.adds {pend view : List Nat} {f bound bound' : Nat} (h : F.Apart f bound view)
    (ha : F.Adds pend F') (hle : bound ≤ bound') : F'.Apart f bound' view where
  nodup := by
    have heq : view.map (fun y => (F'.symbol y).storage) = view.map fun y => (F.symbol y).storage :=
      List.map_congr_left fun y hy => (ha.symbol y (h.lt y hy)).storage
    rw [heq]
    exact h.nodup
  lt y hy := Nat.lt_of_lt_of_le (h.lt y hy) ha.symbols_le
  function y hy := (ha.symbol y (h.lt y hy)).function.trans (h.function y hy)
  slot y hy := by
    obtain ⟨k, hk, hs⟩ := h.slot y hy
    exact ⟨k, Nat.lt_of_lt_of_le hk hle, (ha.symbol y (h.lt y hy)).storage.trans hs⟩

/-- The parameters of a function with slots are symbols that are declared. -/
theorem Slotted.params_lt {m : Item.Made} (h : F.Slotted m) :
    ∀ y ∈ (F.info m.number).params, y < F.symbols.size := by
  have hview : (F.info m.number).params ∈ Item.viewsOf (F.info m.number).params m.body := by
    cases m.body with
    | nil => exact List.mem_cons_self
    | cons i is => exact List.mem_cons_self
  exact (h.views _ hview).lt

/-- What is known about a function that has its slots stays. -/
theorem Slotted.adds {pend : List Nat} {m : Item.Made} (h : F.Slotted m) (ha : F.Adds pend F')
    (hlt : m.number < F.functions.size) (hp : m.number ∉ pend) : F'.Slotted m where
  names := by
    rw [ha.params _ hlt hp, ← h.names]
    exact List.map_congr_left fun y hy => (ha.symbol y (h.params_lt y hy)).name
  params := by
    rw [ha.params _ hlt hp, ← h.params]
    exact List.map_congr_left fun y hy => (ha.symbol y (h.params_lt y hy)).storage
  views view hv := by
    rw [ha.params _ hlt hp] at hv
    rw [ha.slots _ hlt hp]
    exact (h.views view hv).adds ha (Nat.le_refl _)

/-- Variables in the first slots are apart. -/
theorem Apart.of_storages {f n : Nat} {view : List Nat}
    (hs : view.map (fun y => (F.symbol y).storage) = (List.range n).map .frame)
    (hlt : ∀ y ∈ view, y < F.symbols.size) (ho : ∀ y ∈ view, (F.symbol y).function = f) :
    F.Apart f n view where
  nodup := by
    rw [hs]
    exact List.nodup_range.map fun _ _ h => Storage.frame.inj h
  lt := hlt
  function := ho
  slot y hy := by
    have hmem : (F.symbol y).storage ∈ view.map fun y => (F.symbol y).storage :=
      List.mem_map_of_mem hy
    rw [hs] at hmem
    obtain ⟨k, hk, he⟩ := List.mem_map.mp hmem
    exact ⟨k, List.mem_range.mp hk, he.symm⟩

/-- Other facts with the same symbols have the same storage. -/
theorem Lodged.congr (h : F.Lodged) (hsize : F'.symbols.size = F.symbols.size)
    (hs : ∀ y, (F.symbol y).Alike (F'.symbol y)) (hg : F'.globals = F.globals) : F'.Lodged where
  global y hy hk h0 := by
    rw [(hs y).kind] at hk
    rw [(hs y).storage]
    exact h.global y (hsize ▸ hy) hk ((hs y).function ▸ h0)
  frame y hy hk h0 := by
    rw [(hs y).kind] at hk
    rw [(hs y).storage]
    exact h.frame y (hsize ▸ hy) hk ((hs y).function ▸ h0)
  global_lt y hy k hk := by
    rw [hg]
    exact h.global_lt y (hsize ▸ hy) k ((hs y).storage ▸ hk)
  global_inj y hy z hz k hk hk' :=
    h.global_inj y (hsize ▸ hy) z (hsize ▸ hz) k ((hs y).storage ▸ hk) ((hs z).storage ▸ hk')

end Facts

namespace Analyze

variable {s t u v w : AnalysisState}

/-! ### Uses of names -/

/-- Only uses of symbols and captures of functions are noted. -/
structure Touches (s t : AnalysisState) : Prop where
  symbols_size : t.facts.symbols.size = s.facts.symbols.size
  symbol : ∀ y, (s.facts.symbol y).Alike (t.facts.symbol y)
  functions_size : t.facts.functions.size = s.facts.functions.size
  info : ∀ f, t.facts.info f = { s.facts.info f with captures := t.facts.captures f }
  scopes : t.facts.scopes = s.facts.scopes
  globals : t.facts.globals = s.facts.globals
  scope : t.scope = s.scope
  function : t.context.function = s.context.function
  nextSlot : t.context.nextSlot = s.context.nextSlot
  maxSlot : t.context.maxSlot = s.context.maxSlot
  errors : t.errors = [] → s.errors = []

/-- Where nothing changes, only uses and captures are noted. -/
theorem Still.touches (h : Still s t) : Touches s t where
  symbols_size := by rw [h.facts]
  symbol y := by
    rw [h.facts]
    exact .refl _
  functions_size := by rw [h.facts]
  info f := by
    rw [h.facts]
    rfl
  scopes := by rw [h.facts]
  globals := by rw [h.facts]
  scope := h.scope
  function := h.function
  nextSlot := h.nextSlot
  maxSlot := h.maxSlot
  errors := h.errors

/-- Noting uses twice is noting uses. -/
theorem Touches.trans (h : Touches s t) (h' : Touches t u) : Touches s u where
  symbols_size := h'.symbols_size.trans h.symbols_size
  symbol y := (h.symbol y).trans (h'.symbol y)
  functions_size := h'.functions_size.trans h.functions_size
  info f := by rw [h'.info f, h.info f]
  scopes := h'.scopes.trans h.scopes
  globals := h'.globals.trans h.globals
  scope := h'.scope.trans h.scope
  function := h'.function.trans h.function
  nextSlot := h'.nextSlot.trans h.nextSlot
  maxSlot := h'.maxSlot.trans h.maxSlot
  errors he := h.errors (h'.errors he)

/-- To note uses is to add to the facts without giving a function its slots. -/
theorem Touches.adds (h : Touches s t) : s.facts.Adds [] t.facts where
  symbols_le := Nat.le_of_eq h.symbols_size.symm
  symbol y _ := h.symbol y
  functions_le := Nat.le_of_eq h.functions_size.symm
  kind f _ := by rw [h.info f]
  parent f _ := by rw [h.info f]
  params f _ _ := by rw [h.info f]
  slots f _ _ := by rw [h.info f]
  globals_le := Nat.le_of_eq h.globals.symm

/-- A part of analysis only notes uses and captures. -/
def Touching {α : Type} (m : Analyze α) : Prop :=
  ∀ s, Touches s (m s).2

section Touching

variable {α β : Type}

/-- A part of analysis that does nothing to scopes, symbols and functions changes no more than uses
would. -/
theorem Neutral.touching {m : Analyze α} (h : Neutral m) : Touching m :=
  fun s => (h s).touches

/-- Two steps that only note uses do so together. -/
theorem Touching.bind {m : Analyze α} {f : α → Analyze β} (hm : Touching m)
    (hf : ∀ a, Touching (f a)) : Touching (m >>= f) :=
  fun s => (hm s).trans (hf _ _)

/-- A choice between two steps that only note uses only notes uses. -/
theorem Touching.ite {c : Prop} [Decidable c] {m n : Analyze α} (hm : Touching m)
    (hn : Touching n) : Touching (if c then m else n) := by
  split
  · exact hm
  · exact hn

/-- A function that is there gets one more capture. -/
theorem touches_addCapture (y : Nat) {f : Nat} (hf : f < s.facts.functions.size) :
    Touches s { s with facts := { s.facts with
      functions := s.facts.functions.modify f (addCapture y) } } := by
  have hcaptures : ∀ i : FunctionInfo, addCapture y i = { i with captures := (addCapture y i).captures } := by
    intro i
    unfold addCapture
    split
    · rfl
    · rfl
  refine ⟨rfl, fun _ => .refl _, by simp, fun e => ?_, rfl, rfl, rfl, rfl, rfl, rfl, id⟩
  rw [Facts.captures, Facts.info_modify hf]
  split
  · exact hcaptures _
  · rfl

/-- A lambda is one of the functions. -/
theorem lt_of_kind_eq_lambda {F : Facts} {f : Nat} (h : (F.info f).kind = .lambda) :
    f < F.functions.size := by
  by_contra hf
  rw [Facts.info, Array.getElem?_eq_none (Nat.not_lt.mp hf)] at h
  cases h

/-- A capture only adds to the lists of captures, from the function of the use outwards. -/
theorem touching_capture (y owner fuel : Nat) : ∀ f, Touching (capture y owner fuel f) := by
  induction fuel with
  | zero => exact fun _ => neutral_pure.touching
  | succ fuel ih =>
      intro f
      rw [capture]
      refine .ite neutral_pure.touching fun s => ?_
      change Touches s ((if (s.facts.info f).kind = .lambda then _ else _ : Analyze Bool) s).2
      split
      · next hk =>
          refine (touches_addCapture y (lt_of_kind_eq_lambda hk)).trans ?_
          cases (s.facts.info f).parent with
          | none => exact neutral_pure.touching _
          | some parent => exact ih parent _
      · exact neutral_pure.touching s

/-- The use of a symbol is counted at the symbol, and captured where that is needed. -/
theorem touching_use (y : Nat) (outside : Bool) (access : Access) :
    Touching (use y outside access) := by
  intro s
  have hsymbol : ∀ z, (s.facts.symbol z).Alike (Facts.symbol { s.facts with
      symbols := s.facts.symbols.modify y (useOnce outside access) } z) := by
    intro z
    by_cases hy : y < s.facts.symbols.size
    · rw [Facts.symbol_modify hy]
      split
      · exact ⟨rfl, rfl, rfl, rfl⟩
      · exact .refl _
    · rw [Facts.symbol, Facts.symbol, Array.getElem?_modify]
      split
      · next h =>
          rw [← h, Array.getElem?_eq_none (Nat.not_lt.mp hy)]
          exact .refl _
      · exact .refl _
  exact ⟨Array.size_modify, hsymbol, rfl, fun _ => rfl, rfl, rfl, rfl, rfl, rfl, rfl, id⟩

/-- A name that is looked up is used if it is found, and reported if it is not. -/
theorem touching_resolve (name : String) (range : Range) (access : Access) :
    Touching (resolve name range access) := by
  unfold resolve
  refine neutral_get.touching.bind fun s => ?_
  split
  · exact (neutral_report.bind fun _ => neutral_pure).touching
  · next y hy =>
      refine neutral_symbolInfo.touching.bind fun info => ?_
      have hend : ∀ captured : Bool, Touching (if (captured && access != .read) = true then
          report (.assignToCapture name) range >>= fun _ =>
            use y (info.function != s.context.function) access >>= fun _ => pure (some y)
        else use y (info.function != s.context.function) access >>= fun _ => pure (some y)) :=
        fun _ => .ite (neutral_report.touching.bind fun _ => (touching_use _ _ _).bind fun _ =>
          neutral_pure.touching) ((touching_use _ _ _).bind fun _ => neutral_pure.touching)
      dsimp only
      refine .ite ((touching_capture _ _ _ _).bind fun allowed => .ite ?_ (hend _))
        (neutral_pure.touching.bind fun allowed => .ite ?_ (hend _))
      · exact (neutral_report.bind fun _ => neutral_pure).touching
      · exact (neutral_report.bind fun _ => neutral_pure).touching

/-- The state behind a name differs only in uses and captures. -/
theorem touches_of_resolve {name : String} {range : Range} {access : Access} {found : Option Nat}
    (h : resolve name range access s = (found, t)) : Touches s t := by
  have ht := touching_resolve name range access s
  rwa [h] at ht

end Touching

/-! ### What a walk keeps -/

/-- The current function goes on: facts are added, and its frame only gets larger. -/
structure Steps (pend : List Nat) (s t : AnalysisState) : Prop where
  adds : s.facts.Adds pend t.facts
  function : t.context.function = s.context.function
  maxSlot_le : s.context.maxSlot ≤ t.context.maxSlot
  slots_le : s.context.nextSlot ≤ s.context.maxSlot → t.context.nextSlot ≤ t.context.maxSlot

/-- The functions in `pend` wait for their bodies. They were made inside the current function. -/
structure Ready (s : AnalysisState) (pend : List Nat) : Prop where
  current_lt : s.context.function < s.facts.functions.size
  main_iff : (s.facts.info s.context.function).kind = .main ↔ s.context.function = 0
  slots_le : s.context.nextSlot ≤ s.context.maxSlot
  nodup : pend.Nodup
  lt : ∀ f ∈ pend, f < s.facts.functions.size
  inner : ∀ f ∈ pend, s.context.function < f
  kind : ∀ f ∈ pend, (s.facts.info f).kind = .named
  parent : ∀ f ∈ pend, (s.facts.info f).parent = some s.context.function

/-- The variables of the current function that are visible here have slots in use. -/
def Live (s : AnalysisState) (live : List Nat) : Prop :=
  s.facts.Apart s.context.function s.context.nextSlot live

/-- **What a walk keeps.** The functions made are those that waited and the new ones, and they have
their slots. Visible variables of the current function stay apart, new variables are visible at
some point, and variables have storage. -/
structure Settled (pend : List Nat) (is : List Item) (s t : AnalysisState) : Prop
    extends Steps pend s t where
  made : ∀ m ∈ Item.madeOf is, m.number ∈ pend ∨ s.facts.functions.size ≤ m.number
  made_lt : ∀ m ∈ Item.madeOf is, m.number < t.facts.functions.size
  covers : ∀ f < t.facts.functions.size, f ∈ pend ∨ s.facts.functions.size ≤ f →
    ∃ m ∈ Item.madeOf is, m.number = f
  slotted : ∀ m ∈ Item.madeOf is, t.facts.Slotted m
  live : s.context.function ≠ 0 → ∀ live, Live s live → Live t (Item.afterAll live is)
  views : s.context.function ≠ 0 → ∀ live, Live s live → ∀ view ∈ Item.viewsOf live is,
    t.facts.Apart s.context.function t.context.maxSlot view
  seen : ∀ y < t.facts.symbols.size, s.facts.symbols.size ≤ y →
    (∃ k, (t.facts.symbol y).storage = .frame k) →
      (t.facts.symbol y).function = s.context.function ∧ Item.Seen [] is y ∨
      ∃ m ∈ Item.madeOf is, (t.facts.symbol y).function = m.number ∧
        Item.Seen (t.facts.info m.number).params m.body y
  lodged : s.facts.Lodged → t.facts.Lodged

variable {pend p q : List Nat} {is js : List Item}

/-- The current function goes on step after step. -/
theorem Steps.trans (h : Steps p s t) (h' : Steps q t u) : Steps (p ++ q) s u where
  adds := h.adds.trans h'.adds
  function := h'.function.trans h.function
  maxSlot_le := Nat.le_trans h.maxSlot_le h'.maxSlot_le
  slots_le hle := h'.slots_le (h.slots_le hle)

/-- The functions that wait for their bodies still do. -/
theorem Ready.steps (h : Ready s (p ++ q)) (h' : Steps p s t) : Ready t q := by
  have hlt : ∀ f ∈ q, f < s.facts.functions.size := fun f hf =>
    h.lt f (List.mem_append_right _ hf)
  constructor
  · rw [h'.function]
    exact Nat.lt_of_lt_of_le h.current_lt h'.adds.functions_le
  · rw [h'.function, h'.adds.kind _ h.current_lt]
    exact h.main_iff
  · exact h'.slots_le h.slots_le
  · exact (List.nodup_append.mp h.nodup).2.1
  · exact fun f hf => Nat.lt_of_lt_of_le (hlt f hf) h'.adds.functions_le
  · rw [h'.function]
    exact fun f hf => h.inner f (List.mem_append_right _ hf)
  · exact fun f hf => (h'.adds.kind f (hlt f hf)).trans (h.kind f (List.mem_append_right _ hf))
  · rw [h'.function]
    exact fun f hf => (h'.adds.parent f (hlt f hf)).trans (h.parent f (List.mem_append_right _ hf))

/-- Functions that were made do not wait any more. -/
theorem Settled.done (h : Settled p is s t) (hr : Ready s (p ++ q)) :
    ∀ m ∈ Item.madeOf is, m.number ∉ q := by
  intro m hm hq
  rcases h.made m hm with hp | hle
  · exact (List.nodup_append.mp hr.nodup).2.2 _ hp _ hq rfl
  · exact Nat.lt_irrefl _ (Nat.lt_of_lt_of_le (hr.lt _ (List.mem_append_right _ hq)) hle)

/-- One walk behind another keeps what both keep. The functions that the second one waits for are
not those that the first one made. -/
theorem Settled.append (hr : Ready s (p ++ q)) (h : Settled p is s t) (h' : Settled q js t u) :
    Settled (p ++ q) (is ++ js) s u := by
  have hdone := h.done hr
  have hle := h.adds.functions_le
  refine ⟨h.toSteps.trans h'.toSteps, ?_, ?_, ?_, ?_, ?_, ?_, ?_, ?_⟩
  · intro m hm
    rw [Item.madeOf_append, List.mem_append] at hm
    rcases hm with hm | hm
    · exact (h.made m hm).imp_left (List.mem_append_left _)
    · rcases h'.made m hm with hq | hge
      · exact .inl (List.mem_append_right _ hq)
      · exact .inr (Nat.le_trans hle hge)
  · intro m hm
    rw [Item.madeOf_append, List.mem_append] at hm
    rcases hm with hm | hm
    · exact Nat.lt_of_lt_of_le (h.made_lt m hm) h'.adds.functions_le
    · exact h'.made_lt m hm
  · intro f hf hnew
    rw [Item.madeOf_append]
    by_cases hold : f < t.facts.functions.size ∧ f ∉ q
    · obtain ⟨m, hm, rfl⟩ := h.covers f hold.1
        (hnew.imp_left fun hpq => (List.mem_append.mp hpq).resolve_right hold.2)
      exact ⟨m, List.mem_append_left _ hm, rfl⟩
    · obtain ⟨m, hm, rfl⟩ := h'.covers f hf (by
        by_cases hq : f ∈ q
        · exact .inl hq
        · exact .inr (Nat.not_lt.mp fun hlt => hold ⟨hlt, hq⟩))
      exact ⟨m, List.mem_append_right _ hm, rfl⟩
  · intro m hm
    rw [Item.madeOf_append, List.mem_append] at hm
    rcases hm with hm | hm
    · exact (h.slotted m hm).adds h'.adds (h.made_lt m hm) (hdone m hm)
    · exact h'.slotted m hm
  · intro h0 live hlive
    rw [Item.afterAll_append]
    exact h'.live (h.function ▸ h0) _ (h.live h0 live hlive)
  · intro h0 live hlive view hview
    rcases Item.mem_viewsOf_append.mp hview with hview | hview
    · exact (h.views h0 live hlive view hview).adds h'.adds h'.maxSlot_le
    · rw [← h.function] at h0 ⊢
      exact h'.views h0 _ (h.live (h.function ▸ h0) live hlive) view hview
  · intro y hy hge hk
    rw [Item.madeOf_append]
    rcases Nat.lt_or_ge y t.facts.symbols.size with hlt | hge'
    · have hs := h'.adds.symbol y hlt
      rw [hs.storage] at hk
      rw [hs.function]
      rcases h.seen y hlt hge hk with ⟨ho, hseen⟩ | ⟨m, hm, ho, hseen⟩
      · exact .inl ⟨ho, hseen.append_left js⟩
      · refine .inr ⟨m, List.mem_append_left _ hm, ho, ?_⟩
        rwa [h'.adds.params _ (h.made_lt m hm) (hdone m hm)]
    · rcases h'.seen y hy hge' hk with ⟨ho, hseen⟩ | ⟨m, hm, ho, hseen⟩
      · exact .inl ⟨ho.trans h.function, hseen.append_right [] is⟩
      · exact .inr ⟨m, List.mem_append_right _ hm, ho, hseen⟩
  · exact fun hl => h'.lodged (h.lodged hl)

/-! ### Single items -/

/-- Noting a use is a step of the current function. -/
theorem Touches.steps (h : Touches s t) : Steps [] s t where
  adds := h.adds
  function := h.function
  maxSlot_le := Nat.le_of_eq h.maxSlot.symm
  slots_le := by
    rw [h.nextSlot, h.maxSlot]
    exact id

/-- Noting a use moves no variable, so the visible ones keep their slots. -/
theorem Touches.live (h : Touches s t) {live : List Nat} (hl : Live s live) : Live t live := by
  unfold Live
  rw [h.function, h.nextSlot]
  exact Facts.Apart.adds hl h.adds (Nat.le_refl _)

/-- Items without functions and variables, of which only uses are noted, leave the slots as they
are. -/
theorem Touches.settled (h : Touches s t) (hle : s.context.nextSlot ≤ s.context.maxSlot)
    (hmade : Item.madeOf is = []) (hafter : ∀ live, Item.afterAll live is = live)
    (hviews : ∀ live, ∀ view ∈ Item.viewsOf live is, view = live) : Settled [] is s t := by
  refine ⟨h.steps, ?_, ?_, ?_, ?_, ?_, ?_, ?_, ?_⟩
  · rw [hmade]
    simp
  · rw [hmade]
    simp
  · intro f hf hnew
    rw [h.functions_size] at hf
    simp only [List.not_mem_nil, false_or] at hnew
    exact absurd hf (Nat.not_lt.mpr hnew)
  · rw [hmade]
    simp
  · intro _ live hl
    rw [hafter]
    exact h.live hl
  · intro _ live hl view hv
    rw [hviews live view hv, h.maxSlot]
    exact Facts.Apart.adds hl h.adds hle
  · intro y hy hge
    rw [h.symbols_size] at hy
    exact absurd hy (Nat.not_lt.mpr hge)
  · exact fun hl => hl.congr h.symbols_size h.symbol h.globals

/-- A walk along no items keeps everything if only uses are noted. -/
theorem Touches.settled_nil (h : Touches s t) (hle : s.context.nextSlot ≤ s.context.maxSlot) :
    Settled [] [] s t :=
  h.settled hle rfl (fun _ => rfl) fun _ _ hv => List.mem_singleton.mp hv

/-- A walk along a use keeps everything, as a use declares nothing. -/
theorem Touches.settled_use (h : Touches s t) (hle : s.context.nextSlot ≤ s.context.maxSlot)
    {symbol : Option Nat} {name : String} : Settled [] [.use symbol name] s t := by
  refine h.settled hle rfl (fun _ => rfl) fun live view hv => ?_
  simpa [Item.viewsOf, Item.views, Item.after] using hv

/-! ### Variables -/

section Variables

variable {name : String} {kind : SymbolKind} {storage : Storage} {y : Nat}

/-- A declaration adds one symbol. -/
theorem Declares.size (h : Declares s name kind storage y t) :
    t.facts.symbols.size = s.facts.symbols.size + 1 := by
  obtain ⟨symbol, -, -, -, -, hs⟩ := h.symbols
  rw [hs, Array.size_push]

/-- The symbols from before a declaration are as they were. -/
theorem Declares.symbol_old (h : Declares s name kind storage y t) {z : Nat}
    (hz : z < s.facts.symbols.size) : t.facts.symbol z = s.facts.symbol z := by
  obtain ⟨symbol, -, -, -, -, hs⟩ := h.symbols
  rw [Facts.symbol, Facts.symbol, hs, Array.getElem?_push_lt hz, Array.getElem?_eq_getElem hz]

/-- The declared symbol. -/
theorem Declares.symbol_new (h : Declares s name kind storage y t) :
    (t.facts.symbol y).name = name ∧ (t.facts.symbol y).kind = kind ∧
      (t.facts.symbol y).storage = storage ∧
      (t.facts.symbol y).function = s.context.function := by
  obtain ⟨symbol, hn, hk, hst, hf, hs⟩ := h.symbols
  have heq : t.facts.symbol y = symbol := by
    rw [Facts.symbol, hs, h.number, Array.getElem?_push_size]
    rfl
  rw [heq]
  exact ⟨hn, hk, hst, hf⟩

/-- A declaration only adds to the facts. -/
theorem Declares.adds (h : Declares s name kind storage y t) : s.facts.Adds [] t.facts := by
  have hinfo : ∀ f, t.facts.info f = s.facts.info f := by
    intro f
    rw [Facts.info, Facts.info, h.functions]
  refine ⟨by rw [h.size]; exact Nat.le_succ _, fun z hz => by rw [h.symbol_old hz]; exact .refl _,
    Nat.le_of_eq (by rw [h.functions]), ?_, ?_, ?_, ?_, Nat.le_of_eq h.globals.symm⟩
  · exact fun f _ => by rw [hinfo]
  · exact fun f _ => by rw [hinfo]
  · exact fun f _ _ => by rw [hinfo]
  · exact fun f _ _ => by rw [hinfo]

/-- The symbols after a declaration. -/
theorem Declares.cases (h : Declares s name kind storage y t) {z : Nat}
    (hz : z < t.facts.symbols.size) : z < s.facts.symbols.size ∨ z = y := by
  rw [h.size] at hz
  rw [h.number]
  omega

/-- A variable or parameter of the current function gets a slot and is declared. -/
structure Stores (s : AnalysisState) (name : String) (y : Nat) (u : AnalysisState) : Prop
    extends Steps [] s u where
  number : y = s.facts.symbols.size
  size : u.facts.symbols.size = y + 1
  functions : u.facts.functions = s.facts.functions
  name : (u.facts.symbol y).name = name
  owner : (u.facts.symbol y).function = s.context.function
  global : s.context.function = 0 → ∃ k, (u.facts.symbol y).storage = .global k
  frame : s.context.function ≠ 0 → (u.facts.symbol y).storage = .frame s.context.nextSlot ∧
    u.context.nextSlot = s.context.nextSlot + 1
  lodged : s.facts.Lodged → u.facts.Lodged

/-- Storage is fresh: a global slot has not been in use. -/
theorem Allocates.fresh (h : Allocates s storage t) (hl : s.facts.Lodged) :
    ∀ z < s.facts.symbols.size, ∀ k, storage = .global k → (s.facts.symbol z).storage ≠ .global k := by
  rintro z hz k rfl hk
  cases h with
  | global _ => exact Nat.lt_irrefl _ (hl.global_lt z hz _ hk)

/-- New storage makes the frame larger if it has to, and changes no slot in use. -/
theorem Allocates.steps (h : Allocates s storage t) : Steps [] s t := by
  cases h with
  | global _ =>
      exact ⟨⟨Nat.le_refl _, fun _ _ => .refl _, Nat.le_refl _, fun _ _ => rfl, fun _ _ => rfl,
        fun _ _ _ => rfl, fun _ _ _ => rfl, Nat.le_succ _⟩, rfl, Nat.le_refl _, id⟩
  | frame _ => exact ⟨.refl _ _, rfl, Nat.le_max_left _ _, fun _ => Nat.le_max_right _ _⟩

/-- New storage declares nothing by itself. -/
theorem Allocates.symbols (h : Allocates s storage t) : t.facts.symbols = s.facts.symbols := by
  cases h with
  | global _ => rfl
  | frame _ => rfl

/-- New storage leaves the records of functions alone. -/
theorem Allocates.functions (h : Allocates s storage t) :
    t.facts.functions = s.facts.functions := by
  cases h with
  | global _ => rfl
  | frame _ => rfl

/-- A variable that is declared with its new storage has the storage it should have: a global slot
in the program and a frame slot elsewhere. -/
theorem Allocates.lodged (hm : (s.facts.info s.context.function).kind = .main ↔ s.context.function = 0)
    (ha : Allocates s storage t) (hd : Declares t name kind storage y u) (hl : s.facts.Lodged) :
    u.facts.Lodged := by
  have hsym : ∀ z, t.facts.symbol z = s.facts.symbol z := by
    intro z
    rw [Facts.symbol, Facts.symbol, ha.symbols]
  have hsize : t.facts.symbols.size = s.facts.symbols.size := by rw [ha.symbols]
  have hold : ∀ z < s.facts.symbols.size, u.facts.symbol z = s.facts.symbol z := fun z hz =>
    (hd.symbol_old (hsize ▸ hz)).trans (hsym z)
  have hcases : ∀ z < u.facts.symbols.size, z < s.facts.symbols.size ∨ z = y := fun z hz =>
    (hd.cases hz).imp_left fun h => hsize ▸ h
  obtain ⟨-, -, hst, ho⟩ := hd.symbol_new
  rw [ha.steps.function] at ho
  refine ⟨fun z hz hk h0 => ?_, fun z hz hk h0 => ?_, fun z hz k hk => ?_,
    fun x hx z hz k hk hk' => ?_⟩
  · rcases hcases z hz with hz | rfl
    · rw [hold z hz] at hk h0 ⊢
      exact hl.global z hz hk h0
    · rw [hst]
      rw [ho] at h0
      cases ha with
      | global _ => exact ⟨_, rfl⟩
      | frame hf => exact absurd (hm.mpr h0) hf
  · rcases hcases z hz with hz | rfl
    · rw [hold z hz] at hk h0 ⊢
      exact hl.frame z hz hk h0
    · rw [hst]
      rw [ho] at h0
      cases ha with
      | global hf => exact absurd (hm.mp hf) h0
      | frame _ => exact ⟨_, rfl⟩
  · rcases hcases z hz with hz | rfl
    · rw [hold z hz] at hk
      exact Nat.lt_of_lt_of_le (hl.global_lt z hz k hk)
        (Nat.le_trans ha.steps.adds.globals_le hd.adds.globals_le)
    · rw [hst] at hk
      rw [hd.globals]
      cases ha with
      | global _ =>
          cases hk
          exact Nat.lt_succ_self _
      | frame _ => cases hk
  · rcases hcases x hx with hx | rfl
    · rw [hold x hx] at hk
      rcases hcases z hz with hz | rfl
      · rw [hold z hz] at hk'
        exact hl.global_inj x hx z hz k hk hk'
      · rw [hst] at hk'
        exact absurd hk (ha.fresh hl x hx k hk')
    · rw [hst] at hk
      rcases hcases z hz with hz | rfl
      · rw [hold z hz] at hk'
        exact absurd hk' (ha.fresh hl z hz k hk)
      · rfl

/-- New storage followed by a declaration gives the current function one more variable, in a slot of
its own. -/
theorem Allocates.stores
    (hm : (s.facts.info s.context.function).kind = .main ↔ s.context.function = 0)
    (ha : Allocates s storage t) (hd : Declares t name kind storage y u) : Stores s name y u := by
  have hsize : t.facts.symbols.size = s.facts.symbols.size := by rw [ha.symbols]
  obtain ⟨hn, -, hst, ho⟩ := hd.symbol_new
  have hsteps : Steps [] t u := ⟨hd.adds, by rw [hd.context], Nat.le_of_eq (by rw [hd.context]),
    by rw [hd.context]; exact id⟩
  refine ⟨ha.steps.trans hsteps, hd.number.trans hsize, ?_, hd.functions.trans ha.functions, hn,
    ho.trans ha.steps.function, fun h0 => ?_, fun h0 => ?_, ha.lodged hm hd⟩
  · rw [hd.size, hd.number]
  · rw [hst]
    cases ha with
    | global _ => exact ⟨_, rfl⟩
    | frame hf => exact absurd (hm.mpr h0) hf
  · rw [hst, hd.context]
    cases ha with
    | global hf => exact absurd (hm.mp hf) h0
    | frame _ => exact ⟨rfl, rfl⟩

/-- A new variable is apart from those that are visible, since its slot is the next one and theirs
were taken before. -/
theorem Stores.live (h : Stores s name y u) (h0 : s.context.function ≠ 0) {live : List Nat}
    (hl : Live s live) : Live u (y :: live) := by
  obtain ⟨hst, hnext⟩ := h.frame h0
  have hold : u.facts.Apart s.context.function s.context.nextSlot live :=
    Facts.Apart.adds hl h.adds (Nat.le_refl _)
  have hy : y < u.facts.symbols.size := by
    rw [h.size]
    exact Nat.lt_succ_self _
  unfold Live
  rw [h.function]
  refine ⟨List.nodup_cons.mpr ⟨fun hmem => ?_, hold.nodup⟩, ?_, ?_, ?_⟩
  · obtain ⟨z, hz, he⟩ : ∃ z ∈ live, (u.facts.symbol z).storage = (u.facts.symbol y).storage :=
      List.mem_map.mp hmem
    obtain ⟨k, hk, hs⟩ := hold.slot z hz
    rw [hs, hst] at he
    cases he
    exact Nat.lt_irrefl _ hk
  · exact List.forall_mem_cons.mpr ⟨hy, hold.lt⟩
  · exact List.forall_mem_cons.mpr ⟨h.owner, hold.function⟩
  · rw [hnext]
    refine List.forall_mem_cons.mpr ⟨⟨_, Nat.lt_succ_self _, hst⟩, fun z hz => ?_⟩
    obtain ⟨k, hk, hs⟩ := hold.slot z hz
    exact ⟨k, Nat.lt_succ_of_lt hk, hs⟩

/-- A walk along a variable keeps the visible ones apart: the new slot is above all slots in use. -/
theorem Stores.settled (h : Stores s name y u) (hle : s.context.nextSlot ≤ s.context.maxSlot) :
    Settled [] [.variable (some y) name] s u := by
  have hlt := h.slots_le hle
  refine ⟨h.toSteps, ?_, ?_, ?_, ?_, ?_, ?_, ?_, h.lodged⟩
  · simp [Item.madeOf, Item.made]
  · simp [Item.madeOf, Item.made]
  · intro f hf hnew
    rw [h.functions] at hf
    simp only [List.not_mem_nil, false_or] at hnew
    exact absurd hf (Nat.not_lt.mpr hnew)
  · simp [Item.madeOf, Item.made]
  · exact fun h0 live hl => h.live h0 hl
  · intro h0 live hl view hv
    simp only [Item.viewsOf, Item.views, Item.after, List.nil_append, List.mem_cons,
      List.not_mem_nil, or_false] at hv
    rcases hv with rfl | rfl
    · exact Facts.Apart.adds hl h.adds (Nat.le_trans hle h.maxSlot_le)
    · have := h.live h0 hl
      rw [← h.function]
      exact Facts.Apart.adds this (.refl [] _) hlt
  · intro z hz hge hk
    obtain rfl : z = y := by
      rw [h.size] at hz
      rw [h.number] at hz ⊢
      omega
    exact .inl ⟨h.owner, [z], List.mem_cons_of_mem _ List.mem_cons_self, List.mem_cons_self⟩

end Variables

/-! ### Scopes and functions -/

/-- A new scope changes nothing else. -/
theorem adds_of_eq {F F' : Facts} (hs : F'.symbols = F.symbols) (hf : F'.functions = F.functions)
    (hg : F'.globals = F.globals) : F.Adds [] F' := by
  have hsymbol : ∀ y, F'.symbol y = F.symbol y := fun y => by rw [Facts.symbol, Facts.symbol, hs]
  have hinfo : ∀ f, F'.info f = F.info f := fun f => by rw [Facts.info, Facts.info, hf]
  refine ⟨Nat.le_of_eq (by rw [hs]), fun y _ => ?_, Nat.le_of_eq (by rw [hf]), ?_, ?_, ?_, ?_,
    Nat.le_of_eq hg.symm⟩
  · rw [hsymbol]
    exact .refl _
  · exact fun f _ => by rw [hinfo]
  · exact fun f _ => by rw [hinfo]
  · exact fun f _ _ => by rw [hinfo]
  · exact fun f _ _ => by rw [hinfo]

/-- The functions in `pend` were made inside the current one. New symbols are functions. -/
structure Opens (s : AnalysisState) (kind : FunctionKind) (pend : List Nat) (t : AnalysisState) :
    Prop where
  adds : s.facts.Adds [] t.facts
  context : t.context = s.context
  numbers : pend = List.range' s.facts.functions.size pend.length
  size : t.facts.functions.size = s.facts.functions.size + pend.length
  kind : ∀ f ∈ pend, (t.facts.info f).kind = kind
  parent : ∀ f ∈ pend, (t.facts.info f).parent = some s.context.function
  new : ∀ y < t.facts.symbols.size, s.facts.symbols.size ≤ y →
    ∃ f, (t.facts.symbol y).storage = .function f
  lodged : s.facts.Lodged → t.facts.Lodged

/-- A new function only adds to the facts. -/
theorem Founds.adds {kind : FunctionKind} {f : Nat} (h : Founds s kind f t) :
    s.facts.Adds [] t.facts := by
  obtain ⟨info, -, -, -, rfl⟩ := h.state
  refine ⟨Nat.le_refl _, fun _ _ => .refl _, by simp, ?_, ?_, ?_, ?_, Nat.le_refl _⟩
  · exact fun e he => by rw [Facts.info_push, if_neg (Nat.ne_of_lt he)]
  · exact fun e he => by rw [Facts.info_push, if_neg (Nat.ne_of_lt he)]
  · exact fun e he _ => by rw [Facts.info_push, if_neg (Nat.ne_of_lt he)]
  · exact fun e he _ => by rw [Facts.info_push, if_neg (Nat.ne_of_lt he)]

/-- A new function does not change the function that analysis is in. -/
theorem Founds.context {kind : FunctionKind} {f : Nat} (h : Founds s kind f t) :
    t.context = s.context := by
  obtain ⟨info, -, -, -, rfl⟩ := h.state
  rfl

/-- A new function gets the next number. -/
theorem Founds.size {kind : FunctionKind} {f : Nat} (h : Founds s kind f t) :
    t.facts.functions.size = f + 1 := by
  obtain ⟨info, -, -, -, rfl⟩ := h.state
  rw [h.number]
  simp

/-- A new function declares no symbol by itself. -/
theorem Founds.symbols {kind : FunctionKind} {f : Nat} (h : Founds s kind f t) :
    t.facts.symbols = s.facts.symbols := by
  obtain ⟨info, -, -, -, rfl⟩ := h.state
  rfl

/-- A new function takes no global slot. -/
theorem Founds.globals {kind : FunctionKind} {f : Nat} (h : Founds s kind f t) :
    t.facts.globals = s.facts.globals := by
  obtain ⟨info, -, -, -, rfl⟩ := h.state
  rfl

/-- A new function has its kind, and its parent is the current function. -/
theorem Founds.info {kind : FunctionKind} {f : Nat} (h : Founds s kind f t) :
    (t.facts.info f).kind = kind ∧ (t.facts.info f).parent = some s.context.function := by
  obtain ⟨info, hk, hp, -, rfl⟩ := h.state
  rw [Facts.info_push, if_pos h.number]
  exact ⟨hk, hp⟩

/-- A new function is one that was made inside the current one. -/
theorem Founds.opens {kind : FunctionKind} {f : Nat} (h : Founds s kind f t) :
    Opens s kind [f] t where
  adds := h.adds
  context := h.context
  numbers := by rw [h.number]; rfl
  size := by rw [h.size, h.number]; rfl
  kind := by simpa using h.info.1
  parent := by simpa using h.info.2
  new y hy hge := by
    rw [h.symbols] at hy
    exact absurd hy (Nat.not_lt.mpr hge)
  lodged hl := by
    refine hl.congr (by rw [h.symbols]) (fun y => ?_) h.globals
    rw [Facts.symbol, Facts.symbol, h.symbols]
    exact .refl _

/-- The symbol of a function needs no slot, so storage stays as it should be. -/
theorem Declares.lodged {name : String} {f y : Nat}
    (h : Declares s name .function (.function f) y t) (hl : s.facts.Lodged) : t.facts.Lodged := by
  obtain ⟨-, hk, hst, -⟩ := h.symbol_new
  refine ⟨fun z hz hkz h0 => ?_, fun z hz hkz h0 => ?_, fun z hz k hkz => ?_,
    fun x hx z hz k hkx hkz => ?_⟩
  · rcases h.cases hz with hz | rfl
    · rw [h.symbol_old hz] at hkz h0 ⊢
      exact hl.global z hz hkz h0
    · simp [hk] at hkz
  · rcases h.cases hz with hz | rfl
    · rw [h.symbol_old hz] at hkz h0 ⊢
      exact hl.frame z hz hkz h0
    · simp [hk] at hkz
  · rcases h.cases hz with hz | rfl
    · rw [h.symbol_old hz] at hkz
      rw [h.globals]
      exact hl.global_lt z hz k hkz
    · simp [hst] at hkz
  · rcases h.cases hx with hx | rfl
    · rcases h.cases hz with hz | rfl
      · rw [h.symbol_old hx] at hkx
        rw [h.symbol_old hz] at hkz
        exact hl.global_inj x hx z hz k hkx hkz
      · simp [hst] at hkz
    · simp [hst] at hkx

/-- A function that is made before others is made together with them. -/
theorem Opens.cons {kind : FunctionKind} {f : Nat} (h : Opens s kind [f] t)
    (h' : Opens t kind pend u) : Opens s kind (f :: pend) u := by
  have hf : f = s.facts.functions.size := by simpa using h.numbers
  have hft : f < t.facts.functions.size := by
    rw [h.size, hf]
    exact Nat.lt_succ_self _
  refine ⟨h.adds.trans h'.adds, h'.context.trans h.context, ?_, ?_, ?_, ?_, fun y hy hge => ?_,
    fun hl => h'.lodged (h.lodged hl)⟩
  · rw [List.length_cons, List.range'_succ, ← hf]
    have hnumbers := h'.numbers
    rw [h.size, ← hf] at hnumbers
    exact congrArg _ hnumbers
  · rw [h'.size, h.size]
    simp only [List.length_cons, List.length_nil]
    omega
  · refine List.forall_mem_cons.mpr ⟨?_, h'.kind⟩
    rw [h'.adds.kind f hft]
    exact h.kind f List.mem_cons_self
  · refine List.forall_mem_cons.mpr ⟨?_, h.context ▸ h'.parent⟩
    rw [h'.adds.parent f hft]
    exact h.parent f List.mem_cons_self
  · rcases Nat.lt_or_ge y t.facts.symbols.size with hlt | hge'
    · rw [(h'.adds.symbol y hlt).storage]
      exact h.new y hlt hge
    · exact h'.new y hy hge'

/-- A function that was made gets a symbol. -/
theorem Opens.declare {kind : FunctionKind} {name : String} {f y : Nat} (h : Opens s kind pend t)
    (hd : Declares t name .function (.function f) y u) : Opens s kind pend u := by
  have hinfo : ∀ e, u.facts.info e = t.facts.info e := by
    intro e
    rw [Facts.info, Facts.info, hd.functions]
  refine ⟨h.adds.trans hd.adds, hd.context.trans h.context, h.numbers, ?_, ?_, ?_,
    fun z hz hge => ?_, fun hl => hd.lodged (h.lodged hl)⟩
  · rw [hd.functions, h.size]
  · simpa only [hinfo] using h.kind
  · simpa only [hinfo] using h.parent
  · rcases hd.cases hz with hz | rfl
    · rw [hd.symbol_old hz]
      exact h.new z hz hge
    · exact ⟨_, hd.symbol_new.2.2.1⟩

/-- The functions of a list of statements. -/
theorem Hoists.opens {ds : List (String × Declared)} (h : Hoists s ds t) :
    Opens s .named (ds.map fun d => d.2.function) t := by
  induction h with
  | nil => exact ⟨.refl _ _, rfl, rfl, rfl, by simp, by simp,
      fun y hy hge => absurd hy (Nat.not_lt.mpr hge), id⟩
  | cons hf hd _ ih => exact (hf.opens.declare hd).cons ih

/-- Functions that are made now have numbers above those from before. -/
theorem Opens.ge {kind : FunctionKind} (h : Opens s kind pend t) :
    ∀ f ∈ pend, s.facts.functions.size ≤ f := by
  intro f hf
  rw [h.numbers, List.mem_range'_1] at hf
  exact hf.1

/-- Functions that are made now have numbers for which there are records. -/
theorem Opens.lt {kind : FunctionKind} (h : Opens s kind pend t) :
    ∀ f ∈ pend, f < t.facts.functions.size := by
  intro f hf
  rw [h.numbers, List.mem_range'_1] at hf
  rw [h.size]
  exact hf.2

/-- The declared functions wait for their bodies. -/
theorem Opens.ready (h : Opens s .named pend t) (hr : Ready s []) : Ready t pend := by
  refine ⟨?_, ?_, ?_, ?_, h.lt, fun f hf => ?_, h.kind, ?_⟩
  · rw [h.context]
    exact Nat.lt_of_lt_of_le hr.current_lt h.adds.functions_le
  · rw [h.context, h.adds.kind _ hr.current_lt]
    exact hr.main_iff
  · rw [h.context]
    exact hr.slots_le
  · rw [h.numbers]
    exact List.nodup_range'
  · rw [h.context]
    exact Nat.lt_of_lt_of_le hr.current_lt (h.ge f hf)
  · rw [h.context]
    exact h.parent

/-- Making functions is a step of the current one that changes none of its slots. -/
theorem Opens.steps {kind : FunctionKind} (h : Opens s kind pend t) : Steps [] s t where
  adds := h.adds
  function := by rw [h.context]
  maxSlot_le := Nat.le_of_eq (by rw [h.context])
  slots_le := by
    rw [h.context]
    exact id

/-- Functions that got their bodies in a walk do not wait any more. They are new since the scope was
opened, so the walk is settled from there on its own. -/
theorem Settled.opened {kind : FunctionKind} (ho : Opens s kind pend t)
    (h : Settled pend is t u) : Settled [] is s u := by
  have hlive : ∀ live, Live s live → Live t live := by
    intro live hl
    unfold Live
    rw [ho.context]
    exact Facts.Apart.adds hl ho.adds (Nat.le_refl _)
  have hadds : s.facts.Adds [] u.facts :=
    (ho.adds.trans h.adds).mono fun f hf hlt => absurd hlt (Nat.not_lt.mpr (ho.ge f hf))
  refine ⟨{ ho.steps.trans h.toSteps with adds := hadds }, ?_, h.made_lt, ?_, h.slotted, ?_, ?_, ?_,
    fun hl => h.lodged (ho.lodged hl)⟩
  · intro m hm
    rcases h.made m hm with hf | hf
    · exact .inr (ho.ge _ hf)
    · exact .inr (Nat.le_trans ho.adds.functions_le hf)
  · intro f hf hnew
    simp only [List.not_mem_nil, false_or] at hnew
    refine h.covers f hf ?_
    rw [ho.numbers, List.mem_range'_1, ← ho.size]
    omega
  · rw [← ho.context]
    exact fun h0 live hl => h.live h0 live (hlive live hl)
  · rw [← ho.context]
    exact fun h0 live hl => h.views h0 live (hlive live hl)
  · intro y hy hy' hk
    rcases Nat.lt_or_ge y t.facts.symbols.size with hlt | hge
    · obtain ⟨k, hk⟩ := hk
      rw [(h.adds.symbol y hlt).storage] at hk
      obtain ⟨f, hf⟩ := ho.new y hlt hy'
      rw [hf] at hk
      cases hk
    · rw [← ho.context]
      exact h.seen y hy hge hk

/-- A new scope only adds to the facts. -/
theorem adds_openScope (kind : ScopeKind) : s.facts.Adds [] (openScope kind s).facts :=
  adds_of_eq rfl rfl rfl

/-- A scope of its own: its slots are free again after it. The frame keeps the largest number of
slots that were in use at once. -/
theorem Settled.block {kind : ScopeKind} (hle : s.context.nextSlot ≤ s.context.maxSlot)
    (h : Settled [] is (openScope kind s) t) : Settled [] [.block is] s (closeScope s t) := by
  have hmade : Item.madeOf is = Item.madeOf [.block is] := (List.append_nil _).symm
  have hadds : s.facts.Adds [] t.facts := (adds_openScope kind).trans h.adds
  refine ⟨⟨hadds, h.function, h.maxSlot_le, fun hle => Nat.le_trans hle h.maxSlot_le⟩,
    hmade ▸ h.made, hmade ▸ h.made_lt, hmade ▸ h.covers, hmade ▸ h.slotted, fun _ live hl => ?_,
    fun h0 live hl view hv => ?_, fun y hy hge hk => ?_,
    fun hl => h.lodged (hl.congr rfl (fun _ => .refl _) rfl)⟩
  · unfold Live
    rw [show (closeScope s t).context.function = s.context.function from h.function]
    exact Facts.Apart.adds hl hadds (Nat.le_refl _)
  · simp only [Item.viewsOf, Item.views, Item.after, List.mem_cons, List.mem_append,
      List.not_mem_nil, or_false] at hv
    rcases hv with rfl | hv | rfl
    · exact Facts.Apart.adds hl hadds (Nat.le_trans hle h.maxSlot_le)
    · exact h.views h0 live (Facts.Apart.adds hl (adds_openScope kind) (Nat.le_refl _)) view hv
    · exact Facts.Apart.adds hl hadds (Nat.le_trans hle h.maxSlot_le)
  · rw [← hmade]
    refine (h.seen y hy hge hk).imp_left ?_
    rintro ⟨ho, view, hv, hmem⟩
    exact ⟨ho, view, List.mem_cons_of_mem _ (List.mem_append_left _ hv), hmem⟩

/-- Parameters that were declared. -/
structure StoresAll (s : AnalysisState) (names : List String) (ys : List Nat) (t : AnalysisState) :
    Prop extends Steps [] s t where
  functions : t.facts.functions = s.facts.functions
  named : ys.map (fun y => (t.facts.symbol y).name) = names
  storages : ys.map (fun y => (t.facts.symbol y).storage) =
    (List.range' s.context.nextSlot names.length).map .frame
  nextSlot : t.context.nextSlot = s.context.nextSlot + names.length
  lt : ∀ y ∈ ys, y < t.facts.symbols.size
  owner : ∀ y ∈ ys, (t.facts.symbol y).function = s.context.function
  new : ∀ y < t.facts.symbols.size, s.facts.symbols.size ≤ y → y ∈ ys
  lodged : s.facts.Lodged → t.facts.Lodged

/-- The parameters of a function get the first slots of its frame, in their order. Each declaration
takes the next slot and gives the one behind it to the rest. -/
theorem DeclaresAll.stores {names : List String} {ys : List Nat} (h : DeclaresAll s names ys t) :
    ((s.facts.info s.context.function).kind = .main ↔ s.context.function = 0) →
    s.context.function ≠ 0 → StoresAll s names ys t := by
  induction h with
  | nil =>
      exact fun _ _ => ⟨(Still.refl _).touches.steps, rfl, rfl, rfl, rfl, by simp, by simp,
        fun y hy hge => absurd hy (Nat.not_lt.mpr hge), id⟩
  | @cons s t u v name storage y names ys ha hd _ ih =>
      intro hm h0
      have hs := ha.stores hm hd
      have hinfo : ∀ f, u.facts.info f = s.facts.info f := by
        intro f
        rw [Facts.info, Facts.info, hs.functions]
      have h := ih (by rw [hs.function, hinfo]; exact hm) (by rw [hs.function]; exact h0)
      obtain ⟨hst, hnext⟩ := hs.frame h0
      have hlt : y < u.facts.symbols.size := by
        rw [hs.size]
        exact Nat.lt_succ_self _
      have hy := h.adds.symbol y hlt
      refine ⟨hs.toSteps.trans h.toSteps, h.functions.trans hs.functions, ?_, ?_, ?_, ?_, ?_, ?_,
        fun hl => h.lodged (hs.lodged hl)⟩
      · rw [List.map_cons, h.named, hy.name, hs.name]
      · rw [List.map_cons, h.storages, hy.storage, hst, hnext, List.length_cons, List.range'_succ,
          List.map_cons]
      · rw [h.nextSlot, hnext, List.length_cons]
        omega
      · exact List.forall_mem_cons.mpr ⟨Nat.lt_of_lt_of_le hlt h.adds.symbols_le, h.lt⟩
      · exact List.forall_mem_cons.mpr ⟨hy.function.trans hs.owner, fun z hz =>
          (h.owner z hz).trans hs.function⟩
      · intro z hz hge
        rcases Nat.lt_or_ge z u.facts.symbols.size with hz' | hz'
        · obtain rfl : z = y := by
            rw [hs.size] at hz'
            rw [hs.number] at hz' ⊢
            omega
          exact List.mem_cons_self
        · exact List.mem_cons_of_mem _ (h.new z hz hz')

/-- A function that was entered: its parameters are its visible variables. -/
structure Entered (f : Nat) (names : List String) (s t : AnalysisState) : Prop where
  adds : s.facts.Adds [f] t.facts
  function : t.context.function = f
  size : t.facts.functions.size = s.facts.functions.size
  slots_le : t.context.nextSlot ≤ t.context.maxSlot
  named : (t.facts.info f).params.map (fun y => (t.facts.symbol y).name) = names
  storages : (t.facts.info f).params.map (fun y => (t.facts.symbol y).storage) =
    (List.range names.length).map .frame
  live : Live t (t.facts.info f).params
  new : ∀ y < t.facts.symbols.size, s.facts.symbols.size ≤ y → y ∈ (t.facts.info f).params
  lodged : s.facts.Lodged → t.facts.Lodged

/-- A change of one function's record keeps everything else. Its kind and its parent are to stay. -/
theorem adds_withFunction {f : Nat} {change : FunctionInfo → FunctionInfo}
    (hf : f < s.facts.functions.size) (hk : ∀ i, (change i).kind = i.kind)
    (hp : ∀ i, (change i).parent = i.parent) : s.facts.Adds [f] (withFunction f change s).facts := by
  have hinfo : ∀ e, (withFunction f change s).facts.info e =
      if e = f then change (s.facts.info e) else s.facts.info e := fun e => Facts.info_modify hf
  refine ⟨Nat.le_refl _, fun _ _ => .refl _, Nat.le_of_eq Array.size_modify.symm, fun e _ => ?_,
    fun e _ => ?_, fun e _ he => ?_, fun e _ he => ?_, Nat.le_refl _⟩
  · rw [hinfo]
    split
    · exact hk _
    · rfl
  · rw [hinfo]
    split
    · exact hp _
    · rfl
  · rw [hinfo, if_neg (List.mem_singleton.not.mp he)]
  · rw [hinfo, if_neg (List.mem_singleton.not.mp he)]

/-- Storage is a matter of symbols, so a changed record does not disturb it. -/
theorem lodged_withFunction {f : Nat} {change : FunctionInfo → FunctionInfo} (h : s.facts.Lodged) :
    (withFunction f change s).facts.Lodged :=
  h.congr rfl (fun _ => .refl _) rfl

/-- Entering a function changes its own record only. -/
theorem adds_enterFunction {f : Nat} (signature : Signature) (hf : f < s.facts.functions.size) :
    s.facts.Adds [f] (enterFunction f signature s).facts := by
  have hopen : s.facts.Adds []
      (openScope .function { s with context := startContext f signature }).facts :=
    adds_of_eq rfl rfl rfl
  have hwith : (openScope .function { s with context := startContext f signature }).facts.Adds [f]
      (enterFunction f signature s).facts := adds_withFunction hf (fun _ => rfl) fun _ => rfl
  exact hopen.trans hwith

/-- **Entering.** A function that waited is entered with its parameters as the visible variables,
and they have the first slots. -/
theorem Enters.entered {f : Nat} {names : List String} (h : Enters f names s t)
    (hf : f < s.facts.functions.size) (h0 : f ≠ 0) (hk : (s.facts.info f).kind ≠ .main) :
    Entered f names s t := by
  obtain @⟨signature, ys, t, h⟩ := h
  have hstart := adds_enterFunction signature hf
  have hsize : (enterFunction f signature s).facts.functions.size = s.facts.functions.size :=
    Array.size_modify
  have hmain : ((enterFunction f signature s).facts.info f).kind = .main ↔ f = 0 := by
    rw [hstart.kind f hf]
    exact ⟨fun h => absurd h hk, fun h => absurd h h0⟩
  have hs := h.stores hmain h0
  have hft : f < t.facts.functions.size := by
    rw [hs.functions, hsize]
    exact hf
  have hinfo : ((withFunction f (fun i => { i with params := ys }) t).facts.info f).params = ys := by
    rw [withFunction, Facts.info_modify hft, if_pos rfl]
  have hend : t.facts.Adds [f] (withFunction f (fun i => { i with params := ys }) t).facts :=
    adds_withFunction hft (fun _ => rfl) fun _ => rfl
  have hstorages : ys.map (fun y => (t.facts.symbol y).storage) =
      (List.range names.length).map .frame := by
    rw [List.range_eq_range']
    exact hs.storages
  refine ⟨?_, hs.function, ?_, hs.slots_le (Nat.le_refl _), ?_, ?_, ?_, ?_, fun hl => ?_⟩
  · refine ((hstart.trans hs.adds).trans hend).mono fun e he _ => ?_
    simpa using he
  · exact Array.size_modify.trans ((congrArg _ hs.functions).trans hsize)
  · rw [hinfo]
    exact hs.named
  · rw [hinfo]
    exact hstorages
  · have hnext : t.context.nextSlot = names.length := hs.nextSlot.trans (Nat.zero_add _)
    have hapart := Facts.Apart.of_storages hstorages hs.lt hs.owner
    rw [hinfo]
    unfold Live
    rw [show (withFunction f _ t).context = t.context from rfl, hnext, hs.function]
    exact hapart.adds hend (Nat.le_refl _)
  · rw [hinfo]
    exact hs.new
  · exact lodged_withFunction (hs.lodged (lodged_withFunction (hl.congr rfl (fun _ => .refl _) rfl)))

/-- A function that was left has its slots: those of its body, counted by the largest that was ever
in use. The function around it goes on with its own slots, and what its body made is kept. -/
theorem Entered.settled {f : Nat} {names : List String} (he : Entered f names s t)
    (hf : f < s.facts.functions.size) (h0 : f ≠ 0) (hle : s.context.nextSlot ≤ s.context.maxSlot)
    (declaration : Option (String × Nat)) (h : Settled [] is t u) :
    Settled [f] [.function (some f) declaration names is] s (leaveFunction f s u) := by
  have hmade : Item.madeOf [.function (some f) declaration names is] =
      ⟨f, names, is⟩ :: Item.madeOf is := congrArg _ (List.append_nil _)
  have hft : f < t.facts.functions.size := by
    rw [he.size]
    exact hf
  have hfu : f < u.facts.functions.size := Nat.lt_of_lt_of_le hft h.adds.functions_le
  have hleave : u.facts.Adds [f] (leaveFunction f s u).facts :=
    adds_withFunction hfu (fun _ => rfl) fun _ => rfl
  have hinfo : ∀ e, (leaveFunction f s u).facts.info e =
      if e = f then { u.facts.info e with slots := u.context.maxSlot } else u.facts.info e :=
    fun e => Facts.info_modify hfu
  have hsize : (leaveFunction f s u).facts.functions.size = u.facts.functions.size :=
    Array.size_modify
  have hadds : s.facts.Adds [f] (leaveFunction f s u).facts :=
    ((he.adds.trans h.adds).trans hleave).mono fun e hm _ => by simpa using hm
  -- The functions inside are others.
  have hother : ∀ m ∈ Item.madeOf is, m.number ≠ f := by
    intro m hm heq
    rcases h.made m hm with hn | hge
    · cases hn
    · exact Nat.lt_irrefl _ (Nat.lt_of_lt_of_le (heq ▸ hft) hge)
  have hparams : ((leaveFunction f s u).facts.info f).params = (t.facts.info f).params := by
    rw [hinfo, if_pos rfl, ← h.adds.params f hft (by simp)]
  have hslots : ((leaveFunction f s u).facts.info f).slots = u.context.maxSlot := by
    rw [hinfo, if_pos rfl]
  have hsame : ∀ y ∈ (t.facts.info f).params,
      (t.facts.symbol y).Alike ((leaveFunction f s u).facts.symbol y) :=
    fun y hy => h.adds.symbol y (he.live.lt y hy)
  have hfun : (leaveFunction f s u).facts.Slotted ⟨f, names, is⟩ := by
    refine ⟨?_, ?_, fun view hv => ?_⟩
    · rw [hparams, ← he.named]
      exact List.map_congr_left fun y hy => (hsame y hy).name
    · rw [hparams, ← he.storages]
      exact List.map_congr_left fun y hy => (hsame y hy).storage
    · rw [hparams] at hv
      have hview := h.views (he.function ▸ h0) _ he.live view hv
      rw [he.function] at hview
      exact hview.adds hleave (Nat.le_of_eq hslots.symm)
  have hlive : ∀ live, Live s live → Live (leaveFunction f s u) live := fun live hl =>
    Facts.Apart.adds hl hadds (Nat.le_refl _)
  refine ⟨⟨hadds, rfl, Nat.le_refl _, id⟩, ?_, ?_, ?_, ?_, fun _ live hl => hlive live hl,
    fun h0 live hl view hv => ?_, ?_, fun hl => lodged_withFunction (h.lodged (he.lodged hl))⟩
  · rw [hmade]
    refine List.forall_mem_cons.mpr ⟨.inl List.mem_cons_self, fun m hm => .inr ?_⟩
    rw [← he.size]
    exact (h.made m hm).resolve_left List.not_mem_nil
  · rw [hmade, hsize]
    exact List.forall_mem_cons.mpr ⟨hfu, h.made_lt⟩
  · intro e hlt hnew
    rw [hsize] at hlt
    rw [hmade]
    rcases hnew with hmem | hge
    · exact ⟨_, List.mem_cons_self, (List.mem_singleton.mp hmem).symm⟩
    · obtain ⟨m, hm, hme⟩ := h.covers e hlt (.inr (he.size.symm ▸ hge))
      exact ⟨m, List.mem_cons_of_mem _ hm, hme⟩
  · rw [hmade]
    refine List.forall_mem_cons.mpr ⟨hfun, fun m hm => ?_⟩
    exact (h.slotted m hm).adds hleave (h.made_lt m hm) (List.mem_singleton.not.mpr (hother m hm))
  · simp only [Item.viewsOf, Item.views, Item.after, List.nil_append, List.mem_cons,
      List.not_mem_nil, or_false, or_self] at hv
    rw [hv]
    exact Facts.Apart.adds hl hadds hle
  · intro y hy hge hk
    rw [hmade]
    right
    rcases Nat.lt_or_ge y t.facts.symbols.size with hlt | hge'
    · have hmem := he.new y hlt hge
      refine ⟨_, List.mem_cons_self, ?_, ?_⟩
      · exact (hsame y hmem).function.trans ((he.live.function y hmem).trans he.function)
      · rw [hparams]
        exact Item.seen_of_mem is hmem
    · rcases h.seen y hy hge' hk with ⟨ho, hseen⟩ | ⟨m, hm, ho, hseen⟩
      · exact ⟨_, List.mem_cons_self, ho.trans he.function, hseen.later _⟩
      · refine ⟨m, List.mem_cons_of_mem _ hm, ho, ?_⟩
        rwa [hinfo, if_neg (hother m hm)]

/-- After entering, no function waits and the frame is ready for more variables. -/
theorem Entered.ready {f : Nat} {names : List String} (he : Entered f names s t)
    (hf : f < s.facts.functions.size) (h0 : f ≠ 0) (hk : (s.facts.info f).kind ≠ .main) :
    Ready t [] := by
  have hkt : (t.facts.info f).kind ≠ .main := he.adds.kind f hf ▸ hk
  refine ⟨?_, ?_, he.slots_le, List.nodup_nil, by simp, by simp, by simp, by simp⟩
  · rw [he.function, he.size]
    exact hf
  · rw [he.function]
    exact ⟨fun h => absurd h hkt, fun h => absurd h h0⟩

/-- Nothing is asked of functions if none waits. -/
theorem Ready.nil (hr : Ready s pend) : Ready s [] :=
  { hr with
    nodup := List.nodup_nil
    lt := by simp
    inner := by simp
    kind := by simp
    parent := by simp }

/-- The functions that wait do so in an inner scope too. -/
theorem Ready.openScope (hr : Ready s pend) (kind : ScopeKind) :
    Ready (Analyze.openScope kind s) pend :=
  hr.steps (p := []) ⟨adds_openScope kind, rfl, Nat.le_refl _, id⟩

/-! ### Walks -/

section Walks

variable {ds es rest : List (String × Declared)} {f : Nat} {declaration : Option (String × Nat)}
  {names : List String}

/-- The functions of a block wait. -/
theorem Ready.block (hr : Ready s pend) (hh : Hoists (Analyze.openScope .block s) es v) :
    Ready v (es.map fun d => d.2.function) :=
  hh.opens.ready (hr.openScope .block).nil

/-- The functions of a body wait. -/
theorem Enters.ready (he : Enters f names t u) (hh : Hoists u es v)
    (hf : f < t.facts.functions.size) (h0 : f ≠ 0) (hk : (t.facts.info f).kind ≠ .main) :
    Ready v (es.map fun d => d.2.function) :=
  hh.opens.ready ((he.entered hf h0 hk).ready hf h0 hk)

/-- The function of an item changes no scopes, and no symbols. -/
theorem Begins.same (h : Begins s ds f declaration rest t) : t.facts.scopes = s.facts.scopes ∧
    t.scope = s.scope ∧ t.context = s.context ∧ t.facts.symbols = s.facts.symbols := by
  cases h with
  | lambda hf =>
      obtain ⟨info, -, -, -, rfl⟩ := hf.state
      exact ⟨rfl, rfl, rfl, rfl⟩
  | named => exact ⟨rfl, rfl, rfl, rfl⟩

/-- It is one inside the current function. -/
theorem Begins.inner (h : Begins s ds f declaration rest t)
    (hr : Ready s (ds.map fun d => d.2.function)) : f < t.facts.functions.size ∧
      s.context.function < f ∧ (t.facts.info f).kind ≠ .main ∧
      (t.facts.info f).parent = some s.context.function := by
  cases h with
  | lambda hf =>
      refine ⟨hf.opens.lt f List.mem_cons_self, hf.number ▸ hr.current_lt, ?_, hf.info.2⟩
      rw [hf.info.1]
      exact FunctionKind.noConfusion
  | @named name d rest =>
      have hmem : d.function ∈ (((name, d) :: rest).map fun d => d.2.function) :=
        List.mem_cons_self
      refine ⟨hr.lt _ hmem, hr.inner _ hmem, ?_, hr.parent _ hmem⟩
      rw [hr.kind _ hmem]
      exact FunctionKind.noConfusion

/-- It has waited for its body, or is new. -/
theorem Begins.settled (h : Begins s ds f declaration rest t) (hs : Settled [f] is t u) :
    ∃ p, ds.map (fun d => d.2.function) = p ++ rest.map (fun d => d.2.function) ∧
      Settled p is s u := by
  cases h with
  | lambda hf => exact ⟨[], rfl, .opened hf.opens hs⟩
  | named => exact ⟨_, rfl, hs⟩

/-- **Walks.** A walk over items keeps variables apart. The induction follows the walk; each item is
settled from the state that it starts in, and settled parts put together are settled. -/
theorem Walk.settled (h : Walk s ds is t) :
    Ready s (ds.map fun d => d.2.function) → Settled (ds.map fun d => d.2.function) is s t := by
  induction h with
  | nil => exact fun hr => (Still.refl _).touches.settled_nil hr.slots_le
  | still hs _ ih =>
      intro hr
      have h := hs.touches.settled_nil hr.slots_le
      exact h.append hr (ih (hr.steps h.toSteps))
  | use hu _ _ ih =>
      intro hr
      have ht := touches_of_resolve hu
      exact (ht.settled_use hr.slots_le).append hr (ih (hr.steps ht.steps))
  | rejected _ _ ih =>
      intro hr
      exact ((Still.refl _).touches.settled_use hr.slots_le).append hr (ih hr)
  | «variable» ha hd _ ih =>
      intro hr
      have h := (ha.stores hr.main_iff hd).settled hr.slots_le
      exact h.append hr (ih (hr.steps h.toSteps))
  | @block s t u v ds es body is hh _ _ ihb ih =>
      intro hr
      have h := (Settled.opened hh.opens (ihb (hr.block hh))).block hr.slots_le
      exact h.append hr (ih (hr.steps h.toSteps))
  | @function s t u v w x ds es rest body is f declaration names hf he hh _ _ ihb ih =>
      intro hr
      obtain ⟨hlt, hinner, hk, -⟩ := hf.inner hr
      have h0 := Nat.ne_zero_of_lt hinner
      have hle : t.context.nextSlot ≤ t.context.maxSlot := by
        rw [hf.same.2.2.1]
        exact hr.slots_le
      have hbody := Settled.opened hh.opens (ihb (he.ready hh hlt h0 hk))
      obtain ⟨p, hp, h⟩ := hf.settled ((he.entered hlt h0 hk).settled hlt h0 hle declaration hbody)
      rw [hp] at hr ⊢
      exact h.append hr (ih (hr.steps h.toSteps))

end Walks

/-! ### Programs -/

/-- In the beginning no function waits. -/
theorem ready_initial : Ready initial [] where
  current_lt := by decide
  main_iff := by decide
  slots_le := Nat.le_refl _
  nodup := List.nodup_nil
  lt := by simp
  inner := by simp
  kind := by simp
  parent := by simp

/-- What analysis of a list of statements keeps. -/
theorem Fills.settled {s t : AnalysisState} {is : List Item} (h : Fills s is t) (hr : Ready s []) :
    Settled [] is s t := by
  obtain ⟨ds, u, hh, hw⟩ := h
  exact Settled.opened hh.opens (hw.settled (hh.opens.ready hr))

/-- At the end of analysis only the result type of the program is noted. -/
theorem adds_finish {s : AnalysisState} (hlt : 0 < s.facts.functions.size) :
    s.facts.Adds [] (finish s) := by
  have hinfo : ∀ f, (finish s).info f = s.facts.info f ∨
      (finish s).info f = { s.facts.info f with returns := s.context.returns.getD .unit } := by
    intro f
    rw [info_finish hlt]
    split
    · exact .inr rfl
    · exact .inl rfl
  refine ⟨Nat.le_refl _, fun _ _ => .refl _, by simp [finish], fun f _ => ?_, fun f _ => ?_,
    fun f _ _ => ?_, fun f _ _ => ?_, Nat.le_refl _⟩
  · rcases hinfo f with h | h <;> rw [h]
  · rcases hinfo f with h | h <;> rw [h]
  · rcases hinfo f with h | h <;> rw [h]
  · rcases hinfo f with h | h <;> rw [h]

end Analyze

end Parlance
