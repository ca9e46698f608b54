import Mathlib
import Parlance.Proofs.Analysis.Scopes

/-!
# What names refer to

Analysis resolves a name while it fills the scopes, and notes captures on the way from the use
to the variable. Both come out as the lexical rules say, which do not know an order: a name refers
to what the first scope around it says that declares the name at this place, and a function
captures what the names inside it refer to in functions around it.

## Main definitions

* `Use.Resolved`, `Use.Captures`: what a use of a name refers to, and which functions capture it.
* `Analyze.Stands`: what the scopes and functions around a point of analysis are.

## Main results

* `Analyze.resolve_resolves`: a name that is resolved.
* `Analyze.Walk.accounts`: the names of a walk.
-/

namespace Parlance

/-! ### Functions around a point -/

/-- A function and those around it, the innermost first. -/
inductive Enclosed (F : Facts) : Nat → List Nat → Prop
  | outer {f : Nat} (hf : f < F.functions.size) (hp : (F.info f).parent = none) : Enclosed F f [f]
  | inner {f p : Nat} {within : List Nat} (hf : f < F.functions.size)
    (hp : (F.info f).parent = some p) (hlt : p < f) (h : Enclosed F p within) :
    Enclosed F f (f :: within)

namespace Enclosed

variable {F F' : Facts} {f : Nat} {within : List Nat}

/-- A function that stands inside others has a record. -/
theorem lt (h : Enclosed F f within) : f < F.functions.size := by
  cases h with
  | outer hf _ => exact hf
  | inner hf _ _ _ => exact hf

/-- A function is the innermost of those around it. -/
theorem mem (h : Enclosed F f within) : f ∈ within := by
  cases h with
  | outer _ _ => exact List.mem_cons_self
  | inner _ _ _ _ => exact List.mem_cons_self

/-- Functions inside others are made later. -/
theorem le (h : Enclosed F f within) : ∀ g ∈ within, g ≤ f := by
  induction h with
  | outer _ _ => simp
  | inner _ _ hlt _ ih =>
      exact List.forall_mem_cons.mpr ⟨Nat.le_refl _, fun g hg =>
        Nat.le_trans (ih g hg) (Nat.le_of_lt hlt)⟩

/-- No function is around itself. -/
theorem not_sublist (h : Enclosed F f within) (g : Nat) : ¬ [g, f].Sublist within := by
  intro hs
  cases h with
  | outer _ _ => simpa using hs.length_le
  | inner _ _ hlt h =>
      rw [List.cons_sublist_cons', List.singleton_sublist] at hs
      have hmem := hs.elim (fun hs => hs.subset (by simp)) fun hs => hs.2
      exact Nat.lt_irrefl _ (Nat.lt_of_le_of_lt (h.le _ hmem) hlt)

/-- Functions stand inside each other in the same way when more facts are known, since no parent
changes. -/
theorem later (h : Enclosed F f within) (hl : Analyze.Later F F') : Enclosed F' f within := by
  obtain ⟨pend, ha⟩ := hl
  induction h with
  | outer hf hp => exact .outer (Nat.lt_of_lt_of_le hf ha.functions_le) ((ha.parent _ hf).trans hp)
  | inner hf hp hlt _ ih =>
      exact .inner (Nat.lt_of_lt_of_le hf ha.functions_le) ((ha.parent _ hf).trans hp) hlt ih

end Enclosed

/-! ### Captures -/

/-- Inside the functions `within`, the function `f` stands between this point and the function that
the variable belongs to. The variables of the program do not count, they are not on a frame. -/
def Outside (F : Facts) (within : List Nat) (f y : Nat) : Prop :=
  (∃ k, (F.symbol y).storage = .frame k) ∧ [f, (F.symbol y).function].Sublist within

/-- The declaration that the name refers to is noted. -/
def Use.Resolved (u : Use) : Prop :=
  ∃ y, u.symbol = some y ∧ resolveIn u.scopes u.name = some y

/-- A function has to capture the variable for this use. -/
def Use.Captures (F : Facts) (f y : Nat) (u : Use) : Prop :=
  u.symbol = some y ∧ Outside F u.within f y

/-- Functions capture more variables, each once. -/
structure Captured (new : Nat → Nat → Prop) (F F' : Facts) : Prop where
  mem : ∀ f y, y ∈ F'.captures f ↔ y ∈ F.captures f ∨ new f y
  nodup : ∀ f, (F.captures f).Nodup → (F'.captures f).Nodup

namespace Captured

variable {F F' F'' : Facts} {new new' : Nat → Nat → Prop}

/-- Where no captures change, none are new. -/
theorem of_eq (h : ∀ f, F'.captures f = F.captures f) (hn : ∀ f y, ¬ new f y) :
    Captured new F F' where
  mem f y := by
    rw [h f]
    exact ⟨.inl, fun hy => hy.resolve_right (hn f y)⟩
  nodup f hf := by
    rw [h f]
    exact hf

/-- Captures are added step after step, each variable once. -/
theorem trans (h : Captured new F F') (h' : Captured new' F' F'') :
    Captured (fun f y => new f y ∨ new' f y) F F'' where
  mem f y := by rw [h'.mem, h.mem, or_assoc]
  nodup f hf := h'.nodup f (h.nodup f hf)

/-- New captures may be described in another way. -/
theorem congr (h : Captured new F F') (hn : ∀ f y, new f y ↔ new' f y) : Captured new' F F' where
  mem f y := by rw [h.mem, hn]
  nodup := h.nodup

end Captured

namespace Analyze

variable {s t u v w : AnalysisState}

/-- Captures are part of the records of functions, so the same records have the same captures. -/
theorem captures_of_functions {F F' : Facts} (h : F'.functions = F.functions) (f : Nat) :
    F'.captures f = F.captures f := by
  rw [Facts.captures, Facts.captures, Facts.info, Facts.info, h]

/-- One more capture. -/
theorem captured_addCapture (y : Nat) {g : Nat} (hg : g < s.facts.functions.size) :
    Captured (fun f z => f = g ∧ z = y) s.facts
      { s.facts with functions := s.facts.functions.modify g (addCapture y) } := by
  refine ⟨fun f z => ?_, fun f hf => ?_⟩
  · rw [Facts.captures, Facts.info_modify hg]
    split
    · next h => simp only [mem_addCapture, h, true_and, Facts.captures]
    · next h => simp only [h, false_and, or_false, Facts.captures]
  · rw [Facts.captures, Facts.info_modify hg]
    split
    · unfold addCapture
      split
      · exact hf
      · next hn =>
          refine hf.append (List.nodup_singleton y) ?_
          rw [List.disjoint_singleton]
          exact fun hmem => hn (List.contains_iff_mem.mpr hmem)
    · exact hf

/-- The functions between a use and the owner of the variable capture it, and no others do. The
induction is on the fuel, and each step goes from a lambda to the function around it. -/
theorem captured_capture {y owner : Nat} (fuel : Nat) : ∀ {s t : AnalysisState} {g : Nat}
    {within : List Nat}, Enclosed s.facts g within → owner ∈ within → g < fuel →
    capture y owner fuel g s = (true, t) →
    Captured (fun f z => z = y ∧ [f, owner].Sublist within) s.facts t.facts := by
  induction fuel with
  | zero => exact fun _ _ hlt => absurd hlt (Nat.not_lt_zero _)
  | succ fuel ih =>
      intro s t g within he ho hlt h
      rw [capture] at h
      split at h
      · next heq =>
          cases h
          exact .of_eq (fun _ => rfl) fun f z hn => he.not_sublist f (heq ▸ hn.2)
      · next hne =>
          change (if (s.facts.info g).kind = .lambda then _ else _ : Analyze Bool) s = (true, t) at h
          split at h
          · cases he with
            | outer _ _ => exact absurd (List.mem_singleton.mp ho).symm hne
            | @inner _ p within hg hp hpg he =>
                have hrest := (List.mem_cons.mp ho).resolve_left (Ne.symm hne)
                have hadd := captured_addCapture (s := s) y hg
                rw [hp] at h
                have houter := ih (he.later ⟨_, (touches_addCapture y hg).adds⟩) hrest
                  (Nat.lt_of_lt_of_le hpg (Nat.le_of_lt_succ hlt)) h
                refine (hadd.trans houter).congr fun f z => ?_
                rw [List.cons_sublist_cons', List.singleton_sublist]
                constructor
                · rintro (⟨rfl, rfl⟩ | ⟨rfl, hs⟩)
                  · exact ⟨rfl, .inr ⟨rfl, hrest⟩⟩
                  · exact ⟨rfl, .inl hs⟩
                · rintro ⟨rfl, hs | ⟨rfl, -⟩⟩
                  · exact .inr ⟨rfl, hs⟩
                  · exact .inl ⟨rfl, rfl⟩
          · cases h

/-! ### Points of analysis -/

/-- The scopes around this point declare `scopes`, and the functions around it are `within`. What is
declared belongs to one of these functions. -/
structure Stands (s : AnalysisState) (within : List Nat) (scopes : List Bindings) : Prop where
  chain : ScopeChain s.facts.scopes s.scope scopes
  enclosed : Enclosed s.facts s.context.function within
  bound : ∀ scope ∈ scopes, ∀ b ∈ scope, b.2 < s.facts.symbols.size ∧
    (s.facts.symbol b.2).function ∈ within

section Stands

variable {within within' : List Nat} {here new : Bindings} {scopes : List Bindings}

/-- What is declared around a point belongs to the functions around it, also when more facts are
known. -/
theorem Stands.later_bound (h : Stands s within scopes) (hl : Later s.facts t.facts)
    (hw : within ⊆ within') : ∀ scope ∈ scopes, ∀ b ∈ scope, b.2 < t.facts.symbols.size ∧
      (t.facts.symbol b.2).function ∈ within' := by
  obtain ⟨pend, ha⟩ := hl
  intro scope hscope b hb
  obtain ⟨hlt, ho⟩ := h.bound scope hscope b hb
  refine ⟨Nat.lt_of_lt_of_le hlt ha.symbols_le, hw ?_⟩
  rw [(ha.symbol b.2 hlt).function]
  exact ho

/-- A declaration extends the innermost scope. -/
theorem Stands.binds (h : Stands s within (here :: scopes)) (hb : Binds new s t) :
    Stands t within ((here ++ new) :: scopes) where
  chain := hb.chain h.chain
  enclosed := by
    rw [hb.function]
    exact h.enclosed.later hb.later
  bound := by
    have hold := List.forall_mem_cons.mp (h.later_bound hb.later (List.Subset.refl _))
    refine List.forall_mem_cons.mpr ⟨List.forall_mem_append.mpr ⟨hold.1, fun b hb' => ?_⟩, hold.2⟩
    obtain ⟨hlt, ho⟩ := hb.bound b hb'
    exact ⟨hlt, ho ▸ h.enclosed.mem⟩

/-- Where nothing is declared the scopes stay. -/
theorem Stands.still (h : Stands s within (here :: scopes)) (hb : Binds [] s t) :
    Stands t within (here :: scopes) := by
  have h := h.binds hb
  rwa [List.append_nil] at h

/-- Inside a scope that was opened. -/
theorem Stands.opened (h : Stands s within scopes) (ho : Opened here s t)
    (he : Enclosed t.facts t.context.function within') (hw : within ⊆ within') :
    Stands t within' (here :: scopes) where
  chain := ho.chain scopes h.chain
  enclosed := he
  bound := by
    refine List.forall_mem_cons.mpr ⟨fun b hb => ?_, h.later_bound ho.later hw⟩
    obtain ⟨hlt, hf⟩ := ho.bound b hb
    exact ⟨hlt, hf ▸ he.mem⟩

/-- Inside a block. -/
theorem Stands.block {es : List (String × Declared)} (h : Stands s within scopes)
    (hh : Hoists (openScope .block s) es t) (he : t.errors = []) :
    Stands t within ((es.map fun d => (d.1, d.2.symbol)) :: scopes) := by
  have ho := hh.opened he
  refine h.opened ho ?_ (List.Subset.refl _)
  rw [(hh.binds he).function]
  exact h.enclosed.later ho.later

/-- Inside a function. -/
theorem Stands.function {ds es rest : List (String × Declared)} {f : Nat}
    {declaration : Option (String × Nat)} {names : List String} (h : Stands s within (here :: scopes))
    (hr : Ready s (ds.map fun d => d.2.function)) (hf : Begins s ds f declaration rest t)
    (hen : Enters f names t u) (hh : Hoists u es v) (he : v.errors = []) :
    Stands v (f :: within)
      ((names.zip (u.facts.info f).params ++ es.map fun d => (d.1, d.2.symbol)) ::
        here :: scopes) := by
  obtain ⟨hlt, hinner, hk, hparent⟩ := hf.inner hr
  have ho := hen.inside hh hlt he
  have hst := h.still (hf.binds ho.errors)
  refine hst.opened ho ?_ (List.subset_cons_self _ _)
  have hcurrent : t.context.function = s.context.function := by rw [hf.same.2.2.1]
  rw [hh.opens.context, (hen.entered hlt (Nat.ne_zero_of_lt hinner) hk).function]
  obtain ⟨pend, hl⟩ := ho.later
  exact .inner (Nat.lt_of_lt_of_le hlt hl.functions_le) ((hl.parent f hlt).trans hparent) hinner
    (hcurrent ▸ hst.enclosed.later ho.later)

/-- A name that resolves gives a symbol that was declared, in one of the functions around it. -/
theorem Stands.resolved (h : Stands s within scopes) {name : String} {y : Nat}
    (hr : resolveIn scopes name = some y) :
    y < s.facts.symbols.size ∧ (s.facts.symbol y).function ∈ within := by
  obtain ⟨scope, hscope, hy⟩ := List.exists_of_findSome?_eq_some hr
  exact h.bound scope hscope _ (mem_of_lookup hy)

end Stands

/-- A use of a symbol captures nothing. -/
theorem passes_used {y : Nat} {outside : Bool} {access : Access} {found : Option Nat}
    (h : Passes (do use y outside access; return some y) s found t) :
    found = some y ∧ ∀ f, t.facts.captures f = s.facts.captures f := by
  obtain ⟨_, t', hu, h⟩ := h.bind (by simp)
  obtain ⟨rfl, rfl, -⟩ := passes_pure.mp h
  rw [passes_use hu]
  exact ⟨rfl, captures_of_functions rfl⟩

/-- **Names.** A name that is resolved refers to what the scopes say, and just the functions capture
it that have to. -/
theorem resolve_resolves {within : List Nat} {scopes : List Bindings} {name : String}
    {range : Range} {access : Access} {found : Option Nat}
    (h : Passes (resolve name range access) s found t) (hs : Stands s within scopes) :
    ∃ y, found = some y ∧ resolveIn scopes name = some y ∧
      Captured (fun f z => z = y ∧ Outside s.facts within f y) s.facts t.facts := by
  unfold resolve at h
  rw [passes_get_bind, hs.chain.lookup name hs.chain.lt] at h
  cases hr : resolveIn scopes name with
  | none =>
      simp only [hr] at h
      exact absurd h (not_passes_report_bind fun _ => keeps_pure)
  | some y =>
      simp only [hr, passes_symbolInfo_bind] at h
      have hown : Passes (do
            use y ((s.facts.symbol y).function != s.context.function) access
            return some y) s found t →
          (∀ f, ¬ Outside s.facts within f y) →
          ∃ z, found = some z ∧ some y = some z ∧
            Captured (fun f x => x = z ∧ Outside s.facts within f z) s.facts t.facts := by
        intro h hn
        obtain ⟨rfl, hf⟩ := passes_used h
        exact ⟨y, rfl, rfl, .of_eq hf fun f z hz => hn f hz.2⟩
      cases hst : (s.facts.symbol y).storage with
      | frame k =>
          simp only [hst] at h
          cases hb : ((s.facts.symbol y).function != s.context.function) with
          | false =>
              simp only [hb, Bool.false_eq_true, if_false, pure_bind, Bool.not_true,
                Bool.false_and] at h
              rw [hb] at hown
              refine hown h fun f ho => hs.enclosed.not_sublist f ?_
              have heq : (s.facts.symbol y).function = s.context.function := by simpa using hb
              exact heq ▸ ho.2
          | true =>
              -- A variable of a function around this one.
              simp only [hb, if_true, Bool.true_and] at h
              obtain ⟨allowed, u, hc, h⟩ := h.bind fun allowed =>
                keeps_ite (by simp) (keeps_ite (by simp) (by simp))
              cases allowed with
              | false =>
                  simp only [Bool.not_false, if_true] at h
                  exact absurd h (not_passes_report_bind fun _ => keeps_pure)
              | true =>
                  simp only [Bool.not_true, Bool.false_eq_true, if_false] at h
                  split at h
                  · exact absurd h (not_passes_report_bind (by simp))
                  · obtain ⟨rfl, hf⟩ := passes_used h
                    have hcaptured := captured_capture _ hs.enclosed (hs.resolved hr).2
                      hs.enclosed.lt hc.1
                    refine ⟨y, rfl, rfl, ?_⟩
                    refine (hcaptured.trans (.of_eq hf fun _ _ => not_false)).congr fun f z => ?_
                    rw [or_false, Outside]
                    simp [hst]
      | _ =>
          simp only [hst, Bool.false_eq_true, if_false, pure_bind, Bool.not_true,
            Bool.false_and] at h
          refine hown h fun f ho => ?_
          obtain ⟨k, hk⟩ := ho.1
          simp [hst] at hk

/-! ### Walks -/

/-- The uses of names between two states are resolved, and account for the captures. -/
structure Accounts (F : Facts) (s t : AnalysisState) (uses : List Use) : Prop where
  resolved : ∀ u ∈ uses, u.Resolved
  captured : Captured (fun f y => ∃ u ∈ uses, u.Captures F f y) s.facts t.facts

section Accounts

variable {F : Facts} {us vs : List Use}

/-- Without uses no captures are accounted for. -/
theorem accounts_nil (s : AnalysisState) : Accounts F s s [] :=
  ⟨by simp, .of_eq (fun _ => rfl) (by simp)⟩

/-- Uses in a row account for the captures of both parts. -/
theorem Accounts.append (h : Accounts F s t us) (h' : Accounts F t u vs) :
    Accounts F s u (us ++ vs) where
  resolved := List.forall_mem_append.mpr ⟨h.resolved, h'.resolved⟩
  captured := by
    refine (h.captured.trans h'.captured).congr fun f y => ?_
    simp only [List.mem_append, or_and_right, exists_or]

/-- Only the captures of the states matter. -/
theorem Accounts.congr (h : Accounts F t u us) (hs : ∀ f, t.facts.captures f = s.facts.captures f)
    (hv : ∀ f, v.facts.captures f = u.facts.captures f) : Accounts F s v us where
  resolved := h.resolved
  captured := by
    refine ⟨fun f y => ?_, fun f hf => ?_⟩
    · rw [hv, h.captured.mem, hs]
    · rw [hv]
      exact h.captured.nodup f (hs f ▸ hf)

end Accounts

section Steps

variable {F : Facts} {name : String} {f y : Nat} {names : List String}
  {ds es rest : List (String × Declared)}

/-- A new function captures nothing. -/
theorem Founds.captures {kind : FunctionKind} (h : Founds s kind f t) (e : Nat) :
    t.facts.captures e = s.facts.captures e := by
  obtain ⟨info, -, -, hc, rfl⟩ := h.state
  rw [Facts.captures, Facts.info_push]
  split
  · next he =>
      rw [hc, Facts.captures, Facts.info, Array.getElem?_eq_none (Nat.le_of_eq he.symm)]
      rfl
  · rfl

/-- Declared functions capture nothing before their bodies are analyzed. -/
theorem Hoists.captures (h : Hoists s ds t) (e : Nat) :
    t.facts.captures e = s.facts.captures e := by
  induction h with
  | nil => rfl
  | cons hf hd _ ih => rw [ih, captures_of_functions hd.functions, hf.captures]

/-- Parameters are symbols, so their declaration leaves the records of functions. -/
theorem DeclaresAll.functions {ys : List Nat} (h : DeclaresAll s names ys t) :
    t.facts.functions = s.facts.functions := by
  induction h with
  | nil => rfl
  | cons ha hd _ ih => rw [ih, hd.functions, ha.functions]

/-- A change of a record that leaves its captures leaves all captures. -/
theorem captures_withFunction {e : Nat} {change : FunctionInfo → FunctionInfo}
    (hf : f < s.facts.functions.size) (hc : ∀ i, (change i).captures = i.captures) :
    (withFunction f change s).facts.captures e = s.facts.captures e := by
  rw [withFunction, Facts.captures, Facts.info_modify hf]
  split
  · exact hc _
  · rfl

/-- A function that is entered captures nothing by that. -/
theorem Enters.captures (h : Enters f names s t) (hf : f < s.facts.functions.size) (e : Nat) :
    t.facts.captures e = s.facts.captures e := by
  obtain @⟨signature, ys, t, h⟩ := h
  have hft : f < t.facts.functions.size := by
    rw [h.functions]
    exact hf.trans_eq Array.size_modify.symm
  have hend : (withFunction f (fun i => { i with params := ys }) t).facts.captures e =
      t.facts.captures e := captures_withFunction hft fun _ => rfl
  rw [hend, captures_of_functions h.functions]
  exact captures_withFunction (s := openScope .function { s with context := startContext f signature })
    hf fun _ => rfl

/-- A function captures nothing before its body is analyzed. -/
theorem Begins.captures {declaration : Option (String × Nat)}
    (h : Begins s ds f declaration rest t) (e : Nat) :
    t.facts.captures e = s.facts.captures e := by
  cases h with
  | lambda hf => exact hf.captures e
  | named => rfl

/-- Variables keep their functions and their storage. -/
theorem outside_iff {F F' : Facts} (hl : Later F F') {within : List Nat} (hy : y < F.symbols.size) :
    Outside F' within f y ↔ Outside F within f y := by
  obtain ⟨pend, ha⟩ := hl
  rw [Outside, Outside, (ha.symbol y hy).storage, (ha.symbol y hy).function]

/-- A single name. -/
theorem accounts_resolve {within : List Nat} {scopes : List Bindings} {range : Range}
    {access : Access} {found symbol : Option Nat} (h : resolve name range access s = (found, t))
    (he : t.errors = []) (hsymbol : ∀ y, found = some y → symbol = some y)
    (hs : Stands s within scopes) (hl : Later t.facts F) :
    Accounts F s t [{ name, symbol, scopes, within }] := by
  obtain ⟨y, hfound, hr, hc⟩ := resolve_resolves ⟨h, he⟩ hs
  have hy := hsymbol y hfound
  have hl' : Later s.facts F := Later.trans ⟨[], (touches_of_resolve h).adds⟩ hl
  refine ⟨?_, hc.congr fun f z => ?_⟩
  · exact List.forall_mem_singleton.mpr ⟨y, hy, hr⟩
  · simp only [List.mem_singleton, exists_eq_left, Use.Captures, hy, Option.some.injEq]
    constructor
    · rintro ⟨rfl, ho⟩
      exact ⟨rfl, (outside_iff hl' (hs.resolved hr).1).mpr ho⟩
    · rintro ⟨rfl, ho⟩
      exact ⟨rfl, (outside_iff hl' (hs.resolved hr).1).mp ho⟩

end Steps

/-- **Walks.** The names in a walk without errors refer to what the scopes around them say. Functions
capture what they have to for these names, and nothing else. -/
theorem Walk.accounts {F : Facts} {ds : List (String × Declared)} {is : List Item}
    (h : Walk s ds is t) : ∀ {q within : List Nat} {here : Bindings} {scopes : List Bindings},
    Ready s (ds.map fun d => d.2.function) → t.errors = [] → t.facts.Adds q F →
    (∀ m ∈ Item.madeOf is, m.number ∉ q) → Stands s within (here :: scopes) →
    Accounts F s t (Item.usesOf F within here scopes is) := by
  induction h with
  | nil => exact fun _ _ _ _ _ => accounts_nil _
  | still hs hw ih =>
      intro q within here scopes hr he ha hq hst
      have hb := hs.touches.binds (hw.errors he)
      have hrest := ih (hr.steps hs.touches.steps) he ha hq (hst.still hb)
      exact hrest.congr (fun f => by rw [hs.facts]) fun _ => rfl
  | use hu hsymbol hw ih =>
      intro q within here scopes hr he ha hq hst
      have ht := touches_of_resolve hu
      have herrors := hw.errors he
      have hr' := hr.steps ht.steps
      have hl : Later _ F := ⟨_, (hw.settled hr').adds.trans ha⟩
      have hrest := ih hr' he ha hq (hst.still (ht.binds herrors))
      exact (accounts_resolve hu herrors hsymbol hst hl).append hrest
  | rejected hs hw _ =>
      intro q within here scopes hr he
      exact absurd (hw.errors he) hs
  | «variable» ha' hd hw ih =>
      intro q within here scopes hr he ha hq hst
      have hd' := hd.binds (hw.errors he)
      have hr' := hr.steps (p := []) (ha'.stores hr.main_iff hd).toSteps
      have hrest := ih hr' he ha hq (hst.binds ((ha'.binds hd'.errors).trans hd'))
      exact hrest.congr (captures_of_functions (hd.functions.trans ha'.functions)) fun _ => rfl
  | @block s t u v ds es body is hh hb hw ihb ih =>
      intro q within here scopes hr he ha hq hst
      have hu : u.errors = [] := hw.errors he
      have halone : Walk s [] [.block body] (closeScope s u) := .block hh hb .nil
      have hset := halone.settled hr.nil
      have hr' := hr.steps (p := []) hset.toSteps
      have hadds : u.facts.Adds _ F := (hw.settled hr').adds.trans ha
      have hmade : ∀ m ∈ Item.madeOf body, m.number ∉ (ds.map fun d => d.2.function) ++ q :=
        fun m hm => hset.done_append (p := []) hr hq m (List.mem_append_left _ hm)
      have hbody := ihb (hr.block hh) hu hadds hmade (hst.block hh (hb.errors hu))
      rw [← hb.declarations_eq] at hbody
      have hhead : Accounts F s (closeScope s u)
          (Item.usesOf F within (Item.declarations body) (here :: scopes) body) :=
        hbody.congr hh.captures fun _ => rfl
      have hb' : Binds [] s (closeScope s u) := halone.binds hr.nil hst.chain.lt hu
      exact hhead.append (ih hr' he ha (fun m hm => hq m (List.mem_append_right _ hm))
        (hst.still hb'))
  | @function s t u v w x ds es rest body is f declaration names hf hen hh hb hw ihb ih =>
      intro q within here scopes hr he ha hq hst
      have hw' : w.errors = [] := hw.errors he
      have hinside := hst.function hr hf hen hh (hb.errors hw')
      obtain ⟨hft, hinner, hk, -⟩ := hf.inner hr
      have h0 := Nat.ne_zero_of_lt hinner
      obtain ⟨p, rfl, halone⟩ := hf.alone hen hh hb
      rw [List.map_append] at hr
      have hset := halone.settled hr.left
      have hr' := hr.steps hset.toSteps
      have hleave : (leaveFunction f t w).facts.Adds _ F := (hw.settled hr').adds.trans ha
      obtain ⟨hfw, hparams, hadds, hmade⟩ :=
        hb.inside hen hh hft h0 hk hleave (hset.done_append hr hq)
      have hbody := ihb (hen.ready hh hft h0 hk) hw' hadds hmade hinside
      rw [← hb.declarations_eq, ← hparams] at hbody
      have hhead : Accounts F s (leaveFunction f t w)
          ((Item.function (some f) declaration names body).uses F within (here :: scopes)) :=
        hbody.congr (fun e => by rw [hh.captures, hen.captures hft, hf.captures])
          fun e => captures_withFunction hfw fun _ => rfl
      have hb' : Binds [] s (leaveFunction f t w) := halone.binds hr.left hst.chain.lt hw'
      exact hhead.append (ih hr' he ha (fun m hm => hq m (List.mem_append_right _ hm))
        (hst.still hb'))

/-! ### Different declarations -/

/-- Declarations have different symbols between `n` and `m`, but those in `p` were declared
before. -/
structure Numbered (p : List Nat) (n m : Nat) (ys : List Nat) : Prop where
  nodup : ys.Nodup
  lt : ∀ y ∈ ys, y < m
  new : ∀ y ∈ ys, y ∈ p ∨ n ≤ y

namespace Numbered

variable {p q ys zs : List Nat} {k l m n : Nat}

/-- No declarations have no symbols. -/
theorem nil (p : List Nat) (n m : Nat) : Numbered p n m [] :=
  ⟨List.nodup_nil, by simp, by simp⟩

/-- Declarations that are there already. -/
theorem self (hp : p.Nodup) (hlt : ∀ y ∈ p, y < n) : Numbered p n n p :=
  ⟨hp, hlt, fun _ hy => .inl hy⟩

/-- Declarations in a row have different symbols, if the second part does not have those that the
first had before. -/
theorem append (h : Numbered p k m ys) (h' : Numbered q m n zs) (hk : k ≤ m) (hm : m ≤ n)
    (hpq : p.Disjoint q) (hq : ∀ y ∈ q, y < k) : Numbered (p ++ q) k n (ys ++ zs) where
  nodup := by
    refine h.nodup.append h'.nodup fun y hy hz => ?_
    rcases h'.new y hz with hyq | hle
    · rcases h.new y hy with hyp | hle
      · exact hpq hyp hyq
      · exact Nat.lt_irrefl _ (Nat.lt_of_lt_of_le (hq y hyq) hle)
    · exact Nat.lt_irrefl _ (Nat.lt_of_lt_of_le (h.lt y hy) hle)
  lt := List.forall_mem_append.mpr ⟨fun y hy => Nat.lt_of_lt_of_le (h.lt y hy) hm, h'.lt⟩
  new := List.forall_mem_append.mpr
    ⟨fun y hy => (h.new y hy).imp_left (List.mem_append_left _),
      fun y hy => (h'.new y hy).imp (List.mem_append_right _) (Nat.le_trans hk)⟩

/-- What was declared at the start of a scope is new outside. -/
theorem opened (h : Numbered [] k m p) (h' : Numbered p m n ys) (hk : k ≤ m) :
    Numbered [] k n ys where
  nodup := h'.nodup
  lt := h'.lt
  new y hy := by
    rcases h'.new y hy with hp | hle
    · exact h.new y hp
    · exact .inr (Nat.le_trans hk hle)

end Numbered

section Numbers

variable {F : Facts} {name : String} {f y : Nat} {names : List String}
  {ds es rest : List (String × Declared)}

/-- A declaration gets the next symbol. -/
theorem Declares.numbered {kind : SymbolKind} {storage : Storage}
    (h : Declares s name kind storage y t) :
    Numbered [] s.facts.symbols.size t.facts.symbols.size [y] := by
  refine ⟨List.nodup_singleton y, ?_, ?_⟩
  · rw [h.size, h.number]
    simp
  · rw [h.number]
    simp

/-- Declared functions get the next symbols, in their order. -/
theorem Hoists.numbered (h : Hoists s ds t) :
    Numbered [] s.facts.symbols.size t.facts.symbols.size (ds.map fun d => d.2.symbol) := by
  induction h with
  | nil => exact .nil _ _ _
  | cons hf hd hh ih =>
      have h := hd.numbered.append ih hd.adds.symbols_le hh.opens.adds.symbols_le (by simp) (by simp)
      rwa [hf.symbols] at h

/-- Parameters add symbols, and take none away. -/
theorem DeclaresAll.symbols_le {ys : List Nat} (h : DeclaresAll s names ys t) :
    s.facts.symbols.size ≤ t.facts.symbols.size := by
  induction h with
  | nil => exact Nat.le_refl _
  | cons ha hd _ ih =>
      rw [← ha.symbols]
      exact Nat.le_trans hd.adds.symbols_le ih

/-- Parameters get the next symbols, in their order. -/
theorem DeclaresAll.numbered {ys : List Nat} (h : DeclaresAll s names ys t) :
    Numbered [] s.facts.symbols.size t.facts.symbols.size ys := by
  induction h with
  | nil => exact .nil _ _ _
  | cons ha hd hall ih =>
      have h := hd.numbered.append ih hd.adds.symbols_le hall.symbols_le (by simp) (by simp)
      rwa [ha.symbols] at h

/-- The parameters of a function that is entered get the next symbols. -/
theorem Enters.numbered (h : Enters f names s t) (hf : f < s.facts.functions.size) :
    Numbered [] s.facts.symbols.size t.facts.symbols.size (t.facts.info f).params := by
  obtain @⟨signature, ys, t, h⟩ := h
  have hft : f < t.facts.functions.size := by
    rw [h.functions]
    exact hf.trans_eq Array.size_modify.symm
  rw [withFunction, Facts.info_modify hft, if_pos rfl]
  exact h.numbered

/-- The symbol of a declared function is the first of those that wait. A lambda has none. -/
theorem Begins.symbols {declaration : Option (String × Nat)}
    (h : Begins s ds f declaration rest t) : ds.map (fun d => d.2.symbol) =
      (declaration.map (·.2)).toList ++ rest.map fun d => d.2.symbol := by
  cases h with
  | lambda _ => rfl
  | named => rfl

end Numbers

/-- **Declarations.** The declarations in a walk have different symbols, each of them numbered
between the symbols before the walk and those behind it. So two walks in a row share none. -/
theorem Walk.numbered {F : Facts} {ds : List (String × Declared)} {is : List Item}
    (h : Walk s ds is t) : ∀ {q : List Nat}, Ready s (ds.map fun d => d.2.function) →
    t.facts.Adds q F → (∀ m ∈ Item.madeOf is, m.number ∉ q) → (ds.map fun d => d.2.symbol).Nodup →
    (∀ y ∈ ds.map fun d => d.2.symbol, y < s.facts.symbols.size) →
    Numbered (ds.map fun d => d.2.symbol) s.facts.symbols.size t.facts.symbols.size
      (Item.symbolsOf F is) := by
  induction h with
  | nil => exact fun _ _ _ _ _ => .nil _ _ _
  | still hs _ ih =>
      intro q hr ha hq hn hlt
      rw [← hs.facts] at hlt ⊢
      exact ih (hr.steps hs.touches.steps) ha hq hn hlt
  | use hu _ _ ih =>
      intro q hr ha hq hn hlt
      have ht := touches_of_resolve hu
      rw [← ht.symbols_size] at hlt ⊢
      exact ih (hr.steps ht.steps) ha hq hn hlt
  | rejected _ _ ih => exact ih
  | «variable» ha' hd hw ih =>
      intro q hr ha hq hn hlt
      have hset := (ha'.stores hr.main_iff hd).toSteps
      have hr' := hr.steps (p := []) hset
      have hrest := ih hr' ha hq hn fun y hy => Nat.lt_of_lt_of_le (hlt y hy) hset.adds.symbols_le
      rw [← ha'.symbols] at hlt ⊢
      exact hd.numbered.append hrest hd.adds.symbols_le (hw.settled hr').adds.symbols_le (by simp) hlt
  | @block s t u v ds es body is hh hb hw ihb ih =>
      intro q hr ha hq hn hlt
      have hset : Settled [] [.block body] s (closeScope s u) :=
        (Walk.block hh hb .nil).settled hr.nil
      have hr' := hr.steps (p := []) hset.toSteps
      have hadds : u.facts.Adds _ F := (hw.settled hr').adds.trans ha
      have hmade : ∀ m ∈ Item.madeOf body, m.number ∉ (ds.map fun d => d.2.function) ++ q :=
        fun m hm => hset.done_append (p := []) hr hq m (List.mem_append_left _ hm)
      have hbody := ihb (hr.block hh) hadds hmade hh.numbered.nodup hh.numbered.lt
      have hhead := hh.numbered.opened hbody hh.opens.adds.symbols_le
      have hrest := ih hr' ha (fun m hm => hq m (List.mem_append_right _ hm)) hn fun y hy =>
        Nat.lt_of_lt_of_le (hlt y hy) hset.adds.symbols_le
      exact hhead.append hrest hset.adds.symbols_le (hw.settled hr').adds.symbols_le (by simp) hlt
  | @function s t u v w x ds es rest body is f declaration names hf hen hh hb hw ihb ih =>
      intro q hr ha hq hn hlt
      obtain ⟨hft, hinner, hk, -⟩ := hf.inner hr
      have h0 := Nat.ne_zero_of_lt hinner
      rw [hf.symbols] at hn hlt ⊢
      obtain ⟨p, rfl, halone⟩ := hf.alone hen hh hb
      rw [List.map_append] at hr
      have hset := halone.settled hr.left
      have hr' := hr.steps hset.toSteps
      have hleave : (leaveFunction f t w).facts.Adds _ F := (hw.settled hr').adds.trans ha
      have hready := hen.ready hh hft h0 hk
      obtain ⟨hfw, hparams, hadds, hmade⟩ := hb.inside hen hh hft h0 hk hleave (hset.done_append hr hq)
      have hinside := hh.numbered.opened
        (ihb hready hadds hmade hh.numbered.nodup hh.numbered.lt) hh.opens.adds.symbols_le
      have htu : t.facts.symbols.size ≤ u.facts.symbols.size :=
        (hen.entered hft h0 hk).adds.symbols_le
      have huw : u.facts.symbols.size ≤ w.facts.symbols.size :=
        Nat.le_trans hh.opens.adds.symbols_le (hb.settled hready).adds.symbols_le
      have hbody := (hen.numbered hft).append hinside htu huw (by simp) (by simp)
      rw [hf.same.2.2.2, ← hparams] at hbody
      have hdeclared := Numbered.self (List.nodup_append.mp hn).1 fun y hy =>
        hlt y (List.mem_append_left _ hy)
      have hhead := hdeclared.append hbody (Nat.le_refl _) hset.adds.symbols_le (by simp) (by simp)
      have hrest := ih hr' ha (fun m hm => hq m (List.mem_append_right _ hm))
        (List.nodup_append.mp hn).2.1 fun y hy =>
          Nat.lt_of_lt_of_le (hlt y (List.mem_append_right _ hy)) hset.adds.symbols_le
      rw [List.append_nil, List.append_nil] at hhead
      exact hhead.append hrest hset.adds.symbols_le (hw.settled hr').adds.symbols_le
        (List.disjoint_of_nodup_append hn) fun y hy => hlt y (List.mem_append_right _ hy)

/-! ### Programs -/

/-- In the beginning the scopes are those of the program and of the builtins. -/
theorem stands_initial : Stands initial [0] [[], builtinScope] where
  chain := ScopeChain.inner (s := initialScopes[1]) rfl rfl Nat.zero_lt_one
    (.outer (s := initialScopes[0]) rfl rfl)
  enclosed := .outer (by decide) rfl
  bound := by decide

/-- In the beginning nothing is captured. -/
theorem captures_initial (f : Nat) : initial.facts.captures f = [] := by
  cases f with
  | zero => rfl
  | succ f => rfl

/-- At the end of analysis captures stay as they are. -/
theorem captures_finish {s : AnalysisState} (hlt : 0 < s.facts.functions.size) (f : Nat) :
    (finish s).captures f = s.facts.captures f := by
  rw [Facts.captures, info_finish hlt]
  split
  · rfl
  · rfl

end Analyze

/-- **Names.** Take the analysis of a program, without errors. Different declarations have different
symbols. Every name that is used refers to the declaration that the first scope around it says that
declares the name at this place. Every function captures each variable once that a use inside it
refers to and that is on the frame of a function around it, and captures nothing else. -/
theorem names_resolve (g : Grammar) (size : Nat) (tokens : List Token)
    (he : (analyze (parseTokens g size tokens).1).2 = []) :
    let a := (analyze (parseTokens g size tokens).1).1
    (builtinScope.map (·.2) ++ Item.symbolsOf a.facts a.program.root.items).Nodup ∧
    (∀ u ∈ a.uses, u.Resolved) ∧
    ∀ f, (a.facts.captures f).Nodup ∧
      ∀ y, y ∈ a.facts.captures f ↔ ∃ u ∈ a.uses, u.Captures a.facts f y := by
  intro a
  obtain ⟨s, ⟨ds, t, hh, hw⟩, hfacts, herrors⟩ :=
    analyze_fills (p := (parseTokens g size tokens).1) parseTokens_regular
  have hfacts : a.facts = Analyze.finish s := hfacts
  have hs : s.errors = [] := List.reverse_eq_nil_iff.mp (herrors.symm.trans he)
  have hready := hh.opens.ready Analyze.ready_initial
  have hset := (hw.settled hready).opened hh.opens
  have hlt : 0 < s.facts.functions.size := hset.adds.functions_le
  have hadds := Analyze.adds_finish hlt
  have hstands := Analyze.stands_initial.binds (hh.binds (hw.errors hs))
  have haccounts := hw.accounts hready hs hadds (fun _ _ => List.not_mem_nil) hstands
  rw [List.nil_append, ← hw.declarations_eq, ← hfacts] at haccounts
  have hnumbered := hh.numbered.opened (hw.numbered hready hadds (fun _ _ => List.not_mem_nil)
    hh.numbered.nodup hh.numbered.lt) hh.opens.adds.symbols_le
  rw [← hfacts] at hnumbered
  have hcaptures : ∀ f, t.facts.captures f = [] := fun f =>
    (hh.captures f).trans (Analyze.captures_initial f)
  have hend : ∀ f, a.facts.captures f = s.facts.captures f := fun f => by
    rw [hfacts]
    exact Analyze.captures_finish hlt f
  refine ⟨?_, haccounts.resolved, fun f => ⟨?_, fun y => ?_⟩⟩
  · refine List.Nodup.append (by decide) hnumbered.nodup fun y hy hd => ?_
    have hle := (hnumbered.new y hd).resolve_left List.not_mem_nil
    have hbuiltin : ∀ y ∈ builtinScope.map (·.2), y < Analyze.initial.facts.symbols.size := by decide
    exact Nat.lt_irrefl _ (Nat.lt_of_lt_of_le (hbuiltin y hy) hle)
  · rw [hend]
    refine haccounts.captured.nodup f ?_
    rw [hcaptures]
    exact List.nodup_nil
  · rw [hend, haccounts.captured.mem, hcaptures]
    simp only [List.not_mem_nil, false_or]
    rfl

/-- A lambda with a variable that has the name of a parameter around it. -/
def shadowsParameter : List Char :=
  "fn f(a: int) \x7b fn() -> int \x7b let a = a; a \x7d; \x7d".toList

/-- In this text the inner variable and the parameter around it are two symbols. -/
theorem symbols_shadowsParameter :
    (CompileOptions.lex {} shadowsParameter).toOption.map (fun tokens =>
      let a := analyze (parseTokens .standard 46 tokens).1
      (a.2.isEmpty, a.1.uses.map (·.symbol), a.1.facts.captures 2)) =
    some (true, [some 6, some 7], [6]) := by
  rw [Grammar.standard_eq]
  decide +kernel

/-- In `shadowsParameter` the variable is not declared yet in its own initializer. So the first `a`
is the parameter, and the second one is the variable. The lambda captures the parameter. -/
theorem shadowsParameter_resolves :
    ∃ tokens, CompileOptions.lex {} shadowsParameter = .ok tokens ∧
      let a := analyze (parseTokens .standard 46 tokens).1
      a.2 = [] ∧ a.1.uses.map (·.symbol) = [some 6, some 7] ∧ (∀ u ∈ a.1.uses, u.Resolved) ∧
        ∃ u ∈ a.1.uses, u.Captures a.1.facts 2 6 := by
  have h := symbols_shadowsParameter
  cases hl : CompileOptions.lex {} shadowsParameter with
  | error e => simp [hl, Except.toOption] at h
  | ok tokens =>
      simp only [hl, Except.toOption, Option.map_some, Option.some.injEq, Prod.mk.injEq,
        List.isEmpty_iff] at h
      obtain ⟨herrors, huses, hcaptures⟩ := h
      obtain ⟨-, hresolved, hcaptured⟩ := names_resolve .standard 46 tokens herrors
      refine ⟨tokens, rfl, herrors, huses, hresolved, ((hcaptured 2).2 6).mp ?_⟩
      rw [hcaptures]
      exact List.mem_singleton_self 6

end Parlance
