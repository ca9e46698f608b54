import Mathlib.Data.List.Perm.Subperm
import Parlance.Proofs.Analysis.Checks
import Parlance.Proofs.Analysis.Declare

/-!
# Analysis is sound

What analysis accepts is scoped and typed, and so are the bodies of all functions in it.

A judgement about a part of a tree is made long before the facts are complete. So what is
proved about each part is that the judgement holds of all facts that the analysis of the rest
can lead to (`Analyze.Final`).

## Main results

* `Analyze.expr_sound`, `Analyze.stmt_sound`: the induction over trees.
* `analyze_sound`: the facts of an accepted program are coherent, and all its functions are
  accepted.
-/

namespace Parlance

/-! ### Functions of a tree -/

/-- Functions that a part of a tree makes: they are accepted, and each of them has the label of
its own node. None of them is the program. -/
structure Facts.Made (facts : Facts) (functions : List FunctionBody) (labels : List Nat) :
    Prop where
  accepts : ∀ b ∈ functions, b.1 ≠ 0 ∧ facts.Accepts b.1 b.2
  nodes : List.Subperm (functions.map fun b => (facts.info b.1).node) labels

namespace Facts.Made

variable {F : Facts} {as bs : List FunctionBody} {ls ms : List Nat}

/-- A part of a tree without functions makes none. -/
theorem nil : F.Made [] ls :=
  ⟨by simp, List.nil_subperm⟩

/-- The functions of two parts of a tree are those of both, with the labels of both. -/
theorem append (ha : F.Made as ls) (hb : F.Made bs ms) : F.Made (as ++ bs) (ls ++ ms) := by
  refine ⟨fun b hm => ?_, ?_⟩
  · rcases List.mem_append.mp hm with hm | hm
    · exact ha.accepts b hm
    · exact hb.accepts b hm
  · rw [List.map_append]
    exact ha.nodes.append hb.nodes

/-- Functions that are made among some labels are made among more of them. -/
theorem mono (ha : F.Made as ls) (h : ls.Sublist ms) : F.Made as ms :=
  ⟨ha.accepts, ha.nodes.trans h.subperm⟩

/-- The label of a node itself stands behind those of its parts, and makes no function. -/
theorem snoc (ha : F.Made as ls) {n : Nat} : F.Made as (ls ++ [n]) :=
  ha.mono (List.sublist_append_left _ _)

/-- A function with those inside it. -/
theorem function {f n : Nat} {b : Block} (h0 : f ≠ 0) (hf : F.Accepts f b)
    (hn : (F.info f).node = n) (hb : F.Made bs ls) : F.Made ((f, b) :: bs) (ls ++ [n]) := by
  refine ⟨?_, ?_⟩
  · intro c hm
    rcases List.mem_cons.mp hm with rfl | hm
    · exact ⟨h0, hf⟩
    · exact hb.accepts c hm
  · have h : List.Subperm ((F.info f).node :: bs.map fun b => (F.info b.1).node) (n :: ls) := by
      rw [hn]
      exact (List.subperm_cons _).mpr hb.nodes
    exact h.trans (List.perm_append_singleton n ls).symm.subperm

end Facts.Made

/-- What analysis promises about an expression of the function `g`. -/
structure Expr.Sound (F : Facts) (g : Nat) (live : List Nat) (e : Expr) : Prop where
  inScope : e.Scoped F g live
  typed : e.Typed F
  made : F.Made (e.functions true) e.labels

structure Expr.AllSound (F : Facts) (g : Nat) (live : List Nat) (es : List Expr) : Prop where
  inScope : Expr.AllScoped F g live es
  typed : Expr.AllTyped F es
  made : F.Made (Expr.functionsOf true es) (Expr.labelsOf es)

/-- Expressions are sound together if each of them is, and they are collected from the front. -/
theorem Expr.Sound.cons {F : Facts} {g : Nat} {live : List Nat} {e : Expr} {es : List Expr}
    (h : e.Sound F g live) (hs : Expr.AllSound F g live es) : Expr.AllSound F g live (e :: es) :=
  ⟨⟨h.inScope, hs.inScope⟩, ⟨h.typed, hs.typed⟩, h.made.append hs.made⟩

/-- What analysis promises about a statement of the function `g`, which returns values of the
type `r`. -/
structure Stmt.Sound (F : Facts) (g : Nat) (live : List Nat) (r : Ty) (inLoop : Prop) (s : Stmt) :
    Prop where
  inScope : s.Scoped F g live
  typed : s.Typed F r
  looped : s.Looped inLoop
  made : F.Made (s.functions true) s.labels

structure Stmt.AllSound (F : Facts) (g : Nat) (live : List Nat) (r : Ty) (inLoop : Prop)
    (ss : List Stmt) : Prop where
  inScope : Stmt.AllScoped F g live ss
  typed : Stmt.AllTyped F r ss
  looped : Stmt.AllLooped inLoop ss
  made : F.Made (Stmt.functionsOf true ss) (Stmt.labelsOf ss)

/-- What analysis promises about a block inside the function `g`. -/
structure Block.Sound (F : Facts) (g : Nat) (live : List Nat) (r : Ty) (inLoop : Prop) (b : Block) :
    Prop where
  inScope : b.Scoped F g live
  typed : b.Typed F r
  looped : b.Looped inLoop
  made : F.Made (b.functions true) b.labels

/-- What analysis promises about the body of the function `g`. -/
structure Block.SoundBody (F : Facts) (g : Nat) (live : List Nat) (r : Ty) (inLoop : Prop)
    (b : Block) : Prop where
  inScope : b.Scoped F g live
  typed : b.TypedBody F r
  looped : b.Looped inLoop
  made : F.Made (b.functions true) b.labels

/-- A statement has the labels and the control flow of another one, and a branch of a
conditional still declares nothing. -/
structure Stmt.Mirrors (s' s : Stmt) : Prop where
  labels : s'.labels = s.labels
  terminates : s'.terminates = s.terminates
  breaks : s'.breaks = s.breaks
  alternate : s.IsAlternate → s'.declared = []

structure Stmt.AllMirror (ss' ss : List Stmt) : Prop where
  labels : Stmt.labelsOf ss' = Stmt.labelsOf ss
  terminates : Stmt.anyTerminates ss' = Stmt.anyTerminates ss
  breaks : Stmt.anyBreaks ss' = Stmt.anyBreaks ss

structure Block.Mirrors (b' b : Block) : Prop where
  labels : b'.labels = b.labels
  terminates : b'.terminates = b.terminates
  breaks : b'.breaks = b.breaks

namespace Analyze

variable {g : Nat} {live : List Nat} {outer : Nesting} {opens : Opens} {s s' t : AnalysisState}

/-! ### Expressions -/

/-- Analysis went from `s` to `s'`, made the functions in `fs` and left the current scope alone.
A statement holds of all facts from there on. -/
structure Establishes (g : Nat) (live : List Nat) (outer : Nesting) (opens : Opens)
    (s s' : AnalysisState) (fs : List FunctionBody) (P : Facts → Prop) : Prop where
  inv : Inv g live outer opens s'
  calm : Calm opens s s'
  finishes : Finishes opens opens s s' fs
  holds : ∀ F, s'.facts.Grows opens F → P F

namespace Establishes

variable {fs gs : List FunctionBody} {P Q : Facts → Prop}

/-- Where nothing happens the invariant stays, and what holds of all later facts is established. -/
theorem refl (hi : Inv g live outer opens s) (h : ∀ F, s.facts.Grows opens F → P F) :
    Establishes g live outer opens s s [] P :=
  ⟨hi, .refl _ _, .refl _ _, h⟩

/-- One part of analysis after the other establishes what both do. The facts behind the second part
come later than those behind the first, so what the first says still holds. -/
theorem trans (h : Establishes g live outer opens s t fs P)
    (h' : Establishes g live outer opens t s' gs Q) :
    Establishes g live outer opens s s' (fs ++ gs) fun F => P F ∧ Q F :=
  ⟨h'.inv, h.calm.trans h'.calm, h.finishes.trans h'.finishes,
    fun F hF => ⟨h.holds F (h'.calm.grows.trans hF), h'.holds F hF⟩⟩

/-- What is established may be weakened by everything that later facts imply. -/
theorem mono (h : Establishes g live outer opens s s' fs P)
    (hPQ : ∀ F, s'.facts.Grows opens F → P F → Q F) : Establishes g live outer opens s s' fs Q :=
  ⟨h.inv, h.calm, h.finishes, fun F hF => hPQ F hF (h.holds F hF)⟩

end Establishes

/-- The analysis of an expression is sound. -/
def SoundExpr (e : Expr) : Prop :=
  ∀ {g : Nat} {live : List Nat} {outer : Nesting} {opens : Opens} {s s' : AnalysisState}
    {want : Option Ty} {e' : Expr}, Passes (expr want e) s e' s' → Wanted want →
    Inv g live outer opens s →
    Establishes g live outer opens s s' (e'.functions true) (fun F => e'.Sound F g live) ∧
      e'.Suits want ∧ e'.labels = e.labels

/-- The analysis of expressions is sound. -/
def SoundExprs (es : List Expr) : Prop :=
  ∀ {g : Nat} {live : List Nat} {outer : Nesting} {opens : Opens} {s s' : AnalysisState}
    {want : Option Ty} {es' : List Expr}, Passes (exprs want es) s es' s' → Wanted want →
    Inv g live outer opens s →
    Establishes g live outer opens s s' (Expr.functionsOf true es')
        (fun F => Expr.AllSound F g live es') ∧
      (∀ e ∈ es', e.Suits want) ∧ Expr.labelsOf es' = Expr.labelsOf es ∧ es'.length = es.length

variable {n : Note} {e e' : Expr} {want : Option Ty}

/-- The last step of an expression: its type is checked. -/
theorem settle_sound (h : Passes (settle want e) s e' s') (hw : Wanted want)
    (ht : e.ty.isError = false) {s₀ : AnalysisState}
    (he : Establishes g live outer opens s₀ s (e.functions true) fun F => e.Sound F g live)
    {labels : List Nat} (hl : e.labels = labels) :
    Establishes g live outer opens s₀ s' (e'.functions true) (fun F => e'.Sound F g live) ∧
      e'.Suits want ∧ e'.labels = labels := by
  obtain ⟨rfl, rfl, hf⟩ := passes_settle h hw ht
  exact ⟨he, hf, hl⟩

/-- No literal has the error type. -/
theorem lit_isError (v : Lit) : v.ty.isError = false := by
  cases v <;> rfl

/-- A literal has its own type, and looks nothing up. -/
theorem sound_lit {v : Lit} : SoundExpr (.lit n v) := by
  intro g live outer opens s s' want e' h hw hi
  rw [expr] at h
  exact settle_sound h hw (lit_isError v) (.refl hi fun F _ => ⟨trivial, rfl, .nil⟩) rfl

/-- A name that resolves has the type of its symbol, and is visible where it stands. -/
theorem sound_ident {name : String} : SoundExpr (.ident n name) := by
  intro g live outer opens s s' want e' h hw hi
  rw [expr] at h
  obtain ⟨r, t, hr, h⟩ := h.bind (by
    intro r
    split <;> simp)
  obtain ⟨y, rfl, hti, htc, hsize, hread, -⟩ := passes_resolve hr hi
  dsimp only at h
  rw [passes_symbolInfo_bind] at h
  change Passes (settle want (.ident { n with ty := (t.facts.symbol y).ty, symbol := some y } name))
    t e' s' at h
  refine settle_sound h hw (hti.coherent.symbol y hread.1).1
    ⟨hti, htc, .of_size hsize, fun F hF => ?_⟩ rfl
  refine ⟨?_, ⟨y, rfl, (hF.symbol y hread.1).ty.symm⟩, .nil⟩
  rintro _ ⟨⟩
  exact hF.readable hti.linked.head_lt hread

/-- A unary operation is sound if its operand is: `not` wants a bool and a negation wants a number.
-/
theorem sound_unary {op : UnaryOp} (he : SoundExpr e) : SoundExpr (.unary n op e) := by
  intro g live outer opens s s' want e' h hw hi
  cases op with
  | neg =>
      rw [expr] at h
      obtain ⟨a, t, ha, h⟩ := h.bind (by simp)
      obtain ⟨ty, u, hty, h⟩ := h.bind (by simp)
      obtain ⟨hea, hfit, hl⟩ := he ha wanted_none hi
      obtain ⟨rfl, rfl, hnum⟩ := passes_negationType hfit.1 hty
      refine settle_sound h hw hfit.1 (hea.mono fun F _ hs => ?_) ?_
      · exact ⟨hs.inScope, ⟨hs.typed, hnum, rfl⟩, hs.made.snoc⟩
      · rw [Expr.labels, Expr.labels, hl]
  | not =>
      rw [expr] at h
      obtain ⟨a, t, ha, h⟩ := h.bind (by simp)
      obtain ⟨hea, hfit, hl⟩ := he ha (wanted_some.mpr rfl) hi
      refine settle_sound h hw rfl (hea.mono fun F _ hs => ?_) ?_
      · exact ⟨hs.inScope, ⟨hs.typed, (Expr.suits_some.mp hfit).2, rfl⟩, hs.made.snoc⟩
      · rw [Expr.labels, Expr.labels, hl]

/-- A cast is sound if its operand is, since the pairs of types that pass are those that can be
cast. -/
theorem sound_cast {target : Scalar} (he : SoundExpr e) : SoundExpr (.cast n e target) := by
  intro g live outer opens s s' want e' h hw hi
  rw [expr] at h
  obtain ⟨a, t, ha, h⟩ := h.bind (by simp)
  obtain ⟨_, u, hc, h⟩ := h.bind (by simp)
  obtain ⟨hea, hfit, hl⟩ := he ha wanted_none hi
  obtain ⟨rfl, hsc⟩ := passes_checkCast hfit.1 hc
  refine settle_sound h hw ?_ (hea.mono fun F _ hs => ?_) ?_
  · cases target <;> rfl
  · exact ⟨hs.inScope, ⟨hs.typed, hsc, rfl⟩, hs.made.snoc⟩
  · rw [Expr.labels, Expr.labels, hl]

/-- A binary operation is sound if its operands are: the right one is analyzed against the type of
the left one. -/
theorem sound_binary {op : BinaryOp} {l r : Expr} (hl : SoundExpr l) (hr : SoundExpr r) :
    SoundExpr (.binary n op l r) := by
  intro g live outer opens s s' want e' h hw hi
  rw [expr] at h
  split at h
  · next hop =>
      obtain ⟨a, t, ha, h⟩ := h.bind (by simp)
      obtain ⟨b, u, hb, h⟩ := h.bind (by simp)
      obtain ⟨hea, hfa, hla⟩ := hl ha (wanted_some.mpr rfl) hi
      obtain ⟨heb, hfb, hlb⟩ := hr hb (wanted_some.mpr rfl) hea.inv
      rw [Expr.suits_some] at hfa hfb
      refine settle_sound h hw rfl ((hea.trans heb).mono fun F _ hs => ?_) ?_
      · refine ⟨⟨hs.1.inScope, hs.2.inScope⟩, ⟨hs.1.typed, hs.2.typed, hfb.2.trans hfa.2.symm, ?_⟩,
          (hs.1.made.append hs.2.made).snoc⟩
        rw [BinaryOp.Types, if_pos hop]
        exact ⟨hfa.2, rfl⟩
      · rw [Expr.labels, Expr.labels, hla, hlb]
  · next hop =>
      obtain ⟨a, t, ha, h⟩ := h.bind (by
        intro a
        exact keeps_bind (keeps_expr (some a.ty) r) fun _ => by simp)
      obtain ⟨b, u, hb, h⟩ := h.bind (by simp)
      obtain ⟨ty, v, hty, h⟩ := h.bind (by simp)
      obtain ⟨hea, hfa, hla⟩ := hl ha wanted_none hi
      obtain ⟨heb, hfb, hlb⟩ := hr hb (wanted_some.mpr hfa.1) hea.inv
      rw [Expr.suits_some] at hfb
      obtain ⟨rfl, hacc, rfl⟩ := passes_binaryType hfa.1 hty
      refine settle_sound h hw ?_ ((hea.trans heb).mono fun F _ hs => ?_) ?_
      · change Ty.isError (if op.isComparison then .bool else a.ty) = false
        split
        · rfl
        · exact hfa.1
      · refine ⟨⟨hs.1.inScope, hs.2.inScope⟩, ⟨hs.1.typed, hs.2.typed, hfb.2, ?_⟩,
          (hs.1.made.append hs.2.made).snoc⟩
        rw [BinaryOp.Types, if_neg hop]
        exact ⟨hacc, rfl⟩
      · rw [Expr.labels, Expr.labels, hla, hlb]

/-- An item of a list is sound if the list and the index are, and it has the type of the list's
items. -/
theorem sound_index {target index : Expr} (ht : SoundExpr target) (hx : SoundExpr index) :
    SoundExpr (.index n target index) := by
  intro g live outer opens s s' want e' h hw hi
  rw [expr] at h
  obtain ⟨a, t, ha, h⟩ := h.bind (by simp)
  obtain ⟨b, u, hb, h⟩ := h.bind (by simp)
  obtain ⟨ty, v, hty, h⟩ := h.bind (by simp)
  obtain ⟨hea, hfa, hla⟩ := ht ha wanted_none hi
  obtain ⟨heb, hfb, hlb⟩ := hx hb (wanted_some.mpr rfl) hea.inv
  rw [Expr.suits_some] at hfb
  obtain ⟨rfl, hitems, hne⟩ := passes_itemType hfa.1 hty
  refine settle_sound h hw hne ((hea.trans heb).mono fun F _ hs => ?_) ?_
  · exact ⟨⟨hs.1.inScope, hs.2.inScope⟩, ⟨hs.1.typed, hs.2.typed, hfb.2, hitems⟩,
      (hs.1.made.append hs.2.made).snoc⟩
  · rw [Expr.labels, Expr.labels, hla, hlb]

/-- A list is sound if its items are. The first item fixes the type against which the others are
analyzed. -/
theorem sound_list {items : List Expr} (hfirst : ∀ e ∈ items.head?, SoundExpr e)
    (hrest : SoundExprs items.tail) : SoundExpr (.list n items) := by
  intro g live outer opens s s' want e' h hw hi
  have hlist : (∃ item, want = some (.list item)) ∨ ∀ item, want ≠ some (.list item) := by
    by_cases h : ∃ item, want = some (.list item)
    · exact .inl h
    · exact .inr fun item he => h ⟨item, he⟩
  rcases hlist with ⟨item, rfl⟩ | hne
  · have hitem : item.isError = false := by
      rw [wanted_some, Ty.isError] at hw
      exact hw
    cases items with
    | nil =>
        rw [expr] at h
        obtain ⟨rfl, rfl, -⟩ := passes_pure.mp h
        exact ⟨.refl hi fun F _ => ⟨trivial, ⟨trivial, item, rfl, by simp⟩, .nil⟩,
          Expr.suits_some.mpr ⟨wanted_some.mp hw, rfl⟩, rfl⟩
    | cons first rest =>
        rw [expr] at h
        obtain ⟨a, t, ha, h⟩ := h.bind fun _ => keeps_bind (keeps_exprs _ _) fun _ => keeps_pure
        obtain ⟨as, u, has, h⟩ := h.bind fun _ => keeps_pure
        obtain ⟨rfl, rfl, -⟩ := passes_pure.mp h
        obtain ⟨hea, hfa, hla⟩ := hfirst first rfl ha (wanted_some.mpr hitem) hi
        obtain ⟨heas, hfas, hlas, -⟩ := hrest has (wanted_some.mpr hitem) hea.inv
        refine ⟨(hea.trans heas).mono fun F _ hs => ?_, Expr.suits_some.mpr ⟨wanted_some.mp hw, rfl⟩, ?_⟩
        · have hall := hs.1.cons hs.2
          refine ⟨hall.inScope, ⟨hall.typed, item, rfl, fun e he => ?_⟩, hall.made.snoc⟩
          rcases List.mem_cons.mp he with rfl | he
          · exact (Expr.suits_some.mp hfa).2
          · exact (Expr.suits_some.mp (hfas e he)).2
        · simp only [Expr.labels, Expr.labelsOf, hla, hlas, List.tail_cons]
  · cases items with
    | nil =>
        rw [expr] at h
        · exact absurd h (not_passes_report_bind fun _ => keeps_settle)
        · exact fun item he => hne item he
    | cons first rest =>
        have h : Passes (do
            let a ← expr none first
            let as ← exprs (some a.ty) rest
            settle want (.list { n with ty := .list a.ty } (a :: as))) s e' s' := by
          rw [expr] at h
          · exact h
          · exact fun item he => hne item he
        obtain ⟨a, t, ha, h⟩ := h.bind fun e =>
          keeps_bind (keeps_exprs (some e.ty) rest) fun _ => keeps_settle
        obtain ⟨as, u, has, h⟩ := h.bind fun _ => keeps_settle
        obtain ⟨hea, hfa, hla⟩ := hfirst first rfl ha wanted_none hi
        obtain ⟨heas, hfas, hlas, -⟩ := hrest has (wanted_some.mpr hfa.1) hea.inv
        refine settle_sound h hw hfa.1 ((hea.trans heas).mono fun F _ hs => ?_) ?_
        · have hall := hs.1.cons hs.2
          refine ⟨hall.inScope, ⟨hall.typed, a.ty, rfl, fun e he => ?_⟩, hall.made.snoc⟩
          rcases List.mem_cons.mp he with rfl | he
          · rfl
          · exact (Expr.suits_some.mp (hfas e he)).2
        · simp only [Expr.labels, Expr.labelsOf, hla, hlas, List.tail_cons]

/-! ### Calls -/

/-- The arguments of a call are analyzed in a certain way. -/
structure Arguments (mode : ArgMode) (es es' : List Expr) (g : Nat) (live : List Nat)
    (outer : Nesting) (opens : Opens) (s s' : AnalysisState) : Prop where
  sound : Establishes g live outer opens s s' (Expr.functionsOf true es') fun F =>
    Expr.AllSound F g live es'
  checked : mode.Checked es'
  isError : ∀ e ∈ es', e.ty.isError = false
  labels : Expr.labelsOf es' = Expr.labelsOf es
  length : es'.length = es.length

/-- A call is sound once its callee is and its arguments are analyzed as the callee wants. The three
ways to do that come together here. -/
theorem call_sound {callee callee' : Expr} {args args' : List Expr} {s₀ : AnalysisState}
    (hc : Establishes g live outer opens s₀ s (callee'.functions true) fun F =>
      callee'.Sound F g live)
    (hty : callee'.ty.isError = false) (hlc : callee'.labels = callee.labels)
    (htakes : Takes callee'.ty args.length)
    (ha : Arguments (argModeOf callee'.ty) args args' g live outer opens s t)
    (h : Passes (do
      let ty ← callType callee'.ty args' n.range
      settle want (.call { n with ty } callee' args')) t e' s') (hw : Wanted want) :
    Establishes g live outer opens s₀ s' (e'.functions true) (fun F => e'.Sound F g live) ∧
      e'.Suits want ∧ e'.labels = (Expr.call n callee args).labels := by
  obtain ⟨ty, u, hct, h⟩ := h.bind fun _ => keeps_settle
  obtain ⟨rfl, hcalls, hne⟩ := passes_callType hct hty (by rw [ha.length]; exact htakes) ha.checked
    ha.isError
  refine settle_sound h hw hne ((hc.trans ha.sound).mono fun F _ hs => ?_) ?_
  · exact ⟨⟨hs.1.inScope, hs.2.inScope⟩, ⟨hs.1.typed, hs.2.typed, hcalls⟩,
      (hs.1.made.append hs.2.made).snoc⟩
  · rw [Expr.labels, Expr.labels, hlc, ha.labels]

/-- The analysis of the arguments of a call is sound. -/
structure SoundArgs (es : List Expr) : Prop where
  all : SoundExprs es
  against : ∀ {g : Nat} {live : List Nat} {outer : Nesting} {opens : Opens} {s s' : AnalysisState}
    {tys : List Ty} {es' : List Expr}, Passes (exprsAgainst tys es) s es' s' →
    Ty.anyError tys = false → tys.length = es.length → Inv g live outer opens s →
    Arguments (.params tys) es es' g live outer opens s s'
  push : ∀ {g : Nat} {live : List Nat} {outer : Nesting} {opens : Opens} {s s' : AnalysisState}
    {es' : List Expr}, Passes (pushArgs es) s es' s' → Inv g live outer opens s →
    Arguments .push es es' g live outer opens s s'

/-- No arguments are sound, in each of the three ways to analyze them. -/
theorem sound_nil : SoundArgs [] where
  all := by
    intro g live outer opens s s' want es' h hw hi
    obtain ⟨rfl, rfl, -⟩ := passes_pure.mp h
    exact ⟨.refl hi fun F _ => ⟨trivial, trivial, .nil⟩, by simp, rfl, rfl⟩
  against := by
    intro g live outer opens s s' tys es' h _ hl hi
    rw [exprsAgainst] at h
    obtain ⟨rfl, rfl, -⟩ := passes_pure.mp h
    obtain rfl := List.length_eq_zero_iff.mp hl
    exact ⟨.refl hi fun F _ => ⟨trivial, trivial, .nil⟩, rfl, by simp, rfl, rfl⟩
  push := by
    intro g live outer opens s s' es' h hi
    obtain ⟨rfl, rfl, -⟩ := passes_pure.mp h
    exact ⟨.refl hi fun F _ => ⟨trivial, trivial, .nil⟩, by simp [ArgMode.Checked], by simp, rfl, rfl⟩

/-- An argument in front of sound arguments is analyzed in the same way as they are, whichever of
the three it is. -/
theorem sound_cons {es : List Expr} (he : SoundExpr e) (hes : SoundArgs es) : SoundArgs (e :: es) where
  all := by
    intro g live outer opens s s' want es' h hw hi
    rw [exprs] at h
    obtain ⟨a, t, ha, h⟩ := h.bind fun _ => keeps_bind (keeps_exprs _ _) fun _ => keeps_pure
    obtain ⟨as, u, has, h⟩ := h.bind fun _ => keeps_pure
    obtain ⟨rfl, rfl, -⟩ := passes_pure.mp h
    obtain ⟨hea, hfa, hla⟩ := he ha hw hi
    obtain ⟨heas, hfas, hlas, hlen⟩ := hes.all has hw hea.inv
    refine ⟨(hea.trans heas).mono fun F _ hs => hs.1.cons hs.2, ?_, ?_, ?_⟩
    · intro c hc
      rcases List.mem_cons.mp hc with rfl | hc
      · exact hfa
      · exact hfas c hc
    · rw [Expr.labelsOf, Expr.labelsOf, hla, hlas]
    · rw [List.length_cons, List.length_cons, hlen]
  against := by
    intro g live outer opens s s' tys es' h hty hl hi
    cases tys with
    | nil => cases hl
    | cons ty tys =>
        simp only [Ty.anyError, Bool.or_eq_false_iff] at hty
        rw [exprsAgainst] at h
        obtain ⟨a, t, ha, h⟩ := h.bind fun _ => keeps_bind (keeps_exprsAgainst _ _) fun _ => keeps_pure
        obtain ⟨as, u, has, h⟩ := h.bind fun _ => keeps_pure
        obtain ⟨rfl, rfl, -⟩ := passes_pure.mp h
        obtain ⟨hea, hfa, hla⟩ := he ha (wanted_some.mpr hty.1) hi
        have hrest := hes.against has hty.2 (by simpa using hl) hea.inv
        refine ⟨(hea.trans hrest.sound).mono fun F _ hs => hs.1.cons hs.2, ?_, ?_, ?_, ?_⟩
        · have hchecked : as.map Expr.ty = tys := hrest.checked
          simp only [ArgMode.Checked, List.map_cons, hchecked, (Expr.suits_some.mp hfa).2]
        · intro c hc
          rcases List.mem_cons.mp hc with rfl | hc
          · exact hfa.1
          · exact hrest.isError c hc
        · rw [Expr.labelsOf, Expr.labelsOf, hla, hrest.labels]
        · rw [List.length_cons, List.length_cons, hrest.length]
  push := by
    intro g live outer opens s s' es' h hi
    rw [pushArgs] at h
    obtain ⟨a, t, ha, h⟩ := h.bind fun e =>
      keeps_bind (keeps_exprs (listItem? e.ty) es) fun _ => keeps_pure
    obtain ⟨as, u, has, h⟩ := h.bind fun _ => keeps_pure
    obtain ⟨rfl, rfl, -⟩ := passes_pure.mp h
    obtain ⟨hea, hfa, hla⟩ := he ha wanted_none hi
    have hw : Wanted (listItem? a.ty) := by
      intro item hitem
      unfold listItem? at hitem
      split at hitem
      · next hty =>
          cases hitem
          have := hfa.1
          rw [hty] at this
          exact this
      · cases hitem
    obtain ⟨heas, hfas, hlas, hlen⟩ := hes.all has hw hea.inv
    refine ⟨(hea.trans heas).mono fun F _ hs => hs.1.cons hs.2, ?_, ?_, ?_, ?_⟩
    · rintro b c item hbc hty
      obtain ⟨rfl, rfl⟩ := List.cons.inj hbc
      exact (hfas c (by simp)).2 item (by rw [hty]; rfl)
    · intro c hc
      rcases List.mem_cons.mp hc with rfl | hc
      · exact hfa.1
      · exact (hfas c hc).1
    · rw [Expr.labelsOf, Expr.labelsOf, hla, hlas]
    · rw [List.length_cons, List.length_cons, hlen]

/-- A call is sound if its callee and its arguments are, with the way of the arguments taken from
the callee's type. -/
theorem sound_call {callee : Expr} {args : List Expr} (hf : SoundExpr callee)
    (ha : SoundArgs args) : SoundExpr (.call n callee args) := by
  intro g live outer opens s s' want e' h hw hi
  rw [expr] at h
  have hlast : ∀ (f : Expr) (as : List Expr), Keeps (do
      let ty ← callType f.ty as n.range
      settle want (.call { n with ty } f as)) :=
    fun _ _ => keeps_bind keeps_callType fun _ => keeps_settle
  obtain ⟨f, t, hcf, h⟩ := h.bind (by
    intro f
    refine keeps_bind keeps_argMode fun mode => ?_
    dsimp only
    split
    · exact keeps_bind (keeps_exprsAgainst _ args) fun _ => hlast _ _
    · exact keeps_bind (keeps_exprs _ args) fun _ => hlast _ _
    · exact keeps_bind (keeps_pushArgs args) fun _ => hlast _ _)
  obtain ⟨mode, u, hmode, h⟩ := h.bind (by
    intro mode
    dsimp only
    split
    · exact keeps_bind (keeps_exprsAgainst _ args) fun _ => hlast _ _
    · exact keeps_bind (keeps_exprs _ args) fun _ => hlast _ _
    · exact keeps_bind (keeps_pushArgs args) fun _ => hlast _ _)
  obtain ⟨hef, hff, hlf⟩ := hf hcf wanted_none hi
  obtain ⟨rfl, hmode, htakes⟩ := passes_argMode hmode
  dsimp only at h
  split at h
  · next tys =>
      obtain ⟨as, v, has, h⟩ := h.bind fun _ => hlast _ _
      obtain ⟨returns, hty⟩ := argModeOf_eq_params hmode.symm
      have herr := hff.1
      have hlen := htakes
      rw [hty] at hlen herr
      simp only [Ty.isError, Bool.or_eq_false_iff] at herr
      exact call_sound hef hff.1 hlf htakes (hmode ▸ ha.against has herr.1 hlen hef.inv) h hw
  · next want' =>
      obtain ⟨as, v, has, h⟩ := h.bind fun _ => hlast _ _
      obtain ⟨heas, hfas, hlas, hlen⟩ := ha.all has (wanted_of_argModeOf hmode.symm) hef.inv
      refine call_sound hef hff.1 hlf htakes ?_ h hw
      exact ⟨heas, hmode ▸ hfas, fun e he => (hfas e he).1, hlas, hlen⟩
  · obtain ⟨as, v, has, h⟩ := h.bind fun _ => hlast _ _
    exact call_sound hef hff.1 hlf htakes (hmode ▸ ha.push has hef.inv) h hw

/-! ### Assignments -/

/-- Analysis passes a symbol as a target only if it is a variable, and gives the type of this
variable. -/
theorem passes_assignable? {y : Nat} {r : Option Ty} (h : Passes (assignable? y) s r s') :
    s = s' ∧ ∀ ty, r = some ty → IsVariable s.facts y ∧ ty = (s.facts.symbol y).ty := by
  unfold assignable? at h
  rw [passes_symbolInfo_bind] at h
  split at h
  · next hk =>
      obtain ⟨rfl, rfl, -⟩ := passes_pure.mp h
      exact ⟨rfl, fun ty hty => ⟨.inl hk, by cases hty; rfl⟩⟩
  · next hk =>
      obtain ⟨rfl, rfl, -⟩ := passes_pure.mp h
      exact ⟨rfl, fun ty hty => ⟨.inr hk, by cases hty; rfl⟩⟩
  · obtain ⟨rfl, rfl, -⟩ := passes_pure.mp h
    exact ⟨rfl, by simp⟩

/-- Analysis passes a list whose item is assigned only if it is a variable, and gives its type. -/
theorem passes_assignedBase {y : Nat} {range : Range} {ty : Ty}
    (h : Passes (assignedBase (some y) range) s ty s') :
    s = s' ∧ IsVariable s.facts y ∧ ty = (s.facts.symbol y).ty := by
  unfold assignedBase at h
  dsimp only at h
  obtain ⟨r, t, hr, h⟩ := h.bind (by
    intro r
    split <;> simp)
  obtain ⟨rfl, hvar⟩ := passes_assignable? hr
  split at h
  · next ty' =>
      obtain ⟨rfl, rfl, -⟩ := passes_pure.mp h
      exact ⟨rfl, hvar _ rfl⟩
  · exact absurd h (not_passes_report_bind fun _ => keeps_pure)

/-- An assignment to a name is sound if its value is: the name is a variable, and the value has its
type. -/
theorem sound_assign_ident {m : Note} {name : String} {value : Expr} (hv : SoundExpr value) :
    SoundExpr (.assign n (.ident m name) value) := by
  intro g live outer opens s s' want e' h hw hi
  rw [expr] at h
  obtain ⟨r, t, hr, h⟩ := h.bind (by
    intro r
    split
    · simp
    · refine keeps_bind keeps_assignable? fun r => ?_
      split <;> simp)
  obtain ⟨y, rfl, hti, htc, hsize, hread, hwrite⟩ := passes_resolve hr hi
  dsimp only at h
  obtain ⟨r, u, hr, h⟩ := h.bind (by
    intro r
    split <;> simp)
  obtain ⟨rfl, hvar⟩ := passes_assignable? hr
  split at h
  · exact absurd h (not_passes_report_bind (by simp))
  · next ty =>
      obtain ⟨hy, rfl⟩ := hvar ty rfl
      obtain ⟨v, u, hval, h⟩ := h.bind fun _ => keeps_settle
      have hty := (hti.coherent.symbol y hread.1).1
      obtain ⟨hev, hfv, hlv⟩ := hv hval (wanted_some.mpr hty) hti
      have hfit := (Expr.suits_some.mp hfv).2
      have hstart : Establishes g live outer opens s t [] fun F => F.Writable g live y ∧
          (F.symbol y).ty = v.ty :=
        ⟨hti, htc, .of_size hsize, fun F hF => ⟨hF.writable (hwrite (by decide) hy),
          (hF.symbol y hread.1).ty.trans hfit.symm⟩⟩
      refine settle_sound h hw hty ((hstart.trans hev).mono fun F _ hs => ?_) ?_
      · refine ⟨⟨hs.2.inScope, ?_⟩, ⟨hs.2.typed, hfit.symm, y, rfl, hs.1.2, hfit.symm⟩,
          (Facts.Made.nil.append hs.2.made).snoc⟩
        rintro _ ⟨⟩
        exact hs.1.1
      · simp only [Expr.labels, hlv]

/-- An assignment to an item is sound if the index and the value are: the list is a variable, and
the value has the type of its items. -/
theorem sound_assign_item {m k : Note} {name : String} {index value : Expr} (hx : SoundExpr index)
    (hv : SoundExpr value) : SoundExpr (.assign n (.index m (.ident k name) index) value) := by
  intro g live outer opens s s' want e' h hw hi
  rw [expr] at h
  obtain ⟨r, t, hr, h⟩ := h.bind fun _ => keeps_bind keeps_assignedBase fun _ =>
    keeps_bind (keeps_expr _ _) fun _ => keeps_bind keeps_assignedItemType fun ty =>
      keeps_bind (keeps_expr (some ty) value) fun _ => keeps_settle
  obtain ⟨y, rfl, hti, htc, hsize, hread, hwrite⟩ := passes_resolve hr hi
  obtain ⟨base, u, hb, h⟩ := h.bind fun _ =>
    keeps_bind (keeps_expr _ _) fun _ => keeps_bind keeps_assignedItemType fun ty =>
      keeps_bind (keeps_expr (some ty) value) fun _ => keeps_settle
  obtain ⟨rfl, hvar, rfl⟩ := passes_assignedBase hb
  obtain ⟨i, u, hix, h⟩ := h.bind fun _ => keeps_bind keeps_assignedItemType fun ty =>
    keeps_bind (keeps_expr (some ty) value) fun _ => keeps_settle
  obtain ⟨ty, w, hity, h⟩ := h.bind fun ty => keeps_bind (keeps_expr (some ty) value) fun _ =>
    keeps_settle
  have hty := (hti.coherent.symbol y hread.1).1
  obtain ⟨hei, hfi, hli⟩ := hx hix (wanted_some.mpr rfl) hti
  obtain ⟨rfl, hlist, hne⟩ := passes_assignedItemType hty hity
  obtain ⟨v, z, hval, h⟩ := h.bind fun _ => keeps_settle
  obtain ⟨hev, hfv, hlv⟩ := hv hval (wanted_some.mpr hne) hei.inv
  have hfit := (Expr.suits_some.mp hfv).2
  have hstart : Establishes g live outer opens s t [] fun F => F.Writable g live y ∧
      (F.symbol y).ty = .list v.ty :=
    ⟨hti, htc, .of_size hsize, fun F hF => ⟨hF.writable (hwrite (by decide) hvar), by
      rw [(hF.symbol y hread.1).ty, hlist, hfit]⟩⟩
  refine settle_sound h hw hne (((hstart.trans hei).trans hev).mono fun F _ hs => ?_) ?_
  · obtain ⟨⟨⟨hwr, hsym⟩, hsi⟩, hsv⟩ := hs
    refine ⟨⟨hsi.inScope, hsv.inScope, ?_⟩,
      ⟨hsi.typed, (Expr.suits_some.mp hfi).2, hsv.typed, hfit.symm, y, rfl, hsym,
        hlist.trans (congrArg Ty.list hfit.symm), hfit.symm⟩,
      ((Facts.Made.nil.append hsi.made).snoc.append hsv.made).snoc⟩
    rintro _ ⟨⟩
    exact hwr
  · simp only [Expr.labels, hli, hlv]

/-- No other target is accepted. -/
theorem not_passes_assign {target value : Expr}
    (h : Passes (do
      report .invalidAssignTarget target.range
      let value ← expr none value
      settle want (.assign { n with ty := .error } target value)) s e' s') : False :=
  not_passes_report_bind (by simp) h

/-- An assignment is sound if its value is, and its index where it has one. No other target passes.
-/
theorem sound_assign {target value : Expr} (hx : ∀ m b i, target = .index m b i → SoundExpr i)
    (hv : SoundExpr value) : SoundExpr (.assign n target value) := by
  cases target with
  | ident m name => exact sound_assign_ident hv
  | index m base index =>
      cases base with
      | ident k name => exact sound_assign_item (hx m _ index rfl) hv
      | _ =>
          intro g live outer opens s s' want e' h hw hi
          rw [expr] at h
          · exact (not_passes_assign h).elim
          all_goals simp
  | _ =>
      intro g live outer opens s s' want e' h hw hi
      rw [expr] at h
      · exact (not_passes_assign h).elim
      all_goals simp

/-! ### Statements -/

/-- The facts and the result type that the analysis of the function `g` may lead to. -/
structure Final (g : Nat) (opens : Opens) (s : AnalysisState) (F : Facts) (r : Ty) : Prop where
  grows : s.facts.Grows opens F
  slots : g ≠ 0 → s.context.maxSlot ≤ (F.info g).slots
  returns : ∀ t, s.context.returns = some t → t = r

/-- Analysis went from `s` to `s'`, declared variables and finished the functions in `fs`. A
statement holds of all facts from there on. -/
structure Advances (g : Nat) (outer : Nesting) (live live' : List Nat) (opens opens' : Opens)
    (s s' : AnalysisState) (fs : List FunctionBody) (P : Facts → Ty → Prop) : Prop where
  inv : Inv g live' outer opens' s'
  moves : Moves opens s s'
  finishes : Finishes opens opens' s s' fs
  holds : ∀ F r, Final g opens' s' F r → P F r

/-- Functions were finished. -/
def Closes (opens opens' : Opens) : Prop :=
  ∀ f, opens.lookup f = none → opens'.lookup f = none

/-- No function was finished where the open ones are the same. -/
theorem Closes.refl (opens : Opens) : Closes opens opens :=
  fun _ h => h

/-- The functions at the front of the open ones are those that are finished first. -/
theorem closes_append (opens opens' : Opens) : Closes (opens ++ opens') opens' := by
  intro f h
  rw [lookup_append, Option.or_eq_none_iff] at h
  exact h.2

/-- What a later state may lead to, an earlier one may too. So statements may be looked at from the
front while the facts come from the end. -/
theorem Final.of_moves {opens' : Opens} {F : Facts} {r : Ty} (hm : Moves opens s s')
    (hc : Closes opens opens') (h : Final g opens' s' F r) : Final g opens s F r where
  grows := hm.grows.trans (h.grows.mono fun f _ hf => hc f hf)
  slots h0 := Nat.le_trans hm.maxSlot_le (h.slots h0)
  returns t ht := h.returns t (hm.returns t ht)

section

variable {live' live'' : List Nat} {opens' opens'' : Opens} {fs gs : List FunctionBody}
  {P Q : Facts → Ty → Prop}

/-- One statement after the other does what both do. As with expressions, the facts behind the
second are later than those behind the first. -/
theorem Advances.trans (h : Advances g outer live live' opens opens' s t fs P)
    (h' : Advances g outer live' live'' opens' opens'' t s' gs Q) (hc : Closes opens opens')
    (hc' : Closes opens' opens'') :
    Advances g outer live live'' opens opens'' s s' (fs ++ gs) fun F r => P F r ∧ Q F r :=
  ⟨h'.inv, h.moves.trans (h'.moves.mono fun f _ hf => hc f hf), h.finishes.trans h'.finishes,
    fun F r hF => ⟨h.holds F r (hF.of_moves h'.moves hc'), h'.holds F r hF⟩⟩

/-- What holds of the final facts may be weakened by everything that they imply. -/
theorem Advances.mono (h : Advances g outer live live' opens opens' s s' fs P)
    (hPQ : ∀ F r, Final g opens' s' F r → P F r → Q F r) :
    Advances g outer live live' opens opens' s s' fs Q :=
  ⟨h.inv, h.moves, h.finishes, fun F r hF => hPQ F r hF (h.holds F r hF)⟩

/-- An expression declares no variable and finishes no function that was open, so as a statement it
leaves both alone. -/
theorem Establishes.advances {P : Facts → Prop} (h : Establishes g live outer opens s s' fs P) :
    Advances g outer live live opens opens s s' fs fun F _ => P F :=
  ⟨h.inv, h.calm.toMoves, h.finishes, fun F _ hF => h.holds F hF.grows⟩

/-- Where nothing happens the variables and the open functions stay. -/
theorem Advances.refl (hi : Inv g live outer opens s)
    (h : ∀ F r, Final g opens s F r → P F r) :
    Advances g outer live live opens opens s s [] P :=
  ⟨hi, .refl _ _, .refl _ _, h⟩

end

/-- The analysis of a statement is sound. -/
def SoundStmt (stmt : Stmt) : Prop :=
  ∀ {g : Nat} {live : List Nat} {outer : Nesting} {opens : Opens} {s s' : AnalysisState}
    {d : Option Declared} {stmt' : Stmt}, Passes (Analyze.stmt stmt d) s stmt' s' →
    Inv g live outer (pending stmt d ++ opens) s → Awaits s.facts g stmt d → s.Regular →
    Advances g outer live (stmt'.declared ++ live) (pending stmt d ++ opens) opens s s'
      (stmt'.functions true)
      (fun F r => stmt'.Sound F g live r (s.context.loopDepth ≠ 0)) ∧ stmt'.Mirrors stmt

/-- The analysis of statements is sound. -/
def SoundStmts (ss : List Stmt) : Prop :=
  ∀ {g : Nat} {live : List Nat} {outer : Nesting} {opens : Opens} {s s' : AnalysisState}
    {ds : List (Option Declared)} {ss' : List Stmt}, Passes (Analyze.stmts ss ds) s ss' s' →
    Inv g live outer (pendings ss ds ++ opens) s → AllAwait s.facts g ss ds → s.Regular →
    Advances g outer live (Stmt.liveAfter live ss') (pendings ss ds ++ opens) opens s s'
      (Stmt.functionsOf true ss')
      (fun F r => Stmt.AllSound F g live r (s.context.loopDepth ≠ 0) ss') ∧ Stmt.AllMirror ss' ss

/-- The analysis of a block is sound. -/
def SoundBlock (b : Block) : Prop :=
  ∀ {g : Nat} {live : List Nat} {outer : Nesting} {opens : Opens} {s s' : AnalysisState}
    {b' : Block}, Passes (block b) s b' s' → Inv g live outer opens s → s.Regular →
    Advances g outer live live opens opens s s' (b'.functions true)
      (fun F r => b'.Sound F g live r (s.context.loopDepth ≠ 0)) ∧ b'.Mirrors b

/-- The analysis of the body of a function is sound. -/
def SoundBody (b : Block) : Prop :=
  ∀ {g : Nat} {live : List Nat} {outer : Nesting} {opens : Opens} {s s' : AnalysisState}
    {signature : Signature} {b' : Block}, Passes (functionBody signature b) s b' s' →
    Inv g live outer opens s → signature.Regular → s.context.returns = some signature.returns →
    (∃ live', Advances g outer live live' opens opens s s' (b'.functions true)
      fun F r => b'.SoundBody F g live r (s.context.loopDepth ≠ 0)) ∧ b'.labels = b.labels

/-- No statements are sound, and no function waits for its body there. -/
theorem sound_stmts_nil : SoundStmts [] := by
  intro g live outer opens s s' ds ss' h hi _ _
  rw [stmts] at h
  obtain ⟨rfl, rfl, -⟩ := passes_pure.mp h
  exact ⟨.refl hi fun F r _ => ⟨trivial, trivial, trivial, .nil⟩, rfl, rfl, rfl⟩

/-- A sound statement in front of sound statements. Its variable lives in those behind it, and its
function is the next of those that wait. -/
theorem sound_stmts_cons {stmt : Stmt} {ss : List Stmt} (h₁ : SoundStmt stmt) (h₂ : SoundStmts ss) :
    SoundStmts (stmt :: ss) := by
  intro g live outer opens s s' ds ss' h hi ha hr
  rw [stmts] at h
  obtain ⟨stmt', t, hs, h⟩ := h.bind fun _ => keeps_bind (keeps_stmts _ _) fun _ => keeps_pure
  obtain ⟨ss', u, hss, h⟩ := h.bind fun _ => keeps_pure
  obtain ⟨rfl, rfl, -⟩ := passes_pure.mp h
  rw [pendings, List.append_assoc] at hi ⊢
  obtain ⟨hadv, hmir⟩ := h₁ hs hi ha.1 hr
  obtain ⟨hadv', hmir'⟩ := h₂ hss hadv.inv (ha.2.grows hadv.moves.grows hadv.inv.coherent)
    (hadv.moves.regular hr)
  refine ⟨(hadv.trans hadv' (closes_append _ _) (closes_append _ _)).mono fun F r _ h => ?_, ?_⟩
  · exact ⟨⟨h.1.inScope, h.2.inScope⟩, ⟨h.1.typed, h.2.typed⟩,
      ⟨h.1.looped, hadv.moves.depth ▸ h.2.looped⟩, h.1.made.append h.2.made⟩
  · refine ⟨?_, ?_, ?_⟩
    · rw [Stmt.labelsOf, Stmt.labelsOf, hmir.labels, hmir'.labels]
    · rw [Stmt.anyTerminates, Stmt.anyTerminates, hmir.terminates, hmir'.terminates]
    · rw [Stmt.anyBreaks, Stmt.anyBreaks, hmir.breaks, hmir'.breaks]

/-- Statements are analyzed after their functions are declared. -/
theorem hoisted_sound {ss ss' : List Stmt} (hs : SoundStmts ss) (hreg : Stmt.AllRegular ss)
    {ds : List (Option Declared)} (hh : Passes (hoist ss) s ds t) (h : Passes (stmts ss ds) t ss' s')
    (hi : Inv g live outer opens s) (hr : s.Regular) :
    Advances g outer live (Stmt.liveAfter live ss') opens opens s s' (Stmt.functionsOf true ss')
      (fun F r => Stmt.AllSound F g live r (s.context.loopDepth ≠ 0) ss') ∧ Stmt.AllMirror ss' ss := by
  obtain ⟨hti, htm, hta, hnew, htf⟩ := hi.hoist ss hreg hh
  obtain ⟨hadv, hmir⟩ := hs h hti hta (htm.regular hr)
  refine ⟨⟨hadv.inv, ?_, htf.trans hadv.finishes, htm.depth ▸ hadv.holds⟩, hmir⟩
  have hmoves : Moves (pendings ss ds ++ opens) s s' :=
    (htm.mono fun f _ hf => closes_append _ _ f hf).trans hadv.moves
  refine hmoves.mono fun f hf hn => ?_
  -- The hoisted functions are new.
  have hp : (pendings ss ds).lookup f = none := by
    rw [lookup_eq_none_iff]
    intro hm
    exact Nat.lt_irrefl _ (Nat.lt_of_lt_of_le hf (hnew f hm))
  rw [lookup_append, hp, hn]
  rfl

/-! ### Functions -/

/-- While facts are added, a function has the type of the signature that it was declared with: its
parameters keep their types. -/
theorem signature_eq {F F' : Facts} {f : Nat} {params : List Nat} {signature : Signature}
    (hg : F.Grows opens F') (hlt : ∀ y ∈ params, y < F.symbols.size)
    (htys : (params.map fun y => (F.symbol y).ty) = signature.params.map (·.ty))
    (hparams : (F'.info f).params = params) (hreturns : (F'.info f).returns = signature.returns) :
    F'.signature f = signature.ty := by
  rw [Facts.signature, Signature.ty, hparams, hreturns, ← htys]
  congr 1
  exact List.map_congr_left fun y hy => (hg.symbol y (hlt y hy)).ty

/-- **Functions.** The function that a lambda or a declaration makes is accepted, and the
function around it has what it captures. -/
theorem function_sound {b b' : Block} (hb : SoundBody b) {f node : Nat} {signature : Signature}
    {place : Range} (hreg : signature.Regular)
    (h : Passes (inFunction f signature place (functionBody signature b)) s b' s')
    (hi : Inv g live outer ((f, signature.ty) :: opens) s)
    (hp : Pending s.facts g f node signature) :
    Inv g live outer opens s' ∧ Calm ((f, signature.ty) :: opens) s s' ∧ b'.labels = b.labels ∧
      Finishes ((f, signature.ty) :: opens) opens s s' ((f, b') :: b'.functions true) ∧
      ∀ F, s'.facts.Grows opens F → F.Made ((f, b') :: b'.functions true) (b'.labels ++ [node]) ∧
        F.signature f = signature.ty ∧ F.Makes g live f := by
  have hf0 : f ≠ 0 := Nat.ne_of_gt (Nat.lt_of_le_of_lt (Nat.zero_le _) hp.inner)
  have hopen : ((f, signature.ty) :: opens).lookup f ≠ none := by simp
  have hclosed : opens.lookup f = none :=
    lookup_eq_none_iff.mpr (List.nodup_cons.mp hi.nodup).1
  obtain ⟨params, t, u, hparams, hrun, rfl⟩ := passes_inFunction h (keeps_functionBody signature b)
  obtain ⟨hti, htm, htf, htn, htys, hps⟩ := (hi.enter hp hopen).declareParams hf0 signature.params rfl
    hreg.1 hparams
  rw [List.nil_append] at hti
  have hlt : ∀ y ∈ params, y < t.facts.symbols.size := by
    intro y hy
    obtain ⟨i, hiy⟩ := List.mem_iff_getElem?.mp hy
    exact (hps i y hiy).lt
  have hvi := hti.setParams hlt
  have hret : t.context.returns = some signature.returns := htm.returns _ rfl
  obtain ⟨⟨live', hadv⟩, hlabels⟩ := hb hrun hvi hreg hret
  -- What is known about the function at the end of its body.
  have hflt := hti.linked.head_lt
  have hset : t.facts.Grows ((f, signature.ty) :: opens)
      (withFunction f (fun i => { i with params }) t).facts := grows_setParams hflt hopen
  have huparams : (u.facts.info f).params = params := by
    rw [hadv.moves.params f (Nat.le_of_eq hti.function.symm), withFunction, Facts.info_modify hflt,
      if_pos rfl]
  have hureturns : (u.facts.info f).returns = signature.returns := by
    have hgrows := ((grows_enterFunction hp hopen).trans htm.grows).trans (hset.trans hadv.moves.grows)
    rw [hgrows.returns f hp.lt hf0, hp.returns]
  have hty : u.facts.signature f = signature.ty :=
    signature_eq (hset.trans hadv.moves.grows) hlt htys huparams hureturns
  have hcalm := hi.calm_leave hp hopen htm hadv.moves
  have hinv := hi.leave hcalm hadv.inv hty
  have hfinishes : Finishes ((f, signature.ty) :: opens) opens s (leaveFunction f s u)
      ((f, b') :: b'.functions true) := by
    intro e he
    by_cases hef : e = f
    · exact .inr (by simp [hef])
    · have hsize : (leaveFunction f s u).facts.functions.size = u.facts.functions.size :=
        Array.size_modify
      have hsize' : (withFunction f (fun i => { i with params }) t).facts.functions.size =
          s.facts.functions.size := by
        rw [withFunction, Array.size_modify, htf]
        exact Array.size_modify
      have hlast := hadv.finishes e ⟨hsize ▸ he.1, by rw [lookup_cons_of_ne hef]; exact he.2⟩
      rw [Finished, hsize'] at hlast
      exact hlast.imp_right (List.mem_cons_of_mem _)
  refine ⟨hinv, hcalm, hlabels, hfinishes, fun F hF => ?_⟩
  have hult := hadv.inv.linked.head_lt
  have hlast : u.facts.Grows ((f, signature.ty) :: opens) (leaveFunction f s u).facts :=
    grows_withFunction hult hopen ⟨rfl, rfl, rfl, List.Subset.refl _⟩ rfl
  have hgrows : u.facts.Grows ((f, signature.ty) :: opens) F :=
    hlast.trans (hF.mono fun e _ he => lookup_of_cons_eq_none he)
  have hinfo : F.info f = { u.facts.info f with slots := u.context.maxSlot } := by
    rw [hF.closed f (Nat.lt_of_lt_of_le hult hlast.functions_le) hclosed, leaveFunction,
      withFunction, Facts.info_modify hult, if_pos rfl]
  have hfinal : Final f ((f, signature.ty) :: opens) u F signature.returns := by
    refine ⟨hgrows, fun _ => Nat.le_of_eq (by rw [hinfo]), fun ty hret' => ?_⟩
    have := hadv.moves.returns _ hret
    exact Option.some.inj (hret'.symm.trans this)
  have hsound := hadv.holds F signature.returns hfinal
  have hFparams : (F.info f).params = params := by rw [hinfo, ← huparams]
  have hFreturns : (F.info f).returns = signature.returns := by rw [hinfo, ← hureturns]
  refine ⟨.function hf0 ?_ ?_ hsound.made, ?_, ?_⟩
  · refine ⟨Nat.lt_of_lt_of_le hult hgrows.functions_le, fun i y hy => ?_, ?_, ?_, ?_, ?_⟩
    · rw [hFparams] at hy
      have := (hps i y hy)
      rw [List.length_nil, Nat.zero_add] at this
      exact (hset.trans (hadv.moves.grows.trans hgrows)).isParam this
    · have hslots := hti.slots_le
      have hmax := hadv.moves.maxSlot_le
      rw [htn, List.length_nil, Nat.zero_add] at hslots
      rw [hFparams, hinfo]
      exact Nat.le_trans hslots hmax
    · rw [hFparams]
      exact hsound.inScope
    · rw [hFreturns]
      exact hsound.typed
    · have hdepth : (withFunction f (fun i => { i with params }) t).context.loopDepth = 0 :=
        htm.depth
      simpa only [hdepth, ne_eq, not_true] using hsound.looped
  · have hall := hcalm.grows.trans (hF.mono fun e _ he => lookup_of_cons_eq_none he)
    exact (hall.function f hp.lt).node.trans hp.node_eq
  · exact signature_eq (hset.trans (hadv.moves.grows.trans hgrows)) hlt htys hFparams hFreturns
  · refine ⟨hf0, Nat.lt_of_lt_of_le hult hgrows.functions_le, fun y hy => ?_⟩
    rw [Facts.captures, hinfo] at hy
    have hlinked := hadv.inv.linked
    exact hgrows.has hlinked.tail.head_lt (hadv.inv.coherent.captured f y hy).1
      (hlinked.2.2.2.2.1 y hy)

/-- A lambda is sound if its body is. It is a new function, which starts with its parameters and is
finished when the body is. -/
theorem sound_lambda {signature : Signature} {b : Block} (hreg : signature.Regular)
    (hb : SoundBody b) : SoundExpr (.lambda n signature b) := by
  intro g live outer opens s s' want e' h hw hi
  rw [expr] at h
  obtain ⟨f, t, hf, h⟩ := h.bind fun _ =>
    keeps_bind (keeps_inFunction (keeps_functionBody signature b)) fun _ => keeps_settle
  obtain ⟨b', u, hbody, h⟩ := h.bind fun _ => keeps_settle
  obtain ⟨rfl, hti, htc, hp, -, hsize⟩ := hi.newFunction (by decide) hf
  obtain ⟨hui, huc, hlabels, hfinishes, hsound⟩ := function_sound hb hreg hbody hti hp
  have hcalm : Calm opens s u := by
    have hall := (htc.mono fun _ _ => lookup_of_cons_eq_none).trans huc
    refine hall.mono fun f hf hn => ?_
    rwa [lookup_cons_of_ne (Nat.ne_of_lt hf)]
  refine settle_sound h hw hreg.ty ⟨hui, hcalm, fun e he => ?_, fun F hF => ?_⟩ ?_
  · refine (hfinishes e he).imp_left fun h => ⟨?_, lookup_of_cons_eq_none h.2⟩
    have hne : e ≠ s.facts.functions.size := by
      rintro rfl
      simp [Finished] at h
    have := h.1
    omega
  · obtain ⟨hmade, hsig, hmakes⟩ := hsound F hF
    refine ⟨?_, ⟨_, rfl, hsig.symm⟩, hmade⟩
    rintro _ ⟨⟩
    exact hmakes
  · rw [Expr.labels, Expr.labels, hlabels]

/-- A block is sound if its statements are. Its functions are declared first, and its variables end
with it. -/
theorem sound_block {ss : List Stmt} (hreg : Stmt.AllRegular ss) (hs : SoundStmts ss) :
    SoundBlock (.mk n ss none) := by
  intro g live outer opens s s' b' h hi hr
  rw [block] at h
  obtain ⟨t, hin, rfl⟩ := passes_inScope h
  obtain ⟨ds, u, hh, h⟩ := hin.bind fun _ => keeps_bind (keeps_stmts _ _) fun _ => keeps_pure
  obtain ⟨ss', v, hss, h⟩ := h.bind fun _ => keeps_pure
  obtain ⟨rfl, rfl, -⟩ := passes_pure.mp h
  obtain ⟨hadv, hmir⟩ := hoisted_sound hs hreg hh hss (hi.openScope .block) hr
  refine ⟨⟨hi.closeScope hadv.moves hadv.inv, (calm_closeScope hadv.moves hi.scope_lt).toMoves,
    hadv.finishes, fun F r hF => ?_⟩, ?_, hmir.terminates, hmir.breaks⟩
  · have h := hadv.holds F r ⟨hF.grows, hF.slots, hF.returns⟩
    exact ⟨h.inScope, h.typed, h.looped, h.made.snoc⟩
  · rw [Block.labels, Block.labels, hmir.labels]

/-- What happens in a loop. -/
theorem Advances.inLoop {live' : List Nat} {opens' : Opens} {fs : List FunctionBody}
    {P : Facts → Ty → Prop}
    (h : Advances g outer live live' opens opens' (atLoop (· + 1) s) t fs P) :
    Advances g outer live live' opens opens' s (atLoop (· - 1) t) fs P where
  inv := { h.inv with }
  moves := { h.moves with depth := congrArg (· - 1) h.moves.depth }
  finishes := h.finishes
  holds F r hF := h.holds F r ⟨hF.grows, hF.slots, hF.returns⟩

/-- A block inside a loop is sound as one in which `break` and `continue` are allowed. -/
theorem inLoop_sound {b b' : Block} (hb : SoundBlock b) (h : Passes (inLoop (block b)) s b' s')
    (hi : Inv g live outer opens s) (hr : s.Regular) :
    Advances g outer live live opens opens s s' (b'.functions true)
      (fun F r => b'.Sound F g live r True) ∧ b'.Mirrors b := by
  obtain ⟨t, hin, rfl⟩ := passes_inLoop h
  obtain ⟨hadv, hmir⟩ := hb hin { hi with } hr
  have hdepth : ((atLoop (· + 1) s).context.loopDepth ≠ 0) = True := by simp [atLoop]
  rw [hdepth] at hadv
  exact ⟨hadv.inLoop, hmir⟩

/-- A `let` is sound if its value is. The new variable has the annotated type, or the type of the
value. -/
theorem sound_letVar {name : String} {annotated : Option Ty} {init : Expr}
    (hw : ∀ t, annotated = some t → t.isError = false) (hinit : SoundExpr init) :
    SoundStmt (.letVar n name annotated init) := by
  intro g live outer opens s s' d stmt' h hi _ hr
  rw [stmt] at h
  obtain ⟨e, t, he, h⟩ := h.bind fun _ => keeps_bind keeps_allocStorage fun _ =>
    keeps_bind keeps_declare fun _ => keeps_pure
  obtain ⟨storage, u, ha, h⟩ := h.bind fun _ => keeps_bind keeps_declare fun _ => keeps_pure
  obtain ⟨y, v, hd, h⟩ := h.bind fun _ => keeps_pure
  obtain ⟨rfl, rfl, -⟩ := passes_pure.mp h
  obtain ⟨hte, hfit, hlabels⟩ := hinit he hw hi
  obtain ⟨hui, hum, -, hplace, -, -, huf⟩ := hte.inv.allocStorage ha
  have hty : annotated.getD e.ty = e.ty := by
    cases annotated with
    | none => rfl
    | some t => exact (hfit.2 t rfl).symm
  rw [hty] at hd
  have hcoherent : (newSymbol u name e.ty .variable storage n.range).Coherent := by
    refine ⟨hfit.1, ?_⟩
    rcases hplace.kind with ⟨h0, k, rfl⟩ | ⟨h0, k, rfl⟩
    · exact hui.function.trans h0
    · exact hui.function.trans_ne h0
  have hfun : ∀ f, storage ≠ .function f := by
    rintro f rfl
    rcases hplace.kind with ⟨-, k, hk⟩ | ⟨-, k, hk⟩ <;> cases hk
  obtain ⟨rfl, hvi, hvm, hsym, hvc, hvf⟩ := hui.declare hd hcoherent
    (fun f hf => absurd hf (hfun f)) hplace.global hplace.frame (List.subset_cons_self u.facts.symbols.size live)
    (fun z hz => (List.mem_cons.mp hz).symm) (fun _ => List.mem_cons_self)
  have hfinishes : Finishes opens opens s s' (e.functions true) := by
    have hsize : s'.facts.functions.size = t.facts.functions.size := by rw [hvf, huf]
    have h := hte.finishes.trans (.of_size hsize)
    rwa [List.append_nil] at h
  refine ⟨⟨hvi, hte.calm.toMoves.trans (hum.trans hvm), hfinishes, fun F r hF => ?_⟩, ?_, rfl, rfl,
    nofun⟩
  · have hlt : u.facts.symbols.size < s'.facts.symbols.size := hvi.live_lt _ List.mem_cons_self
    have hy := hF.grows.symbol _ hlt
    rw [hsym] at hy
    have hs := hte.holds F ((hum.trans hvm).grows.trans hF.grows)
    refine ⟨⟨hs.inScope, ?_⟩, ⟨hs.typed, _, rfl, hy.ty⟩, trivial, hs.made.snoc⟩
    rintro _ ⟨⟩
    refine ⟨Nat.lt_of_lt_of_le hlt hF.grows.symbols_le, hy.kind, hy.function.trans hui.function,
      fun z hz => ?_, fun k hk => ?_⟩
    · rw [((hvm.grows.trans hF.grows).symbol z (hui.live_lt z hz)).storage, hy.storage]
      exact hplace.separate z hz
    · rw [hy.storage] at hk
      have hg : g ≠ 0 := by
        rcases hplace.kind with ⟨-, j, hj⟩ | ⟨h0, -⟩
        · rw [hj] at hk
          cases hk
        · exact h0
      have hnext := hplace.frame k hk
      have hmax := hui.slots_le
      have hslots := hF.slots hg
      rw [hvc] at hslots
      omega
  · rw [Stmt.labels, Stmt.labels, hlabels]

/-- A declared function is sound if its body is. It was made ahead of its block, and is finished
where it is declared. -/
theorem sound_fnDecl {name : String} {signature : Signature} {b : Block}
    (hreg : signature.Regular) (hb : SoundBody b) : SoundStmt (.fnDecl n name signature b) := by
  intro g live outer opens s s' d stmt' h hi ha hr
  obtain ⟨d, rfl, hp, -⟩ := ha
  rw [stmt] at h
  obtain ⟨b', t, hbody, h⟩ := h.bind fun _ => keeps_pure
  obtain ⟨rfl, rfl, -⟩ := passes_pure.mp h
  obtain ⟨hti, htc, hlabels, hfinishes, hsound⟩ := function_sound hb hreg hbody hi hp
  refine ⟨⟨hti, htc.toMoves, hfinishes,
    fun F r hF => ⟨trivial, trivial, trivial, (hsound F hF.grows).1⟩⟩, ?_, rfl, rfl, fun _ => rfl⟩
  rw [Stmt.labels, Stmt.labels, hlabels]

/-- The result type is the type of what was returned, at the first `return` as well as at those
after it, which have to agree with the first. -/
theorem passes_expectReturn {ty : Ty} {range : Range} {u : Unit}
    (h : Passes (expectReturn ty range) s u s') (hi : Inv g live outer opens s) (hr : s.Regular)
    (hty : ty.isError = false) : Advances g outer live live opens opens s s' [] fun _ r => ty = r := by
  unfold expectReturn at h
  rw [passes_get_bind] at h
  split at h
  · next returns hret =>
      split at h
      · exact absurd h not_passes_report
      · next hc =>
          obtain ⟨-, rfl, -⟩ := passes_pure.mp h
          have heq := Ty.eq_of_compatible hty (hr returns hret) (by simpa using hc)
          exact .refl hi fun F r hF => heq.trans (hF.returns returns hret)
  · next hret =>
      obtain ⟨h, -⟩ := h
      cases h
      refine ⟨{ hi with }, { Moves.refl opens s with returns := ?_, regular := ?_ }, .refl _ _,
        fun F r hF => ?_⟩
      · intro t ht
        rw [hret] at ht
        cases ht
      · rintro - t ⟨⟩
        exact hty
      · exact hF.returns ty rfl

/-- A `return` without a value is sound in a function that returns the unit value. -/
theorem sound_ret_none : SoundStmt (.ret n none) := by
  intro g live outer opens s s' d stmt' h hi _ hr
  rw [stmt] at h
  obtain ⟨_, t, ht, h⟩ := h.bind fun _ => keeps_pure
  obtain ⟨rfl, rfl, -⟩ := passes_pure.mp h
  have hadv := passes_expectReturn ht hi hr rfl
  exact ⟨hadv.mono fun F r _ hunit => ⟨trivial, hunit.symm, trivial, .nil⟩, rfl, rfl, rfl, nofun⟩

/-- A `return` with a value is sound if the value is, and has the result type of the function. -/
theorem sound_ret_some (he : SoundExpr e) : SoundStmt (.ret n (some e)) := by
  intro g live outer opens s s' d stmt' h hi _ hr
  rw [stmt, passes_get_bind] at h
  split at h
  · next returns hret =>
      obtain ⟨v, t, hv, h⟩ := h.bind fun _ => keeps_pure
      obtain ⟨rfl, rfl, -⟩ := passes_pure.mp h
      obtain ⟨hev, hfv, hlv⟩ := he hv (wanted_some.mpr (hr returns hret)) hi
      refine ⟨hev.advances.mono fun F r hF hs => ?_, ?_, rfl, rfl, by rintro ⟨⟩⟩
      · exact ⟨hs.inScope, ⟨hs.typed, (Expr.suits_some.mp hfv).2.trans
          (hF.returns _ (hev.calm.returns _ hret))⟩, trivial, hs.made.snoc⟩
      · rw [Stmt.labels, Stmt.labels, hlv]
  · obtain ⟨v, t, hv, h⟩ := h.bind fun _ => keeps_bind keeps_expectReturn fun _ => keeps_pure
    obtain ⟨_, u, hu, h⟩ := h.bind fun _ => keeps_pure
    obtain ⟨rfl, rfl, -⟩ := passes_pure.mp h
    obtain ⟨hev, hfv, hlv⟩ := he hv wanted_none hi
    have hadv := passes_expectReturn hu hev.inv (hev.calm.regular hr) hfv.1
    have hall := hev.advances.trans hadv (.refl _) (.refl _)
    rw [List.append_nil] at hall
    refine ⟨hall.mono fun F r _ hs => ?_, ?_, rfl, rfl, by rintro ⟨⟩⟩
    · exact ⟨hs.1.inScope, ⟨hs.1.typed, hs.2⟩, trivial, hs.1.made.snoc⟩
    · rw [Stmt.labels, Stmt.labels, hlv]

/-- A block as a statement is sound if it is as a block. -/
theorem sound_stmt_block {b : Block} (hb : SoundBlock b) : SoundStmt (.block b) := by
  intro g live outer opens s s' d stmt' h hi _ hr
  rw [stmt] at h
  obtain ⟨b', t, hb', h⟩ := h.bind fun _ => keeps_pure
  obtain ⟨rfl, rfl, -⟩ := passes_pure.mp h
  obtain ⟨hadv, hmir⟩ := hb hb' hi hr
  exact ⟨hadv.mono fun F r _ hs => ⟨hs.inScope, hs.typed, hs.looped, hs.made⟩, hmir.labels, hmir.terminates,
    hmir.breaks, fun _ => rfl⟩

/-- An expression as a statement is sound if it is as an expression. -/
theorem sound_stmt_expr (he : SoundExpr e) : SoundStmt (.expr n e) := by
  intro g live outer opens s s' d stmt' h hi _ hr
  rw [stmt] at h
  obtain ⟨v, t, hv, h⟩ := h.bind fun _ => keeps_pure
  obtain ⟨rfl, rfl, -⟩ := passes_pure.mp h
  obtain ⟨hev, -, hlv⟩ := he hv wanted_none hi
  refine ⟨hev.advances.mono fun F r _ hs => ⟨hs.inScope, hs.typed, trivial, hs.made.snoc⟩, ?_, rfl,
    rfl, nofun⟩
  rw [Stmt.labels, Stmt.labels, hlv]

/-- A statement without a declared function has none that waits for its body. -/
theorem pending_none (stmt : Stmt) : pending stmt none = [] := by
  cases stmt <;> rfl

/-- The branch of a conditional declares no function, so none waits in it. -/
theorem awaits_alternate {F : Facts} {stmt : Stmt} (h : stmt.IsAlternate) : Awaits F g stmt none := by
  cases stmt with
  | fnDecl _ _ _ _ => exact h.elim
  | _ => trivial

/-- A conditional is sound if its test and its block are, and the test is a bool. -/
theorem sound_cond_none {test : Expr} {yes : Block} (ht : SoundExpr test) (hy : SoundBlock yes) :
    SoundStmt (.cond n test yes none) := by
  intro g live outer opens s s' d stmt' h hi _ hr
  rw [stmt] at h
  obtain ⟨a, t, ha, h⟩ := h.bind fun _ => keeps_bind (keeps_block _) fun _ => keeps_pure
  obtain ⟨b, u, hb, h⟩ := h.bind fun _ => keeps_pure
  obtain ⟨rfl, rfl, -⟩ := passes_pure.mp h
  obtain ⟨hea, hfa, hla⟩ := ht ha (wanted_some.mpr rfl) hi
  obtain ⟨hadv, hmir⟩ := hy hb hea.inv (hea.calm.regular hr)
  refine ⟨(hea.advances.trans hadv (.refl _) (.refl _)).mono fun F r _ hs => ?_, ?_, rfl,
    hmir.breaks, fun _ => rfl⟩
  · exact ⟨⟨hs.1.inScope, hs.2.inScope⟩, ⟨hs.1.typed, (Expr.suits_some.mp hfa).2, hs.2.typed⟩,
      hea.calm.depth ▸ hs.2.looped, (hs.1.made.append hs.2.made).snoc⟩
  · rw [Stmt.labels, Stmt.labels, hla, hmir.labels]

/-- A conditional with two branches is sound if its test and both branches are. Each branch may
bring the result type of the function to light. -/
theorem sound_cond_some {test : Expr} {yes : Block} {no : Stmt} (ht : SoundExpr test)
    (hy : SoundBlock yes) (hn : SoundStmt no) (halt : no.IsAlternate) :
    SoundStmt (.cond n test yes (some no)) := by
  intro g live outer opens s s' d stmt' h hi _ hr
  rw [stmt] at h
  obtain ⟨a, t, ha, h⟩ := h.bind fun _ => keeps_bind (keeps_block _) fun _ =>
    keeps_bind (keeps_stmt _ _) fun _ => keeps_pure
  obtain ⟨b, u, hb, h⟩ := h.bind fun _ => keeps_bind (keeps_stmt _ _) fun _ => keeps_pure
  obtain ⟨c, v, hc, h⟩ := h.bind fun _ => keeps_pure
  obtain ⟨rfl, rfl, -⟩ := passes_pure.mp h
  obtain ⟨hea, hfa, hla⟩ := ht ha (wanted_some.mpr rfl) hi
  obtain ⟨hadv, hmir⟩ := hy hb hea.inv (hea.calm.regular hr)
  obtain ⟨hadv', hmir'⟩ := hn hc (by rw [pending_none]; exact hadv.inv) (awaits_alternate halt)
    (hadv.moves.regular (hea.calm.regular hr))
  rw [hmir'.alternate halt, pending_none] at hadv'
  have hall := (hea.advances.trans hadv (.refl _) (.refl _)).trans hadv' (.refl _) (.refl _)
  refine ⟨hall.mono fun F r _ hs => ?_, ?_, ?_, ?_, fun _ => rfl⟩
  · obtain ⟨⟨hsa, hsb⟩, hsc⟩ := hs
    exact ⟨⟨hsa.inScope, hsb.inScope, hsc.inScope⟩,
      ⟨hsa.typed, (Expr.suits_some.mp hfa).2, hsb.typed, hsc.typed⟩,
      ⟨hea.calm.depth ▸ hsb.looped, (hadv.moves.depth.trans hea.calm.depth) ▸ hsc.looped⟩,
      ((hsa.made.append hsb.made).append hsc.made).snoc⟩
  · rw [Stmt.labels, Stmt.labels, hla, hmir.labels, hmir'.labels]
  · rw [Stmt.terminates, Stmt.terminates, hmir.terminates, hmir'.terminates]
  · rw [Stmt.breaks, Stmt.breaks, hmir.breaks, hmir'.breaks]

/-- A loop with a test is sound if the test and the body are, the body as one inside a loop. -/
theorem sound_whileLoop {test : Expr} {b : Block} (ht : SoundExpr test) (hb : SoundBlock b) :
    SoundStmt (.whileLoop n test b) := by
  intro g live outer opens s s' d stmt' h hi _ hr
  rw [stmt] at h
  obtain ⟨a, t, ha, h⟩ := h.bind fun _ => keeps_bind (keeps_inLoop (keeps_block _)) fun _ => keeps_pure
  obtain ⟨b', u, hb', h⟩ := h.bind fun _ => keeps_pure
  obtain ⟨rfl, rfl, -⟩ := passes_pure.mp h
  obtain ⟨hea, hfa, hla⟩ := ht ha (wanted_some.mpr rfl) hi
  obtain ⟨hadv, hmir⟩ := inLoop_sound hb hb' hea.inv (hea.calm.regular hr)
  refine ⟨(hea.advances.trans hadv (.refl _) (.refl _)).mono fun F r _ hs => ?_, ?_, rfl, rfl, nofun⟩
  · exact ⟨⟨hs.1.inScope, hs.2.inScope⟩, ⟨hs.1.typed, (Expr.suits_some.mp hfa).2, hs.2.typed⟩,
      hs.2.looped, (hs.1.made.append hs.2.made).snoc⟩
  · rw [Stmt.labels, Stmt.labels, hla, hmir.labels]

/-- A loop without a test is sound if its body is, as one inside a loop. -/
theorem sound_loop {b : Block} (hb : SoundBlock b) : SoundStmt (.loop n b) := by
  intro g live outer opens s s' d stmt' h hi _ hr
  rw [stmt] at h
  obtain ⟨b', t, hb', h⟩ := h.bind fun _ => keeps_pure
  obtain ⟨rfl, rfl, -⟩ := passes_pure.mp h
  obtain ⟨hadv, hmir⟩ := inLoop_sound hb hb' hi hr
  refine ⟨hadv.mono fun F r _ hs => ⟨hs.inScope, hs.typed, hs.looped, hs.made.snoc⟩, ?_, ?_, rfl, nofun⟩
  · rw [Stmt.labels, Stmt.labels, hmir.labels]
  · rw [Stmt.terminates, Stmt.terminates, hmir.breaks]

/-- Analysis passes a `break` or `continue` only inside a loop. -/
theorem passes_requireLoop {fault : SemanticFault} {range : Range} {u : Unit}
    (h : Passes (requireLoop fault range) s u s') : s = s' ∧ s.context.loopDepth ≠ 0 := by
  unfold requireLoop at h
  rw [passes_get_bind] at h
  split at h
  · exact absurd h not_passes_report
  · next hdepth =>
      obtain ⟨-, rfl, -⟩ := passes_pure.mp h
      exact ⟨rfl, hdepth⟩

/-- A `break` that passes is inside a loop. -/
theorem sound_breakLoop : SoundStmt (.breakLoop n) := by
  intro g live outer opens s s' d stmt' h hi _ hr
  rw [stmt] at h
  obtain ⟨_, t, ht, h⟩ := h.bind fun _ => keeps_pure
  obtain ⟨rfl, rfl, -⟩ := passes_pure.mp h
  obtain ⟨rfl, hdepth⟩ := passes_requireLoop ht
  exact ⟨.refl hi fun F r _ => ⟨trivial, trivial, hdepth, .nil⟩, rfl, rfl, rfl, nofun⟩

/-- A `continue` that passes is inside a loop. -/
theorem sound_continueLoop : SoundStmt (.continueLoop n) := by
  intro g live outer opens s s' d stmt' h hi _ hr
  rw [stmt] at h
  obtain ⟨_, t, ht, h⟩ := h.bind fun _ => keeps_pure
  obtain ⟨rfl, rfl, -⟩ := passes_pure.mp h
  obtain ⟨rfl, hdepth⟩ := passes_requireLoop ht
  exact ⟨.refl hi fun F r _ => ⟨trivial, trivial, hdepth, .nil⟩, rfl, rfl, rfl, nofun⟩

/-- The body of a function is sound if its statements and its value are. The value is analyzed last,
where all variables of the body live, and has the result type. -/
theorem sound_body {ss : List Stmt} {tail : Option Expr} (hreg : Stmt.AllRegular ss)
    (hs : SoundStmts ss) (ht : ∀ e, tail = some e → SoundExpr e) : SoundBody (.mk n ss tail) := by
  intro g live outer opens s s' signature b' h hi hsig hret
  have hr : s.Regular := by
    intro t ht
    rw [hret] at ht
    cases ht
    exact hsig.2
  cases tail with
  | none =>
      rw [functionBody] at h
      obtain ⟨ds, t, hh, h⟩ := h.bind fun _ => keeps_bind (keeps_stmts _ _) fun _ => by simp
      obtain ⟨ss', u, hss, h⟩ := h.bind fun _ => by simp
      obtain ⟨hadv, hmir⟩ := hoisted_sound hs hreg hh hss hi hr
      dsimp only at h
      split at h
      · exact absurd h (not_passes_report_bind fun _ => keeps_pure)
      · next hend =>
          obtain ⟨rfl, rfl, -⟩ := passes_pure.mp h
          refine ⟨⟨_, hadv.mono fun F r hF hs => ⟨hs.inScope, ⟨hs.typed, ?_⟩, hs.looped, hs.made.snoc⟩⟩, ?_⟩
          · rw [← hF.returns _ (hadv.moves.returns _ hret), hmir.terminates]
            by_cases hunit : signature.returns = .unit
            · exact .inl hunit
            · right
              simpa [hunit, hsig.2] using hend
          · rw [Block.labels, Block.labels, hmir.labels]
  | some e =>
      rw [functionBody] at h
      obtain ⟨ds, t, hh, h⟩ := h.bind fun _ => keeps_bind (keeps_stmts _ _) fun _ =>
        keeps_bind (keeps_expr _ _) fun _ => keeps_pure
      obtain ⟨ss', u, hss, h⟩ := h.bind fun _ => keeps_bind (keeps_expr _ _) fun _ => keeps_pure
      obtain ⟨e', v, he, h⟩ := h.bind fun _ => keeps_pure
      obtain ⟨rfl, rfl, -⟩ := passes_pure.mp h
      obtain ⟨hadv, hmir⟩ := hoisted_sound hs hreg hh hss hi hr
      obtain ⟨hee, hfe, hle⟩ := ht e rfl he (wanted_some.mpr hsig.2) hadv.inv
      have hall := hadv.trans hee.advances (.refl _) (.refl _)
      refine ⟨⟨_, hall.mono fun F r hF hs => ?_⟩, ?_⟩
      · refine ⟨⟨hs.1.inScope, hs.2.inScope⟩, ⟨hs.1.typed, hs.2.typed, ?_⟩, hs.1.looped,
          (hs.1.made.append hs.2.made).snoc⟩
        rw [(Expr.suits_some.mp hfe).2]
        exact hF.returns _ (hall.moves.returns _ hret)
      · rw [Block.labels, Block.labels, hmir.labels, hle]

/-! ### Trees -/

mutual

/-- **Soundness** of the analysis of expressions, by induction on the tree. Each kind of expression
has its lemma above. -/
theorem expr_sound : ∀ e : Expr, e.Regular → SoundExpr e
  | .lit _ _, _ => sound_lit
  | .ident _ _, _ => sound_ident
  | .unary _ _ e, h => sound_unary (expr_sound e h)
  | .binary _ _ l r, h => sound_binary (expr_sound l h.2.1) (expr_sound r h.2.2)
  | .assign _ target value, h => by
      refine sound_assign (fun m b i hi => ?_) (expr_sound value h.2)
      cases target with
      | index m b i =>
          cases hi
          exact expr_sound i h.1.2
      | _ => cases hi
  | .call _ callee args, h => sound_call (expr_sound callee h.1) (args_sound args h.2)
  | .index _ target index, h => sound_index (expr_sound target h.1) (expr_sound index h.2)
  | .list _ [], _ => sound_list (by simp) sound_nil.all
  | .list _ (first :: rest), h => by
      refine sound_list (fun e he => ?_) (args_sound rest h.2).all
      obtain rfl : first = e := by simpa using he
      exact expr_sound first h.1
  | .cast _ e _, h => sound_cast (expr_sound e h)
  | .lambda _ _ b, h => sound_lambda h.1 (body_sound b h.2)

/-- All arguments of a regular tree are sound, by induction with the other parts of the tree. -/
theorem args_sound : ∀ es : List Expr, Expr.AllRegular es → SoundArgs es
  | [], _ => sound_nil
  | e :: es, h => sound_cons (expr_sound e h.1) (args_sound es h.2)

/-- **Soundness** of the analysis of statements. -/
theorem stmt_sound : ∀ s : Stmt, s.Regular → SoundStmt s
  | .block b, h => sound_stmt_block (block_sound b h)
  | .letVar _ _ _ init, h => sound_letVar h.1 (expr_sound init h.2)
  | .fnDecl _ _ _ b, h => sound_fnDecl h.1 (body_sound b h.2)
  | .ret _ none, _ => sound_ret_none
  | .ret _ (some e), h => sound_ret_some (expr_sound e h)
  | .cond _ test yes none, h => sound_cond_none (expr_sound test h.1) (block_sound yes h.2)
  | .cond _ test yes (some no), h =>
      sound_cond_some (expr_sound test h.1) (block_sound yes h.2.1) (stmt_sound no h.2.2.2) h.2.2.1
  | .whileLoop _ test b, h => sound_whileLoop (expr_sound test h.1) (block_sound b h.2)
  | .loop _ b, h => sound_loop (block_sound b h)
  | .breakLoop _, _ => sound_breakLoop
  | .continueLoop _, _ => sound_continueLoop
  | .expr _ e, h => sound_stmt_expr (expr_sound e h)

/-- All statements of a regular tree are sound. -/
theorem stmts_sound : ∀ ss : List Stmt, Stmt.AllRegular ss → SoundStmts ss
  | [], _ => sound_stmts_nil
  | s :: ss, h => sound_stmts_cons (stmt_sound s h.1) (stmts_sound ss h.2)

/-- All blocks of a regular tree are sound. -/
theorem block_sound : ∀ b : Block, b.Regular false → SoundBlock b
  | .mk _ ss none, h => sound_block h (stmts_sound ss h)
  | .mk _ _ (some _), h => by simp [Block.Regular] at h

/-- **Bodies.** Every body of a regular tree is sound. The whole program is the outermost of them.
-/
theorem body_sound : ∀ b : Block, b.Regular true → SoundBody b
  | .mk _ ss none, h => sound_body h (stmts_sound ss h) fun _ he => by cases he
  | .mk _ ss (some e), h => by
      refine sound_body h.2.1 (stmts_sound ss h.2.1) fun e' he => ?_
      cases he
      exact expr_sound e h.2.2

end

end Analyze

end Parlance
