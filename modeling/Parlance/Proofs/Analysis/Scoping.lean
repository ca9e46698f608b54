import Mathlib.Tactic.ByContra
import Parlance.Proofs.Analysis.Judgements
import Parlance.Tree.Effects

/-!
# Changes of scope

Code that is scoped stays so when the facts know more variables, and when the list of declared
variables changes: variables that the code does not mention may go, and variables with places of
their own may come.

## Main definitions

* `Facts.Orderly`: where variables live, and which of them other functions see.
* `Facts.Extends`: more variables are known.
* `Facts.Live`: the variables in a list have places of their own.

## Main results

* `Expr.Scoped.shift`, `Stmt.AllScoped.shift`, `Block.Scoped.shift`: a change of scope.
-/

namespace Parlance

namespace Facts

/-- Where variables live, and which of them other functions see. -/
structure Orderly (F : Facts) : Prop where
  slot : ∀ y < F.symbols.size, (F.symbol y).kind = .variable →
    ∃ k, (F.symbol y).storage = .global k ∨ (F.symbol y).storage = .frame k
  owner : ∀ y < F.symbols.size, ∀ k, (F.symbol y).storage = .global k →
    (F.symbol y).function = 0
  global_lt : ∀ y < F.symbols.size, ∀ k, (F.symbol y).storage = .global k → k < F.globals
  global_inj : ∀ y < F.symbols.size, ∀ z < F.symbols.size, ∀ k,
    (F.symbol y).storage = .global k → (F.symbol z).storage = .global k → y = z
  captured : ∀ f y, y ∈ F.captures f → y < F.symbols.size ∧ (F.symbol y).escapes = true

/-- What analysis keeps of its facts says where variables live. -/
theorem Coherent.orderly {F : Facts} (h : F.Coherent) : F.Orderly where
  slot y hy hk := (h.symbol y hy).exists_slot (.inl hk)
  owner y hy _ hs := ((h.symbol y hy).of_global hs).2
  global_lt := h.global_lt
  global_inj := h.global_inj
  captured f y hy := ⟨(h.captured f y hy).1, (h.captured f y hy).2.1⟩

/-- More variables are known, and nothing else has changed. -/
structure Extends (F F' : Facts) : Prop where
  symbols_le : F.symbols.size ≤ F'.symbols.size
  symbol : ∀ y < F.symbols.size, F'.symbol y = F.symbol y
  functions_size : F'.functions.size = F.functions.size
  info : ∀ f, F'.info f = { F.info f with slots := (F'.info f).slots }
  slots_le : ∀ f, (F.info f).slots ≤ (F'.info f).slots
  globals_le : F.globals ≤ F'.globals

namespace Extends

variable {F F' F'' : Facts}

/-- Facts to which no variable is added are the same. -/
theorem refl (F : Facts) : F.Extends F :=
  ⟨Nat.le_refl _, fun _ _ => rfl, rfl, fun _ => rfl, fun _ => Nat.le_refl _, Nat.le_refl _⟩

/-- Variables are added step after step. -/
theorem trans (h : F.Extends F') (h' : F'.Extends F'') : F.Extends F'' where
  symbols_le := Nat.le_trans h.symbols_le h'.symbols_le
  symbol y hy := (h'.symbol y (Nat.lt_of_lt_of_le hy h.symbols_le)).trans (h.symbol y hy)
  functions_size := h'.functions_size.trans h.functions_size
  info f := by rw [h'.info f, h.info f]
  slots_le f := Nat.le_trans (h.slots_le f) (h'.slots_le f)
  globals_le := Nat.le_trans h.globals_le h'.globals_le

/-- New variables change no captures. -/
theorem captures (h : F.Extends F') (f : Nat) : F'.captures f = F.captures f := by
  rw [Facts.captures, h.info f]
  rfl

/-- New variables change no parameters. -/
theorem params (h : F.Extends F') (f : Nat) : (F'.info f).params = (F.info f).params := by
  rw [h.info f]

end Extends

/-- A variable that a function may write: it has a place there. What other functions than the
program write, they share. -/
structure Placed (F : Facts) (function symbol : Nat) : Prop where
  lt : symbol < F.symbols.size
  slot : ∃ k, (F.symbol symbol).storage = .global k ∨ (F.symbol symbol).storage = .frame k
  owner : ∀ k, (F.symbol symbol).storage = .frame k → (F.symbol symbol).function = function
  escapes : function ≠ 0 → ∀ k, (F.symbol symbol).storage = .global k →
    (F.symbol symbol).escapes = true

/-- A variable that may be written has a place in the function: a slot of its frame or a global. A
captured variable is only read. -/
theorem Writable.placed {F : Facts} {function symbol : Nat} {live : List Nat}
    (h : F.Writable function live symbol) : F.Placed function symbol := by
  obtain ⟨hlt, h⟩ := h
  cases hs : (F.symbol symbol).storage with
  | global k =>
      rw [hs] at h
      refine ⟨hlt, ⟨k, .inl hs⟩, fun j hj => ?_, fun h0 _ _ => ?_⟩
      · rw [hs] at hj
        cases hj
      · rcases h with h | h
        · exact h.2
        · exact absurd h.1 h0
  | frame k =>
      rw [hs] at h
      refine ⟨hlt, ⟨k, .inr hs⟩, fun _ _ => h.1, fun _ j hj => ?_⟩
      rw [hs] at hj
      cases hj
  | function f =>
      rw [hs] at h
      exact h.elim
  | builtin b =>
      rw [hs] at h
      exact h.elim

/-- A variable that may be declared has a place in the function. -/
theorem Declarable.placed {F : Facts} (hF : F.Orderly) {function symbol : Nat} {live : List Nat}
    (h : F.Declarable function live symbol) : F.Placed function symbol :=
  ⟨h.lt, hF.slot symbol h.lt h.kind, fun _ _ => h.owner,
    fun h0 k hs => absurd (h.owner.symm.trans (hF.owner symbol h.lt k hs)) h0⟩

/-- The variables in a list have places of their own in the frames of a function. -/
structure Live (F : Facts) (function : Nat) (live : List Nat) : Prop where
  lt : ∀ y ∈ live, y < F.symbols.size
  slot_lt : ∀ y ∈ live, ∀ k, (F.symbol y).storage = .frame k → k < (F.info function).slots
  separate : live.Pairwise fun y z => (F.symbol y).storage ≠ (F.symbol z).storage

/-- A declared variable has a place of its own beside those that were declared before it. -/
theorem Declarable.live {F : Facts} {function symbol : Nat} {live : List Nat}
    (h : F.Declarable function live symbol) (hl : F.Live function live) :
    F.Live function (symbol :: live) where
  lt y hy := by
    rcases List.mem_cons.mp hy with rfl | hy
    · exact h.lt
    · exact hl.lt y hy
  slot_lt y hy := by
    rcases List.mem_cons.mp hy with rfl | hy
    · exact h.slot_lt
    · exact hl.slot_lt y hy
  separate := List.pairwise_cons.mpr ⟨fun z hz => (h.separate z hz).symm, hl.separate⟩

/-- What is used of a function and its body. -/
structure Fits (F : Facts) (function : Nat) (b : Block) : Prop where
  lt : function < F.functions.size
  param : ∀ i y, (F.info function).params[i]? = some y → F.IsParam function i y
  params_le : (F.info function).params.length ≤ (F.info function).slots
  inScope : b.Scoped F function (F.info function).params

/-- What analysis accepts says enough of a function to generate its code. -/
theorem Accepts.fits {F : Facts} {function : Nat} {b : Block} (h : F.Accepts function b) :
    F.Fits function b :=
  ⟨h.lt, h.param, h.params_le, h.inScope⟩

/-- The parameters of a function. -/
theorem Fits.live {F : Facts} {function : Nat} {b : Block} (h : F.Fits function b) :
    F.Live function (F.info function).params where
  lt y hy := by
    obtain ⟨i, hi⟩ := List.mem_iff_getElem?.mp hy
    exact (h.param i y hi).lt
  slot_lt y hy k hk := by
    obtain ⟨i, hi⟩ := List.mem_iff_getElem?.mp hy
    rw [(h.param i y hi).storage, Storage.frame.injEq] at hk
    subst hk
    exact Nat.lt_of_lt_of_le (List.getElem?_eq_some_iff.mp hi).1 h.params_le
  separate := by
    refine List.pairwise_iff_getElem.mpr fun i j hi hj hij => ?_
    rw [(h.param i _ (List.getElem?_eq_getElem hi)).storage,
      (h.param j _ (List.getElem?_eq_getElem hj)).storage, ne_eq, Storage.frame.injEq]
    exact Nat.ne_of_lt hij

/-! ### Shifts -/

/-- Another list of declared variables, for other facts. What goes is not shared, and what comes
has another place than all that the function may declare. -/
structure Shift (F F' : Facts) (function : Nat) (live live' : List Nat) : Prop where
  lt : ∀ y ∈ live, y < F.symbols.size
  gone : ∀ y ∈ live, y ∉ live' → (F.symbol y).escapes = false
  apart : ∀ y ∈ live', y ∉ live → ∀ z, F.Declarable function [] z →
    (F'.symbol y).storage ≠ (F.symbol z).storage

section

variable {F F' : Facts} {function y : Nat} {live live' : List Nat}

/-- The declared variables may stay the same. -/
theorem Shift.refl (hl : ∀ y ∈ live, y < F.symbols.size) : F.Shift F' function live live :=
  ⟨hl, fun _ h h' => absurd h h', fun _ h h' => absurd h h'⟩

/-- A variable that is declared in both scopes. -/
theorem Shift.cons (h : F.Shift F' function live live') (hy : y < F.symbols.size) :
    F.Shift F' function (y :: live) (y :: live') where
  lt z hz := by
    rcases List.mem_cons.mp hz with rfl | hz
    · exact hy
    · exact h.lt z hz
  gone z hz hz' := by
    simp only [List.mem_cons, not_or] at hz hz'
    exact h.gone z (hz.resolve_left hz'.1) hz'.2
  apart z hz hz' := by
    simp only [List.mem_cons, not_or] at hz hz'
    exact h.apart z (hz.resolve_left hz'.1) hz'.2

/-- A function has a variable under other facts, if the variable stays declared. -/
theorem Has.shift (he : F.Extends F') (hs : F.Has function live y)
    (hy : y < F.symbols.size) (hm : y ∈ live → y ∈ live') : F'.Has function live' y := by
  unfold Has at hs ⊢
  rw [he.symbol y hy, he.captures]
  split
  · next ho =>
      rw [if_pos ho] at hs
      exact hm hs
  · next ho =>
      rw [if_neg ho] at hs
      exact hs

/-- A name may be read under other facts, if its variable stays declared. -/
theorem Readable.shift (he : F.Extends F') (hs : F.Readable function live y)
    (hm : y ∈ live → y ∈ live') : F'.Readable function live' y := by
  obtain ⟨hy, hs⟩ := hs
  refine ⟨Nat.lt_of_lt_of_le hy he.symbols_le, ?_⟩
  rw [he.symbol y hy]
  cases hst : (F.symbol y).storage with
  | global k =>
      rw [hst] at hs
      exact hs.imp_right fun h => ⟨h.1, hm h.2⟩
  | frame k =>
      rw [hst] at hs
      exact hs.shift he hy hm
  | _ => trivial

/-- A name may be written under other facts, if its variable stays declared. -/
theorem Writable.shift (he : F.Extends F') (hs : F.Writable function live y)
    (hm : y ∈ live → y ∈ live') : F'.Writable function live' y := by
  obtain ⟨hy, hs⟩ := hs
  refine ⟨Nat.lt_of_lt_of_le hy he.symbols_le, ?_⟩
  rw [he.symbol y hy]
  cases hst : (F.symbol y).storage with
  | global k =>
      rw [hst] at hs
      exact hs.imp_right fun h => ⟨h.1, hm h.2⟩
  | frame k =>
      rw [hst] at hs
      exact ⟨hs.1, hm hs.2⟩
  | _ =>
      rw [hst] at hs
      exact hs

/-- A variable that may be declared behind others may be declared in front. -/
theorem Declarable.anywhere (h : F.Declarable function live y) : F.Declarable function [] y :=
  { h with separate := nofun }

/-- A variable may be declared beside the other list too, because what comes new has other places.
-/
theorem Declarable.shift (he : F.Extends F') (h : F.Shift F' function live live')
    (hs : F.Declarable function live y) : F'.Declarable function live' y where
  lt := Nat.lt_of_lt_of_le hs.lt he.symbols_le
  kind := by rw [he.symbol y hs.lt]; exact hs.kind
  owner := by rw [he.symbol y hs.lt]; exact hs.owner
  separate z hz := by
    rw [he.symbol y hs.lt]
    by_cases hl : z ∈ live
    · rw [he.symbol z (h.lt z hl)]
      exact hs.separate z hl
    · exact h.apart z hz hl y hs.anywhere
  slot_lt k hk := by
    rw [he.symbol y hs.lt] at hk
    exact Nat.lt_of_lt_of_le (hs.slot_lt k hk) (he.slots_le function)

/-- A lambda may be made with the other list too, because what goes is not shared with any function.
-/
theorem Makes.shift (hF : F.Orderly) (he : F.Extends F') (h : F.Shift F' function live live')
    {f : Nat} (hs : F.Makes function live f) : F'.Makes function live' f where
  ne_zero := hs.ne_zero
  lt := by rw [he.functions_size]; exact hs.lt
  has z hz := by
    rw [he.captures] at hz
    obtain ⟨hlt, hesc⟩ := hF.captured f z hz
    refine (hs.has z hz).shift he hlt fun hl => ?_
    by_contra hl'
    rw [h.gone z hl hl'] at hesc
    cases hesc

end

end Facts

/-! ### Scoped code -/

section

variable {F F' : Facts} {function : Nat}

/-- A block is scoped if its statements are, and its result after them. -/
theorem Block.scoped_mk {live : List Nat} {n : Note} {ss : List Stmt} {tail : Option Expr} :
    (Block.mk n ss tail).Scoped F function live ↔ Stmt.AllScoped F function live ss ∧
      ∀ e, tail = some e → e.Scoped F function (Stmt.liveAfter live ss) := by
  cases tail with
  | none => exact ⟨fun h => ⟨h, nofun⟩, fun h => h.1⟩
  | some e => exact ⟨fun h => ⟨h.1, fun _ he => Option.some.inj he ▸ h.2⟩, fun h => ⟨h.1, h.2 e rfl⟩⟩

/-- Statements in a row are in scope if the first part is and the second part is behind it. -/
theorem Stmt.allScoped_append {live : List Nat} {ss ts : List Stmt} :
    Stmt.AllScoped F function live (ss ++ ts) ↔
      Stmt.AllScoped F function live ss ∧
        Stmt.AllScoped F function (Stmt.liveAfter live ss) ts := by
  induction ss generalizing live with
  | nil => simp [Stmt.AllScoped, Stmt.liveAfter]
  | cons s ss ih => simp [Stmt.AllScoped, Stmt.liveAfter, ih, and_assoc]

/-- What is declared behind statements in a row is declared behind both parts. -/
theorem Stmt.liveAfter_append {live : List Nat} {ss ts : List Stmt} :
    Stmt.liveAfter live (ss ++ ts) = Stmt.liveAfter (Stmt.liveAfter live ss) ts := by
  induction ss generalizing live with
  | nil => rfl
  | cons s ss ih => exact ih

/-- What is declared before statements is declared behind them. -/
theorem Stmt.subset_liveAfter (live : List Nat) (ss : List Stmt) : live ⊆ Stmt.liveAfter live ss := by
  induction ss generalizing live with
  | nil => exact List.Subset.refl _
  | cons a ss ih => exact fun z hz => ih _ (List.mem_append_right _ hz)

/-- What is declared behind statements grows with what is declared before them. -/
theorem Stmt.liveAfter_mono {live live' : List Nat} (h : live ⊆ live') (ss : List Stmt) :
    Stmt.liveAfter live ss ⊆ Stmt.liveAfter live' ss := by
  induction ss generalizing live live' with
  | nil => exact h
  | cons s ss ih => exact ih (List.append_subset.mpr
      ⟨List.subset_append_left _ _, List.subset_append_of_subset_right _ h⟩)

/-- The scope after a statement. -/
theorem Stmt.Scoped.live {live : List Nat} {s : Stmt} (h : s.Scoped F function live)
    (hl : F.Live function live) : F.Live function (s.declared ++ live) := by
  cases s with
  | letVar n name ty e =>
      cases hn : n.symbol with
      | none => simpa [Stmt.declared, hn] using hl
      | some y => simpa [Stmt.declared, hn] using (h.2 y hn).live hl
  | _ => exact hl

/-- Behind statements in scope all declared variables have places of their own. -/
theorem Stmt.AllScoped.live {live : List Nat} {ss : List Stmt}
    (h : Stmt.AllScoped F function live ss) (hl : F.Live function live) :
    F.Live function (Stmt.liveAfter live ss) := by
  induction ss generalizing live with
  | nil => exact hl
  | cons s ss ih => exact ih h.2 (h.1.live hl)

variable {live live' : List Nat}

mutual

/-- **Expressions.** An expression that does not mention what goes is in scope among the variables
that stay, and the facts may have got more symbols. -/
theorem Expr.Scoped.shift (hF : F.Orderly) (he : F.Extends F')
    (h : F.Shift F' function live live') : ∀ e : Expr, e.Scoped F function live →
    (∀ y ∈ live, y ∉ live' → e.mentions y = false) → e.Scoped F' function live'
  | .lit _ _, _, _ => trivial
  | .ident n _, hs, hm => fun y hy => (hs y hy).shift he fun hl => by
      by_contra hl'
      simpa [Expr.mentions, hy] using hm y hl hl'
  | .unary _ _ e, hs, hm => Expr.Scoped.shift hF he h e hs hm
  | .cast _ e _, hs, hm => Expr.Scoped.shift hF he h e hs hm
  | .binary _ _ a b, hs, hm => by
      simp only [Expr.mentions, Bool.or_eq_false_iff] at hm
      exact ⟨Expr.Scoped.shift hF he h a hs.1 fun y hl hl' => (hm y hl hl').1,
        Expr.Scoped.shift hF he h b hs.2 fun y hl hl' => (hm y hl hl').2⟩
  | .index _ a b, hs, hm => by
      simp only [Expr.mentions, Bool.or_eq_false_iff] at hm
      exact ⟨Expr.Scoped.shift hF he h a hs.1 fun y hl hl' => (hm y hl hl').1,
        Expr.Scoped.shift hF he h b hs.2 fun y hl hl' => (hm y hl hl').2⟩
  | .assign _ (.ident n _) v, hs, hm => by
      simp only [Expr.mentions, Bool.or_eq_false_iff] at hm
      refine ⟨Expr.Scoped.shift hF he h v hs.1 fun y hl hl' => (hm y hl hl').2, fun y hy =>
        (hs.2 y hy).shift he fun hl => ?_⟩
      by_contra hl'
      simpa [hy] using (hm y hl hl').1
  | .assign _ (.index _ (.ident n _) i) v, hs, hm => by
      simp only [Expr.mentions, Bool.or_eq_false_iff] at hm
      refine ⟨Expr.Scoped.shift hF he h i hs.1 fun y hl hl' => (hm y hl hl').1.2,
        Expr.Scoped.shift hF he h v hs.2.1 fun y hl hl' => (hm y hl hl').2, fun y hy =>
        (hs.2.2 y hy).shift he fun hl => ?_⟩
      by_contra hl'
      simpa [hy] using (hm y hl hl').1.1
  | .call _ f args, hs, hm => by
      simp only [Expr.mentions, Bool.or_eq_false_iff] at hm
      exact ⟨Expr.Scoped.shift hF he h f hs.1 fun y hl hl' => (hm y hl hl').1,
        Expr.AllScoped.shift hF he h args hs.2 fun y hl hl' => (hm y hl hl').2⟩
  | .list _ items, hs, hm => Expr.AllScoped.shift hF he h items hs hm
  | .lambda n _ _, hs, _ => fun f hf => (hs f hf).shift hF he h

/-- Expressions stay in scope with another list, if they mention nothing that goes. -/
theorem Expr.AllScoped.shift (hF : F.Orderly) (he : F.Extends F')
    (h : F.Shift F' function live live') : ∀ es : List Expr, Expr.AllScoped F function live es →
    (∀ y ∈ live, y ∉ live' → Expr.anyMentions y es = false) → Expr.AllScoped F' function live' es
  | [], _, _ => trivial
  | e :: es, hs, hm => by
      simp only [Expr.anyMentions, Bool.or_eq_false_iff] at hm
      exact ⟨Expr.Scoped.shift hF he h e hs.1 fun y hl hl' => (hm y hl hl').1,
        Expr.AllScoped.shift hF he h es hs.2 fun y hl hl' => (hm y hl hl').2⟩

end

/-- The scopes after a statement. -/
theorem Facts.Shift.declare (h : F.Shift F' function live live') {s : Stmt}
    (hs : s.Scoped F function live) :
    F.Shift F' function (s.declared ++ live) (s.declared ++ live') := by
  cases s with
  | letVar n name ty e =>
      cases hn : n.symbol with
      | none => simpa [Stmt.declared, hn] using h
      | some y => simpa [Stmt.declared, hn] using h.cons (hs.2 y hn).lt
  | _ => exact h

/-- The scopes after statements. -/
theorem Facts.Shift.after (h : F.Shift F' function live live') {ss : List Stmt}
    (hs : Stmt.AllScoped F function live ss) :
    F.Shift F' function (Stmt.liveAfter live ss) (Stmt.liveAfter live' ss) := by
  induction ss generalizing live live' with
  | nil => exact h
  | cons s ss ih => exact ih (h.declare hs.1) hs.2

/-- What is gone after statements was gone before. -/
theorem Stmt.gone_after {ss : List Stmt} {y : Nat} (hl : y ∈ Stmt.liveAfter live ss)
    (hl' : y ∉ Stmt.liveAfter live' ss) : y ∈ live ∧ y ∉ live' := by
  induction ss generalizing live live' with
  | nil => exact ⟨hl, hl'⟩
  | cons s ss ih =>
      obtain ⟨h, h'⟩ := ih hl hl'
      simp only [List.mem_append, not_or] at h h'
      exact ⟨h.resolve_left h'.1, h'.2⟩

mutual

/-- **Statements.** A statement stays scoped when the facts grow and when variables that it does not
mention go out of scope. -/
theorem Stmt.Scoped.shift (hF : F.Orderly) (he : F.Extends F') : ∀ (s : Stmt)
    {live live' : List Nat}, F.Shift F' function live live' → s.Scoped F function live →
    (∀ y ∈ live, y ∉ live' → s.mentions y = false) → s.Scoped F' function live'
  | .block b, _, _, h, hs, hm => Block.Scoped.shift hF he b h hs hm
  | .loop _ b, _, _, h, hs, hm => Block.Scoped.shift hF he b h hs hm
  | .letVar n _ _ e, _, _, h, hs, hm =>
      ⟨Expr.Scoped.shift hF he h e hs.1 hm, fun y hy => (hs.2 y hy).shift he h⟩
  | .expr _ e, _, _, h, hs, hm => Expr.Scoped.shift hF he h e hs hm
  | .ret _ (some e), _, _, h, hs, hm => Expr.Scoped.shift hF he h e hs hm
  | .fnDecl _ _ _ _, _, _, _, _, _ | .ret _ none, _, _, _, _, _ | .breakLoop _, _, _, _, _, _
  | .continueLoop _, _, _, _, _, _ => trivial
  | .cond _ test yes none, _, _, h, hs, hm => by
      simp only [Stmt.mentions, Bool.or_eq_false_iff] at hm
      exact ⟨Expr.Scoped.shift hF he h test hs.1 fun y hl hl' => (hm y hl hl').1,
        Block.Scoped.shift hF he yes h hs.2 fun y hl hl' => (hm y hl hl').2⟩
  | .cond _ test yes (some no), _, _, h, hs, hm => by
      simp only [Stmt.mentions, Bool.or_eq_false_iff] at hm
      exact ⟨Expr.Scoped.shift hF he h test hs.1 fun y hl hl' => (hm y hl hl').1.1,
        Block.Scoped.shift hF he yes h hs.2.1 fun y hl hl' => (hm y hl hl').1.2,
        Stmt.Scoped.shift hF he no h hs.2.2 fun y hl hl' => (hm y hl hl').2⟩
  | .whileLoop _ test b, _, _, h, hs, hm => by
      simp only [Stmt.mentions, Bool.or_eq_false_iff] at hm
      exact ⟨Expr.Scoped.shift hF he h test hs.1 fun y hl hl' => (hm y hl hl').1,
        Block.Scoped.shift hF he b h hs.2 fun y hl hl' => (hm y hl hl').2⟩

/-- Statements stay in scope with another list, if they mention nothing that goes. -/
theorem Stmt.AllScoped.shift (hF : F.Orderly) (he : F.Extends F') : ∀ (ss : List Stmt)
    {live live' : List Nat}, F.Shift F' function live live' → Stmt.AllScoped F function live ss →
    (∀ y ∈ live, y ∉ live' → Stmt.anyMentions y ss = false) → Stmt.AllScoped F' function live' ss
  | [], _, _, _, _, _ => trivial
  | s :: ss, live, live', h, hs, hm => by
      simp only [Stmt.anyMentions, Bool.or_eq_false_iff] at hm
      refine ⟨Stmt.Scoped.shift hF he s h hs.1 fun y hl hl' => (hm y hl hl').1,
        Stmt.AllScoped.shift hF he ss (h.declare hs.1) hs.2 fun y hl hl' => ?_⟩
      simp only [List.mem_append, not_or] at hl hl'
      exact (hm y (hl.resolve_left hl'.1) hl'.2).2

/-- **Blocks.** -/
theorem Block.Scoped.shift (hF : F.Orderly) (he : F.Extends F') : ∀ (b : Block)
    {live live' : List Nat}, F.Shift F' function live live' → b.Scoped F function live →
    (∀ y ∈ live, y ∉ live' → b.mentions y = false) → b.Scoped F' function live'
  | .mk _ ss none, _, _, h, hs, hm => Stmt.AllScoped.shift hF he ss h hs hm
  | .mk _ ss (some e), _, _, h, hs, hm => by
      simp only [Block.mentions, Bool.or_eq_false_iff] at hm
      refine ⟨Stmt.AllScoped.shift hF he ss h hs.1 fun y hl hl' => (hm y hl hl').1,
        Expr.Scoped.shift hF he (h.after hs.1) e hs.2 fun y hl hl' => ?_⟩
      obtain ⟨hl, hl'⟩ := Stmt.gone_after hl hl'
      exact (hm y hl hl').2

end

/-! ### More facts -/

section

variable (hF : F.Orderly) (he : F.Extends F') (hl : ∀ y ∈ live, y < F.symbols.size)

include hF he hl

/-- What is scoped stays so when more variables are known. -/
theorem Expr.Scoped.mono {e : Expr} (h : e.Scoped F function live) : e.Scoped F' function live :=
  Expr.Scoped.shift hF he (.refl hl) e h fun _ hy hy' => absurd hy hy'

/-- A statement stays in scope when more variables are known. -/
theorem Stmt.Scoped.mono {s : Stmt} (h : s.Scoped F function live) : s.Scoped F' function live :=
  Stmt.Scoped.shift hF he s (.refl hl) h fun _ hy hy' => absurd hy hy'

/-- Statements stay in scope when more variables are known. -/
theorem Stmt.AllScoped.mono {ss : List Stmt} (h : Stmt.AllScoped F function live ss) :
    Stmt.AllScoped F' function live ss :=
  Stmt.AllScoped.shift hF he ss (.refl hl) h fun _ hy hy' => absurd hy hy'

/-- A block stays in scope when more variables are known. -/
theorem Block.Scoped.mono {b : Block} (h : b.Scoped F function live) : b.Scoped F' function live :=
  Block.Scoped.shift hF he b (.refl hl) h fun _ hy hy' => absurd hy hy'

end

end

end Parlance
