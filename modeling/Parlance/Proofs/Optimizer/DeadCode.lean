import Mathlib.Data.List.Pairwise
import Parlance.Optimizer.DeadCode
import Parlance.Proofs.BigStep.Agreement
import Parlance.Proofs.BigStep.Effects
import Parlance.Proofs.Tree.Noted

/-!
# Sweeping dead code keeps results

A swept block gives what the block gave. What is removed before control leaves the block has no
effect; what stands after that is never reached; and a store that is removed went to a variable
that no other function sees and that is not mentioned before the next store to it.

Each change is a refinement in one activation, from stores that agree on the declared variables.
While the source holds a value that was not stored in the target, the variable is left out of the
agreement.

## Main results

* `DeadCode.reachable_refines`: statements that are simplified or never reached.
* `DeadCode.dropStore?_refines`: one store.
* `DeadCode.block_refines`: a swept block.
-/

namespace Parlance

namespace DeadCode

open BigStep BigStep.Eval

variable {x : Activation} {before before' : Nat → Value} {live : List Nat} {owner : Nat → Nat}
  {function : Nat}

/-! ### Statements without effect -/

/-- Control reaches the end of a statement, and the store stays. -/
def Idle (x : Activation) (a : Stmt) : Prop :=
  ∀ s signal s', stmt x a s (.ok signal s') → signal = .normal ∧ s.Stays s'

/-- A statement that is removed does nothing. It is a pure expression, an empty block, or an `if` or
a `while` whose condition is the literal `false`. -/
theorem idle_removed {a : Stmt} (h : simplify a = .removed) : Idle x a := by
  intro s signal s' hm
  obtain ⟨n, e, rfl, hp⟩ | ⟨n, rfl⟩ | ⟨n, m, yes, rfl⟩ | ⟨n, m, body, rfl⟩ :=
    simplify_eq_removed h
  · rw [stmt] at hm
    obtain ⟨v, t, ht, hm⟩ := bind_ok.mp hm
    cases hm
    exact ⟨rfl, expr_still e (e.mayWrite_of_isPure hp) s v _ ht⟩
  · rw [stmt, BigStep.block, stmts] at hm
    cases hm
    exact ⟨rfl, .refl s⟩
  · rw [stmt, expr] at hm
    obtain ⟨v, t, ht, hm⟩ := bind_ok.mp hm
    cases ht
    obtain ⟨c, u, hc, hm⟩ := bind_ok.mp hm
    cases hc
    cases hm
    exact ⟨rfl, .refl _⟩
  · rw [stmt] at hm
    cases hf : x.fuel with
    | zero =>
        rw [hf] at hm
        cases hm
    | succ fuel =>
        rw [hf, iterate, expr] at hm
        obtain ⟨signal', t, ht, hm⟩ := bind_ok.mp hm
        obtain ⟨v, u, hu, ht⟩ := bind_ok.mp ht
        cases hu
        obtain ⟨c, w, hc, ht⟩ := bind_ok.mp ht
        cases hc
        cases ht
        cases hm
        exact ⟨rfl, .refl _⟩

/-- A statement that is removed declares nothing. -/
theorem declared_removed {a : Stmt} (h : simplify a = .removed) : a.declared = [] := by
  obtain ⟨n, e, rfl, -⟩ | ⟨n, rfl⟩ | ⟨n, m, yes, rfl⟩ | ⟨n, m, body, rfl⟩ :=
    simplify_eq_removed h <;>
  rfl

/-- A statement without effect may be left out. -/
theorem Idle.refines {a : Stmt} {ss : List Stmt} {tail : Option Expr} {m : Eval (Signal × Value)}
    {S : Signal × Value → Store → Store → Prop} (ha : Idle x a)
    (h : Refines (finish x ss tail) m (x.Agree before before' live) S) :
    Refines (finish x (a :: ss) tail) m (x.Agree before before' live) S := by
  intro s t r s' hag hm
  obtain ⟨signal, u, hu, hr⟩ := finish_cons.mp hm
  obtain ⟨rfl, hst⟩ := ha s signal u hu
  refine h u t r s' ?_ hr
  rw [hst.eq]
  exact hag.fresh_left hst.fresh

/-! ### Statements that are replaced -/

/-- What a statement is replaced by declares nothing, and neither does the statement. -/
theorem declared_replaced {a a' : Stmt} (h : simplify a = .replaced a') (ha : a.Noted owner function) :
    a.declared = [] ∧ a'.declared = [] := by
  obtain ⟨n, m, yes, no, rfl, rfl⟩ | ⟨n, m, yes, rfl⟩ := simplify_eq_replaced h
  · exact ⟨rfl, rfl⟩
  · exact ⟨rfl, ha.2.2.1⟩

/-- A statement that stands in for another one mentions only variables in scope. -/
theorem scoped_replaced {F : Facts} {f : Nat} {a a' : Stmt} (h : simplify a = .replaced a')
    (hs : a.Scoped F f live) : a'.Scoped F f live := by
  obtain ⟨n, m, yes, no, rfl, rfl⟩ | ⟨n, m, yes, rfl⟩ := simplify_eq_replaced h
  · cases no with
    | none => exact hs.2
    | some no => exact hs.2.1
  · exact hs.2.2

/-- A statement that stands in for another one has right notes. -/
theorem noted_replaced {a a' : Stmt} (h : simplify a = .replaced a') (ha : a.Noted owner function) :
    a'.Noted owner function := by
  obtain ⟨n, m, yes, no, rfl, rfl⟩ | ⟨n, m, yes, rfl⟩ := simplify_eq_replaced h
  · cases no with
    | none => exact ha.2
    | some no => exact ha.2.1
  · exact ha.2.2.2

/-- A branch on a constant is the branch that is taken. The test is a literal, so it writes nothing.
-/
theorem stmt_replaced {a a' : Stmt} (h : simplify a = .replaced a') {s s' : Store} {signal : Signal}
    (hm : stmt x a s (.ok signal s')) : stmt x a' s (.ok signal s') := by
  obtain ⟨n, m, yes, no, rfl, rfl⟩ | ⟨n, m, yes, rfl⟩ := simplify_eq_replaced h
  · cases no with
    | none =>
        rw [stmt, expr] at hm
        obtain ⟨v, t, ht, hm⟩ := bind_ok.mp hm
        cases ht
        obtain ⟨c, u, hc, hm⟩ := bind_ok.mp hm
        cases hc
        rw [stmt]
        exact hm
    | some no =>
        rw [stmt, expr] at hm
        obtain ⟨v, t, ht, hm⟩ := bind_ok.mp hm
        cases ht
        obtain ⟨c, u, hc, hm⟩ := bind_ok.mp hm
        cases hc
        rw [stmt]
        exact hm
  · rw [stmt, expr] at hm
    obtain ⟨v, t, ht, hm⟩ := bind_ok.mp hm
    cases ht
    obtain ⟨c, u, hc, hm⟩ := bind_ok.mp hm
    cases hc
    exact hm

/-! ### Statements that control reaches -/

/-- Declarations of functions mention no variable, so they are in scope everywhere. -/
theorem scoped_declarations {F : Facts} {f : Nat} (ss : List Stmt) (live : List Nat) :
    Stmt.AllScoped F f live (ss.filter isDeclaration) := by
  induction ss generalizing live with
  | nil => trivial
  | cons s ss ih =>
      rw [List.filter_cons]
      split
      · next hs =>
          refine ⟨?_, ih _⟩
          cases s with
          | fnDecl n name signature b => trivial
          | _ => cases hs
      · exact ih live

/-- The statements that are kept are scoped, and declare the same if control reaches their end.
Behind a statement that control does not leave, only declarations of functions are kept. -/
theorem reachable_scoped {F : Facts} {f : Nat} (ss : List Stmt) {live : List Nat}
    (hs : Stmt.AllScoped F f live ss) (hn : Stmt.AllNoted owner function ss) :
    Stmt.AllScoped F f live (reachable ss).stmts ∧
      ((reachable ss).diverged = false →
        Stmt.liveAfter live (reachable ss).stmts = Stmt.liveAfter live ss) := by
  induction ss generalizing live with
  | nil => exact ⟨trivial, fun _ => rfl⟩
  | cons a ss ih =>
      have hrest : ∀ diverges : Bool, ∀ {a' : Stmt} {changes : Nat}, a'.Scoped F f live →
          a'.declared = a.declared →
          Stmt.AllScoped F f live
            ((if diverges then unreachable ss else reachable ss).cons a' changes).stmts ∧
          (((if diverges then unreachable ss else reachable ss).cons a' changes).diverged = false →
            Stmt.liveAfter live
              ((if diverges then unreachable ss else reachable ss).cons a' changes).stmts =
              Stmt.liveAfter live (a :: ss)) := by
        intro diverges a' changes ha' hd
        cases diverges with
        | true => exact ⟨⟨ha', scoped_declarations ss _⟩, nofun⟩
        | false =>
            obtain ⟨h, h'⟩ := ih hs.2 hn.2
            refine ⟨⟨ha', hd ▸ h⟩, fun hdiv => ?_⟩
            rw [Stmt.liveAfter, ← h' hdiv, ← hd]
            rfl
      rw [reachable]
      split
      · next hr =>
          obtain ⟨h, h'⟩ := ih hs.2 hn.2
          rw [declared_removed hr] at h h'
          refine ⟨h, fun hdiv => ?_⟩
          rw [Stmt.liveAfter, declared_removed hr]
          exact h' hdiv
      · exact hrest _ hs.1 rfl
      · next a' hr =>
          obtain ⟨hd, hd'⟩ := declared_replaced hr hn.1
          exact hrest _ (scoped_replaced hr hs.1) (hd'.trans hd.symm)

/-- Declarations of functions that are kept have right notes. -/
theorem noted_declarations {ss : List Stmt} (h : Stmt.AllNoted owner function ss) :
    Stmt.AllNoted owner function (ss.filter isDeclaration) :=
  Stmt.allNoted_iff.mpr fun s hs => Stmt.allNoted_iff.mp h s (List.mem_filter.mp hs).1

/-- What is left of statements behind a jump has right notes. -/
theorem reachable_noted (ss : List Stmt) (hn : Stmt.AllNoted owner function ss) :
    Stmt.AllNoted owner function (reachable ss).stmts := by
  induction ss with
  | nil => trivial
  | cons a ss ih =>
      have hrest : ∀ diverges : Bool,
          Stmt.AllNoted owner function (if diverges then unreachable ss else reachable ss).stmts := by
        intro diverges
        cases diverges with
        | true => exact noted_declarations hn.2
        | false => exact ih hn.2
      rw [reachable]
      split
      · exact ih hn.2
      · exact ⟨hn.1, hrest _⟩
      · next a' hr => exact ⟨noted_replaced hr hn.1, hrest _⟩

/-- A statement in front of those after it. If it diverges, those are not reached, and neither is
the result of the block. -/
theorem cons_refines (hx : Twins x x) {a a' : Stmt} {ss : List Stmt} {tail tail' : Option Expr}
    {changes : Nat} (ha' : a'.Scoped x.facts x.function live)
    (hm : ∀ s signal s', stmt x a s (.ok signal s') → stmt x a' s (.ok signal s'))
    (hdiv : ((if a'.diverges then unreachable ss else reachable ss).cons a' changes).diverged =
      false → tail' = tail)
    (ih : ((reachable ss).diverged = false → tail' = tail) →
      Keeps (finish x ss tail) (finish x (reachable ss).stmts tail')
        (x.Agree before before' (a'.declared ++ live))) :
    Keeps (finish x (a :: ss) tail)
      (finish x ((if a'.diverges then unreachable ss else reachable ss).cons a' changes).stmts tail')
      (x.Agree before before' live) := by
  have ha : Refines (stmt x a) (stmt x a') (x.Agree before before' live) fun signal =>
      signal.pick (x.Agree before before' (a'.declared ++ live)) (x.Agree before before' live) :=
    fun s t signal s' hag hs => stmt_refines hx a' ha' s t signal s' hag (hm s signal s' hs)
  cases hdv : a'.diverges with
  | true =>
      refine Refines.finish_cons (R := fun _ _ => False) ?_ fun _ _ _ _ h => h.elim
      intro s t signal s' hag hs
      obtain ⟨t', ht', hag'⟩ := ha s t signal s' hag hs
      cases signal with
      | normal => exact (stmt_diverges a' hdv s s' (hm s _ s' hs)).elim
      | _ => exact ⟨t', ht', hag'⟩
  | false =>
      rw [hdv] at hdiv
      exact ha.finish_cons ((ih hdiv).post fun _ _ _ h => h.mono (List.subset_append_right _ _))

/-- **Reachable statements.** Statements that are simplified, up to the first one that control
does not leave. -/
theorem reachable_refines (hx : Twins x x) (ss : List Stmt) {live : List Nat}
    {tail tail' : Option Expr} (hs : Stmt.AllScoped x.facts x.function live ss)
    (hn : Stmt.AllNoted owner x.function ss)
    (ht : ∀ e, tail = some e → e.Scoped x.facts x.function (Stmt.liveAfter live ss))
    (hdiv : (reachable ss).diverged = false → tail' = tail) :
    Keeps (finish x ss tail) (finish x (reachable ss).stmts tail') (x.Agree before before' live) := by
  induction ss generalizing live with
  | nil =>
      obtain rfl := hdiv rfl
      exact finish_refines hx [] tail' trivial ht
  | cons a ss ih =>
      rw [reachable] at hdiv ⊢
      split
      · next hr =>
          rw [hr] at hdiv
          have h := ih hs.2 hn.2 ht hdiv
          rw [declared_removed hr] at h
          exact (idle_removed hr).refines h
      · next hr =>
          rw [hr] at hdiv
          exact cons_refines hx hs.1 (fun _ _ _ h => h) hdiv fun h => ih hs.2 hn.2 ht h
      · next a' hr =>
          rw [hr] at hdiv
          obtain ⟨hd, hd'⟩ := declared_replaced hr hn.1
          refine cons_refines hx (scoped_replaced hr hs.1) (fun _ _ _ => stmt_replaced hr) hdiv
            fun h => ?_
          rw [hd', ← hd]
          exact ih hs.2 hn.2 ht h

/-! ### Stores -/

/-- A statement that stores the value of an expression in a variable. -/
def Stores (x : Activation) (a : Stmt) (y : Nat) (e : Expr) : Prop :=
  ∀ s signal s', stmt x a s (.ok signal s') ↔
    signal = .normal ∧ ∃ v u, expr x e s (.ok v u) ∧ s' = u.put x.facts y v

/-- A `let` stores its value in its variable. -/
theorem stores_letVar {n : Note} {name : String} {ty : Option Ty} {e : Expr} {y : Nat}
    (hn : n.symbol = some y) (hy : x.facts.Placed x.function y) :
    Stores x (.letVar n name ty e) y e := by
  intro s signal s'
  rw [stmt]
  constructor
  · intro hm
    obtain ⟨v, u, hu, hm⟩ := bind_ok.mp hm
    rw [write_eq hn hy] at hm
    obtain ⟨_, w, hw, hm⟩ := bind_ok.mp hm
    cases hw
    cases hm
    exact ⟨rfl, v, u, hu, rfl⟩
  · rintro ⟨rfl, v, u, hu, rfl⟩
    refine bind_ok.mpr ⟨v, u, hu, ?_⟩
    rw [write_eq hn hy]
    exact bind_ok.mpr ⟨(), _, rfl, rfl⟩

/-- An assignment as a statement stores its value in its variable and nowhere else, and the value of
the assignment itself is dropped. -/
theorem stores_assign {m n t : Note} {name : String} {e : Expr} {y : Nat}
    (ht : t.symbol = some y) (hy : x.facts.Placed x.function y) :
    Stores x (.expr m (.assign n (.ident t name) e)) y e := by
  intro s signal s'
  have hexpr : expr x (.assign n (.ident t name) e) = (do
      let v ← expr x e
      write x t v
      return v) := by
    rw [expr]
    · rfl
    · intros
      contradiction
  rw [stmt, hexpr]
  constructor
  · intro hm
    obtain ⟨_, w, hw, hm⟩ := bind_ok.mp hm
    cases hm
    obtain ⟨v, u, hu, hw⟩ := bind_ok.mp hw
    rw [write_eq ht hy] at hw
    obtain ⟨_, w', hw', hw⟩ := bind_ok.mp hw
    cases hw'
    cases hw
    exact ⟨rfl, _, u, hu, rfl⟩
  · rintro ⟨rfl, v, u, hu, rfl⟩
    refine bind_ok.mpr ⟨v, _, bind_ok.mpr ⟨v, u, hu, ?_⟩, rfl⟩
    rw [write_eq ht hy]
    exact bind_ok.mpr ⟨(), _, rfl, rfl⟩

section

variable {a a' : Stmt} {y : Nat} {e : Expr} {live' : List Nat}

/-- A store of which only the effects of the value stay. From then on the stores need not agree
on the variable. -/
theorem Stores.forget (hx : Twins x x) (ha : Stores x a y e) (hy : x.facts.Placed x.function y)
    (hesc : (x.facts.symbol y).escapes = false) (he : e.Scoped x.facts x.function live)
    (hsub : live' ⊆ live)
    (hsep : ∀ z ∈ live', (x.facts.symbol z).storage ≠ (x.facts.symbol y).storage) {n : Note} :
    Refines (stmt x a) (stmt x (.expr n e)) (x.Agree before before' live) fun signal s t =>
      signal = .normal ∧ x.Agree before before' live' s t := by
  intro s t signal s' hag hm
  obtain ⟨rfl, v, u, hu, rfl⟩ := (ha s signal s').mp hm
  obtain ⟨t', ht', hag'⟩ := expr_refines hx e he s t v u hag hu
  refine ⟨t', ?_, rfl, (hag'.mono hsub).put_left hx.orderly hy hesc hsep⟩
  rw [stmt]
  exact bind_ok.mpr ⟨v, t', ht', rfl⟩

/-- Both sides store the same. -/
theorem Stores.refines (hx : Twins x x) (ha : Stores x a y e) (ha' : Stores x a' y e)
    (hy : x.facts.Placed x.function y) (he : e.Scoped x.facts x.function live)
    (hsub : live' ⊆ y :: live) :
    Refines (stmt x a) (stmt x a') (x.Agree before before' live) fun signal s t =>
      signal = .normal ∧ x.Agree before before' live' s t := by
  intro s t signal s' hag hm
  obtain ⟨rfl, v, u, hu, rfl⟩ := (ha s signal s').mp hm
  obtain ⟨t', ht', hag'⟩ := expr_refines hx e he s t v u hag hu
  exact ⟨_, (ha' t .normal _).mpr ⟨rfl, v, t', ht', rfl⟩, rfl,
    (hag'.put hx.orderly hy).mono hsub⟩

/-- A store of a pure value may be left out. -/
theorem Stores.skip (hx : Twins x x) (ha : Stores x a y e) (hy : x.facts.Placed x.function y)
    (hesc : (x.facts.symbol y).escapes = false) (hp : e.isPure = true)
    (hsep : ∀ z ∈ live, (x.facts.symbol z).storage ≠ (x.facts.symbol y).storage)
    {ss : List Stmt} {tail : Option Expr} {m : Eval (Signal × Value)}
    {S : Signal × Value → Store → Store → Prop}
    (h : Refines (finish x ss tail) m (x.Agree before before' live) S) :
    Refines (finish x (a :: ss) tail) m (x.Agree before before' live) S := by
  intro s t r s' hag hm
  obtain ⟨signal, u, hu, hr⟩ := finish_cons.mp hm
  obtain ⟨rfl, v, w, hw, rfl⟩ := (ha s signal u).mp hu
  have hst := expr_still e (e.mayWrite_of_isPure hp) s v w hw
  refine h _ t r s' (Agree.put_left hx.orderly ?_ hy hesc hsep) hr
  rw [hst.eq]
  exact hag.fresh_left hst.fresh

end

section

variable {F : Facts} {function : Nat} {n : Note} {y : Nat}

/-- A variable of the function's own is one that no other function sees. -/
theorem ownVariable?_eq_some (h : ownVariable? F n = some y) :
    n.symbol = some y ∧ (F.symbol y).escapes = false := by
  unfold ownVariable? at h
  obtain ⟨hn, hy⟩ := Option.filter_eq_some_iff.mp h
  refine ⟨hn, ?_⟩
  split at hy
  · next z hz =>
      rw [Facts.symbol, hz]
      simp only [Bool.and_eq_true, Bool.not_eq_true'] at hy
      exact hy.2
  · cases hy

/-- Where a variable is declared there is a `let` with it. -/
theorem exists_of_declares {ss : List Stmt} (h : declares F y ss = true) :
    ∃ n name ty e, Stmt.letVar n name ty e ∈ ss ∧ ownVariable? F n = some y := by
  unfold declares at h
  obtain ⟨s, hs, hy⟩ := List.any_eq_true.mp h
  split at hy
  · exact ⟨_, _, _, _, hs, by simpa using hy⟩
  · cases hy

/-- A variable whose stores may be removed is seen by no other function. -/
theorem escapes_of_isRemovable (h : isRemovable F y = true) : (F.symbol y).escapes = false := by
  unfold isRemovable at h
  split at h
  · next z hz =>
      rw [Facts.symbol, hz]
      simp only [Bool.and_eq_true, Bool.not_eq_true'] at h
      exact h.2
  · cases h

/-- A function writes its own variables where they are declared. -/
theorem mem_live_of_writable (h : F.Writable function live y)
    (hesc : (F.symbol y).escapes = false) : y ∈ live := by
  obtain ⟨-, h⟩ := h
  split at h
  · rcases h with h | h
    · rw [hesc] at h
      cases h.2
    · exact h.2
  · exact h.2
  · exact h.elim
  · exact h.elim

/-- The declared variables without one of them. -/
theorem separate_filter (hl : F.Live function live) (hy : y ∈ live) :
    ∀ z ∈ live.filter (· ≠ y), (F.symbol z).storage ≠ (F.symbol y).storage := by
  intro z hz
  obtain ⟨hz, hne⟩ := List.mem_filter.mp hz
  have : Std.Symm fun y z => (F.symbol y).storage ≠ (F.symbol z).storage :=
    ⟨fun _ _ h => h.symm⟩
  exact hl.separate.forall hz hy (by simpa using hne)

end

/-! ### Scopes without a variable -/

/-- If all variables but one stay declared, only that one can be gone. -/
theorem eq_of_gone {y z : Nat} {live' : List Nat} (hrest : ∀ z ∈ live, z ≠ y → z ∈ live')
    (hz : z ∈ live) (hz' : z ∉ live') : z = y := by
  by_contra hne
  exact hz' (hrest z hz hne)

/-- What does not mention a variable is scoped without it. -/
theorem shift_forget {F : Facts} {function y : Nat} {live' : List Nat}
    (hl : ∀ z ∈ live, z < F.symbols.size) (hesc : (F.symbol y).escapes = false)
    (hsub : live' ⊆ live) (hrest : ∀ z ∈ live, z ≠ y → z ∈ live') :
    F.Shift F function live live' :=
  ⟨hl, fun _ hz hz' => eq_of_gone hrest hz hz' ▸ hesc, fun _ hz hz' => absurd (hsub hz) hz'⟩

section

variable {F : Facts} {function y : Nat} {live' : List Nat} (hF : F.Orderly)
  (hl : ∀ z ∈ live, z < F.symbols.size) (hesc : (F.symbol y).escapes = false)
  (hsub : live' ⊆ live) (hrest : ∀ z ∈ live, z ≠ y → z ∈ live')

include hF hl hesc hsub hrest

/-- An expression that does not mention a variable is in scope without it. -/
theorem scoped_forget {e : Expr} (hs : e.Scoped F function live) (hm : e.mentions y = false) :
    e.Scoped F function live' :=
  Expr.Scoped.shift hF (.refl F) (shift_forget hl hesc hsub hrest) e hs fun _ hz hz' =>
    eq_of_gone hrest hz hz' ▸ hm

/-- Statements and the result after them. -/
theorem finish_forget {ss : List Stmt} {tail : Option Expr} (hs : Stmt.AllScoped F function live ss)
    (ht : ∀ e, tail = some e → e.Scoped F function (Stmt.liveAfter live ss))
    (hm : mentionedIn y ss tail = false) :
    Stmt.AllScoped F function live' ss ∧
      ∀ e, tail = some e → e.Scoped F function (Stmt.liveAfter live' ss) := by
  have hshift : F.Shift F function live live' := shift_forget hl hesc hsub hrest
  simp only [mentionedIn, Bool.or_eq_false_iff] at hm
  refine ⟨Stmt.AllScoped.shift hF (.refl F) ss hshift hs fun _ hz hz' =>
    eq_of_gone hrest hz hz' ▸ hm.1, fun e he => ?_⟩
  refine Expr.Scoped.shift hF (.refl F) (hshift.after hs) e (ht e he) fun z hz hz' => ?_
  obtain ⟨hz, hz'⟩ := Stmt.gone_after hz hz'
  rw [eq_of_gone hrest hz hz']
  rw [he] at hm
  exact hm.2

end

/-- All variables but the new one were declared before. -/
theorem mem_of_ne_cons {y : Nat} : ∀ z ∈ y :: live, z ≠ y → z ∈ live :=
  fun _ hz hne => (List.mem_cons.mp hz).resolve_left hne

/-- All variables but the one that is struck out stay declared. -/
theorem mem_filter_of_ne {y : Nat} : ∀ z ∈ live, z ≠ y → z ∈ live.filter (· ≠ y) :=
  fun z hz hne => List.mem_filter.mpr ⟨hz, by simpa using hne⟩

/-! ### One change -/

/-- What is known where a store is dropped: the statements and the result after them are scoped,
and the variables declared in the block are not among those declared around it. -/
structure Site (F : Facts) (function : Nat) (outer live : List Nat) (before ss : List Stmt)
    (tail : Option Expr) : Prop where
  places : F.Live function live
  inScope : Stmt.AllScoped F function live ss
  result : ∀ e, tail = some e → e.Scoped F function (Stmt.liveAfter live ss)
  around : outer ⊆ live
  declared : ∀ y, declares F y before = true → y ∉ outer

section

variable {outer : List Nat} {done ss ss' : List Stmt} {tail : Option Expr}

/-- What one change gives: the new statements are scoped, and refine the old ones. -/
structure Drops (x : Activation) (outer live : List Nat) (ss ss' : List Stmt)
    (tail : Option Expr) : Prop where
  inScope : Stmt.AllScoped x.facts x.function live ss'
  result : ∀ e, tail = some e → e.Scoped x.facts x.function (Stmt.liveAfter live ss')
  refines : ∀ before before', Refines (finish x ss tail) (finish x ss' tail)
    (x.Agree before before' live) fun _ => x.Agree before before' outer

/-- A statement that control leaves at its end, then those after it. -/
theorem finish_step {a a' : Stmt} {mid : List Nat}
    (ha : Refines (stmt x a) (stmt x a') (x.Agree before before' live) fun signal s t =>
      signal = .normal ∧ x.Agree before before' mid s t)
    (h : Refines (finish x ss tail) (finish x ss' tail)
      (x.Agree before before' mid) fun _ => x.Agree before before' outer) :
    Refines (finish x (a :: ss) tail) (finish x (a' :: ss') tail) (x.Agree before before' live)
      fun _ => x.Agree before before' outer := by
  refine Refines.finish_cons (ha.post fun signal s t hag => ?_) h
  obtain ⟨rfl, hag⟩ := hag
  exact hag

/-- Statements that stay as they are. -/
theorem finish_rest (hx : Twins x x) (hsub : outer ⊆ live)
    (hs : Stmt.AllScoped x.facts x.function live ss)
    (ht : ∀ e, tail = some e → e.Scoped x.facts x.function (Stmt.liveAfter live ss)) :
    Refines (finish x ss tail) (finish x ss tail) (x.Agree before before' live) fun _ =>
      x.Agree before before' outer :=
  (finish_refines hx ss tail hs ht).post fun _ _ _ h => h.mono hsub

/-- A `let` whose value is overwritten before it is read may be declared later, at the store. The
value that is stored does not read the variable, so it is in scope without it. -/
theorem declareLater?_drops (hx : Twins x x)
    (h : Site x.facts x.function outer live done ss tail)
    (hd : declareLater? x.facts ss = some ss') : Drops x outer live ss ss' tail := by
  unfold declareLater? at hd
  split at hd
  · next n name ty init m k target nm value rest =>
      split at hd
      · next y stored hown htarget =>
          split at hd
          · next hc =>
              obtain ⟨rfl, hm⟩ := hc
              obtain ⟨hn, hesc⟩ := ownVariable?_eq_some hown
              obtain ⟨⟨hinit, hdecl⟩, ⟨hvalue, hwrite⟩, hrest⟩ := h.inScope
              have hsym : n.symbol.toList = [y] := by rw [hn]; rfl
              have hD := hdecl y hn
              have hy := hD.placed hx.orderly
              have hlet : ∀ e, Stores x (.letVar n name ty e) y e := fun e => stores_letVar hn hy
              have hstore : Stores x (.expr m (.assign k (.ident target nm) value)) y value :=
                stores_assign htarget hy
              simp only [Stmt.declared, hsym, List.nil_append, List.cons_append] at hvalue hrest
              have hvalue' : value.Scoped x.facts x.function live :=
                scoped_forget hx.orderly (hD.live h.places).lt hesc (List.subset_cons_self y live)
                  mem_of_ne_cons hvalue (by simpa using hm)
              have htail : ∀ e, tail = some e →
                  e.Scoped x.facts x.function (Stmt.liveAfter (y :: live) rest) := by
                intro e he
                have := h.result e he
                simpa only [Stmt.liveAfter, Stmt.declared, hsym, List.nil_append,
                  List.cons_append] using this
              have hout : outer ⊆ y :: live := List.subset_cons_of_subset y h.around
              have hlater : ∀ before before', Refines
                  (finish x (.expr m (.assign k (.ident target nm) value) :: rest) tail)
                  (finish x (.letVar n name ty value :: rest) tail) (x.Agree before before' live)
                  fun _ => x.Agree before before' outer := fun before before' =>
                finish_step (hstore.refines hx (hlet value) hy hvalue' (List.Subset.refl _))
                  (finish_rest hx hout hrest htail)
              have hscoped : Stmt.AllScoped x.facts x.function live
                  (.letVar n name ty value :: rest) := by
                refine ⟨⟨hvalue', hdecl⟩, ?_⟩
                simpa only [Stmt.declared, hsym, List.cons_append, List.nil_append] using hrest
              have htail' : ∀ e, tail = some e → e.Scoped x.facts x.function
                  (Stmt.liveAfter live (.letVar n name ty value :: rest)) := by
                intro e he
                simpa only [Stmt.liveAfter, Stmt.declared, hsym, List.cons_append,
                  List.nil_append] using htail e he
              cases hd
              split
              · next hp =>
                  exact ⟨hscoped, htail', fun before before' =>
                    (hlet init).skip hx hy hesc hp hD.separate (hlater before before')⟩
              · refine ⟨⟨hinit, hscoped⟩, htail', fun before before' => ?_⟩
                exact finish_step ((hlet init).forget hx hy hesc hinit (List.Subset.refl _)
                  hD.separate) (hlater before before')
          · cases hd
      · cases hd
  · cases hd

/-- A store that is overwritten before it is read may be dropped, apart from its value's effects.
Until the second store the two sides agree on all variables but this one. -/
theorem overwritten?_drops (hx : Twins x x)
    (h : Site x.facts x.function outer live done ss tail)
    (hd : overwritten? x.facts ss = some ss') : Drops x outer live ss ss' tail := by
  unfold overwritten? at hd
  split at hd
  · next n k target nm value next rest =>
      split at hd
      · next y stored nextValue htarget hnext =>
          split at hd
          · next hc =>
              obtain ⟨rfl, hrem, hm⟩ := hc
              cases hd
              obtain ⟨m, k', target', nm', rfl, htarget'⟩ : ∃ m k' target' nm',
                  next = .expr m (.assign k' (.ident target' nm') nextValue) ∧
                    target'.symbol = some y := by
                unfold storeOf? at hnext
                split at hnext
                · obtain ⟨z, hz, he⟩ := Option.map_eq_some_iff.mp hnext
                  cases he
                  exact ⟨_, _, _, _, rfl, hz⟩
                · cases hnext
              have hesc := escapes_of_isRemovable hrem
              obtain ⟨⟨hvalue, hwrite⟩, ⟨hvalue', hwrite'⟩, hrest⟩ := h.inScope
              have hmem := mem_live_of_writable (hwrite y htarget) hesc
              have hy := (hwrite y htarget).placed
              have hforget : nextValue.Scoped x.facts x.function (live.filter (· ≠ y)) :=
                scoped_forget hx.orderly h.places.lt hesc List.filter_sublist.subset mem_filter_of_ne
                  hvalue' (by simpa using hm)
              have hback : live ⊆ y :: live.filter (· ≠ y) := by
                intro z hz
                by_cases hzy : z = y
                · exact hzy ▸ List.mem_cons_self
                · exact List.mem_cons_of_mem _ (mem_filter_of_ne z hz hzy)
              refine ⟨⟨hvalue, ⟨hvalue', hwrite'⟩, hrest⟩, h.result, fun before before' => ?_⟩
              have hstore : Stores x (.expr m (.assign k' (.ident target' nm') nextValue)) y nextValue :=
                stores_assign htarget' hy
              exact finish_step ((stores_assign htarget hy).forget hx hy hesc hvalue
                List.filter_sublist.subset (separate_filter h.places hmem))
                (finish_step (hstore.refines hx hstore hy hforget hback) (finish_rest hx h.around hrest h.result))
          · cases hd
      · cases hd
  · cases hd

/-- A store to a variable that is not mentioned behind it may be dropped, apart from its value's
effects. -/
theorem forgotten?_drops (hx : Twins x x)
    (h : Site x.facts x.function outer live done ss tail)
    (hd : forgotten? x.facts tail done ss = some ss') : Drops x outer live ss ss' tail := by
  unfold forgotten? at hd
  split at hd
  · next n name ty init rest =>
      split at hd
      · next y hown =>
          split at hd
          · cases hd
          · next hm =>
              cases hd
              obtain ⟨hn, hesc⟩ := ownVariable?_eq_some hown
              obtain ⟨⟨hinit, hdecl⟩, hrest⟩ := h.inScope
              have hsym : n.symbol.toList = [y] := by rw [hn]; rfl
              have hD := hdecl y hn
              have hy := hD.placed hx.orderly
              have htail := h.result
              simp only [Stmt.liveAfter, Stmt.declared, hsym, List.cons_append,
                List.nil_append] at hrest htail
              obtain ⟨hrest', htail'⟩ := finish_forget hx.orderly (hD.live h.places).lt hesc
                (List.subset_cons_self y live) mem_of_ne_cons hrest htail (by simpa using hm)
              exact ⟨⟨hinit, hrest'⟩, htail', fun before before' =>
                finish_step ((stores_letVar hn hy).forget hx hy hesc hinit (List.Subset.refl _)
                  hD.separate) (finish_rest hx h.around hrest' htail')⟩
      · cases hd
  · next n k target nm value rest =>
      split at hd
      · next y htarget =>
          split at hd
          · next hc =>
              obtain ⟨hdeclares, hm⟩ := hc
              cases hd
              obtain ⟨_, _, _, _, -, hown⟩ := exists_of_declares hdeclares
              have hesc := (ownVariable?_eq_some hown).2
              obtain ⟨⟨hvalue, hwrite⟩, hrest⟩ := h.inScope
              have hmem := mem_live_of_writable (hwrite y htarget) hesc
              have hy := (hwrite y htarget).placed
              obtain ⟨hrest', htail'⟩ := finish_forget hx.orderly h.places.lt hesc
                List.filter_sublist.subset mem_filter_of_ne hrest h.result (by simpa using hm)
              have hout : outer ⊆ live.filter (· ≠ y) := fun z hz =>
                mem_filter_of_ne z (h.around hz) fun he => h.declared y hdeclares (he ▸ hz)
              exact ⟨⟨hvalue, hrest⟩, h.result, fun before before' =>
                finish_step ((stores_assign htarget hy).forget hx hy hesc hvalue
                  List.filter_sublist.subset (separate_filter h.places hmem))
                  (finish_rest hx hout hrest' htail')⟩
          · cases hd
      · cases hd
  · cases hd

/-- **One change.** -/
theorem dropStore?_drops (hx : Twins x x) (h : Site x.facts x.function outer live done ss tail)
    (hd : dropStore? x.facts tail done ss = some ss') : Drops x outer live ss ss' tail := by
  unfold dropStore? at hd
  rcases Option.or_eq_some_iff.mp hd with hd | ⟨-, hd⟩
  · exact declareLater?_drops hx h hd
  · rcases Option.or_eq_some_iff.mp hd with hd | ⟨-, hd⟩
    · exact overwritten?_drops hx h hd
    · exact forgotten?_drops hx h hd

end

/-! ### All changes -/

section

variable {ss ss' : List Stmt} {tail tail' : Option Expr}

/-- What a block declares has no place among the variables declared around it. -/
theorem not_mem_of_declares {F : Facts} {function : Nat} (done : List Stmt) {live : List Nat}
    (hs : Stmt.AllScoped F function live done) {y : Nat} (hy : declares F y done = true) :
    y ∉ live := by
  obtain ⟨n, name, ty, e, hmem, hown⟩ := exists_of_declares hy
  induction done generalizing live with
  | nil => cases hmem
  | cons a done ih =>
      rcases List.mem_cons.mp hmem with rfl | hmem
      · intro hl
        exact (hs.1.2 y (ownVariable?_eq_some hown).1).separate y hl rfl
      · have hd : declares F y done = true := by
          unfold declares
          refine List.any_eq_true.mpr ⟨_, hmem, ?_⟩
          simp [hown]
        exact fun hl => ih hs.2 hd hmem (List.mem_append_right _ hl)

/-- Behind statements that were passed, the rest is a place where stores may be dropped. -/
theorem site_of_append {F : Facts} {function : Nat} {outer : List Nat} {done : List Stmt}
    (hl : F.Live function outer) (hs : Stmt.AllScoped F function outer (done ++ ss))
    (ht : ∀ e, tail = some e → e.Scoped F function (Stmt.liveAfter outer (done ++ ss))) :
    Site F function outer (Stmt.liveAfter outer done) done ss tail := by
  obtain ⟨hdone, hss⟩ := Stmt.allScoped_append.mp hs
  rw [Stmt.liveAfter_append] at ht
  exact ⟨hdone.live hl, hss, ht, Stmt.subset_liveAfter outer done,
    fun y hy => not_mem_of_declares done hdone hy⟩

/-- **All changes.** Dropping stores one after the other. The statements that were looked at already
stand in front, and what they declare is in scope. -/
theorem dropStores_drops (hx : Twins x x) {outer : List Nat} (hl : x.facts.Live x.function outer)
    (done ss : List Stmt) (hs : Stmt.AllScoped x.facts x.function outer (done ++ ss))
    (ht : ∀ e, tail = some e →
      e.Scoped x.facts x.function (Stmt.liveAfter outer (done ++ ss))) :
    Drops x outer outer (done ++ ss) (dropStores x.facts tail done ss).1 tail := by
  fun_induction dropStores x.facts tail done ss with
  | case1 done =>
      rw [List.append_nil] at hs ht ⊢
      exact ⟨hs, ht, fun _ _ => finish_refines hx done tail hs ht⟩
  | case2 done a ss ss' hd out changes hout ih =>
      have hdrop := dropStore?_drops hx (site_of_append hl hs ht) hd
      have hdone := (Stmt.allScoped_append.mp hs).1
      have hstep : ∀ before before', Keeps (finish x (done ++ a :: ss) tail)
          (finish x (done ++ ss') tail) (x.Agree before before' outer) := fun before before' =>
        finish_append hx done hdone (List.Subset.refl _) (hdrop.refines before before')
      have hrest := ih (Stmt.allScoped_append.mpr ⟨hdone, hdrop.inScope⟩)
        (by rw [Stmt.liveAfter_append]; exact hdrop.result)
      rw [hout] at hrest
      exact ⟨hrest.inScope, hrest.result, fun before before' =>
        (hstep before before').trans (hrest.refines before' before') (fun _ _ h => h.right)
          fun _ _ _ _ h h' => h.trans h'⟩
  | case3 done a ss hd ih =>
      have heq : done ++ a :: ss = done ++ [a] ++ ss := by simp
      rw [heq] at hs ht ⊢
      exact ih hs ht

end

/-! ### Blocks -/

/-- The result of a swept block: none, if control never comes to it. -/
def sweptTail (ss : List Stmt) (tail : Option Expr) : Option Expr :=
  if (reachable ss).diverged && tail.isSome then none else tail

/-- A swept block has the statements that are reached, with stores dropped, and its result if
control comes to it. -/
theorem block_mk (F : Facts) (n : Note) (ss : List Stmt) (tail : Option Expr) :
    (block F (.mk n ss tail)).1 =
      .mk n (dropStores F (sweptTail ss tail) [] (reachable ss).stmts).1 (sweptTail ss tail) := by
  unfold block sweptTail
  dsimp only
  split
  · rfl
  · rfl

/-- If control comes to its end, a block keeps its result. -/
theorem sweptTail_of_reached {ss : List Stmt} {tail : Option Expr}
    (h : (reachable ss).diverged = false) : sweptTail ss tail = tail := by
  simp [sweptTail, h]

/-- A swept block has a result only if control comes to it and the block had it. -/
theorem sweptTail_eq_some {ss : List Stmt} {tail : Option Expr} {e : Expr}
    (h : sweptTail ss tail = some e) : (reachable ss).diverged = false ∧ tail = some e := by
  unfold sweptTail at h
  split at h
  · cases h
  · next hd =>
      rw [h] at hd
      exact ⟨by simpa using hd, h⟩

/-- **Swept blocks.** A swept block is scoped, and refines the block: first what is never reached
goes, and then the stores that nothing reads. -/
theorem block_drops (hx : Twins x x) {n : Note} {ss : List Stmt} {tail : Option Expr}
    (hl : x.facts.Live x.function live) (hs : (Block.mk n ss tail).Scoped x.facts x.function live)
    (hn : (Block.mk n ss tail).Noted owner x.function) :
    (block x.facts (.mk n ss tail)).1.Scoped x.facts x.function live ∧
      ∀ before before', Keeps (finish x ss tail)
        (finish x (block x.facts (.mk n ss tail)).1.stmts (block x.facts (.mk n ss tail)).1.tail)
        (x.Agree before before' live) := by
  obtain ⟨hss, ht⟩ := Block.scoped_mk.mp hs
  have hnoted := (Block.noted_mk.mp hn).2.1
  obtain ⟨hreach, hlive⟩ := reachable_scoped ss hss hnoted
  have htail : ∀ e, sweptTail ss tail = some e →
      e.Scoped x.facts x.function (Stmt.liveAfter live (reachable ss).stmts) := by
    intro e he
    obtain ⟨hd, he⟩ := sweptTail_eq_some he
    rw [hlive hd]
    exact ht e he
  have hdrop := dropStores_drops hx hl [] (reachable ss).stmts hreach htail
  rw [block_mk]
  refine ⟨Block.scoped_mk.mpr ⟨hdrop.inScope, hdrop.result⟩, fun before before' => ?_⟩
  exact (reachable_refines hx ss hss hnoted ht sweptTail_of_reached).trans
    (hdrop.refines before' before') (fun _ _ h => h.right) fun _ _ _ _ h h' => h.trans h'

end DeadCode

end Parlance
