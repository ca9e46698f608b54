import Parlance.Proofs.Analysis.Scoping
import Parlance.Proofs.BigStep.Refinement

/-!
# Stores that agree on live variables

Two evaluations of one function run side by side. Their stores agree on the variables that are
still of use, and on the globals that functions share; what else they hold may differ. Scoped
code does not see the difference, so it gives the same values on both sides, and the stores keep
agreeing.

The facts on the second side may know more variables than those on the first one.

## Main definitions

* `BigStep.Agree`: two stores agree on the variables in a list.
* `BigStep.Twins`: two activations that differ in their calls only.

## Main results

* `BigStep.expr_refines`, `BigStep.stmt_refines`: scoped code keeps stores agreeing.
-/

namespace Parlance

namespace BigStep

open Eval

/-! ### Cells -/

/-- What a store holds for a variable of the running function. -/
def Store.cell (F : Facts) (s : Store) (y : Nat) : Value :=
  match (F.symbol y).storage with
  | .global k => s.globals k
  | .frame k => s.slots k
  | _ => .unit

/-- Stores into a variable of the running function. -/
def Store.put (F : Facts) (y : Nat) (v : Value) (s : Store) : Store :=
  match (F.symbol y).storage with
  | .global k => { s with globals := Function.update s.globals k v }
  | .frame k => { s with slots := Function.update s.slots k v }
  | _ => s

namespace Store

variable {F : Facts} {s : Store} {y z : Nat} {v : Value}

/-- Storing into a variable prints nothing. -/
@[simp] theorem put_output : (s.put F y v).output = s.output := by
  unfold put
  split <;> rfl

/-- Storing into a variable gives out no identity. -/
@[simp] theorem put_fresh : (s.put F y v).fresh = s.fresh := by
  unfold put
  split <;> rfl

/-- What was stored into a variable is what it holds. -/
theorem cell_put (hs : ∃ k, (F.symbol y).storage = .global k ∨ (F.symbol y).storage = .frame k) :
    (s.put F y v).cell F y = v := by
  obtain ⟨k, hk | hk⟩ := hs
  · simp [cell, put, hk]
  · simp [cell, put, hk]

/-- Storing does not change what has another place. -/
theorem cell_put_of_ne (h : (F.symbol z).storage ≠ (F.symbol y).storage) :
    (s.put F y v).cell F z = s.cell F z := by
  unfold cell put
  cases hy : (F.symbol y).storage with
  | global k =>
      rw [hy] at h
      split
      · next j hj => exact Function.update_of_ne (fun he => h (by rw [hj, he])) _ _
      · rfl
      · rfl
  | frame k =>
      rw [hy] at h
      split
      · rfl
      · next j hj => exact Function.update_of_ne (fun he => h (by rw [hj, he])) _ _
      · rfl
  | function f => rfl
  | builtin b => rfl

/-- Storing into a variable leaves the globals that are not its place. -/
theorem globals_put_of_ne {k : Nat} (h : (F.symbol y).storage ≠ .global k) :
    (s.put F y v).globals k = s.globals k := by
  unfold put
  split
  · next j hj => exact Function.update_of_ne (fun he => h (by rw [hj, he])) _ _
  · rfl
  · rfl

end Store

/-- Writing a variable that has a place. -/
theorem write_eq {x : Activation} {n : Note} {y : Nat} (hn : n.symbol = some y)
    (h : x.facts.Placed x.function y) (v : Value) :
    write x n v = update (Store.put x.facts y v) := by
  unfold write
  rw [hn]
  dsimp only
  obtain ⟨k, hk | hk⟩ := h.slot
  · rw [hk]
    dsimp only
    congr 1
    funext s
    rw [Store.put, hk]
  · rw [hk]
    dsimp only
    rw [if_pos (h.owner k hk)]
    congr 1
    funext s
    rw [Store.put, hk]

/-! ### Agreement -/

/-- Two stores show the same from outside: functions find the same in the globals that they
share. The second store has given out no more identities. -/
structure Alike (F : Facts) (s t : Store) : Prop where
  output : t.output = s.output
  fresh : t.fresh ≤ s.fresh
  shared : ∀ y < F.symbols.size, ∀ k, (F.symbol y).storage = .global k →
    (F.symbol y).escapes = true → t.globals k = s.globals k

/-- The globals that only the program itself uses are as they were. -/
def Untouched (F : Facts) (before after : Nat → Value) : Prop :=
  ∀ y < F.symbols.size, ∀ k, (F.symbol y).storage = .global k → (F.symbol y).escapes = false →
    after k = before k

/-- Two stores agree on the variables in `live`. The function that runs, if it is not the
program, has left the globals of the program as they were when it was called. -/
structure Agree (F : Facts) (function : Nat) (before before' : Nat → Value) (live : List Nat)
    (s t : Store) : Prop extends Alike F s t where
  lt : ∀ y ∈ live, y < F.symbols.size
  cells : ∀ y ∈ live, t.cell F y = s.cell F y
  untouched : function ≠ 0 → Untouched F before s.globals ∧ Untouched F before' t.globals

section

variable {F F' : Facts} {function : Nat} {before before' : Nat → Value} {live live' : List Nat}
  {s t u : Store} {y : Nat} {v : Value}

/-- Stores that show the same show the same step after step. -/
theorem Alike.trans (h : Alike F s t) (h' : Alike F t u) : Alike F s u where
  output := h'.output.trans h.output
  fresh := Nat.le_trans h'.fresh h.fresh
  shared y hy k hs he := (h'.shared y hy k hs he).trans (h.shared y hy k hs he)

/-- Globals are untouched where nothing happens. -/
theorem Untouched.refl (before : Nat → Value) : Untouched F before before :=
  fun _ _ _ _ _ => rfl

/-- Globals stay untouched step after step. -/
theorem Untouched.trans {g g' g'' : Nat → Value} (h : Untouched F g g') (h' : Untouched F g' g'') :
    Untouched F g g'' :=
  fun y hy k hs he => (h' y hy k hs he).trans (h y hy k hs he)

namespace Agree

/-- Stores that agree on variables agree on fewer of them. -/
theorem mono (h : Agree F function before before' live s t) (hl : live' ⊆ live) :
    Agree F function before before' live' s t :=
  { h with lt := fun y hy => h.lt y (hl hy), cells := fun y hy => h.cells y (hl hy) }

/-- A store agrees with itself. -/
theorem refl (hl : ∀ y ∈ live, y < F.symbols.size) : Agree F function s.globals s.globals live s s where
  output := rfl
  fresh := Nat.le_refl _
  shared _ _ _ _ _ := rfl
  lt := hl
  cells _ _ := rfl
  untouched _ := ⟨.refl _, .refl _⟩

/-- A store that agrees with another one agrees with itself, on any variables. -/
theorem itself (h : Agree F function before before' live s t)
    (hl : ∀ y ∈ live', y < F.symbols.size) : Agree F function before' before' live' t t where
  output := rfl
  fresh := Nat.le_refl _
  shared _ _ _ _ _ := rfl
  lt := hl
  cells _ _ := rfl
  untouched h0 := ⟨(h.untouched h0).2, (h.untouched h0).2⟩

/-- The second store agrees with itself. Refinement of one evaluation by itself starts there. -/
theorem right (h : Agree F function before before' live s t) :
    Agree F function before' before' live t t :=
  h.itself h.lt

/-- Stores that agree with a third one in between agree. -/
theorem trans (h : Agree F function before before' live s t)
    (h' : Agree F function before' before' live t u) :
    Agree F function before before' live s u where
  toAlike := h.toAlike.trans h'.toAlike
  lt := h.lt
  cells y hy := (h'.cells y hy).trans (h.cells y hy)
  untouched h0 := ⟨(h.untouched h0).1, (h'.untouched h0).2⟩

/-- An evaluation from `s` to `s'` and one from `t` to `t'` agree, and so does one from `t` to `u`
under more facts. -/
theorem step (he : F.Extends F') {s' t' : Store} (h : Agree F function before before' live s t)
    (hs : Agree F function before before' live s' t')
    (hu : Agree F' function t.globals t.globals live t' u) :
    Agree F function before before' live s' u where
  output := hu.output.trans hs.output
  fresh := Nat.le_trans hu.fresh hs.fresh
  shared y hy k hk hesc := by
    rw [← he.symbol y hy] at hk hesc
    rw [hu.shared y (Nat.lt_of_lt_of_le hy he.symbols_le) k hk hesc]
    rw [he.symbol y hy] at hk hesc
    exact hs.shared y hy k hk hesc
  lt := hs.lt
  cells y hy := by
    have hc := hu.cells y hy
    unfold Store.cell at hc
    rw [he.symbol y (hs.lt y hy)] at hc
    exact hc.trans (hs.cells y hy)
  untouched h0 := by
    refine ⟨(hs.untouched h0).1, (h.untouched h0).2.trans fun y hy k hk hesc => ?_⟩
    rw [← he.symbol y hy] at hk hesc
    exact (hu.untouched h0).2 y (Nat.lt_of_lt_of_le hy he.symbols_le) k hk hesc

/-- More identities given out on the first side change nothing. -/
theorem fresh_left (h : Agree F function before before' live s t) {n : Nat} (hn : s.fresh ≤ n) :
    Agree F function before before' live { s with fresh := n } t where
  output := h.output
  fresh := Nat.le_trans h.fresh hn
  shared := h.shared
  lt := h.lt
  cells := h.cells
  untouched := h.untouched

/-- Both sides give out an identity. -/
theorem fresh_both (h : Agree F function before before' live s t) (n : Nat) :
    Agree F function before before' live { s with fresh := n } { t with fresh := n } where
  output := h.output
  fresh := Nat.le_refl _
  shared := h.shared
  lt := h.lt
  cells := h.cells
  untouched := h.untouched

/-- Both sides print the same. -/
theorem output_both (h : Agree F function before before' live s t) (o : Output) :
    Agree F function before before' live { s with output := o } { t with output := o } where
  output := rfl
  fresh := h.fresh
  shared := h.shared
  lt := h.lt
  cells := h.cells
  untouched := h.untouched

/-- A function that is not the program leaves the globals that only the program uses. -/
theorem untouched_put (hF : F.Orderly) (hp : F.Placed function y) (h0 : function ≠ 0)
    {g : Nat → Value} (h : Untouched F g s.globals) : Untouched F g (s.put F y v).globals := by
  intro z hz k hs he
  rw [Store.globals_put_of_ne, h z hz k hs he]
  intro hk
  have hesc := hp.escapes h0 k hk
  rw [hF.global_inj y hp.lt z hz k hk hs, he] at hesc
  cases hesc

/-- **Both sides store.** The same value in the same variable keeps stores agreeing, and they
agree on that variable then. -/
theorem put (hF : F.Orderly) (h : Agree F function before before' live s t)
    (hp : F.Placed function y) :
    Agree F function before before' (y :: live) (s.put F y v) (t.put F y v) where
  output := by rw [Store.put_output, Store.put_output, h.output]
  fresh := by rw [Store.put_fresh, Store.put_fresh]; exact h.fresh
  shared z hz k hs he := by
    by_cases hk : (F.symbol y).storage = .global k
    · simp [Store.put, hk]
    · rw [Store.globals_put_of_ne hk, Store.globals_put_of_ne hk, h.shared z hz k hs he]
  lt z hz := by
    rcases List.mem_cons.mp hz with rfl | hz
    · exact hp.lt
    · exact h.lt z hz
  cells z hz := by
    by_cases hs : (F.symbol z).storage = (F.symbol y).storage
    · have hc : ∀ r : Store, (r.put F y v).cell F z = v := by
        intro r
        have heq : (r.put F y v).cell F z = (r.put F y v).cell F y := by
          unfold Store.cell
          rw [hs]
        rw [heq, Store.cell_put hp.slot]
      rw [hc, hc]
    · rw [Store.cell_put_of_ne hs, Store.cell_put_of_ne hs]
      rcases List.mem_cons.mp hz with rfl | hz
      · exact absurd rfl hs
      · exact h.cells z hz
  untouched h0 := ⟨untouched_put hF hp h0 (h.untouched h0).1, untouched_put hF hp h0 (h.untouched h0).2⟩

/-- **One side stores.** A variable that no other function sees may be stored on the first side
alone, if the stores need not agree on it. -/
theorem put_left (hF : F.Orderly) (h : Agree F function before before' live s t)
    (hp : F.Placed function y) (he : (F.symbol y).escapes = false)
    (hl : ∀ z ∈ live, (F.symbol z).storage ≠ (F.symbol y).storage) :
    Agree F function before before' live (s.put F y v) t where
  output := by rw [Store.put_output, h.output]
  fresh := by rw [Store.put_fresh]; exact h.fresh
  shared z hz k hs hesc := by
    rw [Store.globals_put_of_ne, h.shared z hz k hs hesc]
    intro hk
    rw [hF.global_inj y hp.lt z hz k hk hs, hesc] at he
    cases he
  lt := h.lt
  cells z hz := by rw [Store.cell_put_of_ne (hl z hz), h.cells z hz]
  untouched h0 := ⟨untouched_put hF hp h0 (h.untouched h0).1, (h.untouched h0).2⟩

/-- Storing into a variable of the second store that nothing else shares leaves the stores in
agreement. -/
theorem put_right (hF : F.Orderly) (h : Agree F function before before' live s t)
    (hp : F.Placed function y) (he : (F.symbol y).escapes = false)
    (hl : ∀ z ∈ live, (F.symbol z).storage ≠ (F.symbol y).storage) :
    Agree F function before before' live s (t.put F y v) where
  output := by rw [Store.put_output, h.output]
  fresh := by rw [Store.put_fresh]; exact h.fresh
  shared z hz k hs hesc := by
    rw [Store.globals_put_of_ne, h.shared z hz k hs hesc]
    intro hk
    rw [hF.global_inj y hp.lt z hz k hk hs, hesc] at he
    cases he
  lt := h.lt
  cells z hz := by rw [Store.cell_put_of_ne (hl z hz), h.cells z hz]
  untouched h0 := ⟨(h.untouched h0).1, untouched_put hF hp h0 (h.untouched h0).2⟩

end Agree

end

/-! ### Twins -/

/-- The calls on the second side give what those on the first side give. Both leave the slots of
the caller alone, and the globals that only the program uses. -/
def CallsRefine (F : Facts) (call call' : Calls) : Prop :=
  ∀ f captures args s t v s', Alike F s t → call f captures args s (.ok v s') →
    ∃ t', call' f captures args t (.ok v t') ∧ Alike F s' t' ∧
      (s'.slots = s.slots ∧ Untouched F s.globals s'.globals) ∧
      t'.slots = t.slots ∧ Untouched F t.globals t'.globals

/-- Two activations of one function, with other calls and perhaps more facts. -/
structure Twins (x x' : Activation) : Prop where
  orderly : x.facts.Orderly
  more : x.facts.Extends x'.facts
  eq : x' = { x with facts := x'.facts, call := x'.call }
  calls : CallsRefine x.facts x.call x'.call

namespace Twins

variable {x x' : Activation}

/-- Twins are of the same function. -/
theorem function (h : Twins x x') : x'.function = x.function := by rw [h.eq]

/-- Twins captured the same values. -/
theorem captures (h : Twins x x') : x'.captures = x.captures := by rw [h.eq]

/-- Twins read the same inputs. -/
theorem inputs (h : Twins x x') : x'.inputs = x.inputs := by rw [h.eq]

/-- Twins have the same limit of depth. -/
theorem maxDepth (h : Twins x x') : x'.maxDepth = x.maxDepth := by rw [h.eq]

/-- Twins are equally deep. -/
theorem depth (h : Twins x x') : x'.depth = x.depth := by rw [h.eq]

/-- Twins go on for equally many rounds. -/
theorem fuel (h : Twins x x') : x'.fuel = x.fuel := by rw [h.eq]

end Twins

/-! ### Expressions -/

/-- Two stores of an activation agree on variables. -/
abbrev Activation.Agree (x : Activation) (before before' : Nat → Value) (live : List Nat)
    (s t : Store) : Prop :=
  BigStep.Agree x.facts x.function before before' live s t

section

variable {x x' : Activation} {before before' : Nat → Value} {live : List Nat}

/-- Variables that a function has hold the same on both sides. Reading any other is a dangling
reference, of which refinement says nothing. -/
theorem readVariable_refines (hx : Twins x x') {y k : Nat}
    (hs : (x.facts.symbol y).storage = .frame k) (hh : x.facts.Has x.function live y) :
    Refines (readVariable x y k (x.facts.symbol y).function)
      (readVariable x' y k (x.facts.symbol y).function)
      (x.Agree before before' live) fun _ => x.Agree before before' live := by
  unfold readVariable
  rw [hx.function, hx.more.captures]
  unfold Facts.Has at hh
  refine refines_ite (fun ho => ?_) fun ho => ?_
  · rw [if_pos ho] at hh
    refine refines_store fun s t h => ⟨?_, h⟩
    have hc := h.cells y hh
    unfold Store.cell at hc
    rwa [hs] at hc
  · split
    · unfold captured
      rw [hx.captures]
      split
      · exact Refines.pure fun _ _ h => h
      · exact refines_fail
    · exact refines_fail

/-- **Names.** A readable name has the same value on both sides. An unresolved one may have any
value. -/
theorem read_refines (hx : Twins x x') {n : Note}
    (hn : ∀ y, n.symbol = some y → x.facts.Readable x.function live y) :
    Refines (read x n) (read x' n) (x.Agree before before' live)
      fun _ => x.Agree before before' live := by
  unfold read
  cases hy : n.symbol with
  | none =>
      rintro s t v s' h ⟨w, hw⟩
      cases hw
      exact ⟨t, ⟨v, rfl⟩, h⟩
  | some y =>
      obtain ⟨hlt, hr⟩ := hn y hy
      dsimp only
      rw [hx.more.symbol y hlt]
      cases hs : (x.facts.symbol y).storage with
      | global k =>
          rw [hs] at hr
          refine refines_store fun s t h => ⟨?_, h⟩
          rcases hr with ⟨-, he⟩ | ⟨-, hl⟩
          · exact h.shared y hlt k hs he
          · have hc := h.cells y hl
            unfold Store.cell at hc
            rwa [hs] at hc
      | frame k =>
          rw [hs] at hr
          exact readVariable_refines hx hs hr
      | function f => exact Refines.pure fun _ _ h => h
      | builtin b => exact Refines.pure fun _ _ h => h

/-- Reading captured variables gives the same from stores that agree on them. -/
theorem readAllCaptured_refines (hx : Twins x x') {captures : List Nat}
    (hc : ∀ y ∈ captures, y < x.facts.symbols.size ∧ x.facts.Has x.function live y) :
    Refines (readAllCaptured x captures) (readAllCaptured x' captures)
      (x.Agree before before' live) fun _ => x.Agree before before' live := by
  induction captures with
  | nil => exact Refines.pure fun _ _ h => h
  | cons y rest ih =>
      rw [readAllCaptured, readAllCaptured]
      refine Refines.bind (Q := fun _ => x.Agree before before' live) ?_ fun v =>
        (ih fun z hz => hc z (by simp [hz])).bind fun _ => Refines.pure fun _ _ h => h
      obtain ⟨hlt, hh⟩ := hc y (by simp)
      unfold readCaptured
      rw [hx.more.symbol y hlt]
      cases hs : (x.facts.symbol y).storage with
      | frame k => exact readVariable_refines hx hs hh
      | _ => exact refines_fail

/-- **Lambdas.** Both sides may give out the same identity. The captured variables are in scope, so
their values agree. -/
theorem lambda_refines (hx : Twins x x') {n : Note}
    (hn : ∀ f, n.function = some f → x.facts.Makes x.function live f) :
    Refines (lambda x n) (lambda x' n) (x.Agree before before' live)
      fun _ => x.Agree before before' live := by
  unfold lambda
  cases hf : n.function with
  | none => exact refines_fail
  | some f =>
      dsimp only
      rw [hx.more.captures f]
      split
      · exact Refines.pure fun _ _ h => h
      · have hc : ∀ y ∈ x.facts.captures f,
            y < x.facts.symbols.size ∧ x.facts.Has x.function live y :=
          fun y hy => ⟨(hx.orderly.captured f y hy).1, (hn f hf).has y hy⟩
        refine (readAllCaptured_refines hx hc).bind fun vs => ?_
        refine Refines.bind (Q := fun _ => x.Agree before before' live) ?_ fun k =>
          Refines.pure fun _ _ h => h
        rintro s t k s' h ⟨k', hk, he⟩
        cases he
        exact ⟨{ t with fresh := k + 1 }, ⟨k, Nat.le_trans h.fresh hk, rfl⟩, h.fresh_both _⟩

/-- Writing gives agreement on the variable, whether it was in scope before or not, and does not
touch agreement on the others. -/
theorem write_refines (hx : Twins x x') {n : Note} {v : Value}
    (hn : ∀ y, n.symbol = some y → x.facts.Placed x.function y) :
    Refines (write x n v) (write x' n v) (x.Agree before before' live)
      fun _ => x.Agree before before' (n.symbol.toList ++ live) := by
  cases hy : n.symbol with
  | none =>
      unfold write
      rw [hy]
      exact refines_fail
  | some y =>
      have hp := hn y hy
      have hp' : x'.facts.Placed x'.function y := by
        have hs := hx.more.symbol y hp.lt
        refine ⟨Nat.lt_of_lt_of_le hp.lt hx.more.symbols_le, ?_, ?_, ?_⟩
        · rw [hs]
          exact hp.slot
        · rw [hs, hx.function]
          exact hp.owner
        · rw [hs, hx.function]
          exact hp.escapes
      have heq : Store.put x'.facts y v = Store.put x.facts y v := by
        funext s
        unfold Store.put
        rw [hx.more.symbol y hp.lt]
      rw [write_eq hy hp, write_eq hy hp', heq]
      exact refines_update fun s t h => h.put hx.orderly hp

/-- Writing what is in agreement already. -/
theorem rewrite_refines (hx : Twins x x') {n : Note} {v : Value}
    (hn : ∀ y, n.symbol = some y → x.facts.Writable x.function live y) :
    Keeps (write x n v) (write x' n v) (x.Agree before before' live) :=
  (write_refines hx fun y hy => (hn y hy).placed).post fun _ _ _ h =>
    h.mono (List.subset_append_right _ _)

/-- Printing a line does the same to both stores. -/
theorem print_refines {line : String} :
    Refines (print line) (print line) (x.Agree before before' live)
      fun _ => x.Agree before before' live := by
  intro s t v s' h hm
  unfold print at hm ⊢
  rw [h.output]
  split at hm
  · next o he =>
      cases hm
      exact ⟨{ t with output := o }, rfl, h.output_both o⟩
  · cases hm

/-- A builtin does the same to both stores, and gives the same value. -/
theorem builtin_refines (hx : Twins x x') (b : Builtin) (args : List Value) :
    Refines (builtin x b args) (builtin x' b args) (x.Agree before before' live)
      fun _ => x.Agree before before' live := by
  unfold builtin
  split
  · exact print_refines
  · exact refines_lift fun _ _ _ _ h => h
  · rename_i v
    have heq : inputAt x' v = inputAt x v := by
      unfold inputAt input
      rw [hx.inputs]
    rw [heq]
    exact refines_lift fun _ _ _ _ h => h
  · rw [hx.inputs]
    exact Refines.pure fun _ _ h => h
  · exact refines_lift fun _ _ _ _ h => h
  · exact refines_fail

/-- **Calls.** A call leaves the variables of its caller alone, unless they are shared. So what
agreed before the call agrees after it. -/
theorem apply_refines (hx : Twins x x') (callee : Value) (args : List Value) :
    Refines (apply x callee args) (apply x' callee args) (x.Agree before before' live)
      fun _ => x.Agree before before' live := by
  unfold apply
  split
  · rw [hx.maxDepth, hx.depth]
    refine refines_ite (fun _ => refines_fail) fun _ => ?_
    intro s t v s' h hm
    obtain ⟨t', ht', halike, ⟨hs, hu⟩, hs', hu'⟩ := hx.calls _ _ _ s t v s' h.toAlike hm
    refine ⟨t', ht', halike, h.lt, fun y hy => ?_, fun h0 =>
      ⟨(h.untouched h0).1.trans hu, (h.untouched h0).2.trans hu'⟩⟩
    have hc := h.cells y hy
    unfold Store.cell at hc ⊢
    split at hc
    · next k hk =>
        cases he : (x.facts.symbol y).escapes with
        | true => exact halike.shared y (h.lt y hy) k hk he
        | false => rw [hu y (h.lt y hy) k hk he, hu' y (h.lt y hy) k hk he, hc]
    · rw [hs, hs', hc]
    · rfl
  · exact builtin_refines hx _ _
  · exact refines_fail

mutual

/-- **Expressions.** A scoped expression has the same value on both sides. -/
theorem expr_refines (hx : Twins x x') : ∀ e : Expr, e.Scoped x.facts x.function live →
    Keeps (expr x e) (expr x' e) (x.Agree before before' live)
  | .lit _ _, _ => by rw [expr, expr]; exact keeps_pure
  | .ident n _, hs => by rw [expr, expr]; exact read_refines hx hs
  | .unary _ _ e, hs => (expr_refines hx e hs).unary
  | .binary _ op l r, hs => (expr_refines hx l hs.1).binary (expr_refines hx r hs.2)
  | .assign _ (.ident n name) v, hs =>
      (expr_refines hx v hs.1).assign fun _ => rewrite_refines hx hs.2
  | .assign _ (.index _ (.ident n name) i) v, hs =>
      (expr_refines hx i hs.1).assignItem (expr_refines hx v hs.2.1)
        (read_refines hx fun y hy => (hs.2.2 y hy).readable) fun _ => rewrite_refines hx hs.2.2
  | .call _ f args, hs =>
      (expr_refines hx f hs.1).call (exprs_refines hx args hs.2) (apply_refines hx)
  | .index _ t i, hs => (expr_refines hx t hs.1).index (expr_refines hx i hs.2)
  | .list _ items, hs => (exprs_refines hx items hs).list
  | .cast _ e _, hs => (expr_refines hx e hs).cast
  | .lambda n _ _, hs => by rw [expr, expr]; exact lambda_refines hx hs

/-- Expressions give the same from stores that agree on what is declared. -/
theorem exprs_refines (hx : Twins x x') : ∀ es : List Expr,
    Expr.AllScoped x.facts x.function live es →
    Keeps (exprs x es) (exprs x' es) (x.Agree before before' live)
  | [], _ => exprs_nil_keeps
  | e :: es, hs => (expr_refines hx e hs.1).exprs_cons (exprs_refines hx es hs.2)

end

/-! ### Statements -/

/-- A declaration gives agreement on its variable. -/
theorem letVar_refines (hx : Twins x x') {n : Note} {name name' : String} {ty ty' : Option Ty}
    {e e' : Expr} (he : Keeps (expr x e) (expr x' e') (x.Agree before before' live))
    (hn : ∀ y, n.symbol = some y → x.facts.Placed x.function y) :
    Refines (stmt x (.letVar n name ty e)) (stmt x' (.letVar n name' ty' e'))
      (x.Agree before before' live) fun signal =>
        signal.pick (x.Agree before before' (n.symbol.toList ++ live))
          (x.Agree before before' live) := by
  rw [stmt, stmt]
  exact he.bind fun v => (write_refines hx hn).bind fun _ => Refines.pure fun _ _ h => h

/-- The alternative of a conditional: what it declares does not count. -/
theorem Refines.alternate {m m' : Eval Signal} {declared : List Nat}
    (h : Refines m m' (x.Agree before before' live) fun signal =>
      signal.pick (x.Agree before before' (declared ++ live)) (x.Agree before before' live)) :
    Keeps m m' (x.Agree before before' live) := by
  refine h.post fun signal s t h => ?_
  cases signal with
  | normal => exact h.mono (List.subset_append_right _ _)
  | _ => exact h

end

section

variable {x x' : Activation} {before before' : Nat → Value}

mutual

/-- **Statements.** Control leaves a scoped statement in the same way on both sides. If it goes on,
the variables that the statement declares agree too. -/
theorem stmt_refines (hx : Twins x x') : ∀ (a : Stmt) {live : List Nat},
    a.Scoped x.facts x.function live →
    Refines (stmt x a) (stmt x' a) (x.Agree before before' live) fun signal =>
      signal.pick (x.Agree before before' (a.declared ++ live)) (x.Agree before before' live)
  | .block b, _, hs => (block_refines hx b hs).block_stmt.pick
  | .letVar n _ _ e, _, hs =>
      letVar_refines hx (expr_refines hx e hs.1) fun y hy => (hs.2 y hy).placed hx.orderly
  | .fnDecl _ _ _ _, _, _ | .ret _ none, _, _ | .breakLoop _, _, _ | .continueLoop _, _, _ => by
      rw [stmt, stmt]
      exact Refines.pure fun _ _ h => h
  | .ret _ (some e), _, hs => (expr_refines hx e hs).ret.pick
  | .cond _ test yes none, _, hs =>
      ((expr_refines hx test hs.1).cond (block_refines hx yes hs.2)).pick
  | .cond _ test yes (some no), _, hs =>
      ((expr_refines hx test hs.1).cond_else (block_refines hx yes hs.2.1)
        (Refines.alternate (stmt_refines hx no hs.2.2))).pick
  | .whileLoop _ test b, _, hs =>
      ((expr_refines hx test hs.1).whileLoop (block_refines hx b hs.2) hx.fuel).pick
  | .loop _ b, _, hs => ((block_refines hx b hs).loop hx.fuel).pick
  | .expr _ e, _, hs => (expr_refines hx e hs).expr_stmt.pick

/-- The statements and the result of a block. -/
theorem finish_refines (hx : Twins x x') : ∀ (ss : List Stmt) (tail : Option Expr)
    {live : List Nat}, Stmt.AllScoped x.facts x.function live ss →
    (∀ e, tail = some e → e.Scoped x.facts x.function (Stmt.liveAfter live ss)) →
    Keeps (finish x ss tail) (finish x' ss tail) (x.Agree before before' live)
  | [], none, _, _, _ => finish_none_keeps
  | [], some e, _, _, ht => (expr_refines hx e (ht e rfl)).finish_some
  | a :: ss, tail, _, hs, ht =>
      (stmt_refines hx a hs.1).finish_cons ((finish_refines hx ss tail hs.2 ht).post fun _ _ _ h =>
        h.mono (List.subset_append_right _ _))

/-- **Blocks.** -/
theorem block_refines (hx : Twins x x') : ∀ (b : Block) {live : List Nat},
    b.Scoped x.facts x.function live →
    Keeps (block x b) (block x' b) (x.Agree before before' live)
  | .mk _ ss none, _, hs => (finish_refines hx ss none hs nofun).block
  | .mk _ ss (some e), _, hs =>
      (finish_refines hx ss (some e) hs.1 fun _ he => Option.some.inj he ▸ hs.2).block

end

/-- The body of a function gives the same from stores that agree on what is declared. -/
theorem body_refines (hx : Twins x x') (b : Block) {live : List Nat}
    (hs : b.Scoped x.facts x.function live) :
    Keeps (body x b) (body x' b) (x.Agree before before' live) := by
  obtain ⟨n, ss, tail⟩ := b
  obtain ⟨hss, ht⟩ := Block.scoped_mk.mp hs
  exact (finish_refines hx ss tail hss ht).body

/-! ### Parts that stay -/

/-- The statements in front of a change stay as they are. -/
theorem finish_append (hx : Twins x x) {ss ss' : List Stmt} {tail tail' : Option Expr}
    {outer : List Nat} (done : List Stmt) {live : List Nat}
    (hs : Stmt.AllScoped x.facts x.function live done) (hsub : outer ⊆ live)
    (h : Refines (finish x ss tail) (finish x ss' tail')
      (x.Agree before before' (Stmt.liveAfter live done)) fun _ => x.Agree before before' outer) :
    Refines (finish x (done ++ ss) tail) (finish x (done ++ ss') tail')
      (x.Agree before before' live) fun _ => x.Agree before before' outer := by
  induction done generalizing live with
  | nil => exact h
  | cons a done ih =>
      refine Refines.finish_cons ((stmt_refines hx a hs.1).post fun signal s t hag => ?_)
        (ih hs.2 (fun z hz => List.mem_append_right _ (hsub hz)) h)
      cases signal with
      | normal => exact hag
      | _ => exact hag.mono hsub

end

end BigStep

end Parlance
