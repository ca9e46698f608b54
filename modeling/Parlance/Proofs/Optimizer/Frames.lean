import Parlance.Proofs.Analysis.Slots
import Parlance.Proofs.Optimizer.Sweeping

/-!
# Frames of programs

Analysis gives a variable a slot that no variable has that is visible with it. Sharing makes
temporary variables later, when it is not known any more where a slot is in use. So a temporary
gets a slot that no other symbol of its function has, at the end of the frame, which gets longer by
one slot.

## Main definitions

* `Facts.Spawns`: temporary variables were made.
* `Facts.Sole`: a variable has a slot of its own.

## Main results

* `slots_separate`: slots of variables and of temporaries.
-/

namespace Parlance

namespace Facts

variable {F F' F'' : Facts}

/-! ### Temporaries -/

/-- Temporary variables were made. -/
inductive Spawns (F : Facts) : Facts → Prop
  | refl : Spawns F F
  | temporary {F' : Facts} (h : Spawns F F') (name : String) (ty : Ty) {function : Nat}
    (hf : function < F'.functions.size) : Spawns F (F'.addTemporary name ty function).1

/-- Temporaries may be made one after the other. -/
theorem Spawns.trans (h : F.Spawns F') (h' : F'.Spawns F'') : F.Spawns F'' := by
  induction h' with
  | refl => exact h
  | temporary _ name ty hf ih => exact ih.temporary name ty hf

/-- Facts with temporaries extend the facts before. -/
theorem Spawns.extends (h : F.Spawns F') : F.Extends F' := by
  induction h with
  | refl => exact .refl F
  | temporary _ name ty hf ih => exact ih.trans (addTemporary_extends name ty hf)

/-- Slots in use are slots of the frame, and global slots in use are those of the program. -/
structure Ample (F : Facts) : Prop where
  slot_lt : ∀ y < F.symbols.size, (F.symbol y).function ≠ 0 → ∀ k,
    (F.symbol y).storage = .frame k → k < (F.info (F.symbol y).function).slots
  global_lt : ∀ y < F.symbols.size, ∀ k, (F.symbol y).storage = .global k → k < F.globals

/-- A variable has a slot that no other symbol of its function has. -/
structure Sole (F : Facts) (y : Nat) : Prop where
  kind : (F.symbol y).kind = .variable
  slot : if (F.symbol y).function = 0 then ∃ k < F.globals, (F.symbol y).storage = .global k
    else ∃ k < (F.info (F.symbol y).function).slots, (F.symbol y).storage = .frame k
  alone : ∀ z < F.symbols.size, z ≠ y → (F.symbol z).function = (F.symbol y).function →
    (F.symbol z).storage ≠ (F.symbol y).storage

variable {name : String} {ty : Ty} {function y : Nat}

/-- A temporary belongs to the function it is made for. -/
theorem temporary_function : (F.temporary name ty function).function = function :=
  rfl

/-- A temporary has the slot at the end. -/
theorem storage_temporary : (F.temporary name ty function).storage =
    if function = 0 then .global F.globals else .frame (F.info function).slots :=
  rfl

/-- No symbol has a slot yet that a temporary would get. -/
theorem Ample.vacant (h : F.Ample) (hy : y < F.symbols.size) (ho : (F.symbol y).function = function) :
    (F.symbol y).storage ≠ (F.temporary name ty function).storage := by
  rw [storage_temporary]
  intro heq
  split at heq
  · exact Nat.lt_irrefl _ (h.global_lt y hy _ heq)
  · next h0 =>
      have hlt := h.slot_lt y hy (ho ▸ h0) _ heq
      rw [ho] at hlt
      exact Nat.lt_irrefl _ hlt

/-- The frame of a function gets one slot more with a temporary. Temporaries of the program are
globals instead. -/
theorem slots_addTemporary_self (hf : function < F.functions.size) (h0 : function ≠ 0) :
    ((F.addTemporary name ty function).1.info function).slots = (F.info function).slots + 1 := by
  rw [info_addTemporary F name ty function hf, if_neg (by simp [h0])]

/-- There is still room for the slots in use after a temporary was made: its slot is the one that
its frame, or the program, has more than before. -/
theorem Ample.addTemporary (h : F.Ample) (hf : function < F.functions.size) :
    (F.addTemporary name ty function).1.Ample := by
  have he : F.Extends (F.addTemporary name ty function).1 := addTemporary_extends name ty hf
  constructor
  · intro y hy h0 k hk
    rcases symbol_addTemporary name ty hf hy with ⟨hy, hs⟩ | ⟨-, hs⟩
    · rw [hs] at h0 hk ⊢
      exact Nat.lt_of_lt_of_le (h.slot_lt y hy h0 k hk) (he.slots_le _)
    · rw [hs, temporary_function] at h0 ⊢
      rw [hs, storage_temporary, if_neg h0] at hk
      cases hk
      rw [slots_addTemporary_self hf h0]
      exact Nat.lt_succ_self _
  · intro y hy k hk
    rcases symbol_addTemporary name ty hf hy with ⟨hy, hs⟩ | ⟨-, hs⟩
    · rw [hs] at hk
      exact Nat.lt_of_lt_of_le (h.global_lt y hy k hk) he.globals_le
    · rw [hs, storage_temporary] at hk
      split at hk
      · next h0 =>
          cases hk
          rw [globals_addTemporary, if_pos h0]
          exact Nat.lt_succ_self _
      · cases hk

/-- A temporary has a slot of its own. -/
theorem Ample.sole (h : F.Ample) (hf : function < F.functions.size) :
    (F.addTemporary name ty function).1.Sole F.symbols.size := by
  have hs : (F.addTemporary name ty function).1.symbol F.symbols.size =
      F.temporary name ty function := symbol_addTemporary_self name ty
  refine ⟨by rw [hs]; rfl, ?_, fun z hz hne ho => ?_⟩
  · rw [hs, temporary_function, storage_temporary]
    split
    · next h0 =>
        refine ⟨_, ?_, rfl⟩
        rw [globals_addTemporary, if_pos h0]
        exact Nat.lt_succ_self _
    · next h0 =>
        refine ⟨_, ?_, rfl⟩
        rw [slots_addTemporary_self hf h0]
        exact Nat.lt_succ_self _
  · rcases symbol_addTemporary name ty hf hz with ⟨hz, hsz⟩ | ⟨rfl, -⟩
    · rw [hsz, hs] at ho ⊢
      exact h.vacant hz ho
    · exact absurd rfl hne

/-- A slot that a temporary has stays its own when more temporaries are made, as each of them takes
a slot that was not in use. -/
theorem Sole.addTemporary (h : F.Sole y) (hr : F.Ample) (hy : y < F.symbols.size)
    (hf : function < F.functions.size) : (F.addTemporary name ty function).1.Sole y := by
  have he : F.Extends (F.addTemporary name ty function).1 := addTemporary_extends name ty hf
  have hs := he.symbol y hy
  refine ⟨by rw [hs]; exact h.kind, ?_, fun z hz hne ho => ?_⟩
  · have hslot := h.slot
    rw [hs]
    split at hslot
    · next h0 =>
        rw [if_pos h0]
        exact hslot.imp fun k hk => hk.imp_left fun hlt => Nat.lt_of_lt_of_le hlt he.globals_le
    · next h0 =>
        rw [if_neg h0]
        exact hslot.imp fun k hk => hk.imp_left fun hlt =>
          Nat.lt_of_lt_of_le hlt (he.slots_le _)
  · rw [hs] at ho ⊢
    rcases symbol_addTemporary name ty hf hz with ⟨hz, hsz⟩ | ⟨-, hsz⟩
    · rw [hsz] at ho ⊢
      exact h.alone z hz hne ho
    · rw [hsz] at ho ⊢
      exact (hr.vacant hy ho.symm).symm

/-- **Temporaries.** Temporaries have slots of their own. -/
theorem Spawns.sole (h : F.Spawns F') (hr : F.Ample) :
    F'.Ample ∧ ∀ y < F'.symbols.size, F.symbols.size ≤ y → F'.Sole y := by
  induction h with
  | refl => exact ⟨hr, fun y hy hge => absurd hy (Nat.not_lt.mpr hge)⟩
  | temporary _ name ty hf ih =>
      obtain ⟨hample, hsole⟩ := ih
      refine ⟨hample.addTemporary hf, fun y hy hge => ?_⟩
      rcases symbol_addTemporary name ty hf hy with ⟨hy, -⟩ | ⟨rfl, -⟩
      · exact (hsole y hy hge).addTemporary hample hy hf
      · exact hample.sole hf

/-- The frame of a function still has room after temporaries were made. -/
theorem Slotted.spawns {m : Item.Made} (h : F.Slotted m) (hs : F.Spawns F') : F'.Slotted m := by
  have he := hs.extends
  refine ⟨?_, ?_, fun view hv => ?_⟩
  · rw [he.params, ← h.names]
    exact List.map_congr_left fun y hy => congrArg _ (he.symbol y (h.params_lt y hy))
  · rw [he.params, ← h.params]
    exact List.map_congr_left fun y hy => congrArg _ (he.symbol y (h.params_lt y hy))
  · rw [he.params] at hv
    have hview := h.views view hv
    refine ⟨?_, fun y hy => Nat.lt_of_lt_of_le (hview.lt y hy) he.symbols_le, fun y hy => ?_,
      fun y hy => ?_⟩
    · have heq : view.map (fun y => (F'.symbol y).storage) =
          view.map fun y => (F.symbol y).storage :=
        List.map_congr_left fun y hy => congrArg _ (he.symbol y (hview.lt y hy))
      rw [heq]
      exact hview.nodup
    · rw [he.symbol y (hview.lt y hy)]
      exact hview.function y hy
    · obtain ⟨k, hk, hslot⟩ := hview.slot y hy
      rw [he.symbol y (hview.lt y hy)]
      exact ⟨k, Nat.lt_of_lt_of_le hk (he.slots_le _), hslot⟩

end Facts

/-! ### Sharing makes temporaries -/

namespace Share

variable {α β : Type} {function : Nat}

/-- A part of sharing only makes temporaries, in functions that are there. -/
def Spawning (function : Nat) (m : Sharing α) : Prop :=
  ∀ s : Supply, function < s.facts.functions.size → s.facts.Spawns (m.run s).2.facts

/-- A result that is given at once makes no temporary. -/
theorem spawning_pure {a : α} : Spawning function (pure a : Sharing α) :=
  fun _ _ => .refl

/-- Parts that only make temporaries do so in a row. -/
theorem Spawning.bind {m : Sharing α} {f : α → Sharing β} (hm : Spawning function m)
    (hf : ∀ a, Spawning function (f a)) : Spawning function (m >>= f) := by
  intro s hlt
  have h := hm s hlt
  exact h.trans (hf _ _ (h.extends.functions_size.symm ▸ hlt))

/-- A new temporary is one temporary. -/
theorem spawning_temporary {ty : Ty} : Spawning function (temporary ty function) :=
  fun _ hlt => .temporary .refl _ _ hlt

/-- A new label is no temporary. -/
theorem spawning_label {ty : Ty} : Spawning function (label ty) :=
  fun _ _ => .refl

/-- Sharing inside an expression only makes temporaries. The induction is on the fuel. -/
theorem spawning_expr (fuel : Nat) (e : Expr) : Spawning function (expr function fuel e) := by
  induction fuel generalizing e with
  | zero => exact spawning_pure
  | succ fuel ih =>
      rw [expr]
      split
      · exact spawning_pure
      · split
        · exact spawning_pure
        · exact spawning_temporary.bind fun _ => spawning_label.bind fun _ =>
            spawning_label.bind fun _ => (ih _).bind fun _ => (ih _).bind fun _ => spawning_pure

/-- The same for a statement. -/
theorem spawning_stmt (s : Stmt) : Spawning function (stmt function s) := by
  unfold stmt
  split
  · exact (spawning_expr _ _).bind fun _ => spawning_pure
  · exact (spawning_expr _ _).bind fun _ => spawning_pure
  · exact (spawning_expr _ _).bind fun _ => spawning_pure
  · exact (spawning_expr _ _).bind fun _ => spawning_pure
  · exact spawning_pure

/-- The same for statements in a row. -/
theorem spawning_stmts (ss : List Stmt) : Spawning function (stmts function ss) := by
  induction ss with
  | nil => exact spawning_pure
  | cons s ss ih => exact (spawning_stmt s).bind fun _ => ih.bind fun _ => spawning_pure

/-- The same for a block. -/
theorem spawning_block (b : Block) : Spawning function (block function b) := by
  obtain ⟨n, ss, tail⟩ := b
  cases tail with
  | none => exact (spawning_stmts ss).bind fun _ => spawning_pure
  | some e =>
      exact (spawning_stmts ss).bind fun _ => (spawning_expr _ e).bind fun _ => spawning_pure

end Share

namespace Analyzed

variable {owner : Nat → Nat} {a b : Analyzed}

/-- Sharing in the block with a label only makes temporaries, in a function that the facts have an
entry for. -/
theorem Sound.spawns_sweepRepeated (h : a.Sound owner) (label : Nat) :
    a.facts.Spawns (a.sweepRepeated label).1.facts := by
  rw [Analyzed.sweepRepeated]
  split
  · exact .refl
  · next b function hfind =>
      have hspawns := Share.spawning_block b a.supply
        (h.scope (List.mem_of_find?_eq_some hfind)).1
      split
      next new count supply heq =>
        rw [heq] at hspawns
        split
        · exact .refl
        · exact hspawns

/-- The removal of dead code leaves the facts alone. -/
theorem facts_sweepDeadCode (label : Nat) : (a.sweepDeadCode label).1.facts = a.facts := by
  rw [Analyzed.sweepDeadCode]
  split
  · rfl
  · dsimp only
    split
    · rfl
    · rfl

/-- Sweeps make temporaries, and change no other facts. -/
theorem Sweeps.spawns (hs : a.Sweeps b) (h : a.Sound owner) : a.facts.Spawns b.facts := by
  induction hs with
  | refl => exact .refl
  | @sweep b p hs ih =>
      have hsound := (hs.sound h).1
      cases p with
      | constantFolding => exact ih
      | deadCode =>
          refine Analyzed.sweepBlocks_keeps (P := fun c => a.facts.Spawns c.facts)
            (fun c label hc => ?_) ih
          rw [facts_sweepDeadCode]
          exact hc
      | commonSubexpr =>
          exact (Analyzed.sweepBlocks_keeps
            (P := fun c => c.Sound owner ∧ a.facts.Spawns c.facts)
            (fun c label hc => ⟨hc.1.sweepRepeated.1, hc.2.trans (hc.1.spawns_sweepRepeated label)⟩)
            ⟨hsound, ih⟩).2

end Analyzed

/-! ### Programs -/

namespace Analyze

/-- The tables that the analysis begins with have no variables. -/
theorem lodged_initial : initial.facts.Lodged := by
  have hstorage : ∀ y < initial.facts.symbols.size,
      (initial.facts.symbol y).kind = .builtin ∧ ∃ b, (initial.facts.symbol y).storage = .builtin b :=
    fun y hy => (symbol_initial hy).elim fun b hb => ⟨hb.1, b, hb.2.1⟩
  refine ⟨fun y hy hk => ?_, fun y hy hk => ?_, fun y hy k hk => ?_, fun y hy z hz k hk => ?_⟩
  · simp [(hstorage y hy).1] at hk
  · simp [(hstorage y hy).1] at hk
  · obtain ⟨-, b, hb⟩ := hstorage y hy
    simp [hb] at hk
  · obtain ⟨-, b, hb⟩ := hstorage y hy
    simp [hb] at hk

variable {is : List Item} {s : AnalysisState}

/-- The functions that analysis made have their slots at its end. -/
theorem Settled.slotted_finish (h : Settled [] is initial s) :
    ∀ m ∈ Item.madeOf is, m.number ≠ 0 ∧ (finish s).Slotted m := by
  intro m hm
  have hpos : 1 ≤ m.number := (h.made m hm).resolve_left List.not_mem_nil
  have hlt : 0 < s.facts.functions.size := Nat.zero_lt_of_lt (h.made_lt m hm)
  exact ⟨by omega, (h.slotted m hm).adds (adds_finish hlt) (h.made_lt m hm) List.not_mem_nil⟩

/-- Symbols with a frame slot are in the frame of their function. -/
theorem Settled.ample (h : Settled [] is initial s) : (finish s).Ample := by
  refine ⟨fun y hy h0 k hk => ?_, (h.lodged lodged_initial).global_lt⟩
  have hnew : initial.facts.symbols.size ≤ y := by
    refine Nat.le_of_not_lt fun hlt => ?_
    obtain ⟨b, -, hb, -⟩ := symbol_initial hlt
    have hk' : (s.facts.symbol y).storage = .frame k := hk
    rw [(h.adds.symbol y hlt).storage, hb] at hk'
    cases hk'
  rcases h.seen y hy hnew ⟨k, hk⟩ with ⟨hf, -⟩ | ⟨m, hm, hf, view, hv, hview⟩
  · exact absurd hf h0
  · have hf' : ((finish s).symbol y).function = m.number := hf
    have hparams : ((finish s).info m.number).params = (s.facts.info m.number).params :=
      (adds_finish (Nat.zero_lt_of_lt (h.made_lt m hm))).params _ (h.made_lt m hm) List.not_mem_nil
    obtain ⟨j, hj, hslot⟩ := ((h.slotted_finish m hm).2.views view (hparams ▸ hv)).slot y hview
    rw [hk] at hslot
    cases hslot
    rw [hf']
    exact hj

end Analyze

/-- **Slots.** Take the analysis of a program, with or without errors. Every function but the
program itself has its parameters in the first slots, in order, and at every point of its body the
variables that are visible there have different slots, for all of which its frame has room. Every
variable of the program has a global slot of its own. If there are no errors, this stays so in
all sweeps of the optimizer, and the temporaries that they make have slots that no other symbol of
their function has. -/
theorem slots_separate (g : Grammar) (size : Nat) (tokens : List Token) :
    let a := (analyze (parseTokens g size tokens).1).1
    (∀ f < a.facts.functions.size, f ≠ 0 →
      ∃ m ∈ Item.madeOf a.program.root.items, m.number = f) ∧
    (∀ m ∈ Item.madeOf a.program.root.items,
      m.number ≠ 0 ∧ m.number < a.facts.functions.size ∧ a.facts.Slotted m) ∧
    (∀ y < a.facts.symbols.size,
      (a.facts.symbol y).kind = .variable ∨ (a.facts.symbol y).kind = .parameter →
      (a.facts.symbol y).function = 0 →
      ∃ k < a.facts.globals, (a.facts.symbol y).storage = .global k ∧
        ∀ z < a.facts.symbols.size, (a.facts.symbol z).storage = .global k → z = y) ∧
    ((analyze (parseTokens g size tokens).1).2 = [] → ∀ b, a.Sweeps b →
      (∀ m ∈ Item.madeOf a.program.root.items, b.facts.Slotted m) ∧
      ∀ y < b.facts.symbols.size, a.facts.symbols.size ≤ y → b.facts.Sole y) := by
  intro a
  obtain ⟨s, hfills, hfacts, -⟩ := analyze_fills (p := (parseTokens g size tokens).1)
    parseTokens_regular
  have hfacts : a.facts = Analyze.finish s := hfacts
  have hset := hfills.settled Analyze.ready_initial
  have hfunctions : (Analyze.finish s).functions.size = s.facts.functions.size := by
    simp [Analyze.finish]
  have hlodged : (Analyze.finish s).Lodged :=
    (hset.lodged Analyze.lodged_initial).congr rfl (fun _ => .refl _) rfl
  have hslotted := hset.slotted_finish
  rw [hfacts]
  refine ⟨fun f hf h0 => ?_, fun m hm => ?_, fun y hy hk h0 => ?_, fun he b hb => ?_⟩
  · exact hset.covers f (hfunctions ▸ hf) (.inr (Nat.one_le_iff_ne_zero.mpr h0))
  · exact ⟨(hslotted m hm).1, hfunctions ▸ hset.made_lt m hm, (hslotted m hm).2⟩
  · obtain ⟨k, hstorage⟩ := hlodged.global y hy hk h0
    exact ⟨k, hlodged.global_lt y hy k hstorage, hstorage,
      fun z hz hzk => hlodged.global_inj z hz y hy k hzk hstorage⟩
  · obtain ⟨owner, hsound⟩ := analyze_sound he
    have hspawns : (Analyze.finish s).Spawns b.facts := hfacts ▸ hb.spawns hsound
    exact ⟨fun m hm => (hslotted m hm).2.spawns hspawns, (hspawns.sole hset.ample).2⟩

/-- A function with two variables in one slot, and with a repeated subexpression. -/
def squaresParameter : List Char :=
  ("fn f(a: int) -> int \x7b \x7b let b = a; print(b); \x7d let c = a * a + a * a; c \x7d " ++
    "print(f(3));").toList

/-- What the analysis and the optimizer make of `squaresParameter`: its two variables share a slot,
and one temporary is added. -/
theorem symbols_squaresParameter :
    (CompileOptions.lex {} squaresParameter).toOption.map (fun tokens =>
      let a := analyze (parseTokens .standard 86 tokens).1
      (a.2.isEmpty, a.1.facts.functions.size, a.1.facts.symbols.size,
        (a.1.facts.symbol 7).storage == (a.1.facts.symbol 8).storage,
        a.1.optimize.1.facts.symbols.size)) = some (true, 2, 9, true, 10) := by
  rw [Grammar.standard_eq]
  decide +kernel

/-- In `squaresParameter` the variable of a block and one behind it share a slot, and are not
visible together. The temporary of the optimizer shares its slot with nothing. -/
theorem squaresParameter_separate :
    ∃ tokens, CompileOptions.lex {} squaresParameter = .ok tokens ∧
      let a := analyze (parseTokens .standard 86 tokens).1
      a.2 = [] ∧ (a.1.facts.symbol 7).storage = (a.1.facts.symbol 8).storage ∧
        (∃ m ∈ Item.madeOf a.1.program.root.items, m.number = 1 ∧ a.1.facts.Slotted m ∧
          a.1.optimize.1.facts.Slotted m) ∧
        a.1.optimize.1.facts.Sole 9 := by
  have h := symbols_squaresParameter
  cases hl : CompileOptions.lex {} squaresParameter with
  | error e => simp [hl, Except.toOption] at h
  | ok tokens =>
      simp only [hl, Except.toOption, Option.map_some, Option.some.injEq, Prod.mk.injEq,
        List.isEmpty_iff, beq_iff_eq] at h
      obtain ⟨herrors, hfunctions, hbefore, hslot, hafter⟩ := h
      obtain ⟨hcovers, hslotted, -, hsweeps⟩ := slots_separate .standard 86 tokens
      obtain ⟨m, hm, hnumber⟩ := hcovers 1 (by rw [hfunctions]; decide) (by decide)
      obtain ⟨hlater, hsole⟩ := hsweeps herrors _ Analyzed.Sweeps.refl.optimize
      exact ⟨tokens, rfl, herrors, hslot, ⟨m, hm, hnumber, (hslotted m hm).2.2, hlater m hm⟩,
        hsole 9 (by rw [hafter]; decide) (by rw [hbefore])⟩

end Parlance
