import Parlance.Proofs.Analysis.Scoping

/-!
# New variables

A temporary variable is known to no declaration. It has a place of its own: one that no variable
has that was known before it.

## Main definitions

* `Facts.Fresh`: a variable of a function that is not known yet.

## Main results

* `Facts.addTemporary_extends`, `Facts.addTemporary_fresh`: making a temporary variable.
* `Facts.Fresh.shift`: code is scoped among new variables as well.
-/

namespace Parlance

namespace Facts

/-- A variable of a function with a place that was no place before. No other function sees it. -/
structure Fresh (F F' : Facts) (function y : Nat) : Prop where
  lt : y < F'.symbols.size
  kind : (F'.symbol y).kind = .variable
  owner : (F'.symbol y).function = function
  hidden : (F'.symbol y).escapes = false
  slot_lt : ∀ k, (F'.symbol y).storage = .frame k → k < (F'.info function).slots
  apart : ∀ z < F.symbols.size,
    (∀ k, (F.symbol z).storage = .frame k → k < (F.info function).slots) →
      (F'.symbol y).storage ≠ (F.symbol z).storage

section

variable {F F' F'' : Facts} {function y : Nat} {live live' : List Nat}

/-- Live variables are live in facts with more symbols. -/
theorem Live.mono (he : F.Extends F') (h : F.Live function live) : F'.Live function live where
  lt z hz := Nat.lt_of_lt_of_le (h.lt z hz) he.symbols_le
  slot_lt z hz k hk := by
    rw [he.symbol z (h.lt z hz)] at hk
    exact Nat.lt_of_lt_of_le (h.slot_lt z hz k hk) (he.slots_le function)
  separate := by
    refine h.separate.imp_of_mem fun {z z'} hz hz' hne => ?_
    rwa [he.symbol z (h.lt z hz), he.symbol z' (h.lt z' hz')]

namespace Fresh

/-- A new variable stays new when more are made. -/
theorem mono (h : F.Fresh F' function y) (he : F'.Extends F'') : F.Fresh F'' function y := by
  have hs := he.symbol y h.lt
  refine ⟨Nat.lt_of_lt_of_le h.lt he.symbols_le, ?_, ?_, ?_, ?_, ?_⟩
  · rw [hs]
    exact h.kind
  · rw [hs]
    exact h.owner
  · rw [hs]
    exact h.hidden
  · rw [hs]
    exact fun k hk => Nat.lt_of_lt_of_le (h.slot_lt k hk) (he.slots_le function)
  · rw [hs]
    exact h.apart

/-- What is new among more variables is new among fewer. -/
theorem weaken (he : F.Extends F') (h : F'.Fresh F'' function y) : F.Fresh F'' function y where
  lt := h.lt
  kind := h.kind
  owner := h.owner
  hidden := h.hidden
  slot_lt := h.slot_lt
  apart z hz hk := by
    rw [← he.symbol z hz]
    refine h.apart z (Nat.lt_of_lt_of_le hz he.symbols_le) fun k hs => ?_
    rw [he.symbol z hz] at hs
    exact Nat.lt_of_lt_of_le (hk k hs) (he.slots_le function)

/-- A new variable may be declared where only older ones and still newer ones are. -/
theorem declarable (h : F.Fresh F' function y) (he : F.Extends F') (he' : F'.Extends F'')
    (hl : F.Live function live)
    (hnew : ∀ z ∈ live', z ∈ live ∨ F'.Fresh F'' function z) : F''.Declarable function live' y := by
  have h' := h.mono he'
  refine ⟨h'.lt, h'.kind, h'.owner, fun z hz => ?_, h'.slot_lt⟩
  rcases hnew z hz with hz | hz
  · rw [(he.trans he').symbol z (hl.lt z hz)]
    exact (h'.apart z (hl.lt z hz) (hl.slot_lt z hz)).symm
  · rw [he'.symbol y h.lt]
    exact hz.apart y h.lt h.slot_lt

/-- **Scopes with new variables.** -/
theorem shift (hl : F.Live function live) (hsub : live ⊆ live')
    (hnew : ∀ z ∈ live', z ∈ live ∨ F.Fresh F' function z) : F.Shift F' function live live' where
  lt := hl.lt
  gone _ hz hz' := absurd (hsub hz) hz'
  apart z hz hz' w hw := ((hnew z hz).resolve_left hz').apart w hw.lt hw.slot_lt

/-- A new variable may be read where it is declared. -/
theorem readable (h : F.Fresh F' function y) (hF : F'.Orderly) (hy : y ∈ live) :
    F'.Readable function live y := by
  refine ⟨h.lt, ?_⟩
  obtain ⟨k, hk | hk⟩ := hF.slot y h.lt h.kind
  · rw [hk]
    exact .inr ⟨h.owner.symm.trans (hF.owner y h.lt k hk), hy⟩
  · rw [hk]
    dsimp only
    unfold Has
    rw [if_pos h.owner]
    exact hy

/-- A fresh variable has a place in its function. -/
theorem placed (h : F.Fresh F' function y) (hF : F'.Orderly) : F'.Placed function y := by
  have hd : F'.Declarable function [] y := ⟨h.lt, h.kind, h.owner, nofun, h.slot_lt⟩
  exact hd.placed hF

end Fresh

end

/-! ### Temporaries -/

section

variable (F : Facts) (name : String) (ty : Ty) (function : Nat)

/-- A temporary is the last symbol. -/
theorem addTemporary_symbol : (F.addTemporary name ty function).2 = F.symbols.size := by
  unfold addTemporary
  dsimp only
  split <;> rfl

/-- The symbol of a temporary variable. -/
def temporary : Symbol :=
  { name, ty, depth := (F.scopes[(F.info function).scope]?.map (·.depth)).getD 0, kind := .variable,
    storage := if function = 0 then .global F.globals else .frame (F.info function).slots,
    function, scope := (F.info function).scope, range := .origin, reads := 0, escapes := false }

/-- A temporary is added to the symbols. -/
theorem symbols_addTemporary :
    (F.addTemporary name ty function).1.symbols = F.symbols.push (F.temporary name ty function) := by
  unfold addTemporary temporary
  dsimp only
  split <;> rfl

/-- A temporary takes a slot of the frame of its function. -/
theorem functions_addTemporary :
    (F.addTemporary name ty function).1.functions =
      if function = 0 then F.functions
      else F.functions.modify function fun f => { f with slots := f.slots + 1 } := by
  unfold addTemporary
  dsimp only
  split <;> rfl

/-- A temporary of the program takes a global slot. -/
theorem globals_addTemporary :
    (F.addTemporary name ty function).1.globals =
      if function = 0 then F.globals + 1 else F.globals := by
  unfold addTemporary
  dsimp only
  split <;> rfl

/-- Only the entry of its function changes with a temporary, and only its slots. -/
theorem info_addTemporary (hf : function < F.functions.size) (f : Nat) :
    (F.addTemporary name ty function).1.info f =
      if function = 0 ∨ function ≠ f then F.info f
      else { F.info f with slots := (F.info f).slots + 1 } := by
  unfold info
  rw [functions_addTemporary]
  by_cases h0 : function = 0
  · rw [if_pos h0, if_pos (.inl h0)]
  · rw [if_neg h0, Array.getElem?_modify]
    by_cases hne : function = f
    · subst hne
      rw [if_pos rfl, if_neg (by simp [h0]), Array.getElem?_eq_getElem hf]
      rfl
    · rw [if_neg hne, if_pos (.inr hne)]

variable {F} {function}

/-- **Temporaries.** Nothing else changes: there is one symbol more, and the frame of one function
has one slot more. -/
theorem addTemporary_extends (hf : function < F.functions.size) :
    F.Extends (F.addTemporary name ty function).1 where
  symbols_le := by
    rw [symbols_addTemporary, Array.size_push]
    exact Nat.le_succ _
  symbol y hy := by
    unfold symbol
    rw [symbols_addTemporary, Array.getElem?_push_lt hy, Array.getElem?_eq_getElem hy]
  functions_size := by
    rw [functions_addTemporary]
    split
    · rfl
    · exact Array.size_modify
  info f := by
    rw [info_addTemporary F name ty function hf f]
    split <;> rfl
  slots_le f := by
    rw [info_addTemporary F name ty function hf f]
    split
    · exact Nat.le_refl _
    · exact Nat.le_succ _
  globals_le := by
    rw [globals_addTemporary]
    split
    · exact Nat.le_succ _
    · exact Nat.le_refl _

/-- The last symbol is that of the temporary. -/
theorem symbol_addTemporary_self :
    (F.addTemporary name ty function).1.symbol F.symbols.size = F.temporary name ty function := by
  unfold symbol
  rw [symbols_addTemporary, Array.getElem?_push_size]
  rfl

/-- The symbols after a temporary is made. -/
theorem symbol_addTemporary (hf : function < F.functions.size) {y : Nat}
    (hy : y < (F.addTemporary name ty function).1.symbols.size) :
    y < F.symbols.size ∧ (F.addTemporary name ty function).1.symbol y = F.symbol y ∨
      y = F.symbols.size ∧
        (F.addTemporary name ty function).1.symbol y = F.temporary name ty function := by
  rw [symbols_addTemporary, Array.size_push] at hy
  rcases Nat.lt_or_ge y F.symbols.size with h | h
  · exact .inl ⟨h, (addTemporary_extends name ty hf).symbol y h⟩
  · obtain rfl : y = F.symbols.size := by omega
    exact .inr ⟨rfl, symbol_addTemporary_self name ty⟩

/-- A temporary is fresh: its slot was not in use. It is the next global or the next slot of the
frame, behind all that variables have been given. -/
theorem addTemporary_fresh (hF : F.Orderly) (hf : function < F.functions.size) :
    F.Fresh (F.addTemporary name ty function).1 function F.symbols.size := by
  have hs : (F.addTemporary name ty function).1.symbol F.symbols.size = F.temporary name ty function :=
    symbol_addTemporary_self name ty
  refine ⟨?_, ?_, ?_, ?_, ?_, ?_⟩
  · rw [symbols_addTemporary, Array.size_push]
    exact Nat.lt_succ_self _
  · rw [hs]
    rfl
  · rw [hs]
    rfl
  · rw [hs]
    rfl
  · rw [hs, info_addTemporary F name ty function hf]
    unfold temporary
    intro k hk
    dsimp only at hk
    split at hk
    · cases hk
    · next h0 =>
        cases hk
        rw [if_neg (by simp [h0])]
        exact Nat.lt_succ_self _
  · rw [hs]
    unfold temporary
    intro z hz hk heq
    dsimp only at heq
    split at heq
    · exact Nat.lt_irrefl _ (hF.global_lt z hz _ heq.symm)
    · exact Nat.lt_irrefl _ (hk _ heq.symm)

/-- Orderly facts stay so with a temporary. Each condition is known of the symbols before it, and
its place is none of theirs because it is fresh. -/
theorem addTemporary_orderly (hF : F.Orderly) (hf : function < F.functions.size) :
    (F.addTemporary name ty function).1.Orderly where
  slot y hy hk := by
    rcases symbol_addTemporary name ty hf hy with ⟨hy, hs⟩ | ⟨rfl, hs⟩
    · rw [hs] at hk ⊢
      exact hF.slot y hy hk
    · rw [hs]
      unfold temporary
      dsimp only
      split
      · exact ⟨_, .inl rfl⟩
      · exact ⟨_, .inr rfl⟩
  owner y hy k hk := by
    rcases symbol_addTemporary name ty hf hy with ⟨hy, hs⟩ | ⟨rfl, hs⟩
    · rw [hs] at hk ⊢
      exact hF.owner y hy k hk
    · rw [hs] at hk ⊢
      unfold temporary at hk ⊢
      dsimp only at hk ⊢
      split at hk
      · next h0 => exact h0
      · cases hk
  global_lt y hy k hk := by
    rw [globals_addTemporary]
    rcases symbol_addTemporary name ty hf hy with ⟨hy, hs⟩ | ⟨rfl, hs⟩
    · rw [hs] at hk
      have := hF.global_lt y hy k hk
      split <;> omega
    · rw [hs] at hk
      unfold temporary at hk
      dsimp only at hk
      split at hk
      · next h0 =>
          cases hk
          rw [if_pos h0]
          exact Nat.lt_succ_self _
      · cases hk
  global_inj y hy z hz k hyk hzk := by
    have hfresh := addTemporary_fresh name ty hF hf
    have hmore := addTemporary_extends name ty hf
    -- An old variable has no place that a temporary has.
    have hold : ∀ y < F.symbols.size, (F.symbol y).storage = .global k →
        ((F.addTemporary name ty function).1.symbol F.symbols.size).storage ≠ .global k := by
      intro y hy hyk
      have := hfresh.apart y hy fun j hj => by rw [hyk] at hj; cases hj
      rwa [hyk] at this
    rcases symbol_addTemporary name ty hf hy with ⟨hy, hs⟩ | ⟨rfl, -⟩
    · rw [hs] at hyk
      rcases symbol_addTemporary name ty hf hz with ⟨hz, hs'⟩ | ⟨rfl, -⟩
      · rw [hs'] at hzk
        exact hF.global_inj y hy z hz k hyk hzk
      · exact absurd hzk (hold y hy hyk)
    · rcases symbol_addTemporary name ty hf hz with ⟨hz, hs'⟩ | ⟨rfl, -⟩
      · rw [hs'] at hzk
        exact absurd hyk (hold z hz hzk)
      · rfl
  captured f y hy := by
    rw [(addTemporary_extends name ty hf).captures] at hy
    obtain ⟨hlt, hesc⟩ := hF.captured f y hy
    rw [(addTemporary_extends name ty hf).symbol y hlt]
    exact ⟨Nat.lt_of_lt_of_le hlt (addTemporary_extends name ty hf).symbols_le, hesc⟩

end

end Facts

end Parlance
