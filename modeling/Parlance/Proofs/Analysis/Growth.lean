import Parlance.Proofs.Analysis.Judgements
import Parlance.Proofs.Analysis.Passes

/-!
# How the facts grow

Analysis adds to the facts about a program. What it has found out stays, with three exceptions:
a symbol may turn out to be used by another function, a function that is being analyzed may
capture more variables, and what a function declaration makes is filled in when its body is
analyzed. `Facts.Grows opens` says that facts were added, and that the functions in `opens`
are those that may have changed.

## Main results

* `Facts.Grows.trans`: growth composes.
* `Facts.Grows.readable`, `Facts.Grows.writable`: what may be used stays usable.
-/

namespace Parlance

/-- The same symbol, possibly with more uses. -/
structure Symbol.Grows (y y' : Symbol) : Prop where
  ty : y'.ty = y.ty
  kind : y'.kind = y.kind
  storage : y'.storage = y.storage
  function : y'.function = y.function
  escapes : y.escapes = true → y'.escapes = true

/-- A symbol grows into itself. -/
theorem Symbol.Grows.refl (y : Symbol) : y.Grows y :=
  ⟨rfl, rfl, rfl, rfl, id⟩

/-- A symbol may grow again. -/
theorem Symbol.Grows.trans {x y z : Symbol} (hxy : x.Grows y) (hyz : y.Grows z) : x.Grows z :=
  ⟨hyz.ty.trans hxy.ty, hyz.kind.trans hxy.kind, hyz.storage.trans hxy.storage,
    hyz.function.trans hxy.function, fun h => hyz.escapes (hxy.escapes h)⟩

/-- More uses do not make a symbol incoherent. -/
theorem Symbol.Coherent.grows {y y' : Symbol} (h : y.Coherent) (hg : y.Grows y') : y'.Coherent := by
  unfold Symbol.Coherent at h ⊢
  rwa [hg.ty, hg.kind, hg.storage, hg.function]

/-- The same function, possibly with more captures. -/
structure FunctionInfo.Grows (f f' : FunctionInfo) : Prop where
  kind : f'.kind = f.kind
  parent : f'.parent = f.parent
  node : f'.node = f.node
  captures : f.captures ⊆ f'.captures

/-- A function grows into itself. -/
theorem FunctionInfo.Grows.refl (f : FunctionInfo) : f.Grows f :=
  ⟨rfl, rfl, rfl, List.Subset.refl _⟩

/-- A function may grow again. -/
theorem FunctionInfo.Grows.trans {f g h : FunctionInfo} (hfg : f.Grows g) (hgh : g.Grows h) :
    f.Grows h :=
  ⟨hgh.kind.trans hfg.kind, hgh.parent.trans hfg.parent, hgh.node.trans hfg.node,
    List.Subset.trans hfg.captures hgh.captures⟩

/-- Functions that are not finished, with their types. -/
abbrev Opens := List (Nat × Ty)

namespace Facts

/-- Facts were added. Only functions in `opens` changed. -/
structure Grows (opens : Opens) (F F' : Facts) : Prop where
  symbols_le : F.symbols.size ≤ F'.symbols.size
  symbol : ∀ y < F.symbols.size, (F.symbol y).Grows (F'.symbol y)
  functions_le : F.functions.size ≤ F'.functions.size
  function : ∀ f < F.functions.size, (F.info f).Grows (F'.info f)
  returns : ∀ f < F.functions.size, f ≠ 0 → (F'.info f).returns = (F.info f).returns
  closed : ∀ f < F.functions.size, opens.lookup f = none → F'.info f = F.info f
  globals_le : F.globals ≤ F'.globals

variable {F F' F'' : Facts} {opens opens' : Opens}

/-- Facts grow into themselves. -/
theorem Grows.refl (opens : Opens) (F : Facts) : F.Grows opens F :=
  ⟨Nat.le_refl _, fun _ _ => .refl _, Nat.le_refl _, fun _ _ => .refl _, fun _ _ _ => rfl,
    fun _ _ _ => rfl, Nat.le_refl _⟩

/-- Facts may grow again. -/
theorem Grows.trans (h : F.Grows opens F') (h' : F'.Grows opens F'') : F.Grows opens F'' where
  symbols_le := Nat.le_trans h.symbols_le h'.symbols_le
  symbol y hy := (h.symbol y hy).trans (h'.symbol y (Nat.lt_of_lt_of_le hy h.symbols_le))
  functions_le := Nat.le_trans h.functions_le h'.functions_le
  function f hf := (h.function f hf).trans (h'.function f (Nat.lt_of_lt_of_le hf h.functions_le))
  returns f hf h0 :=
    (h'.returns f (Nat.lt_of_lt_of_le hf h.functions_le) h0).trans (h.returns f hf h0)
  closed f hf ho :=
    (h'.closed f (Nat.lt_of_lt_of_le hf h.functions_le) ho).trans (h.closed f hf ho)
  globals_le := Nat.le_trans h.globals_le h'.globals_le

/-- Growth in which fewer functions changed. A function that is new does not count. -/
theorem Grows.mono (h : F.Grows opens F')
    (ho : ∀ f < F.functions.size, opens'.lookup f = none → opens.lookup f = none) :
    F.Grows opens' F' :=
  { h with closed := fun f hf hn => h.closed f hf (ho f hf hn) }

section Uses

variable {g y : Nat} {live : List Nat}

/-- No function loses a capture. -/
theorem Grows.captures (h : F.Grows opens F') {f : Nat} (hf : f < F.functions.size) :
    F.captures f ⊆ F'.captures f :=
  (h.function f hf).captures

/-- What a function has it still has with more captures, if the owner of the symbol is the same. -/
theorem Has.mono (hh : F.Has g live y) (hf : (F'.symbol y).function = (F.symbol y).function)
    (hc : F.captures g ⊆ F'.captures g) : F'.Has g live y := by
  unfold Has at hh ⊢
  rw [hf]
  split at hh
  · next ho => rwa [if_pos ho]
  · next ho =>
      rw [if_neg ho]
      exact hc hh

/-- What a function has it still has when facts were added. -/
theorem Grows.has (h : F.Grows opens F') (hg : g < F.functions.size) (hy : y < F.symbols.size)
    (hh : F.Has g live y) : F'.Has g live y :=
  hh.mono (h.symbol y hy).function (h.captures hg)

/-- A symbol that may be read may still be read when facts were added. -/
theorem Grows.readable (h : F.Grows opens F') (hg : g < F.functions.size)
    (hr : F.Readable g live y) : F'.Readable g live y := by
  obtain ⟨hy, hr⟩ := hr
  refine ⟨Nat.lt_of_lt_of_le hy h.symbols_le, ?_⟩
  rw [(h.symbol y hy).storage]
  split at hr
  · exact hr.imp (And.imp_right (h.symbol y hy).escapes) id
  · exact h.has hg hy hr
  · trivial
  · trivial

/-- A symbol that may be written may still be written when facts were added. -/
theorem Grows.writable (h : F.Grows opens F') (hw : F.Writable g live y) :
    F'.Writable g live y := by
  obtain ⟨hy, hw⟩ := hw
  refine ⟨Nat.lt_of_lt_of_le hy h.symbols_le, ?_⟩
  rw [(h.symbol y hy).storage]
  split at hw
  · exact hw.imp (And.imp_right (h.symbol y hy).escapes) id
  · rwa [(h.symbol y hy).function]
  · exact hw
  · exact hw

/-- A parameter remains a parameter when facts were added. -/
theorem Grows.isParam (h : F.Grows opens F') {i : Nat} (hp : F.IsParam g i y) :
    F'.IsParam g i y where
  lt := Nat.lt_of_lt_of_le hp.lt h.symbols_le
  kind := (h.symbol y hp.lt).kind.trans hp.kind
  storage := (h.symbol y hp.lt).storage.trans hp.storage
  owner := (h.symbol y hp.lt).function.trans hp.owner

end Uses

/-! ### Changes -/

/-- A new symbol is found at the end, and the others where they were. -/
@[simp] theorem symbol_push {s : Symbol} {y : Nat} :
    Facts.symbol { F with symbols := F.symbols.push s } y =
      if y = F.symbols.size then s else F.symbol y := by
  unfold symbol
  rw [Array.getElem?_push]
  split <;> rfl

/-- A change to a symbol is found at that symbol only. -/
@[simp] theorem symbol_modify {f : Symbol → Symbol} {x y : Nat} (hx : x < F.symbols.size) :
    Facts.symbol { F with symbols := F.symbols.modify x f } y =
      if y = x then f (F.symbol y) else F.symbol y := by
  unfold symbol
  simp only [Array.getElem?_modify]
  split
  · next h =>
      subst h
      rw [if_pos rfl, Array.getElem?_eq_getElem hx]
      rfl
  · next h => rw [if_neg (fun he => h he.symm)]

/-- A new function is found at the end, and the others where they were. -/
@[simp] theorem info_push {i : FunctionInfo} {f : Nat} :
    Facts.info { F with functions := F.functions.push i } f =
      if f = F.functions.size then i else F.info f := by
  unfold info
  rw [Array.getElem?_push]
  split <;> rfl

/-- A change to a function is found at that function only. -/
@[simp] theorem info_modify {g : FunctionInfo → FunctionInfo} {e f : Nat}
    (he : e < F.functions.size) :
    Facts.info { F with functions := F.functions.modify e g } f =
      if f = e then g (F.info f) else F.info f := by
  unfold info
  simp only [Array.getElem?_modify]
  split
  · next h =>
      subst h
      rw [if_pos rfl, Array.getElem?_eq_getElem he]
      rfl
  · next h => rw [if_neg (fun hf => h hf.symm)]

/-- A new symbol is growth. -/
theorem grows_push_symbol (s : Symbol) :
    F.Grows opens { F with symbols := F.symbols.push s } where
  symbols_le := by simp
  symbol y hy := by
    rw [symbol_push, if_neg (Nat.ne_of_lt hy)]
    exact .refl _
  functions_le := Nat.le_refl _
  function _ _ := .refl _
  returns _ _ _ := rfl
  closed _ _ _ := rfl
  globals_le := Nat.le_refl _

/-- A new function is growth. -/
theorem grows_push_function (i : FunctionInfo) :
    F.Grows opens { F with functions := F.functions.push i } where
  symbols_le := Nat.le_refl _
  symbol _ _ := .refl _
  functions_le := by simp
  function f hf := by
    rw [info_push, if_neg (Nat.ne_of_lt hf)]
    exact .refl _
  returns f hf _ := by rw [info_push, if_neg (Nat.ne_of_lt hf)]
  closed f hf _ := by rw [info_push, if_neg (Nat.ne_of_lt hf)]
  globals_le := Nat.le_refl _

/-- A change of a function that is not finished is growth. What is known of finished functions
stays, and so does the result type of every function but the program itself. -/
theorem grows_modify_function {g : FunctionInfo → FunctionInfo} {e : Nat}
    (he : e < F.functions.size) (ho : opens.lookup e ≠ none)
    (hg : (F.info e).Grows (g (F.info e))) (hr : e ≠ 0 → (g (F.info e)).returns = (F.info e).returns) :
    F.Grows opens { F with functions := F.functions.modify e g } where
  symbols_le := Nat.le_refl _
  symbol _ _ := .refl _
  functions_le := by simp
  function f hf := by
    rw [info_modify he]
    split
    · next h => exact h ▸ hg
    · exact .refl _
  returns f hf h0 := by
    rw [info_modify he]
    split
    · next h => exact h ▸ hr (h ▸ h0)
    · rfl
  closed f hf hn := by
    rw [info_modify he, if_neg]
    rintro rfl
    exact ho hn
  globals_le := Nat.le_refl _

end Facts

end Parlance
