import Parlance.Proofs.Machine.Ledger

/-!
# Instructions keep types

The points of the code say which variables are stored and which types the operands have. A run
of an accepted program keeps to them: control only comes to points, every variable that is in
scope at a point was stored for that variable, and as long as no global was loaded before it was
stored, every value has its type.

The part about types is lost once a global is loaded that was never stored, since it holds unit
then. The part about control and stores is never lost.

## Main results

* `Machine.Kept`: the invariant of a run.
* `Machine.Poised.execute`: one instruction keeps it.
-/

namespace Parlance

/-! ### Ledgers that grow -/

/-- A later ledger knows of more stores, and is careful only if the earlier one is. -/
structure Ledger.Le (l l' : Ledger) : Prop where
  stored : l.stored ⊆ l'.stored
  careful : l'.careful = true → l.careful = true

/-- While the run is careful, the value has the type. -/
def Ledger.Knows (a : Analyzed) (l : Ledger) (v : Value) (t : Ty) : Prop :=
  l.careful = true → v.HasTy a.facts t

namespace Ledger

variable {a : Analyzed} {l l' : Ledger}

/-- A ledger is as late as itself. -/
theorem Le.refl (l : Ledger) : l.Le l :=
  ⟨List.Subset.refl _, id⟩

/-- The ledger after an instruction is a later one. -/
theorem le_after (f : Frame) (frames : List Frame) (i : Instr) : l.Le (l.after a f frames i) := by
  cases i with
  | loadGlobal slot => exact ⟨List.Subset.refl _, fun h => (Bool.and_eq_true _ _ ▸ h).1⟩
  | storeGlobal slot => exact ⟨List.subset_cons_self _ _, id⟩
  | call count =>
      simp only [after]
      split
      · split
        · exact ⟨List.Subset.refl _, id⟩
        · exact .refl l
      · exact .refl l
  | _ => exact ⟨List.Subset.refl _, id⟩

/-- What an earlier ledger knows of values a later one knows too. -/
theorem Le.knows (hl : l.Le l') {vs : List Value} {ts : List Ty}
    (h : List.Forall₂ (l.Knows a) vs ts) : List.Forall₂ (l'.Knows a) vs ts :=
  h.imp fun _ _ hv hc => hv (hl.careful hc)

/-- While a run is careful, what is known of values is that they have their types. -/
theorem knows_iff {vs : List Value} {ts : List Ty} (hc : l.careful = true) :
    List.Forall₂ (l.Knows a) vs ts ↔ List.Forall₂ (Value.HasTy a.facts) vs ts :=
  ⟨fun h => h.imp fun _ _ hv => hv hc, fun h => h.imp fun _ _ hv _ => hv⟩

end Ledger

/-! ### Frames -/

/-- What is known about the variables of a frame: those in `live` were stored, and while the run
is careful, a slot that was stored for a variable has a value of its type. -/
structure Frame.Keeps (a : Analyzed) (l : Ledger) (owner : Nat → Option Nat) (f : Frame)
    (live : List Nat) : Prop where
  owned : ∀ y ∈ live, ∀ k, (a.facts.symbol y).storage = .frame k → owner k = some y
  stored : ∀ y ∈ live, ∀ k, (a.facts.symbol y).storage = .global k → k ∈ l.stored
  slots : l.careful = true → ∀ k y, owner k = some y →
    ∃ v, f.slots[k]? = some v ∧ v.HasTy a.facts (a.facts.symbol y).ty
  captures : l.careful = true →
    List.Forall₂ (Value.HasTy a.facts) f.captures (a.facts.captureTys f.function)

namespace Frame.Keeps

variable {a : Analyzed} {l l' : Ledger} {owner : Nat → Option Nat} {f : Frame}
  {live live' : List Nat}

/-- A frame keeps its variables with a later ledger, and with fewer of them. -/
theorem mono (h : f.Keeps a l owner live) (hl : l.Le l') (hsub : live' ⊆ live) :
    f.Keeps a l' owner live' where
  owned y hy := h.owned y (hsub hy)
  stored y hy k hk := hl.stored (h.stored y (hsub hy) k hk)
  slots hc := h.slots (hl.careful hc)
  captures hc := h.captures (hl.careful hc)

/-- The variables do not depend on the offset and the operands. -/
theorem moved (h : f.Keeps a l owner live) {pc : Nat} {stack : List Value} :
    Frame.Keeps a l owner { f with pc, stack } live :=
  ⟨h.owned, h.stored, h.slots, h.captures⟩

/-- A variable is stored. The slot is not that of another one, and what is known behind the
store is no more than that the variable was stored. -/
theorem store (h : f.Keeps a l owner live) {y k pc : Nat} {q : Point} {v : Value}
    {stack : List Value} (hs : (a.facts.symbol y).storage = .frame k)
    (hsep : ∀ z ∈ live, (a.facts.symbol z).storage = .frame k → z = y) (hk : k < f.slots.size)
    (hv : l.Knows a v (a.facts.symbol y).ty) (hq : a.chart f.function pc = some q)
    (hsub : q.live ⊆ y :: live) :
    Frame.Keeps a l (Function.update owner k (a.variableAt f.function pc k))
      { f with stack, slots := f.slots.setIfInBounds k v } q.live := by
  have heq : ∀ z ∈ q.live, (a.facts.symbol z).storage = .frame k → z = y := by
    intro z hz hzs
    rcases List.mem_cons.mp (hsub hz) with rfl | hz
    · rfl
    · exact hsep z hz hzs
  have hat : a.variableAt f.function pc k =
      q.live.find? fun z => (a.facts.symbol z).storage = .frame k := by
    rw [Analyzed.variableAt, hq, Option.bind_some]
  have hold : ∀ z ∈ q.live, (a.facts.symbol z).storage ≠ .frame k → z ∈ live := by
    intro z hz hne
    rcases List.mem_cons.mp (hsub hz) with rfl | hz
    · exact absurd hs hne
    · exact hz
  refine ⟨?_, ?_, ?_, h.captures⟩
  · intro z hz j hzs
    by_cases hj : j = k
    · subst hj
      rw [Function.update_self, hat]
      cases hfind : q.live.find? fun z => (a.facts.symbol z).storage = .frame j with
      | none => exact absurd hzs (by simpa using List.find?_eq_none.mp hfind z hz)
      | some w =>
          have hw := heq w (List.mem_of_find?_eq_some hfind)
            (by simpa using List.find?_some hfind)
          rw [hw, heq z hz hzs]
    · rw [Function.update_of_ne hj]
      refine h.owned z (hold z hz ?_) j hzs
      rw [hzs]
      simpa using hj
  · intro z hz j hzs
    refine h.stored z (hold z hz ?_) j hzs
    rw [hzs]
    simp
  · intro hc j z hz
    by_cases hj : j = k
    · subst hj
      rw [Function.update_self, hat] at hz
      have hw := heq z (List.mem_of_find?_eq_some hz) (by simpa using List.find?_some hz)
      refine ⟨v, ?_, hw ▸ hv hc⟩
      rw [Array.getElem?_setIfInBounds_self_of_lt hk]
    · rw [Function.update_of_ne hj] at hz
      rw [Array.getElem?_setIfInBounds_ne (Ne.symm hj)]
      exact h.slots hc j z hz

end Frame.Keeps

/-- Frames that wait for a result of the type `t`, the innermost first, with the variables of
their slots. The last one is the program. -/
def Frame.Wait (a : Analyzed) (l : Ledger) : Ty → List Frame → List (Nat → Option Nat) → Prop
  | t, [], [] => l.careful = true → t = (a.facts.info 0).returns
  | t, f :: callers, owner :: owners =>
    ∃ p result rest, a.chart f.function f.pc = some p ∧ p.stack = result :: rest ∧
      (l.careful = true → t = result) ∧ f.Keeps a l owner p.live ∧
      List.Forall₂ (l.Knows a) f.stack rest ∧
      Frame.Wait a l (a.facts.info f.function).returns callers owners
  | _, _, _ => False

namespace Frame.Wait

variable {a : Analyzed} {l l' : Ledger} {t : Ty} {callers : List Frame}
  {owners : List (Nat → Option Nat)}

/-- Waiting frames wait with a later ledger. -/
theorem mono (hl : l.Le l') (h : Frame.Wait a l t callers owners) :
    Frame.Wait a l' t callers owners := by
  induction callers generalizing t owners with
  | nil =>
      cases owners with
      | nil => exact fun hc => h (hl.careful hc)
      | cons owner owners => exact h.elim
  | cons f callers ih =>
      cases owners with
      | nil => exact h.elim
      | cons owner owners =>
          obtain ⟨p, result, rest, hp, hs, ht, hk, hv, hw⟩ := h
          exact ⟨p, result, rest, hp, hs, fun hc => ht (hl.careful hc),
            hk.mono hl (List.Subset.refl _), hl.knows hv, ih hw⟩

/-- There is one chart of slots for each waiting frame. -/
theorem length_eq (h : Frame.Wait a l t callers owners) : owners.length = callers.length := by
  induction callers generalizing t owners with
  | nil =>
      cases owners with
      | nil => rfl
      | cons owner owners => exact h.elim
  | cons f callers ih =>
      cases owners with
      | nil => exact h.elim
      | cons owner owners =>
          obtain ⟨p, result, rest, -, -, -, -, -, hw⟩ := h
          rw [List.length_cons, List.length_cons, ih hw]

end Frame.Wait

/-- The running frame, with the variables in `live`, and its callers. -/
structure Frame.Stands (a : Analyzed) (l : Ledger) (owner : Nat → Option Nat)
    (owners : List (Nat → Option Nat)) (f : Frame) (callers : List Frame) (live : List Nat) :
    Prop where
  keeps : f.Keeps a l owner live
  callers : Frame.Wait a l (a.facts.info f.function).returns callers owners

/-! ### Routines -/

/-- The routine of a function has the numbers of its parameters and captures, and its body is
accepted. -/
theorem Image.Assembled.routine_eq {a : Analyzed} {image : Image} (h : image.Assembled a)
    (hacc : a.Accepted) {g : Nat} {r : Routine} (hr : image.routines[g]? = some r) :
    r.params = (a.facts.info g).params.length ∧ r.captures = (a.facts.captures g).length ∧
      ∀ i y, (a.facts.info g).params[i]? = some y → a.facts.IsParam g i y := by
  obtain ⟨info, hinfo⟩ := h.info_of_routine hr
  obtain ⟨b, frag, hb, -, -, hr'⟩ := h.routine g info hinfo
  cases hr.symm.trans hr'
  have heq : a.facts.info g = info := by rw [Facts.info, hinfo, Option.getD_some]
  refine ⟨by rw [heq]; rfl, by rw [Facts.captures, heq]; rfl, ?_⟩
  exact (hacc.accepts_of_lookup hb).param

/-- Values of some types have the type at each position. -/
theorem exists_getElem?_of_forall₂ {R : Value → Ty → Prop} {vs : List Value} {ts : List Ty}
    (h : List.Forall₂ R vs ts) {k : Nat} {t : Ty} (ht : ts[k]? = some t) :
    ∃ v, vs[k]? = some v ∧ R v t := by
  obtain ⟨hlt, rfl⟩ := List.getElem?_eq_some_iff.mp ht
  have hlt' : k < vs.length := h.length_eq ▸ hlt
  exact ⟨vs[k], List.getElem?_eq_getElem hlt', h.get hlt' hlt⟩

/-! ### Machines -/

namespace Machine

/-- The constants are those of the image, and the globals that were stored are typed. -/
structure Stocked (a : Analyzed) (l : Ledger) (m : Machine) : Prop where
  assembled : m.image.Assembled a
  consts : ∀ (i : Nat) (c : Const), m.image.consts[i]? = some c →
    ∃ tag, m.consts[i]? = some (c.toValue tag)
  globals : l.careful = true → ∀ y < a.facts.symbols.size, ∀ k,
    (a.facts.symbol y).storage = .global k → k ∈ l.stored →
      ∃ v, m.globals[k]? = some v ∧ v.HasTy a.facts (a.facts.symbol y).ty

/-- **The invariant of a run.** The running frame is at a point, and its operands have the types
of the point. A run that faults leaves the variables as they were. -/
structure Kept (a : Analyzed) (l : Ledger) (m : Machine) : Prop extends Stocked a l m where
  running : m.outcome = none → ∃ f callers owner owners p, m.frames = f :: callers ∧
    l.owners = owner :: owners ∧ a.chart f.function f.pc = some p ∧
    f.Stands a l owner owners callers p.live ∧ List.Forall₂ (l.Knows a) f.stack p.stack
  faulted : ∀ e, m.outcome = some (.error e) → (l.careful = true → e.fault.isTypeFault = false) ∧
    ∃ f callers owner owners, m.frames = f :: callers ∧ l.owners = owner :: owners ∧
      f.Stands a l owner owners callers []
  finished : ∀ v, m.outcome = some (.ok v) → m.frames = [] ∧ l.owners = [] ∧
    l.Knows a v (a.facts.info 0).returns

/-- What an instruction leaves keeps the invariant, also if it faults. -/
def Executed.Keeps (a : Analyzed) (l : Ledger) (x : Executed) : Prop :=
  match x with
  | (m, none) => m.Kept a l
  | (m, some fault) => ∀ function pc, (m.fail fault function pc).Kept a l

/-! ### One instruction -/

/-- The machine before an instruction of the running frame `f`, whose offset is already that of
the next one. The instruction stands at the point `p`. -/
structure Poised (a : Analyzed) (l : Ledger) (owner : Nat → Option Nat)
    (owners : List (Nat → Option Nat)) (m : Machine) (callers : List Frame) (f : Frame)
    (p : Point) : Prop where
  stocked : m.Stocked a l
  running : m.outcome = none
  owners_eq : l.owners = owner :: owners
  stands : f.Stands a l owner owners callers p.live
  operands : List.Forall₂ (l.Knows a) f.stack p.stack

section Execute

variable {a : Analyzed} {l l' : Ledger} {owner : Nat → Option Nat}
  {owners : List (Nat → Option Nat)} {m : Machine} {callers : List Frame} {f : Frame}
  {live : List Nat} {stack : List Ty} {p : Point}

/-- Another machine with the same constants and globals. -/
theorem Stocked.transfer {m' : Machine} (h : m.Stocked a l) (hl : l.Le l')
    (hs : l'.stored = l.stored) (hi : m'.image = m.image) (hc : m'.consts = m.consts)
    (hg : m'.globals = m.globals) : m'.Stocked a l' := by
  refine ⟨hi ▸ h.assembled, ?_, fun hcareful => ?_⟩
  · rw [hi, hc]
    exact h.consts
  · rw [hg, hs]
    exact h.globals (hl.careful hcareful)

/-- A machine that runs and stands at a point keeps the invariant. -/
theorem Stocked.kept (h : m.Stocked a l) (ho : m.outcome = none) (hf : m.frames = f :: callers)
    (hl : l.owners = owner :: owners) (hp : a.chart f.function f.pc = some p)
    (hs : f.Stands a l owner owners callers p.live)
    (hv : List.Forall₂ (l.Knows a) f.stack p.stack) : m.Kept a l where
  toStocked := h
  running _ := ⟨f, callers, owner, owners, p, hf, hl, hp, hs, hv⟩
  faulted e he := by cases ho.symm.trans he
  finished v he := by cases ho.symm.trans he

/-- Another machine with the same constants and globals. -/
theorem Poised.transfer {m' : Machine} (h : Poised a l owner owners m callers f p)
    (hi : m'.image = m.image) (hc : m'.consts = m.consts) (hg : m'.globals = m.globals)
    (ho : m'.outcome = m.outcome) : Poised a l owner owners m' callers f p :=
  ⟨h.stocked.transfer (.refl l) rfl hi hc hg, ho.trans h.running, h.owners_eq, h.stands,
    h.operands⟩

/-- A machine before an instruction stays so with a later ledger of the same stores. -/
theorem Poised.mono (h : Poised a l owner owners m callers f p) (hl : l.Le l')
    (hs : l'.stored = l.stored) (ho : l'.owners = l.owners) :
    Poised a l' owner owners m callers f p :=
  ⟨h.stocked.transfer hl hs rfl rfl rfl, h.running, ho.trans h.owners_eq,
    ⟨h.stands.keeps.mono hl (List.Subset.refl _), h.stands.callers.mono hl⟩, hl.knows h.operands⟩

/-- Going on at an offset that may be reached. -/
theorem Poised.done_resume (h : Poised a l owner owners m callers f ⟨live, stack⟩)
    {vs : List Value} {ts : List Ty} {pc : Nat}
    (hp : Point.Accepts (a.chart f.function) pc ⟨live, ts⟩)
    (hv : List.Forall₂ (l.Knows a) vs ts) :
    Executed.Keeps a l (done (m.resume callers { f with stack := vs, pc })) := by
  obtain ⟨q, hq, rfl, hlive⟩ := hp
  have hstocked : (m.resume callers { f with stack := vs, pc }).Stocked a l :=
    h.stocked.transfer (.refl l) rfl rfl rfl rfl
  exact hstocked.kept (f := { f with stack := vs, pc }) h.running rfl h.owners_eq hq
    ⟨(h.stands.keeps.mono (.refl l) hlive).moved, h.stands.callers⟩ hv

/-- A fault that is not about types, as long as the run is careful. -/
theorem Poised.faulted_resume (h : Poised a l owner owners m callers f p) {vs : List Value}
    {fault : Fault} (hf : l.careful = true → fault.isTypeFault = false) :
    Executed.Keeps a l (faulted fault (m.resume callers { f with stack := vs })) := by
  intro function pc
  refine ⟨h.stocked.transfer (.refl l) rfl rfl rfl rfl, ?_, ?_, ?_⟩
  · intro ho
    cases ho
  · rintro e ⟨⟩
    exact ⟨hf, _, callers, owner, owners, rfl, h.owners_eq,
      (h.stands.keeps.mono (.refl l) (List.nil_subset _)).moved, h.stands.callers⟩
  · rintro v ⟨⟩

/-- Pushing the result of an operation. -/
theorem Poised.pushResult (h : Poised a l owner owners m callers f ⟨live, stack⟩)
    {vs : List Value} {t : Ty} {ts : List Ty} {result : Except Fault Value}
    (hp : Point.Accepts (a.chart f.function) f.pc ⟨live, t :: ts⟩)
    (hv : List.Forall₂ (l.Knows a) vs ts)
    (hr : l.careful = true → Value.ResultHasTy a.facts t result) :
    Executed.Keeps a l (m.pushResult callers f vs result) := by
  cases result with
  | ok v => exact h.done_resume hp (.cons hr hv)
  | error fault => exact h.faulted_resume hr

/-- Operands of known types can be taken. -/
theorem popMany?_of_forall₂ {R : Value → Ty → Prop} {vs : List Value} {ts rest : List Ty}
    {count : Nat} (h : List.Forall₂ R vs (ts.reverse ++ rest)) (hc : ts.length = count) :
    ∃ items below, popMany? count vs = some (items, below) ∧ List.Forall₂ R items ts ∧
      List.Forall₂ R below rest := by
  have hlen : count ≤ vs.length := by
    rw [h.length_eq, List.length_append, List.length_reverse]
    omega
  have hcount : ts.reverse.length = count := by rw [List.length_reverse, hc]
  refine ⟨_, _, if_neg (by omega), ?_, ?_⟩
  · have htake := List.forall₂_take_append _ _ _ h
    rw [hcount] at htake
    rwa [← List.forall₂_reverse_iff, List.reverse_reverse]
  · have hdrop := List.forall₂_drop_append _ _ _ h
    rwa [hcount] at hdrop

/-! ### Stores -/

/-- Storing a variable of the frame. The ledger notes whose value the slot holds now; no other
variable in scope has this slot. -/
theorem Poised.storeLocal (h : Poised a l owner owners m callers f ⟨live, stack⟩) {y k : Nat}
    {v : Value} {vs : List Value} {ts : List Ty} (hs : (a.facts.symbol y).storage = .frame k)
    (hsep : ∀ z ∈ live, (a.facts.symbol z).storage = .frame k → z = y) (hk : k < f.slots.size)
    (hv : l.Knows a v (a.facts.symbol y).ty) (hrest : List.Forall₂ (l.Knows a) vs ts)
    (hp : Point.Accepts (a.chart f.function) f.pc ⟨y :: live, ts⟩) :
    Executed.Keeps a (l.own k (a.variableAt f.function f.pc k)) (done (m.resume callers
      { f with stack := vs, slots := f.slots.setIfInBounds k v })) := by
  obtain ⟨q, hq, rfl, hlive⟩ := hp
  have hle : l.Le (l.own k (a.variableAt f.function f.pc k)) := ⟨List.Subset.refl _, id⟩
  have howners : (l.own k (a.variableAt f.function f.pc k)).owners =
      Function.update owner k (a.variableAt f.function f.pc k) :: owners := by
    rw [Ledger.own, h.owners_eq, List.modifyHead_cons]
  have hkeeps := @Frame.Keeps.store a l owner f live h.stands.keeps y k f.pc q v vs hs hsep hk hv
    hq hlive
  have hstocked : Stocked a (l.own k (a.variableAt f.function f.pc k)) (m.resume callers
      { f with stack := vs, slots := f.slots.setIfInBounds k v }) :=
    h.stocked.transfer hle rfl rfl rfl rfl
  exact hstocked.kept (f := { f with stack := vs, slots := f.slots.setIfInBounds k v }) h.running
    rfl howners hq ⟨hkeeps.mono hle (List.Subset.refl _), h.stands.callers.mono hle⟩
    (hle.knows hrest)

/-- Storing a global. The ledger notes that the slot is stored; its only variable gets a value of
its type, and what is known of the others stays. -/
theorem Poised.storeGlobal (hcoh : a.facts.Coherent)
    (h : Poised a l owner owners m callers f ⟨live, stack⟩) {y k : Nat}
    {v : Value} {vs : List Value} {ts : List Ty} (hlt : y < a.facts.symbols.size)
    (hs : (a.facts.symbol y).storage = .global k) (hk : k < m.globals.size)
    (hv : l.Knows a v (a.facts.symbol y).ty) (hrest : List.Forall₂ (l.Knows a) vs ts)
    (hp : Point.Accepts (a.chart f.function) f.pc ⟨y :: live, ts⟩) :
    Executed.Keeps a { l with stored := k :: l.stored }
      (done { m.resume callers { f with stack := vs } with
        globals := m.globals.setIfInBounds k v }) := by
  obtain ⟨q, hq, rfl, hlive⟩ := hp
  have hle : l.Le { l with stored := k :: l.stored } := ⟨List.subset_cons_self _ _, id⟩
  have hkeeps : Frame.Keeps a { l with stored := k :: l.stored } owner
      { f with stack := vs } q.live := by
    have hold := h.stands.keeps.mono hle (List.Subset.refl _)
    refine ⟨fun z hz j hj => ?_, fun z hz j hj => ?_, hold.slots, hold.captures⟩
    · rcases List.mem_cons.mp (hlive hz) with rfl | hz
      · cases hs.symm.trans hj
      · exact hold.owned z hz j hj
    · rcases List.mem_cons.mp (hlive hz) with rfl | hz
      · cases hs.symm.trans hj
        exact List.mem_cons_self
      · exact hold.stored z hz j hj
  have hstocked : Stocked a { l with stored := k :: l.stored }
      { m.resume callers { f with stack := vs } with
        globals := m.globals.setIfInBounds k v } := by
    refine ⟨h.stocked.assembled, h.stocked.consts, fun hc z hz j hj hmem => ?_⟩
    by_cases hjk : j = k
    · subst hjk
      obtain rfl := hcoh.global_inj y hlt z hz j hs hj
      exact ⟨v, Array.getElem?_setIfInBounds_self_of_lt hk, hv hc⟩
    · rw [Array.getElem?_setIfInBounds_ne (Ne.symm hjk)]
      exact h.stocked.globals hc z hz j hj ((List.mem_cons.mp hmem).resolve_left hjk)
  exact hstocked.kept (f := { f with stack := vs }) h.running rfl h.owners_eq hq
    ⟨hkeeps, h.stands.callers.mono hle⟩ (hle.knows hrest)

/-! ### Calls -/

/-- The frame of a call has its parameters: they are in the first slots, with values of their types,
and no other variable of the function is in scope there. -/
theorem keeps_enter {image : Image} (h : image.Assembled a) (hacc : a.Accepted) {g : Nat}
    {r : Routine} (hr : image.routines[g]? = some r) {captures args : List Value} {frame : Frame}
    (he : Frame.enter r g captures args = .ok frame)
    (hargs : l.careful = true → List.Forall₂ (Value.HasTy a.facts) args
      ((a.facts.info g).params.map fun y => (a.facts.symbol y).ty))
    (hcaptures : l.careful = true →
      List.Forall₂ (Value.HasTy a.facts) captures (a.facts.captureTys g)) :
    frame.Keeps a l (Ledger.entry a g) (a.facts.info g).params ∧ frame.function = g ∧
      frame.pc = 0 ∧ frame.stack = [] := by
  obtain ⟨-, -, hparam⟩ := h.routine_eq hacc hr
  unfold Frame.enter at he
  split at he
  · cases he
    refine ⟨⟨?_, ?_, ?_, hcaptures⟩, rfl, rfl, rfl⟩
    · intro y hy k hk
      obtain ⟨i, hi⟩ := List.mem_iff_getElem?.mp hy
      have hs := (hparam i y hi).storage
      rw [hk] at hs
      cases hs
      exact hi
    · intro y hy k hk
      obtain ⟨i, hi⟩ := List.mem_iff_getElem?.mp hy
      rw [(hparam i y hi).storage] at hk
      cases hk
    · intro hc k y hy
      have hty : ((a.facts.info g).params.map fun y => (a.facts.symbol y).ty)[k]? =
          some (a.facts.symbol y).ty := by
        rw [List.getElem?_map]
        exact congrArg _ hy
      obtain ⟨v, hv, ht⟩ := exists_getElem?_of_forall₂ (hargs hc) hty
      have hk := (List.getElem?_eq_some_iff.mp hv).1
      refine ⟨v, ?_, ht⟩
      rw [List.getElem?_toArray, List.getElem?_append_left hk, hv]
  · cases he

/-- What is called has a type that can be called, so it is a function or a builtin. -/
theorem callable_of_calls {facts : Facts} {v : Value} {t : Ty} {args : List Ty} {result : Ty}
    (hv : v.HasTy facts t) (ht : t.Calls args result) :
    (∃ tag g captures, v = .function tag g captures) ∨ ∃ b, v = .builtin b := by
  cases v with
  | function tag g captures => exact .inl ⟨tag, g, captures, rfl⟩
  | builtin b => exact .inr ⟨b, rfl⟩
  | list items =>
      obtain ⟨item, rfl, -⟩ := hv
      exact ht.elim
  | _ =>
      subst hv
      exact ht.elim

/-- The types of the call of a function. -/
theorem function_of_calls {facts : Facts} {tag g : Nat} {captures : List Value} {t : Ty}
    {args : List Ty} {result : Ty} (hv : (Value.function tag g captures).HasTy facts t)
    (ht : t.Calls args result) :
    args = ((facts.info g).params.map fun y => (facts.symbol y).ty) ∧
      result = (facts.info g).returns ∧
      List.Forall₂ (Value.HasTy facts) captures (facts.captureTys g) := by
  obtain ⟨-, rfl, hc⟩ := Value.hasTy_function.mp hv
  exact ⟨ht.1, ht.2, hc⟩

/-- A frame that was entered stands at the entry of its function. -/
theorem Poised.entered (h : Poised a l owner owners m callers f p) {frame : Frame}
    {params : List Nat} (hkeeps : frame.Keeps a l (Ledger.entry a frame.function) params)
    (hentry : Point.Accepts (a.chart frame.function) 0 ⟨params, []⟩) (hpc : frame.pc = 0)
    (hstack : frame.stack = [])
    (hwait : Frame.Wait a l (a.facts.info frame.function).returns (f :: callers)
      (owner :: owners)) :
    Executed.Keeps a { l with owners := Ledger.entry a frame.function :: l.owners }
      (done { m with frames := frame :: f :: callers }) := by
  obtain ⟨q, hq, hqs, hqlive⟩ := hentry
  have hle : l.Le { l with owners := Ledger.entry a frame.function :: l.owners } :=
    ⟨List.Subset.refl _, id⟩
  have howners : Ledger.entry a frame.function :: l.owners =
      Ledger.entry a frame.function :: owner :: owners := by rw [h.owners_eq]
  have hchart : a.chart frame.function frame.pc = some q := by rw [hpc, hq]
  have hoperands : List.Forall₂ (l.Knows a) frame.stack q.stack := by
    rw [hstack, hqs]
    exact .nil
  have hstocked : Stocked a { l with owners := Ledger.entry a frame.function :: l.owners }
      { m with frames := frame :: f :: callers } := h.stocked.transfer hle rfl rfl rfl rfl
  exact hstocked.kept h.running rfl howners hchart ⟨hkeeps.mono hle hqlive, hwait.mono hle⟩
    (hle.knows hoperands)

/-- **Calls.** A call goes on in the frame of the function, or pushes the result of a builtin. The
type of the callee says what the function takes and returns, so its frame starts as its code
expects. -/
theorem Poised.call (hacc : a.Accepted) (h : Poised a l owner owners m callers f ⟨live, stack⟩)
    {callee : Value} {args : List Value} {t result : Ty} {ts rest : List Ty}
    (hp : Point.Accepts (a.chart f.function) f.pc ⟨live, result :: rest⟩)
    (ht : t.Calls ts result) (hcallee : l.Knows a callee t)
    (hargs : List.Forall₂ (l.Knows a) args ts) (hrest : List.Forall₂ (l.Knows a) f.stack rest)
    (before : Frame) (count : Nat) :
    Executed.Keeps a (l.after a before (m.call callers f callee args).1.frames (.call count))
      (m.call callers f callee args) := by
  have hlen : l.owners.length = callers.length + 1 := by
    rw [h.owners_eq, List.length_cons, h.stands.callers.length_eq]
  -- Without a new frame, the ledger stays.
  have hsame : ∀ frames : List Frame, frames.length = callers.length + 1 →
      l.after a before frames (.call count) = l := by
    intro frames hframes
    simp only [Ledger.after]
    split
    · rw [if_neg (by omega)]
    · rfl
  have hfault : ∀ {fault : Fault}, (l.careful = true → fault.isTypeFault = false) →
      m.call callers f callee args = faulted fault (m.resume callers f) →
      Executed.Keeps a (l.after a before (m.call callers f callee args).1.frames (.call count))
        (m.call callers f callee args) := by
    intro fault hfault heq
    rw [heq, hsame _ rfl]
    exact h.faulted_resume hfault
  cases callee with
  | function tag g captures =>
      by_cases hdepth : m.maxDepth ≤ callers.length + 1
      · exact hfault (fun _ => rfl) (call_of_depth hdepth)
      · cases hr : m.image.routines[g]? with
        | none => exact hfault (fun _ => rfl) (call_of_missing hdepth hr)
        | some r =>
            have hcall : m.call callers f (.function tag g captures) args = _ :=
              call_of_enter hdepth hr
            have htypes := fun hc => function_of_calls (hcallee hc) ht
            cases he : Frame.enter r g captures args with
            | error fault =>
                rw [he] at hcall
                refine hfault (fun hc => ?_) hcall
                have hparams := (h.stocked.assembled.routine_eq hacc hr).1
                have hcount : args.length = r.params := by
                  rw [hargs.length_eq, (htypes hc).1, List.length_map, hparams]
                rw [Frame.enter, if_pos hcount] at he
                cases he
            | ok frame =>
                rw [he] at hcall
                rw [hcall]
                obtain ⟨hkeeps, rfl, hpc, hstack⟩ := keeps_enter h.stocked.assembled hacc hr he
                  (fun hc => (htypes hc).1 ▸ (Ledger.knows_iff hc).mp hargs)
                  (fun hc => (htypes hc).2.2)
                obtain ⟨q, hq, hqs, hqlive⟩ := hp
                have hafter : l.after a before (frame :: f :: callers) (.call count) =
                    { l with owners := Ledger.entry a frame.function :: l.owners } := by
                  simp only [Ledger.after]
                  rw [if_pos (by simp [hlen])]
                change Executed.Keeps a (l.after a before (frame :: f :: callers) (.call count)) _
                rw [hafter]
                exact h.entered hkeeps (h.stocked.assembled.checked hacc hr).entry hpc hstack
                  ⟨q, result, rest, hq, hqs, fun hc => (htypes hc).2.1.symm,
                    h.stands.keeps.mono (.refl l) hqlive, hrest, h.stands.callers⟩
  | builtin b =>
      obtain ⟨output, hm⟩ := callBuiltin_machine m b args
      have hresult : l.careful = true → Value.ResultHasTy a.facts result (m.callBuiltin b args).2 :=
        fun hc => by
          have hb : t = .builtin b := hcallee hc
          exact m.callBuiltin_hasTy ((Ledger.knows_iff hc).mp hargs) (hb ▸ ht)
      simp only [Machine.call, hm]
      have hpoised : Poised a l owner owners { m with output } callers f ⟨live, stack⟩ :=
        h.transfer rfl rfl rfl rfl
      have hpush := hpoised.pushResult hp hrest hresult
      rw [hsame]
      · exact hpush
      · cases (m.callBuiltin b args).2 <;> rfl
  | _ =>
      refine hfault (fun hc => ?_) rfl
      rcases callable_of_calls (hcallee hc) ht with ⟨_, _, _, hv⟩ | ⟨_, hv⟩
      · cases hv
      · cases hv

/-- **Returns.** The caller goes on with the result it waits for. If there is none, the run ends
with a value of the result type of the program. -/
theorem Poised.leave (h : Poised a l owner owners m callers f ⟨live, stack⟩) {v : Value}
    (hv : l.Knows a v (a.facts.info f.function).returns) :
    Executed.Keeps a { l with owners := l.owners.tail } (m.leave callers v) := by
  have hw := h.stands.callers
  have hle : l.Le { l with owners := l.owners.tail } := ⟨List.Subset.refl _, id⟩
  cases callers with
  | nil =>
      cases owners with
      | nil =>
          refine ⟨h.stocked.transfer hle rfl rfl rfl rfl, ?_, ?_, ?_⟩
          · rintro ⟨⟩
          · rintro e ⟨⟩
          · rintro w ⟨⟩
            exact ⟨rfl, by rw [h.owners_eq]; rfl, fun hc => hw hc ▸ hv hc⟩
      | cons => exact hw.elim
  | cons g callers =>
      cases owners with
      | nil => exact hw.elim
      | cons gowner owners =>
          obtain ⟨q, result, rest, hq, hs, ht, hk, hrest, hcallers⟩ := hw
          have howners : l.owners.tail = gowner :: owners := by rw [h.owners_eq, List.tail_cons]
          have hoperands : List.Forall₂ (l.Knows a) (v :: g.stack) q.stack := by
            rw [hs]
            exact .cons (fun hc => ht hc ▸ hv hc) hrest
          have hstocked : Stocked a { l with owners := l.owners.tail }
              (m.resume callers { g with stack := v :: g.stack }) :=
            h.stocked.transfer hle rfl rfl rfl rfl
          exact hstocked.kept (f := { g with stack := v :: g.stack }) h.running rfl howners hq
            ⟨hk.moved.mono hle (List.Subset.refl _), hcallers.mono hle⟩ (hle.knows hoperands)

/-! ### Values that are pushed -/

/-- A local variable has its type: it was stored, since it is live at the point. -/
theorem Poised.local_knows (h : Poised a l owner owners m callers f p) {y k : Nat} {v : Value}
    (hy : y ∈ p.live) (hs : (a.facts.symbol y).storage = .frame k) (hv : f.slots[k]? = some v) :
    l.Knows a v (a.facts.symbol y).ty := by
  intro hc
  obtain ⟨w, hw, ht⟩ := h.stands.keeps.slots hc k y (h.stands.keeps.owned y hy k hs)
  cases hv.symm.trans hw
  exact ht

/-- A global has its type as long as the run is careful, and it is careful after the load only if
the global was stored before. -/
theorem Stocked.global_knows (h : m.Stocked a l) {y k : Nat} {v : Value}
    (hlt : y < a.facts.symbols.size) (hs : (a.facts.symbol y).storage = .global k)
    (hv : m.globals[k]? = some v) :
    Ledger.Knows a { l with careful := l.careful && l.stored.contains k } v
      (a.facts.symbol y).ty := by
  intro hc
  obtain ⟨hcareful, hstored⟩ := Bool.and_eq_true_iff.mp hc
  obtain ⟨w, hw, ht⟩ := h.globals hcareful y hlt k hs (by simpa using hstored)
  cases hv.symm.trans hw
  exact ht

/-- A captured value has the type of the variable that it was copied from. -/
theorem Poised.captured_knows (h : Poised a l owner owners m callers f p) {y i : Nat} {v : Value}
    (hy : (a.facts.captures f.function)[i]? = some y) (hv : f.captures[i]? = some v) :
    l.Knows a v (a.facts.symbol y).ty := by
  intro hc
  have hty : (a.facts.captureTys f.function)[i]? = some (a.facts.symbol y).ty := by
    rw [Facts.captureTys, List.getElem?_map, hy, Option.map_some]
  obtain ⟨w, hw, ht⟩ := exists_getElem?_of_forall₂ (h.stands.keeps.captures hc) hty
  cases hv.symm.trans hw
  exact ht

/-- A list has the type of its items, which is the same for all. -/
theorem list_knows {items : List Value} {ts : List Ty} {t : Ty}
    (hitems : List.Forall₂ (l.Knows a) items ts) (hall : ∀ u ∈ ts, u = t) :
    l.Knows a (.list items) (.list t) := by
  intro hc
  refine Value.hasTy_list.mpr fun v hv => ?_
  obtain ⟨n, hn, rfl⟩ := List.getElem_of_mem hv
  have hn' : n < ts.length := hitems.length_eq ▸ hn
  exact hall _ (List.getElem_mem hn') ▸ hitems.get hn hn' hc

/-! ### Conditions -/

/-- A boolean has a truth value, so conditions do not fault. -/
theorem truth_ne_error {facts : Facts} {v : Value} {fault : Fault} (hv : v.HasTy facts .bool) :
    truth v ≠ .error fault := by
  obtain ⟨b, rfl⟩ := hv.bool_eq
  intro h
  cases h

/-- A condition goes one of two ways, or the run is not careful. -/
theorem Poised.branch (h : Poised a l owner owners m callers f p) {v : Value} {vs : List Value}
    {yes no : Executed} (hv : l.Knows a v .bool) (hyes : Executed.Keeps a l yes)
    (hno : Executed.Keeps a l no) :
    Executed.Keeps a l (match truth v with
      | .ok true => yes
      | .ok false => no
      | .error fault => faulted fault (m.resume callers { f with stack := vs })) :=
  truth_cases hyes hno fun _ hb => h.faulted_resume fun hc => (truth_ne_error (hv hc) hb).elim

/-! ### Instructions -/

section Families

variable (h : Poised a l owner owners m callers f p) (before : Frame) {i : Instr} {r : Routine}
  (hin : m.InRange f r i)
  (hi : i.Leads a.facts f.function m.image.consts (a.chart f.function) before.pc p)
  (hpc : f.pc = before.pc + 1)

include h hi hpc

include hin in
/-- **Loads.** What is loaded has the type of its variable or constant. A run that loads a global
before it was stored is no longer careful, and nothing is known of types from then on. -/
theorem Poised.execute_load (hload : i.isLoad = true) :
    Executed.Keeps a (l.after a before (m.execute callers f i).1.frames i)
      (m.execute callers f i) := by
  cases hi with
  | loadConst hc ht hp =>
      rw [← hpc] at hp
      obtain ⟨tag, hv⟩ := h.stocked.consts _ _ hc
      simp only [Machine.execute, hv]
      exact h.done_resume hp (.cons (fun _ => ht tag) h.operands)
  | @loadLocal live stack y k hy hs hp =>
      rw [← hpc] at hp
      obtain ⟨v, hv⟩ : ∃ v, f.slots[k]? = some v := ⟨_, Array.getElem?_eq_getElem hin⟩
      simp only [Machine.execute, hv]
      exact h.done_resume hp (.cons (h.local_knows hy hs hv) h.operands)
  | @loadGlobal live stack y k hlt hs hlive hp =>
      rw [← hpc] at hp
      obtain ⟨v, hv⟩ : ∃ v, m.globals[k]? = some v := ⟨_, Array.getElem?_eq_getElem hin⟩
      have hle : l.Le { l with careful := l.careful && l.stored.contains k } :=
        @Ledger.le_after a l before [] (.loadGlobal k)
      have hpoised := h.mono hle rfl rfl
      simp only [Machine.execute, hv]
      exact hpoised.done_resume hp (.cons (h.stocked.global_knows hlt hs hv) hpoised.operands)
  | @loadCapture live stack y k hy hp =>
      rw [← hpc] at hp
      obtain ⟨v, hv⟩ : ∃ v, f.captures[k]? = some v := ⟨_, List.getElem?_eq_getElem hin⟩
      simp only [Machine.execute, hv]
      exact h.done_resume hp (.cons (h.captured_knows hy hv) h.operands)
  | _ => cases hload

include hin in
/-- **Stores.** The variable of the slot gets a value of its type, and the ledger notes it. -/
theorem Poised.execute_store (hcoh : a.facts.Coherent) (hfun : before.function = f.function)
    (hstore : i.isStore = true) :
    Executed.Keeps a (l.after a before (m.execute callers f i).1.frames i)
      (m.execute callers f i) := by
  cases hi with
  | @storeLocal live stack y k hs hsep hp =>
      rw [← hpc] at hp
      obtain ⟨v, vs, hv, hrest, hstack⟩ := List.forall₂_cons_right_iff.mp h.operands
      simp only [Machine.execute, hstack, Ledger.after, hfun, ← hpc]
      exact h.storeLocal hs hsep hin hv hrest hp
  | @storeGlobal live stack y k hlt hs hp =>
      rw [← hpc] at hp
      obtain ⟨v, vs, hv, hrest, hstack⟩ := List.forall₂_cons_right_iff.mp h.operands
      simp only [Machine.execute, hstack]
      exact h.storeGlobal hcoh hlt hs hin hv hrest hp
  | _ => cases hstore

/-- **Operators.** The result takes the place of the operands. Operands of the right types leave
only faults that are not about types. -/
theorem Poised.execute_operator (hop : i.isOperator = true) :
    Executed.Keeps a l (m.execute callers f i) := by
  cases hi with
  | unary ht hp =>
      rw [← hpc] at hp
      obtain ⟨v, vs, hv, hrest, hs⟩ := List.forall₂_cons_right_iff.mp h.operands
      simp only [Machine.execute, hs]
      exact h.pushResult hp hrest fun hc => (hv hc).unary ht
  | cast hp =>
      rw [← hpc] at hp
      obtain ⟨v, vs, hv, hrest, hs⟩ := List.forall₂_cons_right_iff.mp h.operands
      simp only [Machine.execute, hs]
      exact h.pushResult hp hrest fun _ => Value.cast_hasTy
  | binary ht hp =>
      rw [← hpc] at hp
      obtain ⟨w, _, hw, hw', hs⟩ := List.forall₂_cons_right_iff.mp h.operands
      obtain ⟨v, vs, hv, hrest, rfl⟩ := List.forall₂_cons_right_iff.mp hw'
      simp only [Machine.execute, hs]
      exact h.pushResult hp hrest fun hc => (hv hc).binary (hw hc) ht
  | getItem ht hp =>
      rw [← hpc] at hp
      obtain ⟨i, _, hi, hi', hs⟩ := List.forall₂_cons_right_iff.mp h.operands
      obtain ⟨v, vs, hv, hrest, rfl⟩ := List.forall₂_cons_right_iff.mp hi'
      simp only [Machine.execute, hs]
      exact h.pushResult hp hrest fun hc => (hv hc).getItem (hi hc) ht
  | _ => cases hop

/-- **Jumps.** The points at the target and behind the jump are those that the jump leads to. -/
theorem Poised.execute_jump {target : Nat} (hjump : i.target? = some target) :
    Executed.Keeps a l (m.execute callers f i) := by
  cases hi with
  | jump hp => exact h.done_resume hp h.operands
  | jumpIfFalse hp ht =>
      rw [← hpc] at hp
      obtain ⟨v, vs, hv, hrest, hs⟩ := List.forall₂_cons_right_iff.mp h.operands
      simp only [Machine.execute, hs]
      exact h.branch hv (h.done_resume hp hrest) (h.done_resume ht hrest)
  | jumpIfTrueOrPop hp ht =>
      rw [← hpc] at hp
      obtain ⟨v, vs, hv, hrest, hs⟩ := List.forall₂_cons_right_iff.mp h.operands
      simp only [Machine.execute, hs]
      exact h.branch hv (h.done_resume ht (.cons hv hrest)) (h.done_resume hp hrest)
  | jumpIfFalseOrPop hp ht =>
      rw [← hpc] at hp
      obtain ⟨v, vs, hv, hrest, hs⟩ := List.forall₂_cons_right_iff.mp h.operands
      simp only [Machine.execute, hs]
      exact h.branch hv (h.done_resume hp hrest) (h.done_resume ht (.cons hv hrest))
  | _ => cases hjump

end Families

/-- Replacing an item leaves the changed list on top of the new item. It fails only if the index is
not one of the list. -/
theorem Poised.execute_setItem {live : List Nat} {stack : List Ty} {t : Ty}
    (h : Poised a l owner owners m callers f ⟨live, t :: .int :: .list t :: stack⟩)
    (hp : Point.Accepts (a.chart f.function) f.pc ⟨live, .list t :: t :: stack⟩) :
    Executed.Keeps a l (m.execute callers f .setItem) := by
  obtain ⟨v, _, hv, hv', hs⟩ := List.forall₂_cons_right_iff.mp h.operands
  obtain ⟨i, _, hi, hi', rfl⟩ := List.forall₂_cons_right_iff.mp hv'
  obtain ⟨target, vs, ht, hrest, rfl⟩ := List.forall₂_cons_right_iff.mp hi'
  have hresult : l.careful = true →
      Value.ResultHasTy a.facts (.list t) (target.setItem i v) :=
    fun hc => (ht hc).setItem (hi hc) (hv hc)
  simp only [Machine.execute, hs]
  cases hset : target.setItem i v with
  | ok changed =>
      rw [hset] at hresult
      exact h.done_resume hp (.cons hresult (.cons hv hrest))
  | error fault =>
      rw [hset] at hresult
      exact h.faulted_resume hresult

/-- Making a function value. What it captures has the types that its function expects. -/
theorem Poised.execute_closure {live : List Nat} {stack : List Ty} {g : Nat} (hacc : a.Accepted)
    (h : Poised a l owner owners m callers f ⟨live, (a.facts.captureTys g).reverse ++ stack⟩)
    (hin : g < m.image.routines.size) (hg : g < a.facts.functions.size)
    (hp : Point.Accepts (a.chart f.function) f.pc ⟨live, a.facts.signature g :: stack⟩) :
    Executed.Keeps a l (m.execute callers f (.closure g)) := by
  obtain ⟨s, hs⟩ : ∃ s, m.image.routines[g]? = some s := ⟨_, Array.getElem?_eq_getElem hin⟩
  have hcount : (a.facts.captureTys g).length = s.captures := by
    rw [Facts.captureTys, List.length_map, (h.stocked.assembled.routine_eq hacc hs).2.1]
  obtain ⟨captures, vs, hpop, hcaptures, hrest⟩ := popMany?_of_forall₂ h.operands hcount
  have ht : l.Knows a (.function m.nextTag g captures) (a.facts.signature g) :=
    fun hc => Value.hasTy_function.mpr ⟨hg, rfl, (Ledger.knows_iff hc).mp hcaptures⟩
  have hpoised : Poised a l owner owners { m with nextTag := m.nextTag + 1 } callers f _ :=
    h.transfer rfl rfl rfl rfl
  simp only [Machine.execute, hs, hpop]
  exact hpoised.done_resume hp (.cons ht hrest)

/-- **One instruction.** An instruction that leads from its point to points keeps the
invariant. -/
theorem Poised.execute (hacc : a.Accepted) (h : Poised a l owner owners m callers f p)
    (before : Frame) {i : Instr} {r : Routine} (hin : m.InRange f r i)
    (hi : i.Leads a.facts f.function m.image.consts (a.chart f.function) before.pc p)
    (hbefore : f = { before with pc := before.pc + 1 }) :
    Executed.Keeps a (l.after a before (m.execute callers f i).1.frames i)
      (m.execute callers f i) := by
  have hfun : before.function = f.function := by rw [hbefore]
  have hpc : f.pc = before.pc + 1 := by rw [hbefore]
  cases i with
  | loadConst _ | loadLocal _ | loadGlobal _ | loadCapture _ =>
      exact h.execute_load before hin hi hpc rfl
  | storeLocal _ | storeGlobal _ =>
      exact h.execute_store before hin hi hpc hacc.coherent hfun rfl
  | getItem | unary _ | binary _ | cast _ => exact h.execute_operator before hi hpc rfl
  | jump _ | jumpIfFalse _ | jumpIfTrueOrPop _ | jumpIfFalseOrPop _ =>
      exact h.execute_jump before hi hpc rfl
  | pop =>
      cases hi with
      | pop hp =>
          obtain ⟨v, vs, hv, hrest, hs⟩ := List.forall₂_cons_right_iff.mp h.operands
          simp only [Machine.execute, hs]
          exact h.done_resume (hpc ▸ hp) hrest
  | copy =>
      cases hi with
      | copy hp =>
          obtain ⟨v, vs, hv, hrest, hs⟩ := List.forall₂_cons_right_iff.mp h.operands
          simp only [Machine.execute, hs]
          exact h.done_resume (hpc ▸ hp) (.cons hv (.cons hv hrest))
  | closure g =>
      cases hi with
      | closure hg hp => exact h.execute_closure hacc hin hg (hpc ▸ hp)
  | buildList count =>
      cases hi with
      | buildList hcount hall hp =>
          obtain ⟨items, vs, hpop, hitems, hrest⟩ := popMany?_of_forall₂ h.operands hcount
          simp only [Machine.execute, hpop]
          exact h.done_resume (hpc ▸ hp) (.cons (list_knows hitems hall) hrest)
  | setItem =>
      cases hi with
      | setItem hp => exact h.execute_setItem (hpc ▸ hp)
  | call count =>
      cases hi with
      | @call live rest _ callee args result hcount ht hp =>
          obtain ⟨items, _, hpop, hitems, hbelow⟩ := popMany?_of_forall₂ h.operands hcount
          obtain ⟨v, vs, hv, hrest, rfl⟩ := List.forall₂_cons_right_iff.mp hbelow
          have hpoised : Poised a l owner owners m callers { f with stack := vs } ⟨live, rest⟩ :=
            ⟨h.stocked, h.running, h.owners_eq, ⟨h.stands.keeps.moved, h.stands.callers⟩, hrest⟩
          simp only [Machine.execute, hpop]
          exact hpoised.call hacc (hpc ▸ hp) ht hv hitems hrest before count
  | ret =>
      cases hi with
      | ret =>
          obtain ⟨v, vs, hv, hrest, hs⟩ := List.forall₂_cons_right_iff.mp h.operands
          simp only [Machine.execute, hs]
          exact h.leave hv

end Execute

end Machine

end Parlance
