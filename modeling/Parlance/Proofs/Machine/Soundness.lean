import Mathlib
import Parlance.Proofs.Code.Correctness
import Parlance.Proofs.Code.Loads
import Parlance.Proofs.Machine.Typing

/-!
# Runs of accepted programs

A run of an accepted program that was compiled without optimizing has values of the right types,
as long as it does not load a global that was never stored. What it loads from a frame was
stored there for the same variable, and so was every global that the program itself loads. A
function may be called before the global it loads is stored, since functions are declared
before the statements around them are executed.

## Main results

* `Machine.Kept.step`, `Machine.Recorded.kept`: steps and runs keep the invariant.
* `CompileOptions.run_typed`: runs are typed.
* `CompileOptions.loads_stored`: what a run loads was stored, for the symbol that the identifier
  resolves to.
-/

namespace Parlance

namespace Machine

/-! ### Runs -/

section Runs

variable {a : Analyzed} {image : Image} {l : Ledger} {m start : Machine}

/-- Ending a run before an instruction. -/
theorem Kept.fail (h : m.Kept a l) (ho : m.outcome = none) {fault : Fault} {function pc : Nat}
    (hf : fault.isTypeFault = false) : (m.fail fault function pc).Kept a l := by
  obtain ⟨f, callers, owner, owners, p, hfs, hl, -, hs, -⟩ := h.running ho
  refine ⟨h.toStocked.transfer (.refl l) rfl rfl rfl rfl, ?_, ?_, ?_⟩
  · rintro ⟨⟩
  · rintro e ⟨⟩
    exact ⟨fun _ => hf, f, callers, owner, owners, hfs, hl,
      hs.keeps.mono (.refl l) (List.nil_subset _), hs.callers⟩
  · rintro v ⟨⟩

/-- **One step.** A step keeps the invariant, with the ledger that it leaves. A machine that is
stopped before its instruction writes nothing into the ledger. -/
theorem Kept.step (hacc : a.Accepted) (hs : m.Safe) (h : m.Kept a l) :
    m.step.Kept a (l.next a m) := by
  cases ho : m.outcome with
  | some o =>
      rw [step_of_outcome ho, Ledger.next, due?_of_outcome ho]
      exact h
  | none =>
      obtain ⟨f, callers, r, i, hfs, hr, hi, hin⟩ := hs.next ho
      have hfetch : m.fetch? f = some i := by rw [fetch?, hr, Option.bind_some, hi]
      obtain ⟨f', callers', owner, owners, p, hfs', hl, hp, hstands, hv⟩ := h.running ho
      cases hfs.symm.trans hfs'
      have hpoised (budget : Budget) : Poised a l owner owners
          { m with budget, steps := m.steps + 1 } callers { f with pc := f.pc + 1 } p :=
        ⟨h.toStocked.transfer (.refl l) rfl rfl rfl rfl, ho, hl,
          ⟨hstands.keeps.moved, hstands.callers⟩, hv⟩
      have hexec (budget : Budget) := (hpoised budget).execute hacc f (r := r)
        (by cases i <;> exact hin) ((h.assembled.checked hacc hr).leads f.pc i p hi hp) rfl
      have hway := step_way ho hfs
      generalize hn : m.step = n at hway ⊢
      cases hway with
      | cancelled hc =>
          rw [Ledger.next, due?_of_cancelled hc]
          exact h.fail ho rfl
      | exhausted _ hb =>
          rw [Ledger.next, due?_of_budget hb]
          exact h.fail ho rfl
      | missing _ _ hnone => cases hfetch.symm.trans hnone
      | @executed budget _ _ hc hb hsome hx =>
          cases hfetch.symm.trans hsome
          have hkeeps := hexec budget
          rw [hx] at hkeeps
          rw [Ledger.next, due?_of_fetch ho hc hb hfs hfetch, hn]
          exact hkeeps
      | @faulted budget _ _ _ hc hb hsome hx =>
          cases hfetch.symm.trans hsome
          have hkeeps := hexec budget
          rw [hx] at hkeeps
          rw [Ledger.next, due?_of_fetch ho hc hb hfs hfetch, hn]
          exact hkeeps _ _

/-- The invariant holds at the start. The frame of the program is entered without arguments, and no
slot is stored yet. -/
theorem kept_start (hacc : a.Accepted) (hg : image.Assembled a) {o : RunOptions}
    (h : Machine.start image o = .ok start) : start.Kept a (.start a) := by
  obtain ⟨-, entry, frame, he, hf, rfl⟩ := start_eq_ok h
  obtain ⟨q, hq, hqs, hqlive⟩ := (hg.checked hacc he).entry
  have hargs : List.Forall₂ (Value.HasTy a.facts) []
      ((a.facts.info 0).params.map fun y => (a.facts.symbol y).ty) := by
    rw [hacc.params]
    exact .nil
  have hcaptures : List.Forall₂ (Value.HasTy a.facts) [] (a.facts.captureTys 0) := by
    rw [Facts.captureTys, hacc.captures]
    exact .nil
  obtain ⟨hkeeps, hfun, hpc, hstack⟩ := @keeps_enter a (.start a) image hg hacc 0 entry he [] []
    frame hf (fun _ => hargs) fun _ => hcaptures
  have hstocked : (initial image o frame).Stocked a (.start a) := by
    refine ⟨hg, fun i c hc => ⟨i, ?_⟩, fun _ y _ k _ hk => by cases hk⟩
    have hi : image.consts[i]? = some c := hc
    rw [initial, Array.getElem?_mapIdx, hi, Option.map_some]
  have hchart : a.chart frame.function frame.pc = some q := by rw [hfun, hpc, hq]
  have hoperands : List.Forall₂ (Ledger.Knows a (.start a)) frame.stack q.stack := by
    rw [hstack, hqs]
    exact .nil
  refine hstocked.kept rfl rfl rfl hchart ⟨hkeeps.mono (.refl _) hqlive, ?_⟩ hoperands
  rw [hfun]
  exact fun _ => rfl

/-- **Runs.** Every state of a run keeps the invariant. -/
theorem Recorded.kept (hacc : a.Accepted) (hg : image.Assembled a) {o : RunOptions}
    (hs : Machine.start image o = .ok start) (h : Recorded a start l m) : m.Kept a l := by
  induction h with
  | start => exact kept_start hacc hg hs
  | step hr ih => exact ih.step hacc ((hr.reachable.sound hs).safe (start_eq_ok hs).1)
  | cancel _ ih =>
      exact ⟨ih.toStocked.transfer (.refl _) rfl rfl rfl rfl, ih.running, ih.faulted, ih.finished⟩

/-- **A typed state.** Every value in a slot has the type of the variable it was stored for. -/
structure Typed (a : Analyzed) (l : Ledger) (m : Machine) : Prop where
  /-- The slots of the frames, the running one first. -/
  slots : List.Forall₂ (fun f owner => ∀ k y, owner k = some y →
    ∃ v, f.slots[k]? = some v ∧ v.HasTy a.facts (a.facts.symbol y).ty) m.frames l.owners
  /-- The variables that are in scope where a frame stands were stored. -/
  visible : m.outcome = none → List.Forall₂ (fun f owner => ∃ p, a.chart f.function f.pc = some p ∧
    ∀ y ∈ p.live, (∀ k, (a.facts.symbol y).storage = .frame k → owner k = some y) ∧
      ∀ k, (a.facts.symbol y).storage = .global k → k ∈ l.stored) m.frames l.owners
  globals : ∀ y < a.facts.symbols.size, ∀ k, (a.facts.symbol y).storage = .global k →
    k ∈ l.stored → ∃ v, m.globals[k]? = some v ∧ v.HasTy a.facts (a.facts.symbol y).ty
  captures : ∀ f ∈ m.frames,
    List.Forall₂ (Value.HasTy a.facts) f.captures (a.facts.captureTys f.function)
  no_type_fault : ∀ e, m.outcome = some (.error e) → e.fault.isTypeFault = false
  result : ∀ v, m.outcome = some (.ok v) → v.HasTy a.facts (a.facts.info 0).returns

end Runs

end Machine

/-- What is known of all frames that wait holds of each. -/
theorem Frame.Wait.forall₂ {a : Analyzed} {l : Ledger} {t : Ty} {callers : List Frame}
    {owners : List (Nat → Option Nat)} (h : Frame.Wait a l t callers owners) :
    List.Forall₂ (fun f owner => ∃ p, a.chart f.function f.pc = some p ∧ f.Keeps a l owner p.live)
      callers owners := by
  induction callers generalizing t owners with
  | nil =>
      cases owners with
      | nil => exact .nil
      | cons owner owners => exact h.elim
  | cons f callers ih =>
      cases owners with
      | nil => exact h.elim
      | cons owner owners =>
          obtain ⟨p, result, rest, hp, -, -, hk, -, hw⟩ := h
          exact .cons ⟨p, hp, hk⟩ (ih hw)

namespace Machine

variable {a : Analyzed} {l : Ledger} {m : Machine}

/-- The variables of all frames, wherever they stand. -/
theorem Kept.keeps (h : m.Kept a l) :
    List.Forall₂ (fun f owner => f.Keeps a l owner []) m.frames l.owners := by
  have hforget : ∀ {f : Frame} {owner : Nat → Option Nat} {live : List Nat},
      f.Keeps a l owner live → f.Keeps a l owner [] :=
    fun hk => hk.mono (.refl l) (List.nil_subset _)
  have hall : ∀ {f : Frame} {callers : List Frame} {owner : Nat → Option Nat}
      {owners : List (Nat → Option Nat)} {live : List Nat},
      f.Stands a l owner owners callers live →
      List.Forall₂ (fun f owner => f.Keeps a l owner []) (f :: callers) (owner :: owners) :=
    fun hs => .cons (hforget hs.keeps)
      (hs.callers.forall₂.imp fun _ _ ⟨_, _, hk⟩ => hforget hk)
  cases ho : m.outcome with
  | none =>
      obtain ⟨f, callers, owner, owners, p, hfs, hl, -, hs, -⟩ := h.running ho
      rw [hfs, hl]
      exact hall hs
  | some outcome =>
      cases outcome with
      | error e =>
          obtain ⟨-, f, callers, owner, owners, hfs, hl, hs⟩ := h.faulted e ho
          rw [hfs, hl]
          exact hall hs
      | ok v =>
          obtain ⟨hfs, hl, -⟩ := h.finished v ho
          rw [hfs, hl]
          exact .nil

/-- While a run goes on, every frame stands at a point and has the variables of it. -/
theorem Kept.points (h : m.Kept a l) (ho : m.outcome = none) :
    List.Forall₂ (fun f owner => ∃ p, a.chart f.function f.pc = some p ∧ f.Keeps a l owner p.live)
      m.frames l.owners := by
  obtain ⟨f, callers, owner, owners, p, hfs, hl, hp, hs, -⟩ := h.running ho
  rw [hfs, hl]
  exact .cons ⟨p, hp, hs.keeps⟩ hs.callers.forall₂

/-- A global that is in scope where a frame stands was stored. -/
theorem Kept.stored_of_live (h : m.Kept a l) (ho : m.outcome = none) {f : Frame}
    (hf : f ∈ m.frames) {p : Point} (hp : a.chart f.function f.pc = some p) {y k : Nat}
    (hy : y ∈ p.live) (hk : (a.facts.symbol y).storage = .global k) : k ∈ l.stored := by
  have hpoints := h.points ho
  obtain ⟨n, hn, rfl⟩ := List.getElem_of_mem hf
  obtain ⟨q, hq, hkeeps⟩ := hpoints.get hn (hpoints.length_eq ▸ hn)
  cases hp.symm.trans hq
  exact hkeeps.stored y hy k hk

/-- In a run that was careful all values have their types. -/
theorem Kept.typed (h : m.Kept a l) (hc : l.careful = true) : m.Typed a l where
  slots := h.keeps.imp fun _ _ hk => hk.slots hc
  visible ho := (h.points ho).imp fun _ _ ⟨p, hp, hk⟩ =>
    ⟨p, hp, fun y hy => ⟨hk.owned y hy, hk.stored y hy⟩⟩
  globals := h.globals hc
  captures f hf := by
    obtain ⟨n, hn, rfl⟩ := List.getElem_of_mem hf
    exact (h.keeps.get hn (h.keeps.length_eq ▸ hn)).captures hc
  no_type_fault e he := (h.faulted e he).1 hc
  result v hv := (h.finished v hv).2.2 hc

end Machine

/-! ### Texts -/

namespace CompileOptions

variable {o : CompileOptions} {text : List Char} {a : Analyzed}

/-- The code of a text that is not optimized is that of the analyzed tree. -/
theorem prepare_of_analyze {r : RunOptions} {start : Machine} (ho : o.optimize = false)
    (ha : o.analyze text = .ok a) (hm : o.prepare r text = .ok start) :
    ∃ image, generate a = .ok image ∧ Machine.start image r = .ok start := by
  obtain ⟨a', image, ha', hg, hs⟩ := prepare_eq_ok hm
  simp only [optimized, ha, ho, bind, Except.bind, pure, Except.pure] at ha'
  cases ha'
  exact ⟨image, hg, hs⟩

/-- What is computed from the tree of a text and its machine. -/
theorem exists_of_toOption_eq_some {α : Type} {r : RunOptions}
    {g : Analyzed → Machine → α} {x : α}
    (h : ((o.analyze text).toOption.bind fun a =>
      (o.prepare r text).toOption.map fun start => g a start) = some x) :
    ∃ a start, o.analyze text = .ok a ∧ o.prepare r text = .ok start ∧ g a start = x := by
  cases ha : o.analyze text with
  | error e => simp [ha, Except.toOption] at h
  | ok a =>
      cases hm : o.prepare r text with
      | error e => simp [ha, hm, Except.toOption] at h
      | ok start =>
          simp only [ha, hm, Except.toOption, Option.bind_some, Option.map_some,
            Option.some.injEq] at h
          exact ⟨a, start, rfl, rfl, h⟩

/-- **Type soundness.** Take a text that analysis accepts and that is compiled without
optimizing, and any run of it. As long as no global was loaded that had never been stored,
every slot holds a value of the type of the variable it was stored for, and the variables in
scope were stored; the run has not failed because of a type or a number of arguments; and if it
has finished, the value has the result type of the program. -/
theorem run_typed {r : RunOptions} {start m : Machine} {l : Ledger} (ho : o.optimize = false)
    (ha : o.analyze text = .ok a) (hm : o.prepare r text = .ok start)
    (h : Machine.Recorded a start l m) (hc : l.careful = true) : m.Typed a l := by
  obtain ⟨image, hg, hs⟩ := prepare_of_analyze ho ha hm
  have hkept := h.kept (analyze_accepted ha).1 (Image.generated_of_generate hg).toAssembled hs
  exact hkept.typed hc

/-- A function that makes another one, which captures its parameter. -/
def makesClosure : List Char :=
  ("fn m(n: int) -> fn() -> int \x7b return fn() -> int \x7b return n; \x7d; \x7d " ++
    "let f = m(5); f()").toList

/-- What the run of `makesClosure` comes to: two loads that are due, and a careful run two frames
deep. -/
theorem record_makesClosure :
    ((analyze { optimize := false } makesClosure).toOption.bind fun a =>
      (prepare { optimize := false } {} makesClosure).toOption.map fun start =>
        (((Machine.record a 3 (.start a) start).2.due?.map Prod.snd,
          (Machine.record a 7 (.start a) start).2.due?.map fun x => (x.1.function, x.2)),
          (Machine.record a 9 (.start a) start).1.careful,
          (Machine.record a 9 (.start a) start).2.depth)) =
      some ((some (.loadLocal 0), some (0, .loadGlobal 0)), true, 2) := by
  rw [Grammar.standard_eq]
  decide +kernel

/-- In the call of the function that `makesClosure` makes, all values have their types. -/
theorem makesClosure_typed :
    ∃ a start l m, analyze { optimize := false } makesClosure = .ok a ∧
      prepare { optimize := false } {} makesClosure = .ok start ∧ Machine.Recorded a start l m ∧
      l.careful = true ∧ m.depth = 2 ∧ m.Typed a l := by
  obtain ⟨a, start, ha, hm, h⟩ := exists_of_toOption_eq_some record_makesClosure
  simp only [Prod.mk.injEq] at h
  obtain ⟨-, hcareful, hdepth⟩ := h
  have hr := Machine.Recorded.record (.start : Machine.Recorded a start _ _) 9
  exact ⟨a, start, _, _, ha, hm, hr, hcareful, hdepth, run_typed rfl ha hm hr hcareful⟩

/-! ### Loads -/

/-- **Loads.** Take a text that analysis accepts and that is compiled without optimizing, and any
run of it. Each load is for the symbol that the identifier at its place in the tree resolves to.

If the symbol has a slot in the running frame, it is the variable in scope that has the slot, and
the slot was stored for it. A global slot is that of one variable only. A load of it finds it
stored if it stands in the program itself, and in any function as long as the program stands where
the variable is in scope. -/
theorem loads_stored {r : RunOptions} {start m : Machine} {l : Ledger} (ho : o.optimize = false)
    (ha : o.analyze text = .ok a) (hm : o.prepare r text = .ok start)
    (h : Machine.Recorded a start l m) {f : Frame} {i : Instr} (hdue : m.due? = some (f, i)) :
    (∀ k, i = .loadLocal k → ∃ y owner owners, a.loadedAt f.function f.pc = some y ∧
      (a.facts.symbol y).storage = .frame k ∧ a.variableAt f.function f.pc k = some y ∧
      l.owners = owner :: owners ∧ owner k = some y) ∧
    ∀ k, i = .loadGlobal k → ∃ y < a.facts.symbols.size,
      a.loadedAt f.function f.pc = some y ∧ (a.facts.symbol y).storage = .global k ∧
      (∀ z < a.facts.symbols.size, (a.facts.symbol z).storage = .global k → z = y) ∧
      (f.function = 0 → k ∈ l.stored) ∧
      ∀ g ∈ m.frames, ∀ p, a.chart g.function g.pc = some p → y ∈ p.live → k ∈ l.stored := by
  obtain ⟨image, hg, hs⟩ := prepare_of_analyze ho ha hm
  have hacc := (analyze_accepted ha).1
  have hkept := h.kept hacc (Image.generated_of_generate hg).toAssembled hs
  obtain ⟨hrun, -, -, ⟨callers, hfs⟩, hfetch⟩ := Machine.due?_eq_some hdue
  obtain ⟨f', callers', owner, owners, p, hfs', hl, hp, hstands, -⟩ := hkept.running hrun
  cases hfs.symm.trans hfs'
  obtain ⟨routine, hr, hi⟩ := Option.bind_eq_some_iff.mp hfetch
  have hloads := hkept.assembled.loads hr hi
  have hsees := hacc.sees hp p rfl
  have hleads := (hkept.assembled.checked hacc hr).leads f.pc i p hi hp
  constructor
  · rintro k rfl
    obtain ⟨y, hy, hown, hstorage⟩ := hloads
    -- The symbol is one of the running function, so to be there means to be in scope.
    have hhas := (hsees y hy).2 k hstorage
    rw [Facts.Has, if_pos hown] at hhas
    have howner := hstands.keeps.owned y hhas k hstorage
    refine ⟨y, owner, owners, hy, hstorage, ?_, hl, howner⟩
    rw [Analyzed.variableAt, hp, Option.bind_some]
    cases hfind : p.live.find? fun z => (a.facts.symbol z).storage = .frame k with
    | none => exact absurd hstorage (by simpa using List.find?_eq_none.mp hfind y hhas)
    | some z =>
        have hz := hstands.keeps.owned z (List.mem_of_find?_eq_some hfind) k
          (by simpa using List.find?_some hfind)
        rw [← hz, howner]
  · rintro k rfl
    obtain ⟨z, hz, hzs⟩ := hloads
    cases hleads with
    | @loadGlobal live stack y _ hlt hstorage hlive _ =>
        have hunique : ∀ z < a.facts.symbols.size, (a.facts.symbol z).storage = .global k → z = y :=
          fun z hz hzs => hacc.coherent.global_inj z hz y hlt k hzs hstorage
        refine ⟨y, hlt, ?_, hstorage, hunique, fun hmain => ?_, fun g hg q hq hy => ?_⟩
        · rw [hz, hunique z (hsees z hz).1 hzs]
        · exact hstands.keeps.stored y (hlive hmain) k hstorage
        · exact hkept.stored_of_live hrun hg hq hy hstorage

/-- In the run of `makesClosure` the parameter of a function is loaded, and later the program
loads a global. -/
theorem makesClosure_loads_stored :
    ∃ a start, analyze { optimize := false } makesClosure = .ok a ∧
      prepare { optimize := false } {} makesClosure = .ok start ∧
      (∃ l m f, Machine.Recorded a start l m ∧ m.due? = some (f, .loadLocal 0) ∧
        ∃ y owner owners, a.loadedAt f.function f.pc = some y ∧
          (a.facts.symbol y).storage = .frame 0 ∧ a.variableAt f.function f.pc 0 = some y ∧
          l.owners = owner :: owners ∧ owner 0 = some y) ∧
      ∃ l m f, Machine.Recorded a start l m ∧ m.due? = some (f, .loadGlobal 0) ∧
        f.function = 0 ∧ 0 ∈ l.stored := by
  obtain ⟨a, start, ha, hm, h⟩ := exists_of_toOption_eq_some record_makesClosure
  simp only [Prod.mk.injEq, Option.map_eq_some_iff] at h
  obtain ⟨⟨⟨⟨f, i⟩, hf, rfl⟩, ⟨g, j⟩, hg, hmain, rfl⟩, -⟩ := h
  have hrecord := Machine.Recorded.record (.start : Machine.Recorded a start _ _)
  refine ⟨a, start, ha, hm, ⟨_, _, f, hrecord 3, hf, ?_⟩, _, _, g, hrecord 7, hg, hmain, ?_⟩
  · exact (loads_stored rfl ha hm (hrecord 3) hf).1 0 rfl
  · obtain ⟨y, -, -, -, -, hstored, -⟩ := (loads_stored rfl ha hm (hrecord 7) hg).2 0 rfl
    exact hstored hmain

/-- A function that is called before the global it loads is stored. -/
def callsEarly : List Char :=
  "f(); let x = 1; fn f() -> int \x7b return x; \x7d".toList

/-- What the run of `callsEarly` comes to: a load of a global is due, and nothing was stored. -/
theorem record_callsEarly :
    ((analyze { optimize := false } callsEarly).toOption.bind fun a =>
      (prepare { optimize := false } {} callsEarly).toOption.map fun start =>
        ((Machine.record a 2 (.start a) start).2.due?.map Prod.snd,
          (Machine.record a 2 (.start a) start).1.stored)) =
      some (some (.loadGlobal 0), []) := by
  rw [Grammar.standard_eq]
  decide +kernel

/-- Not every global that is loaded was stored: a function may be called before the declaration
of a variable that it loads is executed. -/
theorem callsEarly_loads_unstored :
    ∃ a start l m f k, analyze { optimize := false } callsEarly = .ok a ∧
      prepare { optimize := false } {} callsEarly = .ok start ∧ Machine.Recorded a start l m ∧
      m.due? = some (f, .loadGlobal k) ∧ k ∉ l.stored := by
  obtain ⟨a, start, ha, hm, h⟩ := exists_of_toOption_eq_some record_callsEarly
  simp only [Prod.mk.injEq, Option.map_eq_some_iff] at h
  obtain ⟨⟨⟨f, i⟩, hf, rfl⟩, hstored⟩ := h
  have hr := Machine.Recorded.record (.start : Machine.Recorded a start _ _) 2
  refine ⟨a, start, _, _, f, 0, ha, hm, hr, hf, ?_⟩
  rw [hstored]
  exact List.not_mem_nil

end CompileOptions

end Parlance
