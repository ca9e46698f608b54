import Parlance.Proofs.Code.Twins
import Parlance.Proofs.Machine.Abreast
import Parlance.Proofs.Machine.Printing

/-!
# Detours do not show

A machine that runs code with detours does what a machine does that runs the short code. The first
one makes more steps: before it executes an instruction that both have, it makes the detours that
lead there, and where the short code stores, it copies, stores and drops.

## Main definitions

* `Machine.Twins`: two machines are at the same point of a run.
* `Machine.EndAlike`: two machines have ended alike.

## Main results

* `Machine.Twins.step`: one step of the short run is one or more of the run with detours.
* `Machine.Twins.run`: the induction over runs.
-/

namespace Parlance

/-! ### Places -/

/-- Offsets of a function belong together if only detours are between them. -/
def Image.places (image' : Image) (charts : Nat → Chart Nat) : Places := fun g pc pc' =>
  ∃ r', image'.routines[g]? = some r' ∧ (charts g).Meets r'.code pc pc'

/-- The charts of two images lead through their codes. -/
structure Image.Guided (charts : Nat → Chart Nat) (image image' : Image) : Prop where
  distinct : Generate.Distinct image.consts
  distinct' : Generate.Distinct image'.consts
  abreast : image.Abreast (image'.places charts) image'
  guides : ∀ (g : Nat) (r r' : Routine), image.routines[g]? = some r →
    image'.routines[g]? = some r' →
    (charts g).Guides image.consts image'.consts r.code r'.code
  verified : image.verify = .ok ()
  verified' : image'.verify = .ok ()

/-- Twins have charts: the twin of each routine is checked against a chart of its own, and the
charts of all the routines together guide the image. -/
theorem Image.Twins.exists_guided {image image' : Image} (h : image.Twins image')
    (hv : image.verify = .ok ()) (hv' : image'.verify = .ok ()) :
    ∃ charts, image.Guided charts image' := by
  have hlength : image'.routines.size = image.routines.size := by
    simpa using h.routines.length_eq.symm
  have hroutine : ∀ (g : Nat) (r r' : Routine), image.routines[g]? = some r →
      image'.routines[g]? = some r' → r.Twins image.consts image'.consts r' := by
    intro g r r' hr hr'
    obtain ⟨hlt, rfl⟩ := Array.getElem?_eq_some_iff.mp hr
    obtain ⟨hlt', rfl⟩ := Array.getElem?_eq_some_iff.mp hr'
    exact (List.forall₂_iff_get.mp h.routines).2 g hlt hlt'
  have hcharts : ∀ g : Nat, ∃ chart : Chart Nat, ∀ r r' : Routine, image.routines[g]? = some r →
      image'.routines[g]? = some r' →
      Chart.Guides image.consts image'.consts r.code r'.code chart := by
    intro g
    cases hr : image.routines[g]? with
    | none => exact ⟨fun _ => none, fun r r' hr => by cases hr⟩
    | some r =>
        cases hr' : image'.routines[g]? with
        | none => exact ⟨fun _ => none, fun r r' _ hr' => by cases hr'⟩
        | some r' =>
            obtain ⟨chart, hg⟩ := (hroutine g r r' hr hr').guides
            exact ⟨chart, fun s s' hs hs' => by cases hs; cases hs'; exact hg⟩
  choose charts hguides using hcharts
  refine ⟨charts, h.distinct, h.distinct', ⟨h.globals, fun g r hr => ?_, fun g hr => ?_⟩, hguides,
    hv, hv'⟩
  · have hlt := (Array.getElem?_eq_some_iff.mp hr).1
    obtain ⟨r', hr'⟩ : ∃ r', image'.routines[g]? = some r' :=
      ⟨_, Array.getElem?_eq_getElem (show g < image'.routines.size by omega)⟩
    have htwins := hroutine g r _ hr hr'
    exact ⟨_, hr', htwins.params, htwins.slots, htwins.captures, _, hr',
      (hguides g r _ hr hr').entry⟩
  · rw [Array.getElem?_eq_none_iff] at hr ⊢
    omega

/-- The identities that function values of two pools have because they are constants. -/
def Image.sharedTags (image image' : Image) : Identities := fun t u =>
  ∃ g, image.consts[t]? = some (.function g) ∧ image'.consts[u]? = some (.function g)

/-- Constants that occur once in each pool correspond one to one. -/
theorem Image.oneToOne_sharedTags {image image' : Image} (h : Generate.Distinct image.consts)
    (h' : Generate.Distinct image'.consts) : (image.sharedTags image').OneToOne := by
  rintro t u t' u' ⟨g, ht, hu⟩ ⟨g', ht', hu'⟩
  constructor
  · rintro rfl
    cases ht.symm.trans ht'
    exact h'.unique u u' _ hu hu'
  · rintro rfl
    cases hu.symm.trans hu'
    exact h.unique t t' _ ht ht'

namespace Machine

/-! ### Single steps -/

section Steps

variable {image : Image} {m : Machine} {f : Frame} {callers : List Frame} {r : Routine} {i : Instr}

/-- What an executed instruction leaves: a machine that goes on, or one that has failed. -/
inductive Executed.Leaves : Executed → Machine → Prop
  | done (n : Machine) : Executed.Leaves (done n) n
  | faulted (n : Machine) (k : Fault) (function pc : Nat) :
      Executed.Leaves (faulted k n) (n.fail k function pc)

/-- A machine without limits executes its next instruction. -/
theorem Free.leaves (h : m.Free) (hf : m.frames = f :: callers) (hi : m.fetch? f = some i) :
    (m.counted.execute callers { f with pc := f.pc + 1 } i).Leaves m.step := by
  have hb : m.budget.consume? = some m.budget := by
    rw [h.budget]
    rfl
  rw [step_of_fetch h.outcome hf h.cancelled hb hi, counted]
  generalize execute _ callers _ i = x
  rcases x with ⟨n, _ | k⟩
  · exact .done n
  · exact .faulted n k _ _

/-- A free machine whose instruction goes on makes this step. -/
theorem Free.step_of_done (h : m.Free) (hf : m.frames = f :: callers) (hi : m.fetch? f = some i)
    {n : Machine} (he : m.counted.execute callers { f with pc := f.pc + 1 } i = done n) :
    m.step = n := by
  have hleaves := h.leaves hf hi
  rw [he] at hleaves
  cases hleaves
  rfl

/-- A load pushes a value. -/
theorem execute_load (hr : m.InRange f r i) (hi : i.isLoad = true) :
    ∃ v, m.counted.execute callers { f with pc := f.pc + 1 } i =
      done (m.counted.resume callers { f with pc := f.pc + 1, stack := v :: f.stack }) := by
  cases i with
  | loadConst k =>
      have hlt : k < m.counted.consts.size := hr
      exact ⟨m.counted.consts[k], by simp only [execute, Array.getElem?_eq_getElem hlt]⟩
  | loadLocal slot =>
      have hlt : slot < f.slots.size := hr
      exact ⟨f.slots[slot], by simp only [execute, Array.getElem?_eq_getElem hlt]⟩
  | loadGlobal slot =>
      have hlt : slot < m.counted.globals.size := hr
      exact ⟨m.counted.globals[slot], by simp only [execute, Array.getElem?_eq_getElem hlt]⟩
  | loadCapture index =>
      have hlt : index < f.captures.length := hr
      exact ⟨f.captures[index], by simp only [execute, List.getElem?_eq_getElem hlt]⟩
  | _ => cases hi

/-- The next instruction of a running machine. -/
theorem Sound.fetch (hs : m.Sound image) (hr : image.routines[f.function]? = some r)
    (hi : r.code[f.pc]? = some i) : m.fetch? f = some i := by
  rw [fetch?, hs.pools.image_eq, hr]
  exact hi

/-- What the running frame loads is there. -/
theorem Sound.inRange (hs : m.Sound image) (hv : image.verify = .ok ()) (h : m.Free)
    (hf : m.frames = f :: callers) (hr : image.routines[f.function]? = some r)
    (hi : r.code[f.pc]? = some i) : m.InRange f r i := by
  obtain ⟨r', hr', -⟩ | ⟨-, e, he, -⟩ := hs.top f (by rw [hf]; rfl)
  · obtain rfl := Option.some.inj (hr.symm.trans hr'.routine)
    exact hs.pools.inRange hr' (((Image.verify_eq_ok_iff.mp hv).2.2 _ r hr).refers f.pc i hi)
  · rw [h.outcome] at he
    cases he

/-- A run stays sound. -/
theorem Sound.run (hs : m.Sound image) (hv : image.verify = .ok ()) (n : Nat) :
    (m.run n).Sound image := by
  induction n generalizing m with
  | zero => exact hs
  | succ n ih => exact ih (hs.step hv)

/-- **Detours.** A machine makes each detour in two steps, and nothing changes but the place and the
count. The induction is on the detours. -/
theorem run_detours (hv : image.verify = .ok ()) {pc q : Nat} (hd : Detours r.code pc q) :
    ∀ {m : Machine} {f : Frame}, f.pc = pc → image.routines[f.function]? = some r → m.Sound image →
      m.Free → m.frames = f :: callers →
      ∃ k, m.run k = { m with frames := { f with pc := q } :: callers, steps := m.steps + k } := by
  induction hd with
  | refl pc =>
      intro m f hpc hr hs h hf
      refine ⟨0, ?_⟩
      subst hpc
      rw [run, ← hf]
      rfl
  | @load pc q i hi hl hp hd ih =>
      intro m f hpc hr hs h hf
      subst hpc
      obtain ⟨v, hload⟩ := execute_load (hs.inRange hv h hf hr hi) hl
      have hstep := h.step_of_done hf (hs.fetch hr hi) hload
      have hs' : m.step.Sound image := hs.step hv
      have hfree : m.step.Free := by
        rw [hstep]
        exact ⟨h.budget, h.cancelled, h.outcome⟩
      have hf' : m.step.frames = { f with pc := f.pc + 1, stack := v :: f.stack } :: callers := by
        rw [hstep]
        rfl
      have hstep' := hfree.step_of_done hf' (hs'.fetch hr hp) rfl
      have hf'' : m.step.step.frames = { f with pc := f.pc + 2 } :: callers := by
        rw [hstep']
        rfl
      have hfree' : m.step.step.Free := by
        rw [hstep']
        exact ⟨hfree.budget, hfree.cancelled, hfree.outcome⟩
      obtain ⟨k, hk⟩ := ih (f := { f with pc := f.pc + 2 }) rfl hr (hs'.step hv) hfree' hf''
      refine ⟨k + 2, ?_⟩
      rw [run, run, hk, hstep', hstep, show m.steps + (k + 2) = m.steps + 1 + 1 + k by omega]
      rfl

/-- Neither a copy nor a store finds its operand on an empty stack. -/
theorem execute_underflow (hs : f.stack = []) (hi : i.isStore = true ∨ i = .copy) :
    m.execute callers f i = faulted .stackUnderflow (m.resume callers f) := by
  obtain ⟨function, captures, pc, slots, stack⟩ := f
  cases hs
  cases i <;> first | rfl | simp [Instr.isStore] at hi

/-- **Stores.** Copying, storing and dropping comes to storing. -/
theorem run_store (h : m.Free) (hf : m.frames = f :: callers)
    (hr : m.image.routines[f.function]? = some r) {v : Value} {stack : List Value}
    (hstack : f.stack = v :: stack) (hi : i.isStore = true)
    (hcopy : r.code[f.pc]? = some .copy) (hstore : r.code[f.pc + 1]? = some i)
    (hpop : r.code[f.pc + 2]? = some .pop) :
    ∃ n, execute { m with steps := m.steps + 3 } callers { f with pc := f.pc + 3 } i = done n ∧
      m.run 3 = n := by
  obtain ⟨function, captures, pc, slots, operands⟩ := f
  dsimp only at hstack hcopy hstore hpop hr
  subst hstack
  cases i with
  | storeLocal slot | storeGlobal slot =>
      refine ⟨_, rfl, ?_⟩
      simp only [run, step, h.outcome, hf, h.cancelled, h.budget, Budget.consume?, fetch?, hr,
        Option.bind_some, hcopy, hstore, hpop, execute, done, resume, Bool.false_eq_true, if_false]
  | _ => cases hi

end Steps

/-! ### Runs -/

/-- **At the same point.** Two machines are side by side, at places between which only detours
are. -/
structure Twins (charts : Nat → Chart Nat) (image image' : Image) (m m' : Machine) : Prop where
  beside : ∃ φ, m.Beside image image' φ m' ∧
    List.Forall₂ (Frame.Beside (image'.places charts) φ) m.frames m'.frames
  sound : m.Sound image
  sound' : m'.Sound image'

/-- Two machines have ended alike, the first one after no more steps. -/
structure EndAlike (m m' : Machine) : Prop where
  steps : m.steps ≤ m'.steps
  output : m'.output = m.output
  outcome : (∃ v v', m.outcome = some (.ok v) ∧ m'.outcome = some (.ok v') ∧ v.Alike v') ∨
    ∃ e e', m.outcome = some (.error e) ∧ m'.outcome = some (.error e') ∧ e.fault = e'.fault

section Runs

variable {charts : Nat → Chart Nat} {image image' : Image} {m m' : Machine}
  {f f' : Frame} {callers callers' : List Frame} {i i' : Instr}

/-- After an instruction that did the same, both go on side by side or have ended. -/
theorem Executed.Beside.leaves {P : Places} {x x' : Executed}
    (h : Executed.Beside image image' P x x') (hx : x.Leaves m) (hx' : x'.Leaves m') :
    (∃ φ, m.Beside image image' φ m' ∧ List.Forall₂ (Frame.Beside P φ) m.frames m'.frames) ∨
      m.EndAlike m' := by
  cases h with
  | goes hb hframes =>
      cases hx
      cases hx'
      exact .inl ⟨_, hb, hframes⟩
  | finishes hv hv' halike ho hs =>
      cases hx
      cases hx'
      exact .inr ⟨hs, ho, .inl ⟨_, _, hv, hv', halike⟩⟩
  | fails ho hs =>
      cases hx
      cases hx'
      exact .inr ⟨hs, ho, .inr ⟨_, _, rfl, rfl, rfl⟩⟩

/-- Counting steps does not move machines apart. -/
theorem Beside.counted {φ : Identities} (h : m.Beside image image' φ m') {frames' : List Frame}
    {more : Nat} (hle : 0 < more) :
    m.counted.Beside image image' φ { m' with frames := frames', steps := m'.steps + more } := by
  have hsteps := h.steps
  refine ⟨h.image_eq, h.image_eq', h.constants, h.inputs, h.maxDepth, h.globals, h.output,
    ⟨h.free.budget, h.free.cancelled, h.free.outcome⟩,
    ⟨h.free'.budget, h.free'.cancelled, h.free'.outcome⟩, h.oneToOne, h.below, ?_⟩
  change m.steps + 1 ≤ m'.steps + more
  omega

/-- **One step.** For one step of the short run, the run with detours makes one or more. First it
makes its detours, and then the instruction that is a twin of the other. -/
theorem Twins.step (hg : image.Guided charts image') (h : m.Twins charts image image' m') :
    ∃ k, 0 < k ∧ (m.step.Twins charts image image' (m'.run k) ∨ m.step.EndAlike (m'.run k)) := by
  obtain ⟨⟨φ, hb, hframes⟩, hs, hs'⟩ := h
  obtain ⟨f, callers, r, i, hf, hr, hi, -⟩ := (hs.safe hg.verified).next hb.free.outcome
  rw [hb.image_eq] at hr
  rw [hf] at hframes
  obtain ⟨f', callers', hbeside, hcallers, hf'⟩ := List.forall₂_cons_left_iff.mp hframes
  obtain ⟨r', hr', q, hq, hd⟩ := hbeside.place
  have hr'' : image'.routines[f'.function]? = some r' := by rwa [hbeside.function]
  -- First the detours, and then what both do.
  obtain ⟨k, hk⟩ := run_detours hg.verified' hd rfl hr'' hs' hb.free' hf'
  have hfree : (m'.run k).Free := by
    rw [hk]
    exact ⟨hb.free'.budget, hb.free'.cancelled, hb.free'.outcome⟩
  have hf'' : (m'.run k).frames = { f' with pc := q } :: callers' := by rw [hk]
  have hrun := hs'.run hg.verified' k
  -- It is enough to find what the second machine has executed some steps later.
  have hends : ∀ {j : Nat} {x' : Executed}, 0 < j →
      Executed.Beside image image' (image'.places charts)
        (m.counted.execute callers { f with pc := f.pc + 1 } i) x' → x'.Leaves (m'.run (k + j)) →
      ∃ k, 0 < k ∧ (m.step.Twins charts image image' (m'.run k) ∨ m.step.EndAlike (m'.run k)) :=
    fun hj hexec hx' => ⟨_, Nat.lt_of_lt_of_le hj (Nat.le_add_left _ k),
      (hexec.leaves (hb.free.leaves hf (hs.fetch hr hi)) hx').imp_left fun hbeside =>
        ⟨hbeside, hs.step hg.verified, hs'.run hg.verified' _⟩⟩
  have hstep : ∀ {i' : Instr}, r'.code[q]? = some i' →
      ((m'.run k).counted.execute callers' { f' with pc := q + 1 } i').Leaves (m'.run (k + 1)) := by
    intro i' hi'
    rw [run_add]
    exact hfree.leaves hf'' (hrun.fetch hr'' hi')
  rcases (hg.guides f.function r r' hr hr').leads f.pc i q hi hq with
    ⟨i', hi', htwin, hnext⟩ | ⟨hstore, hcopy, hi', hpop, hnext⟩
  · refine hends Nat.one_pos ?_ (hstep hi')
    rw [hk]
    exact (hb.counted (Nat.succ_pos k)).execute hg.abreast hcallers (hbeside.moved _ _)
      (htwin.mono fun t t' ht => ⟨r', hr', ht⟩) fun hfinal => ⟨r', hr', hnext hfinal⟩
  · rcases hstack' : f'.stack with _ | ⟨v', stack'⟩
    · -- Both miss an operand, one for the store and one for the copy.
      have hstack : f.stack = [] := by
        have := hbeside.stack.length_eq
        rw [hstack'] at this
        exact List.eq_nil_of_length_eq_zero this
      refine hends Nat.one_pos ?_ (hstep hcopy)
      rw [execute_underflow (f := { f with pc := f.pc + 1 }) hstack (.inl hstore),
        execute_underflow (f := { f' with pc := q + 1 }) hstack' (.inr rfl), hk]
      exact (hb.counted (Nat.succ_pos k)).fails
    · have himage : (m'.run k).image = image' := hrun.pools.image_eq
      obtain ⟨n, hexec, hn⟩ := run_store hfree hf'' (himage ▸ hr'') hstack' hstore hcopy hi' hpop
      refine hends (show 0 < 3 by decide) ?_ (by rw [run_add, hn]; exact .done n)
      rw [← hexec, hk]
      exact (hb.counted (show 0 < k + 3 by omega)).execute hg.abreast hcallers
        (hbeside.moved _ _) (Instr.twin_self (Instr.isOwnTwin_of_isStore hstore))
        fun _ => ⟨r', hr', hnext⟩

/-- Machines that have ended alike stay so. -/
theorem EndAlike.step (h : m.EndAlike m') : m.step = m ∧ m'.step = m' := by
  obtain ⟨v, v', hv, hv', -⟩ | ⟨e, e', he, he', -⟩ := h.outcome
  · exact ⟨step_of_outcome hv, step_of_outcome hv'⟩
  · exact ⟨step_of_outcome he, step_of_outcome he'⟩

/-- **Runs.** However many steps the short run makes, the run with detours comes to the same point
after at least as many. -/
theorem Twins.run (hg : image.Guided charts image') (h : m.Twins charts image image' m') (n : Nat) :
    ∃ n', n ≤ n' ∧
      ((m.run n).Twins charts image image' (m'.run n') ∨ (m.run n).EndAlike (m'.run n')) := by
  induction n with
  | zero => exact ⟨0, Nat.le_refl 0, .inl h⟩
  | succ n ih =>
      obtain ⟨n', hle, hn | hn⟩ := ih
      · obtain ⟨k, hk, hstep⟩ := hn.step hg
        refine ⟨n' + k, by omega, ?_⟩
        rw [run_add, run_add]
        exact hstep
      · refine ⟨n' + 1, by omega, .inr ?_⟩
        rw [run_add, run_add, Machine.run, Machine.run, Machine.run, Machine.run, hn.step.1,
          hn.step.2]
        exact hn

/-- A run that has ended has ended alike with detours. -/
theorem Twins.ends (hg : image.Guided charts image') (h : m.Twins charts image image' m') {n : Nat}
    {o : Outcome} (ho : (m.run n).outcome = some o) : ∃ n', (m.run n).EndAlike (m'.run n') := by
  obtain ⟨n', -, ⟨⟨φ, hb, -⟩, -, -⟩ | hn⟩ := h.run hg n
  · rw [hb.free.outcome] at ho
    cases ho
  · exact ⟨n', hn⟩

/-- A run that never ends goes on side by side with the one that makes detours. -/
theorem Twins.goes (hg : image.Guided charts image') (h : m.Twins charts image image' m')
    (hnever : ∀ n, (m.run n).outcome = none) (n : Nat) :
    ∃ n', n ≤ n' ∧ (m'.run n').outcome = none ∧ (m'.run n').output = (m.run n).output := by
  obtain ⟨n', hle, ⟨⟨φ, hb, -⟩, -, -⟩ | hn⟩ := h.run hg n
  · exact ⟨n', hle, hb.free'.outcome, hb.output⟩
  · obtain ⟨v, -, hv, -⟩ | ⟨e, -, he, -⟩ := hn.outcome
    · rw [hnever] at hv
      cases hv
    · rw [hnever] at he
      cases he

/-- **Detours do not show.** The two runs end alike or never end, and print the same. By induction
on the steps, each of which the other run makes after its detours. -/
theorem Twins.runsLike (hg : image.Guided charts image') (h : m.Twins charts image image' m') :
    m.RunsLike m' := by
  by_cases hends : ∃ n o, (m.run n).outcome = some o
  · obtain ⟨n, o, ho⟩ := hends
    obtain ⟨n', hn⟩ := h.ends hg ho
    obtain ⟨v, v', hv, hv', halike⟩ | ⟨e, e', he, he', hfault⟩ := hn.outcome
    · exact .finish hv hv' halike hn.output.symm
    · exact .fault he he' hfault hn.output.symm
  · have hnever : ∀ n, (m.run n).outcome = none := by
      intro n
      by_contra hn
      exact hends ⟨n, Option.ne_none_iff_exists'.mp hn⟩
    have hgoes := h.goes hg hnever
    refine .never hnever (fun n => ?_) fun text => ⟨?_, ?_⟩
    · obtain ⟨n', hle, ho, -⟩ := hgoes n
      exact outcome_of_le hle ho
    · refine prints_of_outputs fun n => ?_
      obtain ⟨n', -, -, ho⟩ := hgoes n
      exact ⟨n, n', Nat.le_refl n, ho.symm⟩
    · refine prints_of_outputs fun n => ?_
      obtain ⟨n', hle, -, ho⟩ := hgoes n
      exact ⟨n', n, hle, ho⟩

/-- **Detours take steps.** A run that ends takes no more steps than the one with detours. -/
theorem Twins.steps_le (hg : image.Guided charts image') (h : m.Twins charts image image' m')
    {n n' : Nat} {o o' : Outcome} (ho : (m.run n).outcome = some o)
    (ho' : (m'.run n').outcome = some o') : (m.run n).steps ≤ (m'.run n').steps := by
  obtain ⟨k, hk⟩ := h.ends hg ho
  have hend : ∃ o'', (m'.run k).outcome = some o'' := by
    obtain ⟨v, v', -, hv', -⟩ | ⟨e, e', -, he', -⟩ := hk.outcome
    · exact ⟨_, hv'⟩
    · exact ⟨_, he'⟩
  obtain ⟨o'', ho''⟩ := hend
  rw [run_eq_run ho' ho'']
  exact hk.steps

/-- **Starts.** Both machines start at the same point. The constants are made in the order of each
pool, so their identities belong together where the constants do. -/
theorem twins_start (hg : image.Guided charts image') {o : RunOptions} (hmax : o.maxSteps = none)
    (hs : start image o = .ok m) (hs' : start image' o = .ok m') :
    m.Twins charts image image' m' := by
  refine ⟨⟨image.sharedTags image', ?_⟩, sound_start hs, sound_start hs'⟩
  obtain ⟨-, entry, frame, hentry, hframe, rfl⟩ := start_eq_ok hs
  obtain ⟨-, entry', frame', hentry', hframe', rfl⟩ := start_eq_ok hs'
  obtain ⟨r', hr', hparams, hslots, -, hplace⟩ := hg.abreast.routine 0 entry hentry
  obtain rfl := Option.some.inj (hentry'.symm.trans hr')
  refine ⟨⟨rfl, rfl, fun k k' c hk hk' => ?_, rfl, rfl, ?_, rfl, ⟨by simp only [initial, hmax], rfl,
    rfl⟩, ⟨by simp only [initial, hmax], rfl, rfl⟩,
    Image.oneToOne_sharedTags hg.distinct hg.distinct', ?_, Nat.le_refl _⟩, .cons ?_ .nil⟩
  · refine ⟨c.toValue k, c.toValue k', by simp [initial, hk], by simp [initial, hk'], ?_⟩
    cases c with
    | function g => exact Value.function_matches_function.mpr ⟨⟨g, hk, hk'⟩, rfl, .nil⟩
    | _ => simp [Const.toValue]
  · simp only [initial, hg.abreast.globals]
    exact List.forall₂_same.mpr fun v hv => by
      rw [Array.toList_replicate] at hv
      rw [List.eq_of_mem_replicate hv]
      simp
  · rintro t u ⟨g, ht, hu⟩
    exact ⟨(Array.getElem?_eq_some_iff.mp ht).1, (Array.getElem?_eq_some_iff.mp hu).1⟩
  · obtain ⟨k, he, -⟩ | ⟨f, f', he, he', hbeside⟩ := Beside.enter_beside
      (φ := image.sharedTags image') hparams hslots hplace .nil .nil
    · rw [he] at hframe
      cases hframe
    · cases he.symm.trans hframe
      cases he'.symm.trans hframe'
      exact hbeside

end Runs

end Machine

end Parlance
