import Parlance.Proofs.Machine.Heights
import Parlance.Proofs.Machine.Sessions

/-!
# Inside an activation

While an activation evaluates an expression, it may call functions, and these call others; all
of this happens above the frames of its callers and above the operands that it had before. So
when the activation stands at the end of the code of the expression, it has its operands from
before and one value more, whatever has run in between.

## Main definitions

* `Frame.Continues`: the frames after an instruction that did not fail.
* `Routine.Passage`: code that an activation enters at its start and leaves at its end.
* `Frame.Inside`: an activation in a passage, or in calls made there.
* `Machine.Arrives`: a run comes to an offset of an activation for the first time.

## Main results

* `Fragment.Pushes.passage`: code that pushes values is a passage.
* `Frame.Inside.advance`, `Frame.Inside.await`: an instruction keeps an activation inside.
* `Machine.inside_run`: so does a run, until it arrives.
* `Machine.Arrives.operands`: the operands at the end of a passage.
* `Machine.Arrives.split`: a run through two passages comes to the end of the first one.
* `Machine.Arrives.pushed`: a run through the code of two expressions evaluates both.
-/

namespace Parlance

/-! ### Instructions -/

/-- The frames after an instruction that did not fail: some operands are in the place of those
that it took, at the next instruction or at its target; or a call is made, and its frame waits
for a result; or the caller has the result. -/
inductive Frame.Continues (captures : Nat → Nat) (f : Frame) (callers : List Frame) (i : Instr) :
    List Frame → Prop
  | next {stack : List Value} {slots : Array Value} (hi : i.isFinal = false)
      (hle : i.pushes ≤ stack.length)
      (hrest : stack.drop i.pushes = f.stack.drop (i.pops captures)) :
      f.Continues captures callers i ({ f with slots, stack } :: callers)
  | jump {stack : List Value} {t : Nat} (ht : i.target? = some t) (hle : i.keeps ≤ stack.length)
      (hrest : stack.drop i.keeps = f.stack.drop (i.pops captures)) :
      f.Continues captures callers i ({ f with pc := t, stack } :: callers)
  | call {count : Nat} {stack : List Value} {entered : Frame} (hi : i = .call count)
      (hrest : stack = f.stack.drop (count + 1)) :
      f.Continues captures callers i (entered :: { f with stack } :: callers)
  | ret {v : Value} {g : Frame} {rest : List Frame} (hi : i = .ret)
      (hcallers : callers = g :: rest) :
      f.Continues captures callers i ({ g with stack := v :: g.stack } :: rest)

namespace Machine

variable {m : Machine} {f g : Frame} {callers : List Frame} {i : Instr}

/-- If an instruction did not fail and the run goes on, its frames continue those before. -/
def Executed.Continues (f : Frame) (callers : List Frame) (i : Instr) (m : Machine)
    (x : Executed) : Prop :=
  x.2 = none → x.1.outcome = none →
    f.Continues m.image.captureCount callers i x.1.frames

/-- A fault leaves nothing to say. -/
theorem continues_faulted {n : Machine} {fault : Fault} :
    Executed.Continues f callers i m (faulted fault n) :=
  nofun

/-- An instruction that goes on with such frames continues them. -/
theorem continues_done {n : Machine}
    (h : f.Continues m.image.captureCount callers i n.frames) :
    Executed.Continues f callers i m (done n) :=
  fun _ _ => h

/-- An instruction goes on with one value in the place of its operands. -/
theorem continues_pushResult {stack : List Value} {result : Except Fault Value}
    (hi : i.isFinal = false) (hp : i.pushes = 1)
    (hs : stack = f.stack.drop (i.pops m.image.captureCount)) :
    Executed.Continues f callers i m (m.pushResult callers f stack result) := by
  cases result with
  | ok v => exact continues_done (.next hi (by simp [hp]) (by simp [hp, hs]))
  | error fault => exact continues_faulted

/-- A return gives its value to the caller. -/
theorem continues_leave {v : Value} :
    Executed.Continues f callers .ret m (m.leave callers v) := by
  cases callers with
  | nil => exact fun _ ho => by cases ho
  | cons g rest => exact continues_done (.ret rfl rfl)

/-- A call enters a function, or pushes the result of a builtin. A function that is entered has a
frame of its own on top of the one that called. -/
theorem continues_call {count : Nat} {stack : List Value} {callee : Value} {args : List Value}
    (hs : stack = f.stack.drop (count + 1)) :
    Executed.Continues f callers (.call count) m
      (m.call callers { f with stack } callee args) := by
  cases callee with
  | function tag index captures =>
      by_cases hdepth : m.maxDepth ≤ callers.length + 1
      · rw [call_of_depth hdepth]
        exact continues_faulted
      · cases hr : m.image.routines[index]? with
        | none =>
            rw [call_of_missing hdepth hr]
            exact continues_faulted
        | some r =>
            rw [call_of_enter hdepth hr]
            split
            · exact continues_done (.call rfl hs)
            · exact continues_faulted
  | builtin b =>
      cases hresult : m.callBuiltin b args with
      | mk n result =>
          simp only [call, hresult]
          cases result with
          | ok v =>
              exact continues_done (.next rfl (by simp [Instr.pushes])
                (by simp [Instr.pushes, Instr.pops, hs]))
          | error fault => exact continues_faulted
  | _ => exact continues_faulted

/-- What is below the operands that an instruction took. -/
theorem drop_of_popMany? {count : Nat} {stack items rest : List Value}
    (h : popMany? count stack = some (items, rest)) : stack.drop count = rest := by
  obtain ⟨hlen, rfl⟩ := popMany?_eq_some h
  rw [List.drop_left' (by rw [List.length_reverse, hlen])]

/-- **Instructions.** What an instruction that did not fail does to the frames. It moves on in its
own frame, jumps, enters a function or returns from one. -/
theorem execute_continues : Executed.Continues f callers i m (m.execute callers f i) := by
  fun_cases execute m callers f i
  case case15 index r hr captures stack v hp =>
    have hcount : m.image.captureCount index = r.captures := by simp [Image.captureCount, hr]
    refine continues_done (.next rfl (by simp [Instr.pushes]) ?_)
    simp [Instr.pushes, Instr.pops, hcount, drop_of_popMany? hp]
  case case17 count items stack hp =>
    exact continues_done (.next rfl (by simp [Instr.pushes])
      (by simp [Instr.pushes, Instr.pops, drop_of_popMany? hp]))
  case case36 count args callee stack hp =>
    have hs := drop_of_popMany? hp
    refine continues_call ?_
    rw [← List.drop_drop, hs, List.drop_one, List.tail_cons]
  case case37 => exact continues_leave
  case case18 hs | case21 hs | case22 hs | case23 hs =>
    exact continues_pushResult rfl rfl (by simp [hs, Instr.pops])
  all_goals first
    | exact continues_faulted
    | exact continues_done (.jump rfl (by simp [*, Instr.keeps])
        (by simp [*, Instr.keeps, Instr.pops]))
    | exact continues_done (.next rfl (by simp [Instr.pushes])
        (by simp [*, Instr.pushes, Instr.pops]))

/-! ### Steps -/

/-- A step that does not end the run executes an instruction that does not fail. -/
theorem execute_of_step (ho : m.outcome = none) (hfs : m.frames = f :: callers)
    (hgo : m.step.outcome = none) :
    ∃ budget i, m.fetch? f = some i ∧
      { m with budget, steps := m.steps + 1 }.execute callers { f with pc := f.pc + 1 } i =
        (m.step, none) := by
  have hway := step_way ho hfs
  generalize m.step = n at hway hgo ⊢
  cases hway with
  | executed _ _ hi hx => exact ⟨_, _, hi, hx⟩
  -- The other ways end the run.
  | cancelled | exhausted | missing | faulted => cases hgo

/-- What a step that does not end the run does to the frames. -/
theorem step_continues (ho : m.outcome = none) (hfs : m.frames = f :: callers)
    (hgo : m.step.outcome = none) :
    ∃ i, m.fetch? f = some i ∧
      Frame.Continues m.image.captureCount { f with pc := f.pc + 1 } callers i m.step.frames := by
  obtain ⟨budget, i, hi, hexec⟩ := execute_of_step ho hfs hgo
  have hcont : Executed.Continues { f with pc := f.pc + 1 } callers i
      { m with budget, steps := m.steps + 1 } (m.step, none) := hexec ▸ execute_continues
  exact ⟨i, hi, hcont rfl hgo⟩

end Machine

/-! ### Passages -/

/-- A passage is code that an activation enters at `start` and leaves at `stop`, with `count`
more operands. `height pc n` says that the activation has `n` operands more than at the start
when it stands at `pc`. It never takes those that it had there, and does not return. -/
structure Routine.Passage (captures : Nat → Nat) (r : Routine) (start stop count : Nat)
    (height : Nat → Nat → Prop) : Prop where
  entry : height start 0
  exit : ∀ n, height stop n → n = count
  within : ∀ pc n, height pc n → pc ≤ stop
  /-- At every offset before the end stands an instruction that leads on. -/
  leads : ∀ pc n, height pc n → pc ≠ stop → ∃ i, r.code[pc]? = some i ∧ i ≠ .ret ∧
    i.pops captures ≤ n ∧
    (i.isFinal = false → height (pc + 1) (n - i.pops captures + i.pushes)) ∧
    ∀ t, i.target? = some t → height t (n - i.pops captures + i.keeps)

/-- A passage that pushes something is not empty. -/
theorem Routine.Passage.lt {captures : Nat → Nat} {r : Routine} {start stop count : Nat}
    {height : Nat → Nat → Prop} (h : r.Passage captures start stop count height)
    (hcount : 0 < count) : start < stop := by
  refine Nat.lt_of_le_of_ne (h.within _ _ h.entry) ?_
  rintro rfl
  have := h.exit _ h.entry
  omega

namespace Fragment

variable {captures : Nat → Nat} {a : Fragment} {h k : Nat}

/-- The heights of code at the place where it stands: those of its end included, and nothing
beyond. -/
theorem Levels.placed (ha : Levels captures false h a (some k)) {code : Array Instr}
    {offset : Nat} {loop : LoopEnds} (hp : a.Placed code offset loop) :
    ∃ chart : Chart Nat, chart offset = some h ∧ chart (offset + a.size) = some k ∧
      ∀ pc n, chart pc = some n → pc ≤ offset + a.size ∧
        (pc ≠ offset + a.size → ∃ i, code[pc]? = some i ∧ i.Balanced captures chart pc n) := by
  obtain ⟨hs, hf⟩ := ha
  have hlen : hs.length = a.size := by rw [← hf.length, List.length_map]
  let chart := Chart.ofListAt offset (hs.map some ++ [some k])
  have hlists := Chart.lists_ofListAt offset (hs.map some ++ [some k])
  rw [Chart.lists_append, List.length_map, hlen] at hlists
  have hend := hlists.2.head
  have hentry := heightRules_accepts.mp (hf.entry hlists.1 (Rules.reaches_of_eq hend))
  have hloop : loopHeights false chart loop := by simp [loopHeights]
  have hlead := hf.leads hlists.1 (Rules.reaches_of_eq hend) hloop
  refine ⟨chart, hentry, hend, fun pc n hn => ?_⟩
  obtain ⟨hle, hlt⟩ := Chart.of_ofListAt_eq_some hn
  rw [List.length_append, List.length_map, List.length_singleton, hlen] at hlt
  refine ⟨by omega, fun hne => ?_⟩
  have hlt : pc - offset < (a.place offset loop).length := by
    rw [hf.sized offset loop]
    omega
  have hi := List.getElem?_eq_getElem hlt
  have hcode := hp _ _ hi
  have hbalanced := hlead _ _ n hi
  rw [Nat.add_sub_cancel' hle] at hcode hbalanced
  exact ⟨_, hcode, hbalanced hn⟩

/-- **Expressions are passages.** Code that pushes values, where it stands in a routine. It has
heights whatever lies below it: those from zero show that it takes nothing from there, and those
from two that it does not return, which leaves one operand only. -/
theorem Pushes.passage {count : Nat} (ha : a.Pushes captures count) {r : Routine} {offset : Nat}
    {loop : LoopEnds} (hp : a.Placed r.code offset loop) :
    ∃ height, r.Passage captures offset (offset + a.size) count height := by
  obtain ⟨low, hstart, hstop, hlow⟩ := (ha.levels 0).placed hp
  obtain ⟨high, hstart', hstop', hhigh⟩ := (ha.levels 2).placed hp
  refine ⟨fun pc n => low pc = some n ∧ high pc = some (n + 2), ⟨hstart, hstart'⟩, ?_, ?_, ?_⟩
  · rintro n ⟨hn, -⟩
    rw [hstop, Nat.zero_add] at hn
    exact (Option.some.inj hn).symm
  · rintro pc n ⟨hn, -⟩
    exact (hlow pc n hn).1
  · rintro pc n ⟨hn, hn'⟩ hpc
    obtain ⟨i, hi, hb⟩ := (hlow pc n hn).2 hpc
    obtain ⟨i', hi', hb'⟩ := (hhigh pc _ hn').2 hpc
    obtain rfl : i = i' := Option.some.inj (hi.symm.trans hi')
    have henough := hb.enough
    have hlift : ∀ k, n + 2 - i.pops captures + k = n - i.pops captures + k + 2 := by omega
    refine ⟨i, hi, ?_, henough, fun hfin => ⟨hb.next hfin, ?_⟩, fun t ht => ⟨hb.target t ht, ?_⟩⟩
    · rintro rfl
      have := hb'.ret rfl
      omega
    · rw [← hlift]
      exact hb'.next hfin
    · rw [← hlift]
      exact hb'.target t ht

end Fragment

/-! ### Activations -/

/-- The activation of `f` is in a passage, above the operands `f.stack`; or it waits there for
the result of a call. Below it are the frames of its callers. -/
inductive Frame.Inside (height : Nat → Nat → Prop) (f : Frame) (callers : List Frame) :
    List Frame → Prop
  | running {pc : Nat} {slots : Array Value} {vs : List Value} (h : height pc vs.length) :
      Frame.Inside height f callers ({ f with pc, slots, stack := vs ++ f.stack } :: callers)
  | waiting {pc : Nat} {slots : Array Value} {vs : List Value} {top : Frame} {inner : List Frame}
      (h : height pc (vs.length + 1)) :
      Frame.Inside height f callers
        (top :: (inner ++ { f with pc, slots, stack := vs ++ f.stack } :: callers))

namespace Frame.Inside

variable {captures : Nat → Nat} {r : Routine} {start stop count : Nat}
  {height : Nat → Nat → Prop} {f g : Frame} {callers rest frames : List Frame} {i : Instr}

/-- An activation that stands at the start of a passage is in it. -/
theorem enter (hr : r.Passage captures start stop count height) (hpc : f.pc = start) :
    f.Inside height callers (f :: callers) :=
  @running height f callers f.pc f.slots [] (hpc ▸ hr.entry)

/-- Some operands of the passage are replaced by others. -/
theorem replace {pc taken left : Nat} {slots : Array Value} {vs stack : List Value}
    (henough : taken ≤ vs.length) (hle : left ≤ stack.length)
    (hrest : stack.drop left = (vs ++ f.stack).drop taken)
    (h : height pc (vs.length - taken + left)) :
    f.Inside height callers ({ f with pc, slots, stack } :: callers) := by
  have hstack : stack = (stack.take left ++ vs.drop taken) ++ f.stack := by
    rw [List.append_assoc, ← List.drop_append_of_le_length henough, ← hrest,
      List.take_append_drop]
  rw [hstack]
  refine .running ?_
  rwa [List.length_append, List.length_take_of_le hle, List.length_drop, Nat.add_comm left]

/-- The activation itself executes an instruction of the passage. -/
theorem advance (hr : r.Passage captures start stop count height) {pc : Nat}
    {slots : Array Value} {vs : List Value} (h : height pc vs.length) (hpc : pc ≠ stop)
    (hi : r.code[pc]? = some i)
    (hc : Frame.Continues captures { f with pc := pc + 1, slots, stack := vs ++ f.stack }
      callers i frames) : f.Inside height callers frames := by
  obtain ⟨i', hi', hret, henough, hnext, htarget⟩ := hr.leads pc _ h hpc
  obtain rfl : i = i' := Option.some.inj (hi.symm.trans hi')
  cases hc with
  | next hfin hle hrest => exact replace henough hle hrest (hnext hfin)
  | jump ht hle hrest => exact replace henough hle hrest (htarget _ ht)
  | @call args stack entered hcall hrest =>
      subst hcall
      have hstack : stack = vs.drop (args + 1) ++ f.stack :=
        hrest.trans (List.drop_append_of_le_length henough)
      rw [hstack]
      refine @waiting height f callers (pc + 1) slots (vs.drop (args + 1)) entered [] ?_
      rw [List.length_drop]
      exact hnext rfl
  | ret hi => exact absurd hi hret

/-- A call that was made in the passage executes an instruction. If it returns, the activation
has the result that it waits for. -/
theorem await {pc : Nat} {slots : Array Value} {vs : List Value} {top : Frame}
    {inner : List Frame} (h : height pc (vs.length + 1))
    (hc : Frame.Continues captures top
      (inner ++ { f with pc, slots, stack := vs ++ f.stack } :: callers) i frames) :
    f.Inside height callers frames := by
  cases hc with
  | next | jump => exact .waiting h
  | call => exact @waiting height f callers pc slots vs _ (_ :: inner) h
  | @ret v g rest _ hcallers =>
      cases inner with
      | nil =>
          cases hcallers
          exact @running height f callers pc slots (v :: vs) h
      | cons g' inner =>
          cases hcallers
          exact .waiting h

/-- The activation itself runs if no other frame is above its callers. -/
theorem eq_running (h : f.Inside height callers frames) (hg : frames = g :: callers) :
    ∃ slots vs, g = { f with pc := g.pc, slots, stack := vs ++ f.stack } ∧ height g.pc vs.length := by
  cases h with
  | @running pc slots vs h =>
      cases hg
      exact ⟨slots, vs, rfl, h⟩
  | waiting h =>
      have := congrArg List.length hg
      simp only [List.length_cons, List.length_append] at this
      omega

end Frame.Inside

/-! ### Runs -/

namespace Machine

/-- The activation above some callers stands at an offset. -/
def StandsAt (callers : List Frame) (pc : Nat) (m : Machine) : Prop :=
  ∃ g, m.frames = g :: callers ∧ g.pc = pc

/-- After `k` steps, and not before, the activation above some callers stands at an offset. -/
structure Arrives (m : Machine) (callers : List Frame) (pc k : Nat) : Prop where
  running : (m.run k).outcome = none
  there : (m.run k).StandsAt callers pc
  first : ∀ j < k, ¬ (m.run j).StandsAt callers pc

variable {image : Image} {o : RunOptions} {initial m : Machine} {f : Frame} {callers : List Frame}
  {r : Routine} {stop mid count k : Nat} {height : Nat → Nat → Prop}

/-- The last of some steps is a step. -/
theorem run_succ (n : Nat) : m.run (n + 1) = (m.run n).step := by
  rw [run_add]
  rfl

/-- **One step.** An activation in a passage stays in it until it stands at the end. -/
theorem inside_step (hr : m.image.routines[f.function]? = some r) {start : Nat}
    (hp : r.Passage m.image.captureCount start stop count height)
    (h : f.Inside height callers m.frames) (hstop : ¬ m.StandsAt callers stop)
    (ho : m.outcome = none) (hgo : m.step.outcome = none) :
    f.Inside height callers m.step.frames := by
  generalize hfs : m.frames = frames at h
  cases h with
  | @running pc slots vs h =>
      obtain ⟨i, hi, hc⟩ := step_continues ho hfs hgo
      have hi : r.code[pc]? = some i := by rwa [fetch?, hr] at hi
      exact .advance hp h (fun hpc => hstop ⟨_, hfs, hpc⟩) hi hc
  | waiting h =>
      obtain ⟨i, -, hc⟩ := step_continues ho hfs hgo
      exact .await h hc

section Passage

variable (hs : Machine.start image o = .ok initial) (hreach : Reachable initial m)
  (hfs : m.frames = f :: callers) (hr : image.routines[f.function]? = some r)

include hs hreach hfs hr

/-- **Runs.** A run stays inside a passage as long as it has not arrived at its end. -/
theorem inside_run (hp : r.Passage image.captureCount f.pc stop count height)
    (ho : (m.run k).outcome = none) (hfirst : ∀ j < k, ¬ (m.run j).StandsAt callers stop) :
    f.Inside height callers (m.run k).frames := by
  -- By induction on the steps; the code stays the same because the image does.
  induction k with
  | zero =>
      rw [run, hfs]
      exact .enter hp rfl
  | succ k ih =>
      have ho' := outcome_of_le k.le_succ ho
      have himage := ((hreach.run k).sound hs).pools.image_eq
      rw [run_succ] at ho ⊢
      exact inside_step (himage.symm ▸ hr) (himage.symm ▸ hp)
        (ih ho' fun j hj => hfirst j (Nat.lt_succ_of_lt hj)) (hfirst k k.lt_succ_self) ho' ho

/-- **Operands.** At the end of a passage the activation has the operands that it had at the
start, and those of the passage above them. -/
theorem Arrives.operands (hp : r.Passage image.captureCount f.pc stop count height)
    (h : m.Arrives callers stop k) :
    ∃ slots vs, vs.length = count ∧
      (m.run k).frames = { f with pc := stop, slots, stack := vs ++ f.stack } :: callers := by
  have hin := inside_run hs hreach hfs hr hp h.running h.first
  obtain ⟨g, hg, rfl⟩ := h.there
  obtain ⟨slots, vs, hgeq, hheight⟩ := hin.eq_running hg
  exact ⟨slots, vs, hp.exit _ hheight, by rw [hg, ← hgeq]⟩

/-- A run that comes to an offset behind a passage, comes to the end of the passage before. -/
theorem Arrives.split (hp : r.Passage image.captureCount f.pc mid count height)
    (hlt : mid < stop) (h : m.Arrives callers stop k) :
    ∃ i j, k = i + j ∧ m.Arrives callers mid i ∧ (m.run i).Arrives callers stop j := by
  have hex : ∃ i, i ≤ k ∧ (m.run i).StandsAt callers mid := by
    by_contra hno
    push Not at hno
    have hin := inside_run hs hreach hfs hr hp h.running fun j hj => hno j (Nat.le_of_lt hj)
    obtain ⟨g, hg, rfl⟩ := h.there
    obtain ⟨-, vs, -, hheight⟩ := hin.eq_running hg
    have := hp.within _ _ hheight
    omega
  classical
  obtain ⟨hle, hthere⟩ := Nat.find_spec hex
  generalize hi : Nat.find hex = i at hle hthere
  obtain ⟨j, rfl⟩ := Nat.exists_eq_add_of_le hle
  have hrun : ∀ n, (m.run i).run n = m.run (i + n) := fun n => (run_add i n).symm
  refine ⟨i, j, rfl, ⟨outcome_of_le hle h.running, hthere, fun n hn hat => ?_⟩,
    ⟨hrun j ▸ h.running, hrun j ▸ h.there, fun n hn => hrun n ▸ h.first _ (by omega)⟩⟩
  exact Nat.find_min hex (by rwa [hi]) ⟨by omega, hat⟩

/-- **Two expressions.** A run that comes to an offset behind the code of two expressions has
evaluated both, one after the other. -/
theorem Arrives.pushed {i e : Fragment} {loop : LoopEnds} (hi : i.Pushes image.captureCount 1)
    (he : e.Pushes image.captureCount 1) (hsized : i.Sized) (hpi : i.Placed r.code f.pc loop)
    (hpe : e.Placed r.code (f.pc + i.size) loop) (hlt : f.pc + i.size + e.size < stop)
    (h : m.Arrives callers stop k) :
    ∃ s t k' slots slots' v w, k = t + k' ∧ s ≤ t ∧
      m.Arrives callers (f.pc + i.size) s ∧
      (m.run s).frames =
        { f with pc := f.pc + i.size, slots, stack := v :: f.stack } :: callers ∧
      m.Arrives callers (f.pc + i.size + e.size) t ∧
      (m.run t).frames = { f with
        pc := f.pc + i.size + e.size, slots := slots', stack := w :: v :: f.stack } :: callers ∧
      (m.run t).Arrives callers stop k' := by
  obtain ⟨heighti, hpassi⟩ := hi.passage hpi
  obtain ⟨heighte, hpasse⟩ := he.passage hpe
  obtain ⟨height, hpass⟩ := (hi.append he).passage (hsized.placed_append.mpr ⟨hpi, hpe⟩)
  rw [Fragment.size_append, ← Nat.add_assoc] at hpass
  obtain ⟨t, k', rfl, hboth, hrest⟩ := h.split hs hreach hfs hr hpass hlt
  obtain ⟨s, t, rfl, hfirst, hsecond⟩ :=
    hboth.split hs hreach hfs hr hpassi (hpasse.lt Nat.one_pos)
  obtain ⟨slots, vs, hvs, hfs₁⟩ := hfirst.operands hs hreach hfs hr hpassi
  obtain ⟨v, rfl⟩ := List.length_eq_one_iff.mp hvs
  obtain ⟨slots', ws, hws, hfs₂⟩ := hsecond.operands hs (hreach.run s) hfs₁ hr hpasse
  obtain ⟨w, rfl⟩ := List.length_eq_one_iff.mp hws
  rw [← run_add] at hfs₂
  exact ⟨s, s + t, k', slots, slots', v, w, rfl, Nat.le_add_right s t, hfirst, hfs₁, hboth, hfs₂,
    hrest⟩

end Passage

/-- An activation that is not where the run arrives makes a step first. -/
theorem Arrives.step (hfs : m.frames = f :: callers) (hpc : f.pc ≠ stop)
    (h : m.Arrives callers stop k) :
    ∃ j, k = j + 1 ∧ m.step.outcome = none ∧ m.step.Arrives callers stop j := by
  cases k with
  | zero =>
      obtain ⟨g, hg, hstop⟩ := h.there
      cases hfs.symm.trans hg
      exact absurd hstop hpc
  | succ j =>
      exact ⟨j, rfl, outcome_of_le (Nat.succ_pos j) h.running, h.running, h.there,
        fun n hn => h.first (n + 1) (Nat.succ_lt_succ hn)⟩

/-- An arrival after a step is one a step later. -/
theorem Arrives.of_step (hnot : ¬ m.StandsAt callers stop) (h : m.step.Arrives callers stop k) :
    m.Arrives callers stop (k + 1) := by
  refine ⟨h.running, h.there, fun j hj => ?_⟩
  cases j with
  | zero => exact hnot
  | succ j => exact h.first j (Nat.lt_of_succ_lt_succ hj)

/-! ### Running the predicates -/

/-- Above no callers there is only the program itself. -/
theorem standsAt_nil_iff {pc : Nat} : m.StandsAt [] pc ↔ m.frames.map Frame.pc = [pc] := by
  rw [List.map_eq_singleton_iff]
  rfl

/-- Whether a run arrives at an offset of the program itself can be computed. -/
instance (m : Machine) (pc k : Nat) : Decidable (m.Arrives [] pc k) :=
  decidable_of_iff
    ((m.run k).outcome.isNone = true ∧ (m.run k).frames.map Frame.pc = [pc] ∧
      ∀ j < k, (m.run j).frames.map Frame.pc ≠ [pc])
    ⟨fun ⟨ho, hpc, hfirst⟩ => ⟨Option.isNone_iff_eq_none.mp ho, standsAt_nil_iff.mpr hpc,
        fun j hj hat => hfirst j hj (standsAt_nil_iff.mp hat)⟩,
      fun h => ⟨Option.isNone_iff_eq_none.mpr h.running, standsAt_nil_iff.mp h.there,
        fun j hj hat => h.first j hj (standsAt_nil_iff.mpr hat)⟩⟩

end Machine

end Parlance
