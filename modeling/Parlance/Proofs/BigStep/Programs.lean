import Parlance.Proofs.BigStep.Agreement

/-!
# Refinement of whole programs

A program refines another one if each function of it has a body there that does the same. This is
an induction on the fuel: the bodies agree as long as the calls in them do.

## Main definitions

* `Analyzed.InScope`: the bodies of all functions are scoped.
* `BigStep.Improves`: a body that does the same as another one, in the same activation.
* `Analyzed.RefinedBy`: every value of one program is a value of another one, after the same output.

## Main results

* `BigStep.run_refines`: one call.
* `Analyzed.refinedBy`: a program whose bodies are improved.
* `Analyzed.InScope.evaluates`: evaluation with and without calls of the program by itself.
-/

namespace Parlance

/-- The bodies of all functions are scoped. -/
structure Analyzed.InScope (a : Analyzed) : Prop where
  orderly : a.facts.Orderly
  fits : ∀ f b, a.bodies.lookup f = some b → a.facts.Fits f b

namespace BigStep

open Eval

/-! ### One call -/

/-- The activation of a function of a program. -/
def Environment.activation (p : Environment) (fuel depth : Nat) (call : Calls) (function : Nat)
    (captures : List Value) : Activation :=
  { facts := p.program.facts, inputs := p.inputs, maxDepth := p.maxDepth, function, captures,
    depth, fuel, call }

/-- An evaluation in a frame of its own gives back the frame around it. -/
theorem within_ok {α : Type} {slots : Nat → Value} {m : Eval α} {s s' : Store} {v : α} :
    within slots m s (.ok v s') ↔
      ∃ u, m { s with slots } (.ok v u) ∧ s' = { u with slots := s.slots } := by
  unfold within
  constructor
  · intro h
    obtain ⟨_, _, h₁, h⟩ := bind_ok.mp h
    cases h₁
    obtain ⟨_, _, h₂, h⟩ := bind_ok.mp h
    cases h₂
    obtain ⟨w, u, hw, h⟩ := bind_ok.mp h
    obtain ⟨_, _, h₃, h⟩ := bind_ok.mp h
    cases h₃
    cases h
    exact ⟨u, hw, rfl⟩
  · rintro ⟨u, hu, rfl⟩
    exact bind_ok.mpr ⟨s, s, rfl, bind_ok.mpr ⟨(), _, rfl, bind_ok.mpr ⟨v, u, hu,
      bind_ok.mpr ⟨(), _, rfl, rfl⟩⟩⟩⟩

/-- A call gives a value if there is a function with a body, and the body gives it. It runs with its
arguments in the first slots, and the slots of the caller are the same behind it. -/
theorem run_ok {p : Environment} {fuel depth f : Nat} {call : Calls} {captures args : List Value}
    {s s' : Store} {v : Value} :
    run p fuel depth call f captures args s (.ok v s') ↔
      f < p.program.facts.functions.size ∧
      args.length = (p.program.facts.info f).params.length ∧
      ∃ b u, p.program.bodies.lookup f = some b ∧
        body (p.activation fuel depth call f captures) b
          { s with slots := fun i => args.getD i .unit } (.ok v u) ∧
        s' = { u with slots := s.slots } := by
  unfold run
  constructor
  · intro h
    cases hinfo : p.program.facts.functions[f]? with
    | none =>
        rw [hinfo] at h
        cases h
    | some info =>
        cases hb : p.program.bodies.lookup f with
        | none =>
            rw [hinfo, hb] at h
            cases h
        | some b =>
            rw [hinfo, hb] at h
            dsimp only at h
            have hi : p.program.facts.info f = info := by
              rw [Facts.info, hinfo]
              rfl
            split at h
            · next hlen =>
                obtain ⟨u, hu, hs⟩ := within_ok.mp h
                exact ⟨(Array.getElem?_eq_some_iff.mp hinfo).1, by rw [hi]; exact hlen, b, u, rfl,
                  hu, hs⟩
            · cases h
  · rintro ⟨hlt, hlen, b, u, hb, hu, hs⟩
    have hinfo : p.program.facts.functions[f]? = some (p.program.facts.info f) := by
      rw [Facts.info, Array.getElem?_eq_getElem hlt]
      rfl
    rw [hinfo, hb]
    dsimp only
    rw [if_pos hlen]
    exact within_ok.mpr ⟨u, hu, hs⟩

section

variable {p p' : Environment} {f fuel depth : Nat}

/-- The stores at the start of a call agree on the parameters. -/
theorem Alike.agree_params {F : Facts} {b : Block} (hf : F.Fits f b) {s t : Store}
    (h : Alike F s t) (slots : Nat → Value) :
    Agree F f s.globals t.globals (F.info f).params { s with slots } { t with slots } where
  output := h.output
  fresh := h.fresh
  shared := h.shared
  lt := hf.live.lt
  cells y hy := by
    obtain ⟨i, hi⟩ := List.mem_iff_getElem?.mp hy
    simp only [Store.cell, (hf.param i y hi).storage]
  untouched _ := ⟨.refl _, .refl _⟩

/-- **One call.** If the body of a function is refined, so are its calls. They start in stores that
agree on the parameters, and leave the slots of the caller as they were. -/
theorem run_refines {call call' : Calls} {captures args : List Value}
    (hmore : p.program.facts.Extends p'.program.facts) {b b' : Block}
    (hb : p.program.bodies.lookup f = some b) (hb' : p'.program.bodies.lookup f = some b')
    (hfits : p.program.facts.Fits f b)
    (hbody : ∀ before before', Keeps (body (p.activation fuel depth call f captures) b)
      (body (p'.activation fuel depth call' f captures) b')
      (Agree p.program.facts f before before' (p.program.facts.info f).params))
    {s t s' : Store} {v : Value} (h : Alike p.program.facts s t)
    (hm : run p fuel depth call f captures args s (.ok v s')) :
    ∃ t', run p' fuel depth call' f captures args t (.ok v t') ∧ Alike p.program.facts s' t' ∧
      s'.slots = s.slots ∧ t'.slots = t.slots ∧
      (f ≠ 0 → Untouched p.program.facts s.globals s'.globals ∧
        Untouched p.program.facts t.globals t'.globals) := by
  obtain ⟨hlt, hlen, c, u, hc, hu, rfl⟩ := run_ok.mp hm
  obtain rfl : b = c := Option.some.inj (hb.symm.trans hc)
  obtain ⟨w, hw, ha⟩ := hbody _ _ _ _ v u (h.agree_params hfits _) hu
  refine ⟨{ w with slots := t.slots }, run_ok.mpr ⟨?_, ?_, b', w, hb', hw, rfl⟩,
    ⟨ha.output, ha.fresh, ha.shared⟩, rfl, rfl, ha.untouched⟩
  · rw [hmore.functions_size]
    exact hlt
  · rw [hmore.params]
    exact hlen

/-! ### All calls -/

/-- Calls, by fuel and depth, that run the functions of a program. Calls of the program itself do
not count. -/
def Calling (p : Environment) (calls : Nat → Nat → Calls) : Prop :=
  ∀ fuel depth f, f ≠ 0 → calls (fuel + 1) depth f = run p fuel depth (calls fuel (depth + 1)) f

/-- The calls of a program run its functions. -/
theorem calling_invoke (p : Environment) : Calling p (invoke p) :=
  fun _ _ _ _ => rfl

/-- The calls that `enter` makes. -/
def inner (p : Environment) (fuel depth : Nat) : Calls :=
  Calls.others (enter p fuel depth)

/-- So do the calls from inside a function. -/
theorem calling_inner (p : Environment) : Calling p (inner p) := by
  intro fuel depth f hf
  funext captures args
  exact if_neg hf

/-- The program in the second environment runs with the same inputs and limits. -/
structure Successor (p p' : Environment) : Prop where
  more : p.program.facts.Extends p'.program.facts
  inputs : p'.inputs = p.inputs
  maxDepth : p'.maxDepth = p.maxDepth

/-- A program runs with its own inputs and limits. -/
theorem Successor.refl (p : Environment) : Successor p p :=
  ⟨.refl _, rfl, rfl⟩

/-- Activations of a function in two such programs correspond if their calls do. -/
theorem Successor.twins (h : Successor p p') (hF : p.program.facts.Orderly) {call call' : Calls}
    (hc : CallsRefine p.program.facts call call') (captures : List Value) :
    Twins (p.activation fuel depth call f captures) (p'.activation fuel depth call' f captures) where
  orderly := hF
  more := h.more
  eq := by simp only [Environment.activation, h.inputs, h.maxDepth]
  calls := hc

/-- **All calls.** If the bodies of all functions are refined, given that the calls in them are,
then calls are refined. -/
theorem calls_refine (hp : p.program.InScope) (hsucc : Successor p p')
    {calls : Nat → Nat → Calls} (hcalls : Calling p' calls)
    (hbody : ∀ f b, f ≠ 0 → p.program.bodies.lookup f = some b →
      ∃ b', p'.program.bodies.lookup f = some b' ∧ ∀ fuel depth captures,
        CallsRefine p.program.facts (inner p fuel (depth + 1)) (calls fuel (depth + 1)) →
        ∀ before before',
          Keeps (body (p.activation fuel depth (inner p fuel (depth + 1)) f captures) b)
            (body (p'.activation fuel depth (calls fuel (depth + 1)) f captures) b')
            (Agree p.program.facts f before before' (p.program.facts.info f).params)) :
    ∀ fuel depth, CallsRefine p.program.facts (inner p fuel depth) (calls fuel depth) := by
  intro fuel
  induction fuel with
  | zero =>
      intro depth f captures args s t v s' _ hm
      unfold inner Calls.others at hm
      split at hm
      · exact hm.elim
      · cases hm
  | succ fuel ih =>
      intro depth f captures args s t v s' h hm
      by_cases h0 : f = 0
      · subst h0
        exact hm.elim
      · rw [calling_inner p fuel depth f h0] at hm
        rw [hcalls fuel depth f h0]
        obtain ⟨-, -, b, -, hb, -⟩ := run_ok.mp hm
        obtain ⟨b', hb', hk⟩ := hbody f b h0 hb
        obtain ⟨t', ht', ha, hs, hs', hu⟩ := run_refines hsucc.more hb hb' (hp.fits f b hb)
          (hk fuel depth captures (ih (depth + 1))) h hm
        exact ⟨t', ht', ha, ⟨hs, (hu h0).1⟩, hs', (hu h0).2⟩

/-- The calls of a program refine themselves, and calls without those of the program itself refine
calls. -/
theorem inner_refines (hp : p.program.InScope) {calls : Nat → Nat → Calls}
    (hcalls : Calling p calls) (fuel depth : Nat) :
    CallsRefine p.program.facts (inner p fuel depth) (calls fuel depth) :=
  calls_refine hp (.refl p) hcalls (fun f b _ hb => ⟨b, hb, fun _ _ captures hc _ _ =>
    body_refines ((Successor.refl p).twins hp.orderly hc captures) b (hp.fits f b hb).inScope⟩)
    fuel depth

end

/-! ### Improved bodies -/

/-- In an activation of a function, another body does the same. -/
def Improves (F : Facts) (function : Nat) (b b' : Block) : Prop :=
  ∀ x : Activation, x.facts = F → x.function = function → Twins x x → ∀ before before',
    Keeps (body x b) (body x b') (x.Agree before before' (F.info function).params)

/-- A body that is improved does the same in a successor of the program. -/
theorem Improves.refines {p p' : Environment} {f fuel depth : Nat} {call call' : Calls}
    {b b' : Block} (h : Improves p'.program.facts f b b') (hsucc : Successor p p')
    (hF : p.program.facts.Orderly) (hF' : p'.program.facts.Orderly)
    (hfits : p.program.facts.Fits f b) (hc : CallsRefine p.program.facts call call')
    (hc' : CallsRefine p'.program.facts call' call') (captures : List Value)
    (before before' : Nat → Value) :
    Keeps (body (p.activation fuel depth call f captures) b)
      (body (p'.activation fuel depth call' f captures) b')
      (Agree p.program.facts f before before' (p.program.facts.info f).params) := by
  intro s t v s' hag hm
  obtain ⟨t', ht', hs'⟩ := body_refines (hsucc.twins hF hc captures) b hfits.inScope s t v s' hag hm
  have hself : Twins (p'.activation fuel depth call' f captures)
      (p'.activation fuel depth call' f captures) :=
    (Successor.refl p').twins hF' hc' captures
  have hrefl : Agree p'.program.facts f t.globals t.globals (p'.program.facts.info f).params t t :=
    .refl fun y hy => Nat.lt_of_lt_of_le (hag.lt y (hsucc.more.params f ▸ hy)) hsucc.more.symbols_le
  obtain ⟨u, hu, hag'⟩ := h _ rfl rfl hself _ _ t t v t' hrefl ht'
  rw [hsucc.more.params f] at hag'
  exact ⟨u, hu, hag.step hsucc.more hs' hag'⟩

end BigStep

/-! ### Whole programs -/

open BigStep

namespace Analyzed

/-- **Refinement of programs.** Whatever value a program gives, another one gives too, after the
same output. -/
def RefinedBy (a a' : Analyzed) : Prop :=
  ∀ inputs maxDepth fuel limit v s',
    enter { program := a, inputs, maxDepth } fuel 1 0 [] [] (start a limit) (.ok v s') →
      ∃ t', enter { program := a', inputs, maxDepth } fuel 1 0 [] [] (start a' limit) (.ok v t') ∧
        t'.output = s'.output

/-- A program refines itself. -/
theorem RefinedBy.refl (a : Analyzed) : a.RefinedBy a :=
  fun _ _ _ _ _ s' h => ⟨s', h, rfl⟩

/-- Refinements may follow one another. -/
theorem RefinedBy.trans {a b c : Analyzed} (h : a.RefinedBy b) (h' : b.RefinedBy c) :
    a.RefinedBy c := by
  intro inputs maxDepth fuel limit v s' hs
  obtain ⟨t', ht', ho⟩ := h inputs maxDepth fuel limit v s' hs
  obtain ⟨u', hu', ho'⟩ := h' inputs maxDepth fuel limit v t' ht'
  exact ⟨u', hu', ho'.trans ho⟩

variable {a a' : Analyzed}

/-- The stores at the start agree. -/
theorem start_alike (h : a.facts.Extends a'.facts) (limit : Option Nat) :
    Alike a.facts (start a limit) (start a' limit) :=
  ⟨rfl, Nat.le_of_eq h.functions_size, fun _ _ _ _ _ => rfl⟩

/-- **Improved programs.** A program whose functions all have improved bodies in another one is
refined by it. The induction is on the fuel of the calls. -/
theorem InScope.refinedBy (h : a.InScope) (h' : a'.InScope) (hmore : a.facts.Extends a'.facts)
    (hbody : ∀ f b, a.bodies.lookup f = some b →
      ∃ b', a'.bodies.lookup f = some b' ∧ Improves a'.facts f b b') : a.RefinedBy a' := by
  intro inputs maxDepth fuel limit v s' hs
  cases fuel with
  | zero => cases hs
  | succ fuel =>
      have hsucc : Successor ⟨a, inputs, maxDepth⟩ ⟨a', inputs, maxDepth⟩ := ⟨hmore, rfl, rfl⟩
      have hself := fun fuel depth =>
        inner_refines (p := ⟨a', inputs, maxDepth⟩) h' (calling_inner _) fuel depth
      have hcalls := calls_refine (p := ⟨a, inputs, maxDepth⟩) h hsucc (calling_inner _)
        fun f b _ hb => (hbody f b hb).imp fun b' hb' => ⟨hb'.1, fun fuel depth captures hc =>
          hb'.2.refines hsucc h.orderly h'.orderly (h.fits f b hb) hc (hself fuel (depth + 1))
            captures⟩
      obtain ⟨-, -, b, -, hb, -⟩ := run_ok.mp hs
      obtain ⟨b', hb', himp⟩ := hbody 0 b hb
      obtain ⟨t', ht', ha, -⟩ := run_refines hmore hb hb' (h.fits 0 b hb)
        (himp.refines hsucc h.orderly h'.orderly (h.fits 0 b hb) (hcalls fuel 2) (hself fuel 2) [])
        (start_alike hmore limit) hs
      exact ⟨t', ht', ha.output⟩

/-- A value without calls of the program by itself is a value. -/
theorem InScope.evaluates (h : a.InScope) {o : RunOptions} {fuel : Nat} {v : Value} {s' : Store}
    (hs : enter { program := a, inputs := o.inputs, maxDepth := o.maxDepth } fuel 1 0 [] []
      (start a o.outputLimit) (.ok v s')) :
    ∃ t', a.Evaluates o (.ok v t') ∧ t'.output = s'.output := by
  cases fuel with
  | zero => cases hs
  | succ fuel =>
      have hsucc := Successor.refl ⟨a, o.inputs, o.maxDepth⟩
      have hcalls := inner_refines (p := ⟨a, o.inputs, o.maxDepth⟩) h (calling_invoke _) fuel 2
      obtain ⟨-, -, b, -, hb, -⟩ := run_ok.mp hs
      obtain ⟨t', ht', ha, -⟩ := run_refines hsucc.more hb hb (h.fits 0 b hb)
        (fun _ _ => body_refines (hsucc.twins h.orderly hcalls []) b (h.fits 0 b hb).inScope)
        (start_alike (.refl _) o.outputLimit) hs
      exact ⟨t', ⟨fuel + 1, ht'⟩, ha.output⟩

end Analyzed

end Parlance
