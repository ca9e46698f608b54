import Mathlib.Tactic.IntervalCases
import Parlance.Pipeline
import Parlance.Proofs.Analysis.Soundness

/-!
# Accepted programs

A program that analysis accepts has coherent facts, and every function of it is accepted. This
is what the rest of the theory uses of analysis.

## Main results

* `analyze_accepted`: analysis without errors gives an accepted program.
* `CompileOptions.analyze_accepted`: so does the analysis of a text.
-/

namespace Parlance

/-- **Accepted programs.** What analysis promises about a program. -/
structure Analyzed.Accepted (a : Analyzed) : Prop where
  coherent : a.facts.Coherent
  main : a.facts.Accepts 0 a.program.root
  made : a.facts.Made (a.program.root.functions true) a.program.root.labels
  params : (a.facts.info 0).params = []
  captures : a.facts.captures 0 = []
  complete : ∀ f < a.facts.functions.size, f ≠ 0 → f ∈ (a.program.root.functions true).map Prod.fst
  detached : a.detached = []

/-- An accepted program accepts each of its bodies. -/
theorem Analyzed.Accepted.accepts {a : Analyzed} (h : a.Accepted) {f : Nat} {b : Block}
    (hb : (f, b) ∈ a.bodies) : a.facts.Accepts f b := by
  simp only [Analyzed.bodies, h.detached, List.flatMap_nil, List.append_nil, List.mem_cons] at hb
  rcases hb with hb | hb
  · cases hb
    exact h.main
  · exact (h.made.accepts (f, b) hb).2

/-- The body that a function has is accepted. -/
theorem Analyzed.Accepted.accepts_of_lookup {a : Analyzed} (h : a.Accepted) {f : Nat} {b : Block}
    (hb : a.bodies.lookup f = some b) : a.facts.Accepts f b := by
  obtain ⟨before, after, heq, -⟩ := List.lookup_eq_some_iff.mp hb
  exact h.accepts (by simp [heq])

/-- Every function of an accepted program has a body. -/
theorem Analyzed.Accepted.exists_body {a : Analyzed} (h : a.Accepted) {f : Nat} (hf : f < a.facts.functions.size) :
    ∃ b, a.bodies.lookup f = some b ∧ a.facts.Accepts f b := by
  have hmem : f ∈ a.bodies.map Prod.fst := by
    by_cases h0 : f = 0
    · simp [Analyzed.bodies, h0]
    · simp only [Analyzed.bodies, List.map_append, List.map_cons]
      exact List.mem_append_left _ (List.mem_cons_of_mem _ (h.complete f hf h0))
  cases hl : a.bodies.lookup f with
  | none =>
      obtain ⟨p, hp, rfl⟩ := List.mem_map.mp hmem
      simpa using List.lookup_eq_none_iff.mp hl p hp
  | some b => exact ⟨b, rfl, h.accepts_of_lookup hl⟩

namespace Analyze

/-! ### The start -/

/-- The analysis begins with the symbols of the builtins only. -/
theorem symbol_initial {y : Nat} (hy : y < initial.facts.symbols.size) :
    ∃ b : Builtin, (initial.facts.symbol y).kind = .builtin ∧
      (initial.facts.symbol y).storage = .builtin b ∧ (initial.facts.symbol y).ty = .builtin b := by
  have hb : y < Builtin.all.length := by simpa [initial, builtinSymbols] using hy
  refine ⟨Builtin.all[y], ?_⟩
  simp [Facts.symbol, initial, builtinSymbols, hb]

/-- The scopes at the beginning show these symbols only. -/
theorem sees_initial {i y : Nat} (h : Sees initial.facts.scopes i y) :
    y < initial.facts.symbols.size := by
  induction h with
  | @here i s name y hs hm =>
      have hi : i < 2 := (Array.getElem?_eq_some_iff.mp hs).1
      interval_cases i
      · cases hs
        obtain ⟨⟨b, k⟩, hk, he⟩ := List.mem_map.mp hm
        cases he
        have := List.snd_lt_of_mem_zipIdx hk
        simpa [initial] using this
      · cases hs
        cases hm
  | outer _ _ _ ih => exact ih

/-- The invariant of the analysis holds at its beginning. Every symbol there is a builtin, and the
only function is the program, so nothing is captured and no variable is in sight. -/
theorem inv_initial (ty : Ty) : Inv 0 [] [] [(0, ty)] initial where
  function := rfl
  linked := ⟨rfl, by decide, rfl⟩
  opened := by simp
  nodup := by simp
  opens_lt := by simp [initial]
  scope_lt := by decide
  nested i s p hs hp := by
    have hi : i < 2 := (Array.getElem?_eq_some_iff.mp hs).1
    interval_cases i
    · cases hs
      cases hp
    · cases hs
      cases hp
      decide
  sees y hy := by
    refine ⟨sees_initial hy, fun hv => ?_⟩
    obtain ⟨b, hk, -⟩ := symbol_initial (sees_initial hy)
    rw [IsVariable, hk] at hv
    simp at hv
  live_lt := by simp
  live_function := by simp
  live_slot := by simp
  slots_le := Nat.le_refl _
  coherent := by
    have hst : ∀ y < initial.facts.symbols.size, ∃ b, (initial.facts.symbol y).storage = .builtin b :=
      fun y hy => (symbol_initial hy).imp fun b hb => hb.2.1
    have hinfo : ∀ f < initial.facts.functions.size, initial.facts.info f = mainFunction := by
      intro f hf
      obtain rfl : f = 0 := by
        simp only [initial, List.size_toArray, List.length_singleton] at hf
        omega
      rfl
    have hcap : ∀ f, initial.facts.captures f = [] := by
      intro f
      cases f with
      | zero => rfl
      | succ f => rfl
    refine ⟨fun y hy => ?_, fun y hy f hs => ?_, fun y hy k hs => ?_, fun y hy z hz k hs => ?_,
      fun f y hy => ?_, fun f hf y hy => ?_, fun f _ _ => hcap f, fun y hy f hs => ?_⟩
    · obtain ⟨b, hk, hb, ht⟩ := symbol_initial hy
      unfold Symbol.Coherent
      simp only [hk, hb, ht, and_true]
      rfl
    · obtain ⟨b, hb⟩ := hst y hy
      rw [hb] at hs
      cases hs
    · obtain ⟨b, hb⟩ := hst y hy
      rw [hb] at hs
      cases hs
    · obtain ⟨b, hb⟩ := hst y hy
      rw [hb] at hs
      cases hs
    · rw [hcap] at hy
      cases hy
    · rw [hinfo f hf] at hy
      cases hy
    · obtain ⟨b, hb⟩ := hst y hy
      rw [hb] at hs
      cases hs

/-! ### Programs -/

/-- The analysis of a program is sound: if it passes, the body that it leaves is well typed and in
scope behind the final facts. A program with a tail is one whose last expression is returned. -/
theorem program_sound {b b' : Block} {g : Nat} {live : List Nat} {outer : Nesting} {opens : Opens}
    {s s' : AnalysisState} (hreg : b.Regular true) (h : Passes (programBody b) s b' s')
    (hi : Inv g live outer opens s) (hr : s.Regular) :
    (∃ live', Advances g outer live live' opens opens s s' (b'.functions true) fun F r =>
      b'.SoundBody F g live r (s.context.loopDepth ≠ 0)) ∧ b'.labels = b.labels := by
  cases b with
  | mk n ss tail =>
      cases tail with
      | none =>
          rw [programBody] at h
          obtain ⟨ds, t, hh, h⟩ := h.bind fun _ => keeps_bind (keeps_stmts _ _) fun _ => by simp
          obtain ⟨ss', u, hss, h⟩ := h.bind fun _ => by simp
          obtain ⟨hadv, hmir⟩ := hoisted_sound (stmts_sound ss hreg) hreg hh hss hi hr
          have hlabels : (Block.mk { n with function := some 0 } ss' none).labels =
              (Block.mk n ss none).labels := by
            rw [Block.labels, Block.labels, hmir.labels]
          dsimp only at h
          split at h
          · obtain ⟨_, v, hv, h⟩ := h.bind fun _ => keeps_pure
            obtain ⟨rfl, rfl, -⟩ := passes_pure.mp h
            have hret := passes_expectReturn hv hadv.inv (hadv.moves.regular hr) rfl
            have hall := hadv.trans hret (.refl _) (.refl _)
            rw [List.append_nil] at hall
            refine ⟨⟨_, hall.mono fun F r _ hs => ?_⟩, hlabels⟩
            exact ⟨hs.1.inScope, ⟨hs.1.typed, .inl hs.2.symm⟩, hs.1.looped, hs.1.made.snoc⟩
          · next hend =>
              obtain ⟨rfl, rfl, -⟩ := passes_pure.mp h
              refine ⟨⟨_, hadv.mono fun F r _ hs =>
                ⟨hs.inScope, ⟨hs.typed, .inr ?_⟩, hs.looped, hs.made.snoc⟩⟩, hlabels⟩
              rw [hmir.terminates]
              simpa using hend
      | some e =>
          rw [programBody] at h
          obtain ⟨ds, t, hh, h⟩ := h.bind fun _ => keeps_bind (keeps_stmts _ _) fun _ =>
            keeps_bind (keeps_expr _ _) fun _ => keeps_bind keeps_expectReturn fun _ => keeps_pure
          obtain ⟨ss', u, hss, h⟩ := h.bind fun _ =>
            keeps_bind (keeps_expr _ _) fun _ => keeps_bind keeps_expectReturn fun _ => keeps_pure
          obtain ⟨e', v, he, h⟩ := h.bind fun _ => keeps_bind keeps_expectReturn fun _ => keeps_pure
          obtain ⟨_, w, hw, h⟩ := h.bind fun _ => keeps_pure
          obtain ⟨rfl, rfl, -⟩ := passes_pure.mp h
          obtain ⟨hadv, hmir⟩ :=
            hoisted_sound (stmts_sound ss hreg.2.1) hreg.2.1 hh hss hi hr
          obtain ⟨hee, hfe, hle⟩ := expr_sound e hreg.2.2 he wanted_none hadv.inv
          have hret := passes_expectReturn hw hee.inv (hee.calm.regular (hadv.moves.regular hr)) hfe.1
          have hall := (hadv.trans hee.advances (.refl _) (.refl _)).trans hret (.refl _) (.refl _)
          rw [List.append_nil] at hall
          refine ⟨⟨_, hall.mono fun F r _ hs => ?_⟩, ?_⟩
          · obtain ⟨⟨hss, he⟩, hr⟩ := hs
            exact ⟨⟨hss.inScope, he.inScope⟩, ⟨hss.typed, he.typed, hr⟩, hss.looped,
              (hss.made.append he.made).snoc⟩
          · rw [Block.labels, Block.labels, hmir.labels, hle]

/-- The facts at the end of analysis: the result type of the program is noted. -/
def finish (s : AnalysisState) : Facts :=
  let returns := s.context.returns.getD .unit
  let facts := { s.facts with functions := s.facts.functions.modify 0 fun f => { f with returns } }
  { facts with warnings := facts.unused }

/-- The end of the analysis notes the result type of the program, and changes no other function. -/
theorem info_finish {s : AnalysisState} (hlt : 0 < s.facts.functions.size) (f : Nat) :
    (finish s).info f =
      if f = 0 then { s.facts.info f with returns := s.context.returns.getD .unit }
      else s.facts.info f :=
  Facts.info_modify hlt

/-- The end of the analysis finishes the program. -/
theorem finish_final {ty : Ty} {s : AnalysisState} (hlt : 0 < s.facts.functions.size) :
    Final 0 [(0, ty)] s (finish s) (s.context.returns.getD .unit) := by
  refine ⟨⟨Nat.le_refl _, fun _ _ => .refl _, ?_, fun f _ => ?_, fun f _ h0 => ?_, fun f _ hn => ?_,
    Nat.le_refl _⟩, fun h => absurd rfl h, fun t ht => by rw [ht]; rfl⟩
  · simp [finish]
  · rw [info_finish hlt]
    split
    · exact ⟨rfl, rfl, rfl, List.Subset.refl _⟩
    · exact .refl _
  · rw [info_finish hlt, if_neg h0]
  · rw [info_finish hlt, if_neg]
    rintro rfl
    simp at hn

/-- The facts at the end of analysis are coherent. -/
theorem finish_coherent {ty : Ty} {s : AnalysisState} (hc : Coherent s.facts [(0, ty)])
    (hlt : 0 < s.facts.functions.size) : (finish s).Coherent := by
  have hcaptures : ∀ f, (finish s).captures f = s.facts.captures f := by
    intro f
    rw [Facts.captures, info_finish hlt]
    split
    · rfl
    · rfl
  refine ⟨hc.symbol, fun y hy f hs => ?_, fun y hy f hs => ?_, hc.global_lt, hc.global_inj,
    fun f y hy => hc.captured f y (hcaptures f ▸ hy)⟩
  · have hf := (hc.symbol y hy).of_function hs
    obtain ⟨hlt', ht⟩ := hc.function y hy f hs
    refine ⟨by simpa [finish] using hlt', ht.trans ?_⟩
    rw [typeOf_cons_of_ne hf, typeOf, List.lookup_nil, Option.getD_none, Facts.signature,
      Facts.signature, info_finish hlt, if_neg hf]
    rfl
  · rw [hcaptures]
    exact hc.named f (hc.function y hy f hs).1 (hc.declared y hy f hs)

end Analyze

/-- **Accepted programs.** Analysis without errors gives an accepted program. The run advances from
the initial state, and its final facts are the ones that every statement about bodies speaks of. -/
theorem analyze_accepted {p : Program} (hreg : p.root.Regular true) (h : (analyze p).2 = []) :
    (analyze p).1.Accepted ∧ (analyze p).1.program.root.labels = p.root.labels := by
  generalize hr : (Analyze.programBody p.root).run Analyze.initial = r
  obtain ⟨root, s⟩ := r
  have ha : analyze p =
      ({ program := { p with root, types := { p with root }.typeTable }
         facts := Analyze.finish s }, s.errors.reverse) := by
    unfold analyze
    rw [hr]
    rfl
  rw [ha] at h ⊢
  have hp : Analyze.Passes (Analyze.programBody p.root) Analyze.initial root s :=
    ⟨hr, by simpa using h⟩
  obtain ⟨⟨live', hadv⟩, hlabels⟩ :=
    Analyze.program_sound hreg hp (Analyze.inv_initial .unit) nofun
  have hlt := hadv.inv.linked.head_lt
  have hsound := hadv.holds _ _ (Analyze.finish_final hlt)
  have hparams : ((Analyze.finish s).info 0).params = [] := by
    rw [Analyze.info_finish hlt, if_pos rfl]
    exact hadv.moves.params 0 (Nat.le_refl _)
  have hreturns : ((Analyze.finish s).info 0).returns = s.context.returns.getD .unit := by
    rw [Analyze.info_finish hlt, if_pos rfl]
  refine ⟨⟨Analyze.finish_coherent hadv.inv.coherent hlt, ?_, hsound.made, hparams, ?_,
    fun f hf h0 => ?_, rfl⟩, hlabels⟩
  · refine ⟨by simpa [Analyze.finish] using hlt, fun i y hy => ?_, ?_, ?_, ?_, ?_⟩
    · rw [hparams] at hy
      cases hy
    · simp [hparams]
    · rw [hparams]
      exact hsound.inScope
    · rw [hreturns]
      exact hsound.typed
    · simpa [Analyze.initial] using hsound.looped
  · have hk : (s.facts.info 0).kind = .main := (hadv.moves.grows.function 0 (by decide)).kind
    rw [Facts.captures, Analyze.info_finish hlt, if_pos rfl]
    exact hadv.inv.coherent.named 0 hlt (by rw [hk]; decide)
  · have hlast : Analyze.Finished [(0, Ty.unit)] s f :=
      ⟨by simpa [Analyze.finish] using hf, Analyze.lookup_cons_of_ne h0⟩
    rcases hadv.finishes f hlast with ⟨hlt', -⟩ | hmem
    · simp only [Analyze.initial, List.size_toArray, List.length_singleton] at hlt'
      omega
    · exact hmem

/-- If the tokens of a text can be lexed, its parse is aborted, or gives the tree of the tokens, or
reports what is wrong with it. -/
theorem CompileOptions.parse_of_lex {o : CompileOptions} {text : List Char} {tokens : List Token}
    (h : o.lex text = .ok tokens) :
    o.parse text =
      if parseOverflows o.grammar tokens then .error .aborted
      else
        let (program, errors) := parseTokens o.grammar (byteLength text) tokens
        if errors.isEmpty then .ok program
        else .error (errors.map fun e =>
          .located (LineIndex.ofText text) .parser .error e.message e.range) := by
  simp only [parse, parseAll, h, bind, Except.bind]
  cases parseOverflows o.grammar tokens with
  | true => rfl
  | false => rfl

/-- A text that can not be lexed is not aborted: there is something to report. -/
theorem CompileOptions.parse_of_lex_error {o : CompileOptions} {text : List Char}
    {e : Diagnostics} (h : o.lex text = .error e) :
    o.parse text = .error e ∧ e ≠ .aborted := by
  refine ⟨by simp only [parse, parseAll, h, bind, Except.bind], ?_⟩
  rintro rfl
  unfold lex at h
  dsimp only at h
  split at h
  · cases h
  · next hne => exact hne (by rw [Except.error.inj h]; rfl)

/-- A text is parsed if there are no errors among its tokens and in its tree, and the parse does
not overflow. -/
theorem CompileOptions.parse_eq_ok_iff {o : CompileOptions} {text : List Char} {p : Program} :
    o.parse text = .ok p ↔ ∃ tokens, o.lex text = .ok tokens ∧
      parseOverflows o.grammar tokens = false ∧
      parseTokens o.grammar (byteLength text) tokens = (p, []) := by
  cases hlex : o.lex text with
  | error e => simp [(parse_of_lex_error hlex).1]
  | ok tokens =>
      rw [parse_of_lex hlex]
      rcases hp : parseTokens o.grammar (byteLength text) tokens with ⟨p', errors⟩
      cases ho : parseOverflows o.grammar tokens <;> cases errors <;> simp [hp, ho]

/-- A compilation is aborted before analysis exactly where the parse of the tokens overflows. -/
theorem CompileOptions.parse_eq_aborted_iff {o : CompileOptions} {text : List Char} :
    o.parse text = .error .aborted ↔
      ∃ tokens, o.lex text = .ok tokens ∧ parseOverflows o.grammar tokens = true := by
  cases hlex : o.lex text with
  | error e => simp [parse_of_lex_error hlex]
  | ok tokens =>
      rw [parse_of_lex hlex]
      rcases hp : parseTokens o.grammar (byteLength text) tokens with ⟨p', errors⟩
      cases ho : parseOverflows o.grammar tokens <;> cases errors <;>
        simp [ho, Diagnostics.aborted]

/-- What parsing gives is the tree of some tokens. -/
theorem CompileOptions.parse_eq_ok {o : CompileOptions} {text : List Char} {p : Program}
    (h : o.parse text = .ok p) :
    ∃ tokens, p = (parseTokens o.grammar (byteLength text) tokens).1 := by
  obtain ⟨tokens, -, -, hparsed⟩ := parse_eq_ok_iff.mp h
  exact ⟨tokens, by rw [hparsed]⟩

/-- What the analysis of a text gives is the analysis of the tree of some tokens, without
errors. -/
theorem CompileOptions.analyze_eq_ok {o : CompileOptions} {text : List Char} {a : Analyzed}
    (h : o.analyze text = .ok a) :
    ∃ tokens, a = (Parlance.analyze (parseTokens o.grammar (byteLength text) tokens).1).1 ∧
      (Parlance.analyze (parseTokens o.grammar (byteLength text) tokens).1).2 = [] := by
  unfold CompileOptions.analyze at h
  cases hp : o.parse text with
  | error e =>
      rw [hp] at h
      cases h
  | ok p =>
      obtain ⟨tokens, rfl⟩ := CompileOptions.parse_eq_ok hp
      simp only [hp, bind, Except.bind] at h
      split at h
      · next he =>
          cases h
          exact ⟨tokens, rfl, List.isEmpty_iff.mp he⟩
      · cases h

/-- **Accepted texts.** The analysis of a text gives an accepted program. No two nodes of it share
a label. -/
theorem CompileOptions.analyze_accepted {o : CompileOptions} {text : List Char} {a : Analyzed}
    (h : o.analyze text = .ok a) : a.Accepted ∧ a.program.root.labels.Nodup := by
  obtain ⟨tokens, rfl, he⟩ := CompileOptions.analyze_eq_ok h
  obtain ⟨hacc, hlabels⟩ := Parlance.analyze_accepted parseTokens_regular he
  exact ⟨hacc, hlabels ▸ parseTokens_labels.1⟩

end Parlance
