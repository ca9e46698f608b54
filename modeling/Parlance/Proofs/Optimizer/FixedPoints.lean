import Parlance.Proofs.Optimizer.Settling

/-!
# Fixed points of the optimizer

A sweep counts its changes apart from making them. The count can be trusted: a sweep that counts
nothing leaves the tree, the facts and the labels as they are, and one that counts something makes
a change. So the answers of the passes mean what they say. A pass that ends has nothing left to do
on what it gives, and when all passes together end, none of them has.

## Main results

* `DeadCode.block_eq_of_count`, `Share.block_eq_of_count`, `Fold.block_eq_of_count`: no changes
  are made without a count, in any block.
* `Pass.sweep_eq_of_count`: the same for the sweeps.
* `optimized_is_fixed`: what passes and the optimizer give is a fixed point.
-/

namespace Parlance

/-! ### Blocks -/

namespace DeadCode

/-- The statements behind a divergence stay if no change is counted. -/
theorem unreachable_eq_of_count {ss : List Stmt} (h : (unreachable ss).changes = 0) :
    (unreachable ss).stmts = ss := by
  have hle : ss.length ≤ (ss.filter isDeclaration).length := Nat.sub_eq_zero_iff_le.mp h
  exact List.filter_sublist.eq_of_length_le hle

/-- Statements stay if no change is counted. -/
theorem reachable_eq_of_count {ss : List Stmt} :
    (reachable ss).changes = 0 → (reachable ss).stmts = ss := by
  induction ss with
  | nil => exact fun _ => rfl
  | cons s ss ih =>
      rw [reachable]
      split
      · exact fun h => absurd h (Nat.succ_ne_zero _)
      · split
        · exact fun h => congrArg (s :: ·) (unreachable_eq_of_count (Nat.add_eq_zero_iff.mp h).2)
        · exact fun h => congrArg (s :: ·) (ih (Nat.add_eq_zero_iff.mp h).2)
      · exact fun h => absurd (Nat.add_eq_zero_iff.mp h).1 Nat.one_ne_zero

/-- No store was dropped if none is counted. -/
theorem dropStores_eq_of_count (facts : Facts) (tail : Option Expr) (before ss : List Stmt)
    (h : (dropStores facts tail before ss).2 = 0) :
    (dropStores facts tail before ss).1 = before ++ ss := by
  fun_induction dropStores facts tail before ss with
  | case1 before => exact (List.append_nil _).symm
  | case2 before s ss ss' hs out changes hout ih => cases h
  | case3 before s ss hs ih => rw [ih h, List.append_assoc, List.singleton_append]

/-- Dead code is not swept without a count. -/
theorem block_eq_of_count {facts : Facts} {b : Block} :
    (block facts b).2 = 0 → (block facts b).1 = b := by
  obtain ⟨n, ss, tail⟩ := b
  rw [block]
  dsimp only
  split
  · intro h
    omega
  · intro h
    obtain ⟨hswept, hdropped⟩ := Nat.add_eq_zero_iff.mp h
    rw [dropStores_eq_of_count _ _ _ _ hdropped, reachable_eq_of_count hswept, List.nil_append]

end DeadCode

/-- Sharing that counts nothing in a block leaves the block, the facts and the labels as they are.
-/
theorem Share.block_eq_of_count {function : Nat} {b : Block} {s : Supply}
    (h : ((block function b).run s).1.2 = 0) : (block function b).run s = ((b, 0), s) :=
  block_of_settled ((settled_block function b s).2 h)

/-- Folding that counts nothing in a block leaves the block and the log as they are. -/
theorem Fold.block_eq_of_count {b : Block} {log : Log}
    (h : ((block b).run log).2.count = log.count) : (block b).run log = (b, log) := by
  have hsettles := settles_block b
  by_cases hfolded : b.Folded
  · exact hsettles.same hfolded log
  · have := hsettles.counts hfolded log
    omega

/-! ### Sweeps -/

namespace Analyzed

variable {a b : Analyzed}

/-- The removal of dead code that counts nothing in the block with a label leaves everything as it
is. -/
theorem sweepDeadCode_eq_of_count {label : Nat} :
    (a.sweepDeadCode label).2 = 0 → a.sweepDeadCode label = (a, 0) := by
  rw [sweepDeadCode]
  split
  · exact fun _ => rfl
  · dsimp only
    split
    · exact fun _ => rfl
    · next hne => exact fun h => absurd h hne

/-- Sharing that counts nothing in the block with a label leaves everything as it is. -/
theorem sweepRepeated_eq_of_count {label : Nat} :
    (a.sweepRepeated label).2 = 0 → a.sweepRepeated label = (a, 0) := by
  rw [sweepRepeated]
  split
  · exact fun _ => rfl
  · split
    split
    · exact fun _ => rfl
    · next hne => exact fun h => absurd h hne

/-- A sweep over blocks counts nothing only if it counts nothing in each block. -/
theorem sweepBlocks_eq_of_count {sweep : Analyzed → Nat → Analyzed × Nat}
    (hsweep : ∀ {a label}, (sweep a label).2 = 0 → sweep a label = (a, 0))
    (h : (a.sweepBlocks sweep).2 = 0) : a.sweepBlocks sweep = (a, 0) := by
  have hfold : ∀ (blocks : List OwnedBlock) (r : Analyzed × Nat),
      r.2 ≤ (blocks.foldl (sweepStep sweep) r).2 ∧
        ((blocks.foldl (sweepStep sweep) r).2 = r.2 → blocks.foldl (sweepStep sweep) r = r) := by
    intro blocks
    induction blocks with
    | nil => exact fun r => ⟨Nat.le_refl _, fun _ => rfl⟩
    | cons b blocks ih =>
        intro r
        obtain ⟨hle, hsame⟩ := ih (sweepStep sweep r b)
        have hstep : (sweepStep sweep r b).2 = r.2 + (sweep r.1 b.1.note.id).2 := rfl
        rw [List.foldl_cons]
        refine ⟨by omega, fun hcount => ?_⟩
        have hzero : sweep r.1 b.1.note.id = (r.1, 0) := hsweep (by omega)
        have hkept : sweepStep sweep r b = r := by rw [sweepStep, hzero]; rfl
        rw [hsame (by omega), hkept]
  exact (hfold _ (a, 0)).2 h

end Analyzed

/-- **One sweep.** A sweep that counts nothing leaves the program, with its facts and labels. -/
theorem Pass.sweep_eq_of_count {p : Pass} {a : Analyzed} (h : (p.sweep a).2 = 0) :
    p.sweep a = (a, 0) := by
  cases p with
  | constantFolding => exact foldSweep_eq_of_count h
  | deadCode => exact Analyzed.sweepBlocks_eq_of_count Analyzed.sweepDeadCode_eq_of_count h
  | commonSubexpr => exact Analyzed.sweepBlocks_eq_of_count Analyzed.sweepRepeated_eq_of_count h

/-- A sweep counts something if and only if it changes the program. -/
theorem Pass.count_eq_zero_iff (p : Pass) {a : Analyzed} (h : a.program.Labelled) :
    (p.sweep a).2 = 0 ↔ (p.sweep a).1 = a := by
  constructor
  · intro hcount
    rw [p.sweep_eq_of_count hcount]
  · intro hsame
    by_contra hchange
    have hlt := p.measure_sweep_lt h hchange
    rw [hsame] at hlt
    exact lt_irrefl _ hlt

/-! ### Passes -/

/-- What a repeated sweep ends with is swept. If it answers that nothing changed, it ends with
what it started with. -/
theorem repeatSweep_fixed {p : Pass} {a b : Analyzed} {rounds : Nat} {changed answer : Bool}
    (h : repeatSweep p.sweep rounds changed a = (b, some answer)) :
    p.sweep b = (b, 0) ∧ (changed = true → answer = true) ∧ (answer = false → b = a) := by
  induction rounds generalizing a changed with
  | zero => cases h
  | succ rounds ih =>
      rcases hsweep : p.sweep a with ⟨a', changes⟩
      rw [repeatSweep, hsweep] at h
      cases changes with
      | zero =>
          cases h
          have hsame := p.sweep_eq_of_count (by rw [hsweep])
          rw [hsweep, Prod.mk.injEq] at hsame
          obtain ⟨rfl, -⟩ := hsame
          exact ⟨hsweep, fun h => h, fun _ => rfl⟩
      | succ changes =>
          obtain ⟨hfixed, htrue, -⟩ := ih h
          refine ⟨hfixed, fun _ => htrue rfl, fun hfalse => ?_⟩
          rw [htrue rfl] at hfalse
          cases hfalse

namespace Analyzed

variable {a b : Analyzed}

/-- A pass ends with a sweep that counts nothing, and gives back what it was given if it reports no
change. -/
theorem runPass_fixed {p : Pass} {changed : Bool} (h : a.runPass p = (b, .ok changed)) :
    p.sweep b = (b, 0) ∧ (changed = false → b = a) := by
  rw [runPass] at h
  split at h
  · next b' answer hrepeat =>
      cases h
      obtain ⟨hfixed, -, hsame⟩ := repeatSweep_fixed hrepeat
      exact ⟨hfixed, hsame⟩
  · cases h

/-- A pass that has nothing to do says so. -/
theorem runPass_of_fixed {p : Pass} (h : p.sweep a = (a, 0)) : a.runPass p = (a, .ok false) := by
  have hrepeat : repeatSweep p.sweep maxRounds false a = (a, some false) := by
    rw [maxRounds, repeatSweep, h]
  rw [runPass, hrepeat]

/-- Passes that together change nothing have nothing to do, each of them. A pass that had answered
true would make the answer true. -/
theorem runPasses_fixed {ps : List Pass} {changed answer : Bool}
    (h : runPasses ps changed a = (b, .ok answer)) :
    (changed = true → answer = true) ∧
      (answer = false → b = a ∧ ∀ p ∈ ps, p.sweep a = (a, 0)) := by
  induction ps generalizing a changed with
  | nil =>
      cases h
      exact ⟨fun h => h, fun _ => ⟨rfl, List.forall_mem_nil _⟩⟩
  | cons p ps ih =>
      rw [runPasses] at h
      split at h
      · next a' c hpass =>
          obtain ⟨hfixed, hsame⟩ := runPass_fixed hpass
          obtain ⟨htrue, hrest⟩ := ih h
          refine ⟨fun hc => htrue (by rw [hc, Bool.true_or]), fun hfalse => ?_⟩
          have hc : c = false := by
            cases c with
            | false => rfl
            | true =>
                rw [htrue (Bool.or_true _)] at hfalse
                cases hfalse
          obtain rfl := hsame hc
          obtain ⟨rfl, hps⟩ := hrest hfalse
          exact ⟨rfl, List.forall_mem_cons.mpr ⟨hfixed, hps⟩⟩
      · cases h

/-- Passes that would count nothing report no change. -/
theorem runPasses_of_fixed {ps : List Pass} (h : ∀ p ∈ ps, p.sweep a = (a, 0)) :
    runPasses ps false a = (a, .ok false) := by
  induction ps with
  | nil => rfl
  | cons p ps ih =>
      rw [List.forall_mem_cons] at h
      rw [runPasses, runPass_of_fixed h.1]
      exact ih h.2

/-- Rounds end where no pass counts anything. -/
theorem optimizeRounds_fixed {rounds round n : Nat}
    (h : optimizeRounds rounds round a = (b, .ok n)) : ∀ p ∈ Pass.all, p.sweep b = (b, 0) := by
  induction rounds generalizing a round with
  | zero => cases h
  | succ rounds ih =>
      rw [optimizeRounds] at h
      split at h
      · next hpasses =>
          cases h
          obtain ⟨rfl, hfixed⟩ := (runPasses_fixed hpasses).2 rfl
          exact hfixed
      · exact ih h
      · cases h

/-- Where no pass counts anything the optimizer ends in its first round. -/
theorem optimize_of_fixed (h : ∀ p ∈ Pass.all, p.sweep a = (a, 0)) : a.optimize = (a, .ok 1) := by
  rw [optimize, maxRounds, optimizeRounds, runPasses_of_fixed h]

end Analyzed

/-- **Fixed points are real.** If analysis finds no errors in a program, then after any sweeps:
a sweep counts nothing if and only if it leaves the program, with its facts and labels; a pass that
ends answers `false` when it runs again, and changes nothing; and if the optimizer ends, every pass
answers `false` on what it gives, and the optimizer takes one round, both without a change. The
counts of the passes are right in every block. -/
theorem optimized_is_fixed (g : Grammar) (size : Nat) (tokens : List Token)
    (h : (analyze (parseTokens g size tokens).1).2 = []) :
    let a := (analyze (parseTokens g size tokens).1).1
    (∀ b, a.Sweeps b →
      (∀ p : Pass, (p.sweep b).2 = 0 ↔ (p.sweep b).1 = b) ∧
      (∀ (p : Pass) (c : Analyzed) (changed : Bool), b.runPass p = (c, .ok changed) →
        c.runPass p = (c, .ok false)) ∧
      (∀ (c : Analyzed) (rounds : Nat), b.optimize = (c, .ok rounds) →
        (∀ p : Pass, c.runPass p = (c, .ok false)) ∧ c.optimize = (c, .ok 1))) ∧
    (∀ (facts : Facts) (b : Block), (DeadCode.block facts b).2 = 0 →
      DeadCode.block facts b = (b, 0)) ∧
    (∀ (function : Nat) (b : Block) (s : Share.Supply),
      ((Share.block function b).run s).1.2 = 0 → (Share.block function b).run s = ((b, 0), s)) ∧
    ∀ (b : Block) (log : Fold.Log), ((Fold.block b).run log).2.count = log.count →
      (Fold.block b).run log = (b, log) := by
  intro a
  refine ⟨fun b hb => ⟨fun p => p.count_eq_zero_iff ?_, ?_, ?_⟩, fun facts b hcount => ?_, ?_, ?_⟩
  · refine hb.labelled fun x => ?_
    rw [(analyze_accepted parseTokens_regular h).2]
    exact parseTokens_labelled g size tokens x
  · intro p c changed hrun
    exact Analyzed.runPass_of_fixed (Analyzed.runPass_fixed hrun).1
  · intro c rounds hrun
    have hfixed := Analyzed.optimizeRounds_fixed hrun
    refine ⟨fun p => Analyzed.runPass_of_fixed (hfixed p ?_), Analyzed.optimize_of_fixed hfixed⟩
    cases p <;> decide
  · exact Prod.ext (DeadCode.block_eq_of_count hcount) hcount
  · exact fun function b s => Share.block_eq_of_count
  · exact fun b log => Fold.block_eq_of_count

/-- What the optimizer makes of `addsSquares`. -/
theorem optimize_addsSquares :
    (CompileOptions.lex {} addsSquares).toOption.map (fun tokens =>
      let p := (parseTokens .standard 24 tokens).1
      ((analyze p).2.isEmpty, (analyze p).1.optimize.2.toOption)) = some (true, some 2) := by
  rw [Grammar.standard_eq]
  decide +kernel

/-- The optimizer takes a second round for `addsSquares`, and then has nothing to do. -/
theorem addsSquares_is_fixed :
    ∃ tokens, CompileOptions.lex {} addsSquares = .ok tokens ∧
      (analyze (parseTokens .standard 24 tokens).1).2 = [] ∧
      ∃ b, (analyze (parseTokens .standard 24 tokens).1).1.optimize = (b, .ok 2) ∧
        b.optimize = (b, .ok 1) := by
  have h := optimize_addsSquares
  cases hl : CompileOptions.lex {} addsSquares with
  | error e => simp [hl, Except.toOption] at h
  | ok tokens =>
      simp only [hl, Except.toOption, Option.map_some, Option.some.injEq, Prod.mk.injEq,
        List.isEmpty_iff] at h
      obtain ⟨herrors, hrounds⟩ := h
      rcases hrun : (analyze (parseTokens .standard 24 tokens).1).1.optimize with ⟨b, answer⟩
      rw [hrun] at hrounds
      cases answer with
      | error e => cases hrounds
      | ok rounds =>
          cases hrounds
          refine ⟨tokens, rfl, herrors, b, hrun, ?_⟩
          exact (((optimized_is_fixed .standard 24 tokens herrors).1 _ .refl).2.2 b 2 hrun).2

end Parlance
