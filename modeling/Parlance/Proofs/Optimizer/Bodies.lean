import Parlance.Proofs.Optimizer.Sweeping

/-!
# Bodies after sweeps

A sweep puts a body in the place of each body. Some properties of bodies are kept by all that the
passes do to one block, and by the block around it. Then they are kept by sweeps: this is shown here
once, for any relation between a block and what takes its place.

## Main definitions

* `Respects`: a relation that holds between a block and what a pass makes of it.
* `Analyzed.Related`: functions have bodies related to those that they had.

## Main results

* `Analyzed.Sweeps.related`: any sweeps.
-/

namespace Parlance

/-- A relation that holds between a block and what takes its place in a sweep. -/
structure Respects (R : Block → Block → Prop) : Prop where
  refl (b : Block) : R b b
  trans {b c d : Block} : R b c → R c d → R b d
  /-- A block around a block that is replaced. -/
  update {label : Nat} {new : Block} (b : Block) {f : Nat} :
    (∀ c ∈ b.blocks f, c.1.note.id = label → R c.1 new) → R b (b.update label fun _ => new)
  folded {owner : Nat → Nat} {b : Block} {f : Nat} : b.Noted owner f → R b b.folded
  deadCode (facts : Facts) (b : Block) : R b (DeadCode.block facts b).1
  shared (function : Nat) {s : Share.Supply} {b : Block} :
    Share.Distinct s.labels b.labels → R b ((Share.block function b).run s).1.1

namespace Analyzed

variable {R : Block → Block → Prop} {owner : Nat → Nat} {a b c : Analyzed} {label : Nat}

/-- The same functions have bodies, and each body is related to the one that the function had. -/
structure Related (R : Block → Block → Prop) (a b : Analyzed) : Prop where
  keys : (b.bodies.map Prod.fst).Perm (a.bodies.map Prod.fst)
  body : ∀ p ∈ b.bodies, ∃ q ∈ a.bodies, q.1 = p.1 ∧ R q.2 p.2

/-- A program is related to itself. -/
theorem Related.refl (hR : Respects R) (a : Analyzed) : Related R a a :=
  ⟨.refl _, fun p hp => ⟨p, hp, rfl, hR.refl p.2⟩⟩

/-- Related programs may follow one another. -/
theorem Related.trans (hR : Respects R) (h : Related R a b) (h' : Related R b c) :
    Related R a c := by
  refine ⟨h'.keys.trans h.keys, fun r hr => ?_⟩
  obtain ⟨q, hq, hqr, ht'⟩ := h'.body r hr
  obtain ⟨p, hp, hpq, ht⟩ := h.body q hq
  exact ⟨p, hp, hpq.trans hqr, hR.trans ht ht'⟩

/-- Bodies that change one by one. -/
theorem Related.of_perm {change : Block → Block}
    (hperm : b.bodies.Perm (a.bodies.map fun p => (p.1, change p.2)))
    (h : ∀ p ∈ a.bodies, R p.2 (change p.2)) : Related R a b where
  keys := by
    have := hperm.map Prod.fst
    rwa [List.map_map] at this
  body p hp := by
    obtain ⟨q, hq, rfl⟩ := List.mem_map.mp (hperm.mem_iff.mp hp)
    exact ⟨q, hq, rfl, h q hq⟩

/-- A block in the place of the one with its label. -/
theorem Sound.related_setBlock (hR : Respects R) (h : a.Sound owner) {old : OwnedBlock}
    {new : Block} (hold : old ∈ a.allBlocks) (hid : old.1.note.id = label)
    (hn : new.Noted owner old.2)
    (hsub : (new.functions false).Sublist (old.1.functions false)) (hnew : R old.1 new)
    (hroot : b.program.root = a.program.root.update label fun _ => new)
    (hdetached : b.detached =
      a.detached.map (FunctionBody.put label new) ++ old.1.functionsLost new) : Related R a b := by
  have hperm := h.perm_bodies hold hid hroot hdetached (h.functions_lost hold hn hsub)
  refine .of_perm hperm fun q hq => hR.update q.2 (f := q.1) fun c hc hcid => ?_
  obtain ⟨t, ht, hin⟩ := Analyzed.exists_tree hold
  obtain rfl := h.eq_of_label hq ht hc hin (hcid.trans hid.symm)
  exact hnew

/-- The removal of dead code in a block leaves related bodies. -/
theorem Sound.related_sweepDeadCode (hR : Respects R) (h : a.Sound owner) :
    Related R a (a.sweepDeadCode label).1 := by
  unfold Analyzed.sweepDeadCode
  split
  · exact .refl hR a
  · next b f hfind =>
      have hold := List.mem_of_find?_eq_some hfind
      obtain ⟨-, hnoted, -⟩ := h.block hold
      dsimp only
      split
      · exact .refl hR a
      · exact h.related_setBlock hR hold (by simpa using List.find?_some hfind)
          (DeadCode.block_noted a.facts hnoted) (DeadCode.functions_block a.facts b)
          (hR.deadCode a.facts b) rfl rfl

/-- Sharing in a block leaves related bodies. -/
theorem Sound.related_sweepRepeated (hR : Respects R) (h : a.Sound owner) :
    Related R a (a.sweepRepeated label).1 := by
  unfold Analyzed.sweepRepeated
  split
  · exact .refl hR a
  · next b f hfind =>
      have hold := List.mem_of_find?_eq_some hfind
      obtain ⟨-, hnoted, hdistinct⟩ := h.block hold
      obtain ⟨hlt, -, live, hlive, hscoped⟩ := h.scope hold
      obtain ⟨-, -, hnew, hfunctions, -⟩ := replaces_repeated
        (s := a.supply) h.orderly hlt hnoted hdistinct hlive
        hscoped
      have hshared := hR.shared f (s := a.supply) hdistinct
      split
      next new count supply heq =>
        rw [heq] at hnew hfunctions hshared
        split
        · exact .refl hR a
        · refine h.related_setBlock hR hold (by simpa using List.find?_some hfind) hnew ?_ hshared
            rfl rfl
          rw [hfunctions]

/-- Folding leaves related bodies. -/
theorem Sound.related_foldSweep (hR : Respects R) (h : a.Sound owner) :
    Related R a (Parlance.foldSweep a).1 := by
  have hperm := h.perm_foldSweep
  have hbodies : a.bodies =
      FunctionBody.all (0, a.program.root) ++ a.detached.flatMap FunctionBody.all :=
    a.bodies_eq.trans List.flatMap_cons
  refine ⟨?_, fun p hp => ?_⟩
  · have hkeys := hperm.map Prod.fst
    rw [List.map_append, List.map_map] at hkeys
    rw [hbodies, List.map_append]
    exact hkeys
  · rcases List.mem_append.mp (hperm.mem_iff.mp hp) with hp | hp
    · obtain ⟨q, hq, rfl⟩ := List.mem_map.mp hp
      have hq : q ∈ a.bodies := List.mem_append_left _ hq
      exact ⟨q, hq, rfl, hR.folded (h.noted q hq)⟩
    · exact ⟨p, List.mem_append_right _ hp, rfl, hR.refl p.2⟩

/-- **One sweep.** -/
theorem Sound.related_sweep (hR : Respects R) (h : a.Sound owner) (p : Pass) :
    Related R a (p.sweep a).1 := by
  have hblocks : ∀ {sweep : Analyzed → Nat → Analyzed × Nat},
      (∀ (c : Analyzed) (label : Nat), c.Sound owner →
        (sweep c label).1.Sound owner ∧ Related R c (sweep c label).1) →
      Related R a (a.sweepBlocks sweep).1 := by
    intro sweep hsweep
    exact (sweepBlocks_keeps (P := fun c => c.Sound owner ∧ Related R a c)
      (fun c label hc => (hsweep c label hc.1).imp_right (hc.2.trans hR))
      ⟨h, .refl hR a⟩).2
  cases p with
  | constantFolding => exact h.related_foldSweep hR
  | deadCode => exact hblocks fun c _ hc => ⟨hc.sweepDeadCode.1, hc.related_sweepDeadCode hR⟩
  | commonSubexpr => exact hblocks fun c _ hc => ⟨hc.sweepRepeated.1, hc.related_sweepRepeated hR⟩

/-- **Sweeps.** After any sweeps each body is related to the one that the function had. -/
theorem Sweeps.related (hs : a.Sweeps b) (hR : Respects R) (h : a.Sound owner) :
    Related R a b := by
  induction hs with
  | refl => exact .refl hR a
  | sweep p hs ih => exact ih.trans hR ((hs.sound h).1.related_sweep hR p)

end Analyzed

end Parlance
