import Parlance.Proofs.Analysis.Notes
import Parlance.Proofs.Optimizer.Consistency

/-!
# Sweeps keep results

Every sweep of the optimizer changes the bodies of functions and nothing else: each function has
a body before and after, also one that lost its place in the program. So a sweep is a list of
bodies with what takes their place, and it is enough to compare them one by one.

A sweep of one block changes every body around the block. Labels tell blocks apart, so there is
one block with a label, in the body of one function.

## Main definitions

* `Analyzed.trees`: the program and the functions that lost their place.
* `Analyzed.Sound`: what sweeps rely on, and keep.

## Main results

* `Analyzed.Sound.change`: bodies that are replaced by better ones.
* `Analyzed.Sound.setBlock`: a block in the place of another one.
* `Pass.sound_sweep`: one sweep.
* `Analyzed.Sweeps.sound`: any sweeps.
* `CompileOptions.analyze_sound`: the analysis of a text.
-/

namespace Parlance

open BigStep BigStep.Eval

/-! ### Trees -/

namespace Analyzed

/-- The program and the functions that lost their place. -/
def trees (a : Analyzed) : List FunctionBody :=
  (0, a.program.root) :: a.detached

/-- All bodies are those of the trees, one tree after the other. -/
theorem bodies_eq (a : Analyzed) : a.bodies = a.trees.flatMap FunctionBody.all :=
  rfl

/-- All blocks are those of the trees, one tree after the other. -/
theorem allBlocks_eq (a : Analyzed) : a.allBlocks = a.trees.flatMap fun p => p.2.blocks p.1 :=
  rfl

/-- What sweeps rely on. -/
structure Sound (owner : Nat → Nat) (a : Analyzed) : Prop where
  orderly : a.facts.Orderly
  settled : a.facts.Settled
  /-- A function has one body. -/
  keys : (a.bodies.map Prod.fst).Nodup
  noted : ∀ p ∈ a.bodies, p.2.Noted owner p.1
  distinct : ∀ p ∈ a.bodies, Share.Distinct a.program.labels p.2.labels
  fits : ∀ p ∈ a.bodies, a.facts.Fits p.1 p.2
  consistent : ∀ p ∈ a.bodies, p.2.Consistent a.facts

end Analyzed

/-- A body that is found belongs to the list. -/
theorem mem_of_lookup {bodies : List FunctionBody} {f : Nat} {b : Block}
    (h : bodies.lookup f = some b) : (f, b) ∈ bodies := by
  obtain ⟨before, after, rfl, -⟩ := List.lookup_eq_some_iff.mp h
  simp

/-- If no function occurs twice, a body of the list is found under its function. -/
theorem lookup_of_mem {bodies : List FunctionBody} (hn : (bodies.map Prod.fst).Nodup) {f : Nat}
    {b : Block} (h : (f, b) ∈ bodies) : bodies.lookup f = some b := by
  induction bodies with
  | nil => cases h
  | cons p bodies ih =>
      obtain ⟨hp, hn⟩ := List.nodup_cons.mp hn
      rcases List.mem_cons.mp h with rfl | h
      · rw [List.lookup_cons_self]
      · have hne : f ≠ p.1 := fun he => hp (he ▸ List.mem_map_of_mem h)
        rw [List.lookup_cons, beq_false_of_ne hne]
        exact ih hn h

/-- A function with one body. -/
theorem eq_of_key_eq {bodies : List FunctionBody} (hn : (bodies.map Prod.fst).Nodup)
    {p q : FunctionBody} (hp : p ∈ bodies) (hq : q ∈ bodies) (h : p.1 = q.1) : p = q :=
  List.inj_on_of_nodup_map hn hp hq h

/-- Distinct labels occur at most once each. -/
theorem Share.Distinct.count_le_one {k : Nat} {labels : List Nat} (h : Share.Distinct k labels)
    (x : Nat) : labels.count x ≤ 1 := by
  have := h x
  unfold fresh at this
  split at this <;> omega

/-- More facts, and another body. -/
theorem Facts.Fits.extend {F F' : Facts} {f : Nat} {b b' : Block} (h : F.Fits f b)
    (he : F.Extends F') (hs : b'.Scoped F' f (F.info f).params) : F'.Fits f b' where
  lt := he.functions_size ▸ h.lt
  param i y hy := by
    rw [he.params] at hy
    obtain ⟨hlt, hkind, hstorage, howner⟩ := h.param i y hy
    rw [← he.symbol y hlt] at hkind hstorage howner
    exact ⟨Nat.lt_of_lt_of_le hlt he.symbols_le, hkind, hstorage, howner⟩
  params_le := by
    rw [he.params]
    exact Nat.le_trans h.params_le (he.slots_le f)
  inScope := by
    rw [he.params]
    exact hs

/-- An activation in which no call has a result. It stands for all others where only scopes
matter. -/
def quiet (F : Facts) (function : Nat) : Activation :=
  { facts := F, inputs := [], maxDepth := 0, function, captures := [], depth := 0, fuel := 0,
    call := fun _ _ _ => never }

/-- The quiet activation agrees with itself, so theorems about two activations apply to it. -/
theorem twins_quiet {F : Facts} (hF : F.Orderly) (function : Nat) :
    Twins (quiet F function) (quiet F function) :=
  ⟨hF, .refl F, rfl, fun _ _ _ _ _ _ _ _ hm => hm.elim⟩

section

variable {owner : Nat → Nat} {a a' : Analyzed}

/-! ### Changed bodies -/

/-- Sound facts have every name in scope. -/
theorem Analyzed.Sound.inScope (h : a.Sound owner) : a.InScope :=
  ⟨h.orderly, fun f b hb => h.fits (f, b) (mem_of_lookup hb)⟩

/-- **Changed bodies.** If every body is replaced by one that does the same and keeps what sweeps
rely on, then the whole program does the same. -/
theorem Analyzed.Sound.change (h : a.Sound owner) (changes : List (FunctionBody × Block))
    (hbefore : changes.map Prod.fst = a.bodies)
    (hafter : a'.bodies.Perm (changes.map fun c => (c.1.1, c.2)))
    (hmore : a.facts.Extends a'.facts) (horderly : a'.facts.Orderly) (hsettled : a'.facts.Settled)
    (hnoted : ∀ c ∈ changes, c.2.Noted owner c.1.1)
    (hdistinct : ∀ c ∈ changes, Share.Distinct a'.program.labels c.2.labels)
    (hfits : ∀ c ∈ changes, a'.facts.Fits c.1.1 c.2)
    (hconsistent : ∀ c ∈ changes, c.2.Consistent a'.facts)
    (himproves : ∀ c ∈ changes, Improves a'.facts c.1.1 c.1.2 c.2) :
    a'.Sound owner ∧ a.RefinedBy a' := by
  have hkeys : (a'.bodies.map Prod.fst).Nodup := by
    rw [(hafter.map Prod.fst).nodup_iff]
    have heq : (changes.map fun c => (c.1.1, c.2)).map Prod.fst = a.bodies.map Prod.fst := by
      rw [← hbefore, List.map_map, List.map_map]
      rfl
    rw [heq]
    exact h.keys
  have hmem : ∀ {P : FunctionBody → Prop}, (∀ c ∈ changes, P (c.1.1, c.2)) → ∀ p ∈ a'.bodies, P p := by
    intro P hP p hp
    obtain ⟨c, hc, rfl⟩ := List.mem_map.mp (hafter.mem_iff.mp hp)
    exact hP c hc
  have hsound : a'.Sound owner :=
    { orderly := horderly
      settled := hsettled
      keys := hkeys
      noted := hmem hnoted
      distinct := hmem hdistinct
      fits := hmem hfits
      consistent := hmem hconsistent }
  refine ⟨hsound, h.inScope.refinedBy hsound.inScope hmore fun f b hb => ?_⟩
  obtain ⟨c, hc, heq⟩ := List.mem_map.mp (hbefore ▸ mem_of_lookup hb)
  obtain ⟨⟨g, b⟩, b'⟩ := c
  cases heq
  exact ⟨b', lookup_of_mem hkeys (hafter.mem_iff.mpr (List.mem_map_of_mem hc)), himproves _ hc⟩

/-! ### Blocks by their labels -/

/-- A tree is one of the bodies, namely its own root. -/
theorem Analyzed.mem_bodies_of_tree {p : FunctionBody} (hp : p ∈ a.trees) : p ∈ a.bodies := by
  rw [Analyzed.bodies_eq]
  exact List.mem_flatMap.mpr ⟨p, hp, List.mem_cons_self⟩

/-- The functions inside a body are functions of the program. -/
theorem Analyzed.Sound.mem_nested (h : a.Sound owner) {p q : FunctionBody} (hp : p ∈ a.bodies)
    (hq : q ∈ p.2.functions true) : q ∈ a.bodies := by
  rw [Analyzed.bodies_eq, List.mem_flatMap] at hp ⊢
  obtain ⟨t, ht, hp⟩ := hp
  refine ⟨t, ht, ?_⟩
  rcases List.mem_cons.mp hp with rfl | hp
  · exact List.mem_cons_of_mem _ hq
  · have htree := Analyzed.mem_bodies_of_tree ht
    have hin := t.2.inside (h.noted t htree) (t.2.mem_blocks hp)
    exact List.mem_cons_of_mem _ (hin.functions.subset hq)

/-- A block stands in the body of the function that its label says. -/
theorem Analyzed.Sound.home (h : a.Sound owner) {p : FunctionBody} (hp : p ∈ a.bodies)
    {c : OwnedBlock} (hc : c ∈ p.2.blocks p.1) :
    owner c.1.note.id = c.2 ∧ ∃ b, (c.2, b) ∈ a.bodies ∧ c ∈ b.blocks c.2 := by
  have hin := p.2.inside (h.noted p hp) hc
  refine ⟨?_, ?_⟩
  · obtain ⟨⟨n, ss, tail⟩, f⟩ := c
    exact (Block.noted_mk.mp hin.noted).1
  · rcases hin.home with hf | ⟨b, hb, hcb⟩
    · rw [hf]
      exact ⟨p.2, hp, hc⟩
    · exact ⟨b, h.mem_nested hp hb, hcb⟩

/-- Distinct labels give distinct blocks. -/
theorem Share.Distinct.nodup_blockIds {k : Nat} {b : Block} (h : Share.Distinct k b.labels)
    (f : Nat) : (blockIds (b.blocks f)).Nodup :=
  List.nodup_iff_count_le_one.mpr fun x =>
    Nat.le_trans (b.count_blockIds x f) (h.count_le_one x)

/-- **Labels tell blocks apart,** also blocks of different bodies. -/
theorem Analyzed.Sound.eq_of_label (h : a.Sound owner) {p q : FunctionBody} (hp : p ∈ a.bodies)
    (hq : q ∈ a.bodies) {c d : OwnedBlock} (hc : c ∈ p.2.blocks p.1) (hd : d ∈ q.2.blocks q.1)
    (hid : c.1.note.id = d.1.note.id) : c = d := by
  obtain ⟨hco, b, hb, hcb⟩ := h.home hp hc
  obtain ⟨hdo, b', hb', hdb⟩ := h.home hq hd
  have hkey : c.2 = d.2 := by rw [← hco, ← hdo, hid]
  obtain rfl : b = b' := (Prod.mk.inj (eq_of_key_eq h.keys hb hb' hkey)).2
  exact List.inj_on_of_nodup_map ((h.distinct _ hb).nodup_blockIds c.2) hcb (hkey ▸ hdb) hid

/-- A block with a label says that the body of its function is in the tree. -/
theorem owner_mem_keys {p : FunctionBody} (hn : p.2.Noted owner p.1) {x : Nat}
    (hx : x ∈ blockIds (p.2.blocks p.1)) : owner x ∈ p.all.map Prod.fst := by
  obtain ⟨c, hc, rfl⟩ := List.mem_map.mp hx
  have hin := p.2.inside hn hc
  have ho : owner c.1.note.id = c.2 := by
    obtain ⟨⟨n, ss, tail⟩, f⟩ := c
    exact (Block.noted_mk.mp hin.noted).1
  rw [ho]
  rcases hin.home with hf | ⟨b, hb, -⟩
  · rw [hf]
    exact List.mem_cons_self
  · exact List.mem_cons_of_mem _ (List.mem_map_of_mem hb)

/-- A label stands in one tree at most, and there once. Two trees of different functions share no
block, as each block is noted with its function. -/
theorem count_blockIds_trees {k : Nat} {trees : List FunctionBody}
    (hkeys : ((trees.flatMap FunctionBody.all).map Prod.fst).Nodup)
    (hnoted : ∀ p ∈ trees, p.2.Noted owner p.1)
    (hdistinct : ∀ p ∈ trees, Share.Distinct k p.2.labels) (x : Nat) :
    (blockIds (trees.flatMap fun p => p.2.blocks p.1)).count x ≤ 1 := by
  induction trees with
  | nil => exact Nat.zero_le _
  | cons p trees ih =>
      rw [List.flatMap_cons, List.map_append, List.nodup_append'] at hkeys
      obtain ⟨-, hkeys, hdisjoint⟩ := hkeys
      obtain ⟨hp, hnoted⟩ := List.forall_mem_cons.mp hnoted
      obtain ⟨hpd, hdistinct⟩ := List.forall_mem_cons.mp hdistinct
      rw [List.flatMap_cons, blockIds_append, List.count_append]
      by_cases hx : x ∈ blockIds (p.2.blocks p.1)
      · have hrest : x ∉ blockIds (trees.flatMap fun p => p.2.blocks p.1) := by
          intro hmem
          obtain ⟨c, hc, hid⟩ := List.mem_map.mp hmem
          obtain ⟨q, hq, hcq⟩ := List.mem_flatMap.mp hc
          have hkey := owner_mem_keys (hnoted q hq) (List.mem_map.mpr ⟨c, hcq, hid⟩)
          refine hdisjoint (owner_mem_keys hp hx) ?_
          rw [List.map_flatMap, List.mem_flatMap]
          exact ⟨q, hq, hkey⟩
        rw [List.count_eq_zero_of_not_mem hrest]
        exact List.nodup_iff_count_le_one.mp (hpd.nodup_blockIds p.1) x
      · rw [List.count_eq_zero_of_not_mem hx, Nat.zero_add]
        exact ih hkeys hnoted hdistinct

/-! ### A block in the place of another one -/

section

variable {label : Nat} {new : Block}

/-- The functions of trees in which a block is replaced. -/
theorem functions_put {lost : Multiset FunctionBody} {trees : List FunctionBody}
    (h : Trades label new lost (trees.flatMap fun p => p.2.blocks p.1)) :
    (((trees.map (FunctionBody.put label new)).flatMap FunctionBody.all : List FunctionBody) :
        Multiset FunctionBody) +
        (blockIds (trees.flatMap fun p => p.2.blocks p.1)).count label • lost =
      ((trees.flatMap FunctionBody.all : List FunctionBody) : Multiset FunctionBody).map
        (FunctionBody.put label new) := by
  induction trees with
  | nil => simp [blockIds]
  | cons p trees ih =>
      rw [List.flatMap_cons, trades_append] at h
      have hp := Block.functions_update p.2 h.1
      simp only [List.map_cons, List.flatMap_cons, blockIds_append, List.count_append, add_nsmul,
        ← Multiset.coe_add, Multiset.map_add, ← ih h.2, FunctionBody.all, ← Multiset.cons_coe,
        Multiset.map_cons, ← hp, FunctionBody.put, Multiset.cons_add]
      congr 1
      abel

/-- The functions inside a block do not hold its label. -/
theorem count_label_functions {k : Nat} {b : Block} {f : Nat} (hn : b.Noted owner f)
    (hd : Share.Distinct k b.labels) {q : FunctionBody} (hq : q ∈ b.functions true) :
    q.2.labels.count b.note.id = 0 := by
  obtain ⟨n, ss, tail⟩ := b
  have hone := hd.count_le_one n.id
  have hself : [n.id].count n.id = 1 := List.count_singleton_self
  obtain ⟨-, hss, htail⟩ := Block.noted_mk.mp hn
  change q.2.labels.count n.id = 0
  cases tail with
  | none =>
      have := (Stmt.insideOf ss hss (Stmt.mem_blocksOf ss hq)).labels n.id
      simp only [Block.labels, List.count_append] at hone
      dsimp only at this
      omega
  | some e =>
      simp only [Block.labels, List.count_append] at hone
      rcases List.mem_append.mp hq with hq | hq
      · have := (Stmt.insideOf ss hss (Stmt.mem_blocksOf ss hq)).labels n.id
        dsimp only at this
        omega
      · have := (e.inside (htail e rfl) (e.mem_blocks hq)).labels n.id
        dsimp only at this
        omega

/-- The functions inside a block do not hold the block. -/
theorem put_functions_self {k : Nat} {old : Block} {f : Nat} (hn : old.Noted owner f)
    (hd : Share.Distinct k old.labels) (hid : old.note.id = label) :
    (old.functions true).map (FunctionBody.put label new) = old.functions true := by
  refine List.map_congr_left (fun q hq => ?_) |>.trans (List.map_id _)
  have hnot : label ∉ blockIds (q.2.blocks q.1) := fun hmem => by
    have hpos := List.count_pos_iff.mpr hmem
    have hle := q.2.count_blockIds label q.1
    have hzero := count_label_functions hn hd hq
    rw [hid] at hzero
    omega
  rw [FunctionBody.put, q.2.update_of_not_mem hnot]
  rfl

variable {old : OwnedBlock}

/-- A block of a program, and the body that holds it. -/
theorem Analyzed.exists_tree (hold : old ∈ a.allBlocks) :
    ∃ t ∈ a.bodies, old ∈ t.2.blocks t.1 := by
  obtain ⟨t, ht, hb⟩ := List.mem_flatMap.mp (a.allBlocks_eq ▸ hold)
  exact ⟨t, Analyzed.mem_bodies_of_tree ht, hb⟩

/-- What is known about a block of a program. -/
theorem Analyzed.Sound.block (h : a.Sound owner) (hold : old ∈ a.allBlocks) :
    owner old.1.note.id = old.2 ∧ old.1.Noted owner old.2 ∧
      Share.Distinct a.program.labels old.1.labels := by
  obtain ⟨t, ht, hb⟩ := Analyzed.exists_tree hold
  have hin := t.2.inside (h.noted t ht) hb
  exact ⟨(h.home ht hb).1, hin.noted, fun x => Nat.le_trans (hin.labels x) (h.distinct t ht x)⟩

/-- No function stands inside itself. -/
theorem Analyzed.Sound.not_mem_nested (h : a.Sound owner) {p : FunctionBody} (hp : p ∈ a.bodies) :
    p.1 ∉ (p.2.functions true).map Prod.fst := by
  intro hmem
  obtain ⟨q, hq, hkey⟩ := List.mem_map.mp hmem
  have hzero := count_label_functions (h.noted p hp) (h.distinct p hp) hq
  rw [eq_of_key_eq h.keys (h.mem_nested hp hq) hp hkey] at hzero
  refine List.count_eq_zero.mp hzero ?_
  obtain ⟨f, ⟨n, ss, tail⟩⟩ := p
  cases tail <;> simp [Block.labels, Block.note]

/-- A block stands in some scope of its function. -/
theorem Analyzed.Sound.scope (h : a.Sound owner) (hold : old ∈ a.allBlocks) :
    old.2 < a.facts.functions.size ∧ old.1.Consistent a.facts ∧
      ∃ live, a.facts.Live old.2 live ∧ old.1.Scoped a.facts old.2 live := by
  obtain ⟨t, ht, hb⟩ := Analyzed.exists_tree hold
  obtain ⟨-, b, hbody, hb⟩ := h.home ht hb
  have hfits := h.fits _ hbody
  obtain ⟨hscope, hroots⟩ := b.scope_of_block (h.noted _ hbody) hfits.live hfits.inScope
    (h.not_mem_nested hbody) hb rfl
  exact ⟨hfits.lt, fun e he => h.consistent _ hbody e (hroots he), hscope⟩

/-- The bodies after a block was replaced, if functions are in the new block or are lost. The block
stands in one place only, so what it gives up and what is put in its place balance. -/
theorem Analyzed.Sound.perm_bodies (h : a.Sound owner) (hold : old ∈ a.allBlocks)
    (hid : old.1.note.id = label)
    (hroot : a'.program.root = a.program.root.update label fun _ => new)
    (hdetached : a'.detached =
      a.detached.map (FunctionBody.put label new) ++ old.1.functionsLost new)
    (hfunctions : (new.functions true : Multiset FunctionBody) +
      ((old.1.functionsLost new).flatMap FunctionBody.all : List FunctionBody) =
        (old.1.functions true : Multiset FunctionBody)) :
    a'.bodies.Perm (a.bodies.map (FunctionBody.put label new)) := by
  obtain ⟨-, hnoted, hdistinct⟩ := h.block hold
  have hself : label ∈ blockIds (old.1.blocks old.2) := by
    rw [← hid]
    exact List.mem_map_of_mem (Block.mem_blocks_self old.2 old.1)
  have htrades : Trades label new
      ((old.1.functionsLost new).flatMap FunctionBody.all : List FunctionBody) a.allBlocks := by
    intro c hc hcid
    obtain ⟨t, ht, hold⟩ := Analyzed.exists_tree hold
    obtain ⟨t', ht', hc⟩ := Analyzed.exists_tree hc
    obtain rfl : c = old := h.eq_of_label ht' ht hc hold (hcid.trans hid.symm)
    refine ⟨?_, ?_⟩
    · refine Nat.le_antisymm ?_ (List.count_pos_iff.mpr hself)
      exact Nat.le_trans (c.1.count_blockIds label c.2) (hdistinct.count_le_one label)
    · rw [hfunctions, Multiset.map_coe, put_functions_self hnoted hdistinct hid]
  have hcount : (blockIds a.allBlocks).count label = 1 := by
    refine Nat.le_antisymm ?_ (List.count_pos_iff.mpr (hid ▸ List.mem_map_of_mem hold))
    exact count_blockIds_trees (a.bodies_eq ▸ h.keys)
      (fun p hp => h.noted p (Analyzed.mem_bodies_of_tree hp))
      (fun p hp => h.distinct p (Analyzed.mem_bodies_of_tree hp)) label
  rw [Analyzed.allBlocks_eq] at htrades hcount
  have hput := functions_put htrades
  rw [hcount, one_nsmul] at hput
  have htrees : a'.trees = a.trees.map (FunctionBody.put label new) ++ old.1.functionsLost new := by
    rw [Analyzed.trees, hroot, hdetached]
    rfl
  rw [← Multiset.coe_eq_coe, Analyzed.bodies_eq, htrees, List.flatMap_append, ← Multiset.coe_add,
    hput]
  rfl

/-- **One block.** A block in the place of another one that it may replace leaves the program sound,
and the new program refines the old one. -/
theorem Analyzed.Sound.setBlock (h : a.Sound owner) (hold : old ∈ a.allBlocks)
    (hid : old.1.note.id = label)
    (hroot : a'.program.root = a.program.root.update label fun _ => new)
    (hdetached : a'.detached =
      a.detached.map (FunctionBody.put label new) ++ old.1.functionsLost new)
    (hmore : a.facts.Extends a'.facts) (horderly : a'.facts.Orderly) (hsettled : a'.facts.Settled)
    (hle : a.program.labels ≤ a'.program.labels) (hnoted : new.Noted owner old.2)
    (hconsistent : new.Consistent a'.facts)
    (hlabels : ∀ x, new.labels.count x ≤
      old.1.labels.count x + fresh a.program.labels a'.program.labels x)
    (hfunctions : (new.functions true : Multiset FunctionBody) +
      ((old.1.functionsLost new).flatMap FunctionBody.all : List FunctionBody) =
        (old.1.functions true : Multiset FunctionBody))
    (hreplaces : Replaces a.facts a'.facts old.2 old.1 new) :
    a'.Sound owner ∧ a.RefinedBy a' := by
  obtain ⟨howner, -, -⟩ := h.block hold
  have hunique : ∀ p ∈ a.bodies, ∀ c ∈ p.2.blocks p.1, c.1.note.id = label → c = old := by
    intro p hp c hc hcid
    obtain ⟨t, ht, hold⟩ := Analyzed.exists_tree hold
    exact h.eq_of_label hp ht hc hold (hcid.trans hid.symm)
  have hreplaceable : ∀ p ∈ a.bodies,
      Replaceable a.facts a'.facts p.1 label new (p.2.blocks p.1) := by
    intro p hp c hc hcid hf
    obtain rfl := hunique p hp c hc hcid
    exact hf ▸ hreplaces
  refine h.change (a.bodies.map fun p => (p, p.2.update label fun _ => new)) ?_ ?_ hmore horderly
    hsettled ?_ ?_ ?_ ?_ ?_
  · rw [List.map_map]
    exact List.map_id _
  · rw [List.map_map]
    exact h.perm_bodies hold hid hroot hdetached hfunctions
  · intro c hc
    obtain ⟨p, hp, rfl⟩ := List.mem_map.mp hc
    exact Block.noted_update (by rw [← hid, howner]; exact hnoted) p.2 (h.noted p hp)
  · intro c hc x
    obtain ⟨p, hp, rfl⟩ := List.mem_map.mp hc
    have hadds : Adds x label new (fresh a.program.labels a'.program.labels x) (p.2.blocks p.1) := by
      intro c hc hcid
      rw [hunique p hp c hc hcid]
      exact hlabels x
    have hcount := Block.count_update x label new _ p.1 p.2 hadds
    have hadded := Nat.mul_le_mul_right (fresh a.program.labels a'.program.labels x)
      ((h.distinct p hp).count_le_one label)
    have hsplit := Share.fresh_add x (Nat.zero_le _) hle
    have := h.distinct p hp x
    dsimp only
    omega
  · intro c hc
    obtain ⟨p, hp, rfl⟩ := List.mem_map.mp hc
    have hfits := h.fits p hp
    exact hfits.extend hmore (Block.update_replaces (x := quiet a'.facts p.1) h.orderly hmore
      (twins_quiet horderly p.1) p.2 hfits.live hfits.inScope (hreplaceable p hp)).1
  · intro c hc
    obtain ⟨p, hp, rfl⟩ := List.mem_map.mp hc
    exact Block.consistent_update hconsistent p.2 ((h.consistent p hp).extend h.settled hmore)
  · intro c hc x hxf hxfun htwins before before'
    obtain ⟨⟨f, b⟩, hp, rfl⟩ := List.mem_map.mp hc
    have hfits := h.fits _ hp
    dsimp only at hxfun hfits ⊢
    subst hxfun
    rw [hmore.params]
    exact ((Block.update_replaces h.orderly (hxf ▸ hmore) htwins b hfits.live hfits.inScope
      (hxf ▸ hreplaceable _ hp)).2 before before').body_of_finish

end

end

/-! ### Dead code -/

namespace DeadCode

variable {nested : Bool}

/-- Statements that are left out take their functions with them, and the others keep theirs in
order. -/
theorem functions_filter (keep : Stmt → Bool) (ss : List Stmt) :
    (Stmt.functionsOf nested (ss.filter keep)).Sublist (Stmt.functionsOf nested ss) := by
  induction ss with
  | nil => exact List.Sublist.refl _
  | cons s ss ih =>
      rw [List.filter_cons]
      split
      · exact (List.Sublist.refl _).append ih
      · exact ih.trans (List.sublist_append_right _ _)

/-- A simplified statement has no function that the statement did not have. -/
theorem functions_simplify {s s' : Stmt} (h : simplify s = .replaced s') :
    (s'.functions nested).Sublist (s.functions nested) := by
  obtain ⟨n, m, yes, no, rfl, rfl⟩ | ⟨n, m, yes, rfl⟩ := simplify_eq_replaced h
  · cases no with
    | none => exact List.sublist_append_right _ _
    | some no => exact (List.sublist_append_right _ _).trans (List.sublist_append_left _ _)
  · exact List.sublist_append_right _ _

/-- What is not reachable takes its functions with it. -/
theorem functions_reachable (ss : List Stmt) :
    (Stmt.functionsOf nested (reachable ss).stmts).Sublist (Stmt.functionsOf nested ss) := by
  induction ss with
  | nil => exact List.Sublist.refl _
  | cons s ss ih =>
      have hrest : ∀ diverges : Bool,
          (Stmt.functionsOf nested (if diverges then unreachable ss else reachable ss).stmts).Sublist
            (Stmt.functionsOf nested ss) := by
        intro diverges
        cases diverges with
        | true => exact functions_filter _ ss
        | false => exact ih
      rw [reachable]
      split
      · exact ih.trans (List.sublist_append_right _ _)
      · exact (List.Sublist.refl _).append (hrest s.diverges)
      · next s' hs => exact (functions_simplify hs).append (hrest s'.diverges)

/-- A run of statements that was dropped from has no new functions. -/
theorem Dropped.functions {ss ss' : List Stmt} (h : Dropped ss ss') :
    (Stmt.functionsOf nested ss').Sublist (Stmt.functionsOf nested ss) := by
  cases h with
  | later n m k target name name' t init value rest =>
      simp only [Stmt.functionsOf, Stmt.functions, Expr.functions, List.nil_append]
      exact List.sublist_append_right _ _
  | _ =>
      simp only [Stmt.functionsOf, Stmt.functions, Expr.functions, List.nil_append]
      exact List.Sublist.refl _

/-- Dropping stores keeps the order of the functions and adds none. -/
theorem functions_dropStores (facts : Facts) (tail : Option Expr) (before ss : List Stmt) :
    (Stmt.functionsOf nested (dropStores facts tail before ss).1).Sublist
      (Stmt.functionsOf nested before ++ Stmt.functionsOf nested ss) := by
  fun_induction dropStores facts tail before ss with
  | case1 before => exact List.sublist_append_left _ _
  | case2 before s ss ss' h out changes hout ih =>
      rw [hout] at ih
      exact ih.trans ((List.Sublist.refl _).append (dropped_of_dropStore? h).functions)
  | case3 before s ss h ih =>
      rw [Stmt.functionsOf_append, Stmt.functionsOf, Stmt.functionsOf, List.append_nil,
        List.append_assoc] at ih
      exact ih

/-- A swept block makes no new functions. -/
theorem functions_block (facts : Facts) (b : Block) :
    ((block facts b).1.functions nested).Sublist (b.functions nested) := by
  obtain ⟨n, ss, tail⟩ := b
  have hss : ∀ tail, (Stmt.functionsOf nested (dropStores facts tail [] (reachable ss).stmts).1).Sublist
      (Stmt.functionsOf nested ss) := fun tail =>
    (functions_dropStores facts tail [] _).trans (functions_reachable ss)
  rw [block_mk]
  cases htail : sweptTail ss tail with
  | none =>
      cases tail with
      | none => exact hss none
      | some e => exact (hss none).trans (List.sublist_append_left _ _)
  | some e =>
      obtain ⟨-, rfl⟩ := sweptTail_eq_some htail
      exact (hss _).append (List.Sublist.refl _)

variable {owner : Nat → Nat} {f : Nat}

/-- Statements that remain are noted as before. -/
theorem Dropped.noted {ss ss' : List Stmt} (h : Dropped ss ss') (hn : Stmt.AllNoted owner f ss) :
    Stmt.AllNoted owner f ss' := by
  cases h with
  | later => exact ⟨hn.2.1.2, hn.2.2⟩
  | laterKept => exact ⟨hn.1, hn.2.1.2, hn.2.2⟩
  | store => exact ⟨hn.1.2, hn.2⟩
  | declaration => exact hn

/-- Dropping stores leaves the notes of the other statements alone. -/
theorem dropStores_noted (facts : Facts) (tail : Option Expr) (before ss : List Stmt)
    (hn : Stmt.AllNoted owner f (before ++ ss)) :
    Stmt.AllNoted owner f (dropStores facts tail before ss).1 := by
  fun_induction dropStores facts tail before ss with
  | case1 before => simpa using hn
  | case2 before s ss ss' h out changes hout ih =>
      rw [hout] at ih
      obtain ⟨hbefore, hss⟩ := Stmt.allNoted_append.mp hn
      exact ih (Stmt.allNoted_append.mpr ⟨hbefore, (dropped_of_dropStore? h).noted hss⟩)
  | case3 before s ss h ih => exact ih (by simpa using hn)

/-- The pass over a block leaves its notes in order. -/
theorem block_noted (facts : Facts) {b : Block} (hn : b.Noted owner f) :
    (block facts b).1.Noted owner f := by
  obtain ⟨n, ss, tail⟩ := b
  obtain ⟨hid, hss, htail⟩ := Block.noted_mk.mp hn
  rw [block_mk]
  refine Block.noted_mk.mpr ⟨hid, dropStores_noted facts _ [] _ (reachable_noted ss hss), ?_⟩
  exact fun e he => htail e (sweptTail_eq_some he).2

end DeadCode

/-- What is not in a part of some bodies is lost. -/
theorem perm_append_lost {kept bodies : List FunctionBody} (h : kept.Sublist bodies)
    (hn : (bodies.map Prod.fst).Nodup) :
    (kept ++ bodies.filter fun p => !(kept.map Prod.fst).contains p.1).Perm bodies := by
  have hkept : kept = bodies.filter fun p => (kept.map Prod.fst).contains p.1 := by
    induction h with
    | slnil => rfl
    | @cons kept bodies p h ih =>
        obtain ⟨hp, hn⟩ := List.nodup_cons.mp hn
        have hnot : (kept.map Prod.fst).contains p.1 = false := by
          rw [List.contains_eq_mem, decide_eq_false_iff_not]
          exact fun hmem => hp ((h.map Prod.fst).subset hmem)
        rw [List.filter_cons, hnot]
        exact ih hn
    | @cons_cons kept bodies p h ih =>
        obtain ⟨hp, hn⟩ := List.nodup_cons.mp hn
        have hsame : (bodies.filter fun q => ((p :: kept).map Prod.fst).contains q.1) =
            bodies.filter fun q => (kept.map Prod.fst).contains q.1 := by
          refine List.filter_congr fun q hq => ?_
          have hne : q.1 ≠ p.1 := fun he => hp (he ▸ List.mem_map_of_mem hq)
          simp [hne]
        have hself : ((p :: kept).map Prod.fst).contains p.1 = true := by simp
        rw [List.filter_cons, if_pos hself, hsame, ← ih hn]
  conv_lhs =>
    arg 1
    rw [hkept]
  exact List.filter_append_perm _ bodies

/-- Bodies are among all the bodies inside them, in order. -/
theorem sublist_flatMap_all (bodies : List FunctionBody) :
    bodies.Sublist (bodies.flatMap FunctionBody.all) := by
  induction bodies with
  | nil => exact List.Sublist.refl _
  | cons p bodies ih => exact (ih.trans (List.sublist_append_right _ _)).cons_cons p

namespace Analyzed

variable {owner : Nat → Nat} {a : Analyzed} {old : OwnedBlock} {new : Block} {label : Nat}

/-- The functions of a block are different ones. -/
theorem Sound.nodup_functions (h : a.Sound owner) (hold : old ∈ a.allBlocks) :
    ((old.1.functions false).map Prod.fst).Nodup := by
  obtain ⟨t, ht, hb⟩ := List.mem_flatMap.mp (a.allBlocks_eq ▸ hold)
  have hin := t.2.inside (h.noted t (mem_bodies_of_tree ht)) hb
  have hkeys := h.keys
  rw [bodies_eq, List.map_flatMap, List.nodup_flatMap] at hkeys
  have hsub : (old.1.functions false).Sublist t.all := by
    refine List.Sublist.trans ?_ (hin.functions.trans (List.sublist_cons_self _ _))
    rw [old.1.functions_nested hin.noted]
    exact sublist_flatMap_all _
  exact (hsub.map Prod.fst).nodup (hkeys.1 t ht)

/-- The functions of a block are in the new one or lost. -/
theorem Sound.functions_lost (h : a.Sound owner) (hold : old ∈ a.allBlocks)
    (hn : new.Noted owner old.2) (hsub : (new.functions false).Sublist (old.1.functions false)) :
    (new.functions true : Multiset FunctionBody) +
      ((old.1.functionsLost new).flatMap FunctionBody.all : List FunctionBody) =
        (old.1.functions true : Multiset FunctionBody) := by
  obtain ⟨-, hnoted, -⟩ := h.block hold
  have hperm := perm_append_lost hsub (h.nodup_functions hold)
  rw [new.functions_nested hn, old.1.functions_nested hnoted, Multiset.coe_add,
    Multiset.coe_eq_coe, ← List.flatMap_append]
  exact hperm.flatMap_right _

/-- A swept block may take the place of the block. -/
theorem replaces_deadCode {F : Facts} (hF : F.Orderly) {b : Block} {f : Nat}
    (hn : b.Noted owner f) : Replaces F F f b (DeadCode.block F b).1 where
  inScope live hl hs := by
    obtain ⟨n, ss, tail⟩ := b
    exact (DeadCode.block_drops (x := quiet F f) (twins_quiet hF f) hl hs hn).1
  refines live hl hs x hxf hxfun htwins before before' := by
    subst hxf hxfun
    obtain ⟨n, ss, tail⟩ := b
    exact (DeadCode.block_drops htwins hl hs hn).2 before before'

/-- **Dead code.** A sweep of one block. -/
theorem Sound.sweepDeadCode (h : a.Sound owner) :
    (a.sweepDeadCode label).1.Sound owner ∧ a.RefinedBy (a.sweepDeadCode label).1 := by
  unfold Analyzed.sweepDeadCode
  split
  · exact ⟨h, .refl a⟩
  · next b f hfind =>
      have hold := List.mem_of_find?_eq_some hfind
      have hid : b.note.id = label := by simpa using List.find?_some hfind
      obtain ⟨-, hnoted, -⟩ := h.block hold
      dsimp only
      split
      · exact ⟨h, .refl a⟩
      · have hnew := DeadCode.block_noted a.facts hnoted
        exact h.setBlock hold hid rfl rfl (.refl _) h.orderly h.settled (Nat.le_refl _) hnew
          (DeadCode.consistent_block a.facts (h.scope hold).2.1)
          (fun x => Nat.le_trans (DeadCode.count_block x a.facts b) (Nat.le_add_right _ _))
          (h.functions_lost hold hnew (DeadCode.functions_block a.facts b))
          (replaces_deadCode h.orderly hnoted)

/-- A block with shared subexpressions may take the place of the block. -/
theorem replaces_repeated {s : Share.Supply} (hF : s.facts.Orderly) {b : Block} {f : Nat}
    (hf : f < s.facts.functions.size) (hn : b.Noted owner f) (hd : Share.Distinct s.labels b.labels)
    {live : List Nat} (hl : s.facts.Live f live) (hs : b.Scoped s.facts f live) :
    s.facts.Extends ((Share.block f b).run s).2.facts ∧
      ((Share.block f b).run s).2.facts.Orderly ∧
      ((Share.block f b).run s).1.1.Noted owner f ∧
      (∀ nested, ((Share.block f b).run s).1.1.functions nested = b.functions nested) ∧
      Replaces s.facts ((Share.block f b).run s).2.facts f b ((Share.block f b).run s).1.1 := by
  obtain ⟨n, ss, tail⟩ := b
  obtain ⟨hmore, horderly, -, hnoted, hfunctions, -⟩ := Share.block_shares hF hf hl hs hn hd
  refine ⟨hmore, horderly, hnoted, hfunctions, ⟨fun live hl hs => ?_, ?_⟩⟩
  · obtain ⟨-, -, hscoped, -⟩ := Share.block_shares hF hf hl hs hn hd
    exact hscoped
  · intro live hl hs x hxf hxfun htwins before before'
    obtain ⟨-, -, -, -, -, hkeeps⟩ := Share.block_shares hF hf hl hs hn hd
    exact hkeeps x (hxf ▸ .refl _) hxfun htwins before before'

/-- **Shared subexpressions.** A sweep of one block keeps the program sound, and refines it. -/
theorem Sound.sweepRepeated (h : a.Sound owner) :
    (a.sweepRepeated label).1.Sound owner ∧ a.RefinedBy (a.sweepRepeated label).1 := by
  unfold Analyzed.sweepRepeated
  split
  · exact ⟨h, .refl a⟩
  · next b f hfind =>
      have hold := List.mem_of_find?_eq_some hfind
      have hid : b.note.id = label := by simpa using List.find?_some hfind
      obtain ⟨-, hnoted, hdistinct⟩ := h.block hold
      obtain ⟨hlt, hconsistent, live, hlive, hscoped⟩ := h.scope hold
      have hlabels := fun x => Share.from_block x f _ b a.supply rfl
      obtain ⟨hmore, horderly, hnew, hfunctions, hreplaces⟩ := replaces_repeated
        (s := a.supply) h.orderly hlt hnoted hdistinct hlive
        hscoped
      obtain ⟨hsettled, hnewConsistent⟩ := Share.consistent_block
        (s := a.supply) hlt h.settled hconsistent hdistinct
      split
      next new count supply heq =>
        rw [heq] at hlabels hmore horderly hnew hfunctions hreplaces hsettled hnewConsistent
        split
        · exact ⟨h, .refl a⟩
        · refine h.setBlock hold hid rfl rfl hmore horderly hsettled (hlabels 0).1 hnew hnewConsistent
            (fun x => (hlabels x).2.2) (h.functions_lost hold hnew ?_) hreplaces
          rw [hfunctions]

/-- A sweep over all blocks keeps what the sweep of one block keeps. -/
theorem Sound.sweepBlocks {sweep : Analyzed → Nat → Analyzed × Nat}
    (hsweep : ∀ (a : Analyzed) (label : Nat), a.Sound owner →
      (sweep a label).1.Sound owner ∧ a.RefinedBy (sweep a label).1)
    (h : a.Sound owner) :
    (a.sweepBlocks sweep).1.Sound owner ∧ a.RefinedBy (a.sweepBlocks sweep).1 :=
  Analyzed.sweepBlocks_keeps (P := fun b => b.Sound owner ∧ a.RefinedBy b)
    (fun b label hb => (hsweep b label hb.1).imp_right hb.2.trans) ⟨h, .refl a⟩

/-! ### Folding -/

/-- Folding adds no label: each occurs at most as often as before. -/
theorem count_folded {b : Block} {f : Nat} (hn : b.Noted owner f) (x : Nat) :
    b.folded.labels.count x ≤ b.labels.count x := by
  obtain ⟨d, hrun, -⟩ := Fold.runs_block b hn
  obtain ⟨k, hk⟩ := hrun {}
  have hcount := Fold.count_block x b {}
  rw [hk] at hcount
  exact hcount

/-- A block that is not changed improves itself. It is where most sweeps end. -/
theorem improves_refl {F : Facts} {b : Block} {f : Nat} (hs : b.Scoped F f (F.info f).params) :
    Improves F f b b := by
  intro x hxf hxfun htwins before before'
  subst hxf hxfun
  exact body_refines htwins b hs

/-- A body whose results carry over to another one is improved by it. -/
theorem improves_of_carries {F : Facts} {b b' : Block} {f : Nat}
    (hs : b.Scoped F f (F.info f).params) (h : BodyCarries b b') : Improves F f b b' := by
  intro x hxf hxfun htwins before before' s t v s' hag hm
  obtain ⟨t', ht', hag'⟩ :=
    improves_refl hs x hxf hxfun htwins before before' s t v s' hag hm
  exact ⟨t', (h x).ok ht', hag'⟩

/-- The bodies of a folded program. -/
theorem Sound.perm_foldSweep (h : a.Sound owner) :
    (foldSweep a).1.bodies.Perm ((FunctionBody.all (0, a.program.root)).map FunctionBody.folded ++
      a.detached.flatMap FunctionBody.all) := by
  have hroot : (0, a.program.root) ∈ a.bodies := mem_bodies_of_tree List.mem_cons_self
  obtain ⟨d, hrun, hkeeps⟩ := Fold.runs_block a.program.root (h.noted _ hroot)
  obtain ⟨k, hk⟩ := hrun {}
  unfold Fold.Keeps at hkeeps
  rw [Multiset.map_coe, Multiset.coe_add, Multiset.coe_eq_coe] at hkeeps
  have hfold : (foldSweep a).1.bodies = (0, a.program.root.folded) ::
      (a.program.root.folded.functions true ++ (a.detached ++ d).flatMap FunctionBody.all) := by
    unfold foldSweep
    rw [hk]
    rfl
  rw [hfold, List.flatMap_append, FunctionBody.all, List.map_cons, List.cons_append]
  refine List.Perm.cons _ ?_
  refine List.Perm.trans ?_ (hkeeps.append_right _)
  rw [List.append_assoc]
  exact List.perm_append_comm.append_left _

/-- **Folding.** A sweep over the whole program leaves it sound and refines it. Each body of the
tree is folded, and each body that lost its place stays. -/
theorem Sound.foldSweep (h : a.Sound owner) :
    (foldSweep a).1.Sound owner ∧ a.RefinedBy (foldSweep a).1 := by
  -- The trees of functions that lost their place are not folded.
  have hroot : ∀ {c : FunctionBody × Block},
      c ∈ (FunctionBody.all (0, a.program.root)).map (fun p => (p, p.2.folded)) →
        c.1 ∈ a.bodies ∧ c.2 = c.1.2.folded := by
    intro c hc
    obtain ⟨p, hp, rfl⟩ := List.mem_map.mp hc
    exact ⟨List.mem_append_left _ hp, rfl⟩
  have hrest : ∀ {c : FunctionBody × Block},
      c ∈ (a.detached.flatMap FunctionBody.all).map (fun p => (p, p.2)) →
        c.1 ∈ a.bodies ∧ c.2 = c.1.2 := by
    intro c hc
    obtain ⟨p, hp, rfl⟩ := List.mem_map.mp hc
    exact ⟨List.mem_append_right _ hp, rfl⟩
  refine h.change ((FunctionBody.all (0, a.program.root)).map (fun p => (p, p.2.folded)) ++
    (a.detached.flatMap FunctionBody.all).map fun p => (p, p.2)) ?_ ?_ (.refl _) h.orderly h.settled
    (List.forall_mem_append.mpr ⟨fun c hc => ?_, fun c hc => ?_⟩)
    (List.forall_mem_append.mpr ⟨fun c hc => ?_, fun c hc => ?_⟩)
    (List.forall_mem_append.mpr ⟨fun c hc => ?_, fun c hc => ?_⟩)
    (List.forall_mem_append.mpr ⟨fun c hc => ?_, fun c hc => ?_⟩)
    (List.forall_mem_append.mpr ⟨fun c hc => ?_, fun c hc => ?_⟩)
  · rw [List.map_append, List.map_map, List.map_map]
    exact congrArg₂ _ (List.map_id _) (List.map_id _)
  · refine h.perm_foldSweep.trans (.of_eq ?_)
    rw [List.map_append, List.map_map, List.map_map]
    exact congrArg₂ _ rfl (List.map_id _).symm
  · obtain ⟨hp, hc⟩ := hroot hc
    exact hc ▸ c.1.2.noted_folded (h.noted _ hp)
  · obtain ⟨hp, hc⟩ := hrest hc
    exact hc ▸ h.noted _ hp
  · obtain ⟨hp, hc⟩ := hroot hc
    exact fun x => hc ▸ Nat.le_trans (count_folded (h.noted _ hp) x) (h.distinct _ hp x)
  · obtain ⟨hp, hc⟩ := hrest hc
    exact hc ▸ h.distinct _ hp
  · obtain ⟨hp, hc⟩ := hroot hc
    exact (h.fits _ hp).extend (.refl _)
      (hc ▸ c.1.2.scoped_folded (h.noted _ hp) (h.fits _ hp).inScope)
  · obtain ⟨hp, hc⟩ := hrest hc
    exact hc ▸ h.fits _ hp
  · obtain ⟨hp, hc⟩ := hroot hc
    exact hc ▸ c.1.2.consistent_folded (h.noted _ hp) (h.consistent _ hp)
  · obtain ⟨hp, hc⟩ := hrest hc
    exact hc ▸ h.consistent _ hp
  · obtain ⟨hp, hc⟩ := hroot hc
    exact hc ▸ improves_of_carries (h.fits _ hp).inScope
      (Block.bodyCarries_folded (h.noted _ hp) (h.fits _ hp).inScope)
  · obtain ⟨hp, hc⟩ := hrest hc
    rw [hc]
    exact improves_refl (h.fits _ hp).inScope

end Analyzed

/-! ### Sweeps -/

variable {owner : Nat → Nat} {a b : Analyzed}

/-- **One sweep.** A sweep of a pass keeps what sweeps rely on, and results. -/
theorem Pass.sound_sweep (p : Pass) (h : a.Sound owner) :
    (p.sweep a).1.Sound owner ∧ a.RefinedBy (p.sweep a).1 := by
  cases p with
  | constantFolding => exact h.foldSweep
  | deadCode => exact h.sweepBlocks fun _ _ => Analyzed.Sound.sweepDeadCode
  | commonSubexpr => exact h.sweepBlocks fun _ _ => Analyzed.Sound.sweepRepeated

/-- **Sweeps.** Any sweeps keep what sweeps rely on, and results. -/
theorem Analyzed.Sweeps.sound (hs : a.Sweeps b) (h : a.Sound owner) :
    b.Sound owner ∧ a.RefinedBy b := by
  induction hs with
  | refl => exact ⟨h, .refl a⟩
  | sweep p _ ih =>
      obtain ⟨hsound, hrefined⟩ := ih
      obtain ⟨hnext, hstep⟩ := p.sound_sweep hsound
      exact ⟨hnext, hrefined.trans hstep⟩

/-! ### Analyzed texts -/

/-- The functions of an accepted program are different ones. -/
theorem Analyzed.Accepted.nodup_keys (h : a.Accepted) (hl : a.program.root.labels.Nodup) :
    (a.bodies.map Prod.fst).Nodup := by
  have hnodes : ((a.program.root.functions true).map fun b => (a.facts.info b.1).node).Nodup := by
    obtain ⟨ls, hperm, hsub⟩ := h.made.nodes
    exact hperm.nodup_iff.mp (hsub.nodup hl)
  have heq : a.bodies = (0, a.program.root) :: a.program.root.functions true := by
    simp [Analyzed.bodies, h.detached]
  rw [heq, List.map_cons, List.nodup_cons]
  refine ⟨fun hmem => ?_, ?_⟩
  · obtain ⟨p, hp, h0⟩ := List.mem_map.mp hmem
    exact (h.made.accepts p hp).1 h0
  · refine List.Nodup.of_map (fun f => (a.facts.info f).node) ?_
    rw [List.map_map]
    exact hnodes

/-- Accepted facts are settled: this is what the analyzer hands to the first sweep. -/
theorem Analyzed.Accepted.settled (h : a.Accepted) : a.facts.Settled where
  param f y hy := by
    rcases Nat.lt_or_ge f a.facts.functions.size with hf | hf
    · obtain ⟨b, -, hb⟩ := h.exists_body hf
      obtain ⟨i, hi⟩ := List.getElem?_of_mem hy
      exact (hb.param i y hi).1
    · rw [Facts.info, Array.getElem?_eq_none hf] at hy
      cases hy
  function y hy f hs :=
    ⟨(h.coherent.function y hy f hs).1, (h.coherent.function y hy f hs).2, h.coherent.named y hy f hs⟩
  builtin y hy _ hs := (h.coherent.symbol y hy).of_builtin hs

/-- Accepted programs with distinct labels are what sweeps rely on. So the first sweep can start,
and each sweep leaves what the next one needs. -/
theorem Analyzed.Accepted.sound (h : a.Accepted) (hn : a.program.root.Numbered)
    (hl : a.program.Labelled) : a.Sound (ownerIn (a.program.root.blocks 0)) := by
  have hdistinct : Share.Distinct a.program.labels a.program.root.labels := hl
  have hroot := h.noted hn (hdistinct.nodup_blockIds 0)
  have hbody : ∀ p ∈ a.bodies, (p.2, p.1) ∈ a.program.root.blocks 0 := by
    intro p hp
    simp only [Analyzed.bodies, h.detached, List.flatMap_nil, List.append_nil, List.mem_cons] at hp
    rcases hp with rfl | hp
    · exact Block.mem_blocks_self 0 a.program.root
    · exact a.program.root.mem_blocks hp
  have hnodup : a.program.root.labels.Nodup :=
    List.nodup_iff_count_le_one.mpr hdistinct.count_le_one
  exact
    { orderly := h.coherent.orderly
      settled := h.settled
      keys := h.nodup_keys hnodup
      noted := fun p hp => (a.program.root.inside hroot (hbody p hp)).noted
      distinct := fun p hp x =>
        Nat.le_trans ((a.program.root.inside hroot (hbody p hp)).labels x) (hl x)
      fits := fun p hp => (h.accepts hp).fits
      consistent := fun p hp => (h.accepts hp).consistent }

/-- What analysis accepts is what sweeps rely on. -/
theorem analyze_sound {g : Grammar} {size : Nat} {tokens : List Token}
    (h : (analyze (parseTokens g size tokens).1).2 = []) :
    ∃ owner, (analyze (parseTokens g size tokens).1).1.Sound owner := by
  obtain ⟨hacc, hlabels⟩ := analyze_accepted parseTokens_regular h
  refine ⟨_, hacc.sound (analyze_numbered parseTokens_regular) fun x => ?_⟩
  rw [hlabels]
  exact parseTokens_labelled g size tokens x

/-- **Analyzed texts.** What analysis accepts is what sweeps rely on. -/
theorem CompileOptions.analyze_sound {o : CompileOptions} {text : List Char}
    (h : o.analyze text = .ok a) : ∃ owner, a.Sound owner := by
  obtain ⟨tokens, rfl, he⟩ := o.analyze_eq_ok h
  exact Parlance.analyze_sound he

end Parlance
