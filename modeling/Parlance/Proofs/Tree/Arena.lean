import Mathlib.Data.List.Nodup
import Mathlib.Data.List.Perm.Basic
import Mathlib.Logic.Relation
import Parlance.Analysis.Checker
import Parlance.Proofs.Tree.Shape
import Parlance.Tree.Blocks

/-!
# Nodes by their labels

A program is a table of nodes: each label stands for a node, and a node has the labels of its
children in its slots. The table is a tree if no label stands in two slots. Then a walk from the
root that does not remember where it was comes to an end and lists each node once.

Here nodes are trees themselves, so a label that stood in two slots would be a label that two
nodes share. All of this comes down to one inequality, `Program.Labelled`: every label occurs at
most once, and only labels that were handed out occur.

## Main results

* `Program.IsTree`: a table of nodes is a tree.
* `Program.Labelled.isTree`: it is if its labels are distinct.
* `Program.size_typeTable`: the table of types that analysis makes.
* `parseTokens_labelled`: the labels of a parsed program.
-/

namespace Parlance

/-! ### Slots -/

/-- The labels of the children of a node, one for each slot that is no gap. -/
def Outline.childIds (o : Outline) : List Nat :=
  o.children.filterMap fun c => c.map fun child => child.note.id

/-- The labels of some blocks. -/
def blockIds (blocks : List OwnedBlock) : List Nat :=
  blocks.map fun b => b.1.note.id

namespace Program

/-- The labels of the nodes in the order of a walk from the root. -/
def nodeIds (p : Program) : List Nat :=
  p.nodes.map fun o => o.note.id

/-- The labels in all slots of all nodes. -/
def slots (p : Program) : List Nat :=
  p.nodes.flatMap Outline.childIds

/-- The node with the label `x` has a child with the label `y`. -/
def Parent (p : Program) (x y : Nat) : Prop :=
  ∃ o ∈ p.nodes, o.note.id = x ∧ y ∈ o.childIds

/-- **Trees.** What makes a table of nodes a tree. -/
structure IsTree (p : Program) : Prop where
  /-- Every slot holds a label that was handed out. -/
  valid : ∀ x ∈ p.slots, x < p.labels
  root_lt : p.root.note.id < p.labels
  /-- The root is no child. -/
  root_free : p.root.note.id ∉ p.slots
  /-- Every other node stands in exactly one slot. -/
  once : ∀ x ∈ p.nodeIds, x ≠ p.root.note.id → p.slots.count x = 1
  acyclic : ∀ x, ¬ Relation.TransGen p.Parent x x
  /-- A walk from the root lists each node once. -/
  listed : p.nodeIds.Nodup
  /-- So does a walk over the lists of statements. -/
  lists_listed : (blockIds (p.root.blocks 0)).Nodup

/-- Trees with a table of the types of their nodes that kept step with the labels: it has exactly
one entry for each label that was handed out, so one for each node. -/
structure IsTypedTree (p : Program) : Prop extends p.IsTree where
  typed : p.types.size = p.labels

end Program

/-! ### Labels in outlines -/

namespace Outline

/-- The labels of the nodes of an outline. -/
def ids (o : Outline) : List Nat :=
  o.nodes.map fun o => o.note.id

/-- The labels of the nodes of some outlines. -/
def idsOf (cs : List (Option Outline)) : List Nat :=
  (nodesOf cs).map fun o => o.note.id

section

variable {n : Note} {k : NodeKind} {d : String} {o : Outline} {cs ds : List (Option Outline)}

/-- The label of a node stands in front of those below it. -/
@[simp] theorem ids_node : (node n k d cs).ids = n.id :: idsOf cs := by
  simp [ids, idsOf, nodes, note]

/-- Where there are no outlines there are no labels. -/
@[simp] theorem idsOf_nil : idsOf [] = [] := rfl

/-- A gap has no label. -/
@[simp] theorem idsOf_gap : idsOf (none :: cs) = idsOf cs := by
  simp [idsOf, nodesOf]

/-- The labels of outlines begin with those of the first one. -/
@[simp] theorem idsOf_cons : idsOf (some o :: cs) = o.ids ++ idsOf cs := by
  simp [idsOf, nodesOf, ids]

/-- The labels of outlines in a row are those of both parts. -/
@[simp] theorem idsOf_append : idsOf (cs ++ ds) = idsOf cs ++ idsOf ds := by
  induction cs with
  | nil => rfl
  | cons c cs ih => cases c <;> simp [ih]

end

end Outline

section Count

open Outline

variable (x : Nat)

mutual

/-- An outline has the labels of the tree. -/
theorem Expr.count_ids : ∀ e : Expr, e.outline.ids.count x = e.labels.count x
  | .lit _ _ | .ident _ _ => rfl
  | .unary _ _ e | .cast _ e _ => by
      simp [Expr.outline, Expr.labels, List.count_cons, e.count_ids]
  | .binary _ _ a b | .assign _ a b | .index _ a b => by
      simp [Expr.outline, Expr.labels, List.count_cons, a.count_ids, b.count_ids, Nat.add_assoc]
  | .call _ f args => by
      simp [Expr.outline, Expr.labels, List.count_cons, f.count_ids, Expr.count_idsOf args,
        Nat.add_assoc]
  | .list _ items => by
      simp [Expr.outline, Expr.labels, List.count_cons, Expr.count_idsOf items]
  | .lambda _ _ b => by
      simp [Expr.outline, Expr.labels, List.count_cons, b.count_ids]

/-- The outlines of expressions have the labels of the expressions, each as often. -/
theorem Expr.count_idsOf : ∀ es : List Expr,
    (idsOf (Expr.outlines es)).count x = (Expr.labelsOf es).count x
  | [] => rfl
  | e :: es => by
      simp [Expr.outlines, Expr.labelsOf, e.count_ids, Expr.count_idsOf es]

/-- The outline of a statement has the labels of the statement, each as often. -/
theorem Stmt.count_ids : ∀ s : Stmt, s.outline.ids.count x = s.labels.count x
  | .block b => b.count_ids .block
  | .letVar _ _ _ e | .expr _ e | .ret _ (some e) => by
      simp [Stmt.outline, Stmt.labels, List.count_cons, e.count_ids]
  | .fnDecl _ _ _ b | .loop _ b => by
      simp [Stmt.outline, Stmt.labels, List.count_cons, b.count_ids]
  | .ret _ none | .breakLoop _ | .continueLoop _ => rfl
  | .cond _ test yes none => by
      simp [Stmt.outline, Stmt.labels, List.count_cons, test.count_ids, yes.count_ids,
        Nat.add_assoc]
  | .cond _ test yes (some no) => by
      simp [Stmt.outline, Stmt.labels, List.count_cons, test.count_ids, yes.count_ids,
        no.count_ids, Nat.add_assoc]
  | .whileLoop _ test b => by
      simp [Stmt.outline, Stmt.labels, List.count_cons, test.count_ids, b.count_ids,
        Nat.add_assoc]

/-- The outlines of statements have the labels of the statements, each as often. -/
theorem Stmt.count_idsOf : ∀ ss : List Stmt,
    (idsOf (Stmt.outlines ss)).count x = (Stmt.labelsOf ss).count x
  | [] => rfl
  | s :: ss => by
      simp [Stmt.outlines, Stmt.labelsOf, s.count_ids, Stmt.count_idsOf ss]

/-- The outline of a block has the labels of the block, each as often. The order differs, as a tree
lists the labels of parts first. -/
theorem Block.count_ids : ∀ (b : Block) (k : NodeKind), (b.outline k).ids.count x = b.labels.count x
  | .mk _ ss none, _ => by
      simp [Block.outline, Block.labels, List.count_cons, Stmt.count_idsOf ss]
  | .mk _ ss (some e), _ => by
      simp [Block.outline, Block.labels, List.count_cons, Stmt.count_idsOf ss, e.count_ids,
        Nat.add_assoc]

end

/-! ### The labels of blocks -/

/-- The labels of blocks in a row are those of both parts. -/
@[simp] theorem blockIds_append (as bs : List OwnedBlock) :
    blockIds (as ++ bs) = blockIds as ++ blockIds bs :=
  List.map_append

mutual

/-- The blocks in an expression are some of its nodes. Labels are counted, so that a label that two
nodes had would count twice. -/
theorem Expr.count_blockIds (function : Nat) : ∀ e : Expr,
    (blockIds (e.blocks function)).count x ≤ e.labels.count x
  | .lit _ _ | .ident _ _ => Nat.zero_le _
  | .unary _ _ e | .cast _ e _ => by
      have := e.count_blockIds function
      simp only [Expr.blocks, Expr.labels, List.count_append]
      omega
  | .binary _ _ a b | .assign _ a b | .index _ a b => by
      have := a.count_blockIds function
      have := b.count_blockIds function
      simp only [Expr.blocks, Expr.labels, blockIds_append, List.count_append]
      omega
  | .call _ f args => by
      have := f.count_blockIds function
      have := Expr.count_blockIdsOf function args
      simp only [Expr.blocks, Expr.labels, blockIds_append, List.count_append]
      omega
  | .list _ items => by
      have := Expr.count_blockIdsOf function items
      simp only [Expr.blocks, Expr.labels, List.count_append]
      omega
  | .lambda n _ b => by
      have := b.count_blockIds (n.function.getD function)
      simp only [Expr.blocks, Expr.labels, List.count_append]
      omega

/-- The blocks in expressions are some of their nodes. -/
theorem Expr.count_blockIdsOf (function : Nat) : ∀ es : List Expr,
    (blockIds (Expr.blocksOf function es)).count x ≤ (Expr.labelsOf es).count x
  | [] => Nat.zero_le _
  | e :: es => by
      have := e.count_blockIds function
      have := Expr.count_blockIdsOf function es
      simp only [Expr.blocksOf, Expr.labelsOf, blockIds_append, List.count_append]
      omega

/-- The blocks in a statement are some of its nodes, so their labels are among those of the
statement. -/
theorem Stmt.count_blockIds (function : Nat) : ∀ s : Stmt,
    (blockIds (s.blocks function)).count x ≤ s.labels.count x
  | .block b => b.count_blockIds function
  | .loop _ b => by
      have := b.count_blockIds function
      simp only [Stmt.blocks, Stmt.labels, List.count_append]
      omega
  | .letVar _ _ _ e | .expr _ e | .ret _ (some e) => by
      have := e.count_blockIds function
      simp only [Stmt.blocks, Stmt.labels, List.count_append]
      omega
  | .fnDecl n _ _ b => by
      have := b.count_blockIds (n.function.getD function)
      simp only [Stmt.blocks, Stmt.labels, List.count_append]
      omega
  | .ret _ none | .breakLoop _ | .continueLoop _ => Nat.zero_le _
  | .cond _ test yes none => by
      have := test.count_blockIds function
      have := yes.count_blockIds function
      simp only [Stmt.blocks, Stmt.labels, blockIds_append, List.count_append]
      omega
  | .cond _ test yes (some no) => by
      have := test.count_blockIds function
      have := yes.count_blockIds function
      have := no.count_blockIds function
      simp only [Stmt.blocks, Stmt.labels, blockIds_append, List.count_append]
      omega
  | .whileLoop _ test b => by
      have := test.count_blockIds function
      have := b.count_blockIds function
      simp only [Stmt.blocks, Stmt.labels, blockIds_append, List.count_append]
      omega

/-- The blocks in statements are some of their nodes. -/
theorem Stmt.count_blockIdsOf (function : Nat) : ∀ ss : List Stmt,
    (blockIds (Stmt.blocksOf function ss)).count x ≤ (Stmt.labelsOf ss).count x
  | [] => Nat.zero_le _
  | s :: ss => by
      have := s.count_blockIds function
      have := Stmt.count_blockIdsOf function ss
      simp only [Stmt.blocksOf, Stmt.labelsOf, blockIds_append, List.count_append]
      omega

/-- The labels of the blocks of a tree are labels of the tree. -/
theorem Block.count_blockIds (function : Nat) : ∀ b : Block,
    (blockIds (b.blocks function)).count x ≤ b.labels.count x
  | .mk n ss none => by
      have := Stmt.count_blockIdsOf function ss
      change ((blockIds [(.mk n ss none, function)] ++ blockIds (Stmt.blocksOf function ss))).count x
        ≤ _
      simp only [Block.labels, List.count_append]
      exact Nat.add_comm _ _ ▸ Nat.add_le_add_right this _
  | .mk n ss (some e) => by
      have := Stmt.count_blockIdsOf function ss
      have := e.count_blockIds function
      change ((blockIds [(.mk n ss (some e), function)] ++
        blockIds (Stmt.blocksOf function ss ++ e.blocks function))).count x ≤ _
      simp only [Block.labels, blockIds_append, List.count_append]
      change [n.id].count x + _ ≤ _
      omega

end

end Count

/-! ### Walks -/

namespace Outline

mutual

/-- Every node but the one a walk starts from stands in one slot. -/
theorem ids_perm : ∀ o : Outline, o.ids.Perm (o.note.id :: o.nodes.flatMap childIds)
  | .node n k d cs => by
      rw [ids_node, nodes, List.flatMap_cons]
      exact (idsOf_perm cs).cons n.id

/-- The labels of outlines are those at their tops and those in all slots below, since every other
node is a child once. -/
theorem idsOf_perm : ∀ cs : List (Option Outline), (idsOf cs).Perm
    ((cs.filterMap fun c => c.map fun o => o.note.id) ++ (nodesOf cs).flatMap childIds)
  | [] => .nil
  | none :: cs => by
      rw [idsOf_gap, nodesOf]
      exact idsOf_perm cs
  | some o :: cs => by
      rw [idsOf_cons, nodesOf, List.flatMap_append]
      refine ((ids_perm o).append (idsOf_perm cs)).trans ?_
      rw [List.cons_append]
      refine .cons _ ?_
      exact List.perm_append_comm_assoc _ _ _

end

/-- An outline is one of the nodes that it lists. -/
theorem mem_nodes_self (o : Outline) : o ∈ o.nodes := by
  cases o with
  | node n k d cs =>
      rw [nodes]
      exact List.mem_cons_self

/-- The nodes of an outline are among those of a list that holds it. -/
theorem sublist_nodesOf {c : Outline} {cs : List (Option Outline)} (h : some c ∈ cs) :
    c.nodes.Sublist (nodesOf cs) := by
  induction cs with
  | nil => cases h
  | cons d ds ih =>
      rcases List.mem_cons.mp h with rfl | hc
      · rw [nodesOf]
        exact List.sublist_append_left _ _
      · cases d with
        | none =>
            rw [nodesOf]
            exact ih hc
        | some d =>
            rw [nodesOf]
            exact (ih hc).trans (List.sublist_append_right _ _)

/-- A child has fewer nodes than its parent. -/
theorem length_nodes_lt {o c : Outline} (h : some c ∈ o.children) :
    c.nodes.length < o.nodes.length := by
  cases o with
  | node n k d cs =>
      rw [nodes, List.length_cons]
      exact Nat.lt_succ_of_le (sublist_nodesOf h).length_le

mutual

/-- A walk comes to the children of the nodes it comes to. -/
theorem child_mem_nodes : ∀ (o : Outline) {o' c : Outline}, o' ∈ o.nodes →
    some c ∈ o'.children → c ∈ o.nodes
  | .node n k d cs, o', c, ho, hc => by
      rw [nodes] at ho ⊢
      rcases List.mem_cons.mp ho with rfl | ho
      · exact List.mem_cons_of_mem _ ((sublist_nodesOf hc).subset (mem_nodes_self c))
      · exact List.mem_cons_of_mem _ (child_mem_nodesOf cs ho hc)

/-- A child of a node among outlines is a node among them. -/
theorem child_mem_nodesOf : ∀ (cs : List (Option Outline)) {o' c : Outline}, o' ∈ nodesOf cs →
    some c ∈ o'.children → c ∈ nodesOf cs
  | [], _, _, ho, _ => by cases ho
  | none :: cs, o', c, ho, hc => by
      rw [nodesOf] at ho ⊢
      exact child_mem_nodesOf cs ho hc
  | some o :: cs, o', c, ho, hc => by
      rw [nodesOf, List.mem_append] at ho ⊢
      rcases ho with ho | ho
      · exact .inl (child_mem_nodes o ho hc)
      · exact .inr (child_mem_nodesOf cs ho hc)

end

/-- The label in a slot is that of a child. -/
theorem mem_childIds {o : Outline} {x : Nat} (h : x ∈ o.childIds) :
    ∃ c, some c ∈ o.children ∧ c.note.id = x := by
  obtain ⟨c, hc, hx⟩ := List.mem_filterMap.mp h
  obtain ⟨child, rfl, hid⟩ := Option.map_eq_some_iff.mp hx
  exact ⟨child, hc, hid⟩

end Outline

/-! ### Distinct labels -/

/-- How often a label is handed out from `lo` on, before `hi`. -/
def fresh (lo hi x : Nat) : Nat :=
  if lo ≤ x ∧ x < hi then 1 else 0

namespace Program

/-- Every label occurs once at most, and only if it was handed out. -/
def Labelled (p : Program) : Prop :=
  ∀ x, p.root.labels.count x ≤ fresh 0 p.labels x

variable {p : Program}

/-- The nodes of a program have the labels of its tree. -/
theorem nodeIds_perm (p : Program) : p.nodeIds.Perm p.root.labels :=
  List.perm_iff_count.mpr fun x => p.root.count_ids x .program

/-- Every node but the root is in one slot. -/
theorem nodeIds_perm_slots (p : Program) : p.nodeIds.Perm (p.root.note.id :: p.slots) := by
  have h := p.outline.ids_perm
  have hroot : p.outline.note.id = p.root.note.id := by
    rw [outline]
    cases p.root with
    | mk n ss tail => cases tail <;> rfl
  rwa [hroot] at h

namespace Labelled

/-- In a labelled program no two nodes have one label. -/
theorem nodup (h : p.Labelled) : p.nodeIds.Nodup := by
  refine List.nodup_iff_count_le_one.mpr fun x => ?_
  have hx := h x
  rw [p.nodeIds_perm.count_eq]
  unfold fresh at hx
  split at hx <;> omega

/-- In a labelled program no two blocks have one label. -/
theorem lists_nodup (h : p.Labelled) : (blockIds (p.root.blocks 0)).Nodup := by
  refine List.nodup_iff_count_le_one.mpr fun x => ?_
  have hx := h x
  have hle := Block.count_blockIds x 0 p.root
  unfold fresh at hx
  split at hx <;> omega

/-- In a labelled program every label was handed out. -/
theorem lt (h : p.Labelled) {x : Nat} (hx : x ∈ p.nodeIds) : x < p.labels := by
  have hpos := List.count_pos_iff.mpr (p.nodeIds_perm.mem_iff.mp hx)
  have hle := h x
  unfold fresh at hle
  split at hle
  · omega
  · omega

/-- Nodes with the same label are the same. -/
theorem eq_of_id_eq (h : p.Labelled) {o o' : Outline} (ho : o ∈ p.nodes) (ho' : o' ∈ p.nodes)
    (hid : o.note.id = o'.note.id) : o = o' :=
  List.inj_on_of_nodup_map h.nodup ho ho' hid

/-- A node below another one has fewer nodes. -/
theorem length_nodes_lt (h : p.Labelled) {x y : Nat} (hxy : Relation.TransGen p.Parent x y) :
    ∃ o ∈ p.nodes, ∃ o' ∈ p.nodes, o.note.id = x ∧ o'.note.id = y ∧
      o'.nodes.length < o.nodes.length := by
  induction hxy with
  | single hxy =>
      obtain ⟨o, ho, hx, hy⟩ := hxy
      obtain ⟨c, hc, hcy⟩ := Outline.mem_childIds hy
      exact ⟨o, ho, c, p.outline.child_mem_nodes ho hc, hx, hcy, Outline.length_nodes_lt hc⟩
  | tail _ hyz ih =>
      obtain ⟨o, ho, o', ho', hx, hy, hlt⟩ := ih
      obtain ⟨o'', ho'', hy', hz⟩ := hyz
      obtain rfl := h.eq_of_id_eq ho' ho'' (hy.trans hy'.symm)
      obtain ⟨c, hc, hcz⟩ := Outline.mem_childIds hz
      exact ⟨o, ho, c, p.outline.child_mem_nodes ho' hc, hx, hcz,
        Nat.lt_trans (Outline.length_nodes_lt hc) hlt⟩

/-- **Distinct labels make a tree.** -/
theorem isTree (h : p.Labelled) : p.IsTree := by
  have hslots : (p.root.note.id :: p.slots).Nodup := p.nodeIds_perm_slots.nodup_iff.mp h.nodup
  have hmem : ∀ {x}, x = p.root.note.id ∨ x ∈ p.slots → x ∈ p.nodeIds := fun hx =>
    p.nodeIds_perm_slots.mem_iff.mpr (List.mem_cons.mpr hx)
  refine ⟨fun x hx => h.lt (hmem (.inr hx)), h.lt (hmem (.inl rfl)), (List.nodup_cons.mp hslots).1,
    fun x hx hne => ?_, fun x hx => ?_, h.nodup, h.lists_nodup⟩
  · have hx' := (List.mem_cons.mp (p.nodeIds_perm_slots.mem_iff.mp hx)).resolve_left hne
    exact List.count_eq_one_of_mem (List.nodup_cons.mp hslots).2 hx'
  · obtain ⟨o, ho, o', ho', hid, hid', hlt⟩ := h.length_nodes_lt hx
    obtain rfl := h.eq_of_id_eq ho ho' (hid.trans hid'.symm)
    exact Nat.lt_irrefl _ hlt

end Labelled

/-! ### The table of types -/

/-- Writing types to a table neither adds entries nor takes any away. -/
theorem size_writeTypes (nodes : List Outline) (types : Array Ty) :
    (nodes.foldl (fun types o => types.setIfInBounds o.note.id o.note.ty) types).size =
      types.size := by
  induction nodes generalizing types with
  | nil => rfl
  | cons o nodes ih => rw [List.foldl_cons, ih, Array.size_setIfInBounds]

/-- Writing the types of nodes leaves the entries of all other labels. -/
theorem writeTypes_of_not_mem {label : Nat} {nodes : List Outline} {types : Array Ty}
    (h : label ∉ nodes.map fun o => o.note.id) :
    (nodes.foldl (fun types o => types.setIfInBounds o.note.id o.note.ty) types)[label]? =
      types[label]? := by
  induction nodes generalizing types with
  | nil => rfl
  | cons o nodes ih =>
      rw [List.map_cons, List.mem_cons, not_or] at h
      rw [List.foldl_cons, ih h.2, Array.getElem?_setIfInBounds_ne (Ne.symm h.1)]

/-- What is written for a node stays there, since no other node has its label. -/
theorem writeTypes_of_mem {o : Outline} {nodes : List Outline} {types : Array Ty}
    (h : (nodes.map fun o => o.note.id).Nodup) (ho : o ∈ nodes) (hlt : o.note.id < types.size) :
    (nodes.foldl (fun types o => types.setIfInBounds o.note.id o.note.ty) types)[o.note.id]? =
      some o.note.ty := by
  induction nodes generalizing types with
  | nil => cases ho
  | cons o' nodes ih =>
      rw [List.map_cons, List.nodup_cons] at h
      rw [List.foldl_cons]
      rcases List.mem_cons.mp ho with rfl | ho
      · rw [writeTypes_of_not_mem h.1, Array.getElem?_setIfInBounds_self_of_lt hlt]
      · exact ih h.2 ho (by rwa [Array.size_setIfInBounds])

/-- The table that analysis makes has one entry for each label. -/
theorem size_typeTable (p : Program) : p.typeTable.size = p.labels := by
  rw [typeTable, size_writeTypes, Array.size_replicate]

/-- The entry of a node is its type. -/
theorem Labelled.typeTable_getElem? (h : p.Labelled) {o : Outline} (ho : o ∈ p.nodes) :
    p.typeTable[o.note.id]? = some o.note.ty := by
  refine writeTypes_of_mem h.nodup ho ?_
  rw [Array.size_replicate]
  exact h.lt (List.mem_map_of_mem ho)

end Program

/-- The root has a label. -/
theorem parseTokens_labels_pos (g : Grammar) (size : Nat) (tokens : List Token) :
    0 < (parseTokens g size tokens).1.labels := by
  have h := Parse.from_body (8 * tokens.length + 8) .eof true 1 (.start g tokens) rfl
  unfold parseTokens
  split
  · next he =>
      rw [he] at h
      exact h.1
  · next he =>
      rw [he] at h
      exact h

/-- **Parsed programs.** The labels of a parsed program are distinct, also if there were errors. -/
theorem parseTokens_labelled (g : Grammar) (size : Nat) (tokens : List Token) :
    (parseTokens g size tokens).1.Labelled := by
  intro x
  obtain ⟨hnodup, hlt⟩ := @parseTokens_labels g size tokens
  have hroot := (@parseTokens_fits g size tokens).1
  have hpos := parseTokens_labels_pos g size tokens
  have hone := List.nodup_iff_count_le_one.mp hnodup x
  rw [fresh]
  split
  · exact hone
  · next hx =>
      refine Nat.le_of_eq (List.count_eq_zero.mpr fun hmem => ?_)
      rw [Block.labels_eq, List.mem_append, List.mem_singleton, hroot] at hmem
      rcases hmem with hmem | rfl
      · exact hx ⟨Nat.zero_le x, hlt x hmem⟩
      · exact hx ⟨Nat.le_refl 0, hpos⟩

end Parlance
