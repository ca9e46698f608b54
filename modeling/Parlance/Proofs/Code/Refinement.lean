import Parlance.Proofs.BigStep.Simulation
import Parlance.Proofs.Code.Pool

/-!
# Generated code does what the tree means

For every expression and statement, the machine that runs its code does what its big-step
evaluation does. The proofs follow the recursion of code generation, in the logic of
`Parlance.Proofs.BigStep.Simulation`.

## Main results

* `Simulation.expr_sim`, `Simulation.stmt_sim`: the code of expressions and statements.
* `Simulation.invoke_handles`: the code of functions, by induction on the fuel.
-/

namespace Parlance

namespace Simulation

open BigStep Generate

/-- Where code is placed, and what was known when it was generated. -/
structure Scene (c : Site) (g : GenerateContext) : Prop where
  facts : c.active.facts = g.facts
  function : c.active.function = g.function
  tidy : g.tidy = true
  depth : c.callers.length + 1 = c.active.depth
  handles : Handles c.image c.active.inputs c.active.maxDepth c.active.fuel (c.active.depth + 1)
    c.active.call
  captures : ∀ (f : Nat) (r : Routine), c.image.routines[f]? = some r →
    r.captures = (g.facts.captures f).length

/-- The machine is at an offset with one more operand, which matches a value. -/
def Pushed (c : Site) (pc : Nat) (stack : List Value) (v : Value) (s : Store) (φ : Identities)
    (m : Machine) : Prop :=
  ∃ w, v.Matches φ w ∧ At c φ s m pc (w :: stack)

/-- The machine is at an offset with `count` more operands, which match values. -/
def PushedAll (c : Site) (pc : Nat) (stack : List Value) (count : Nat) (vs : List Value)
    (s : Store) (φ : Identities) (m : Machine) : Prop :=
  ∃ ws, ws.length = count ∧ List.Forall₂ (Value.Matches φ) vs ws ∧
    At c φ s m pc (ws.reverse ++ stack)

/-- Generated code does what an evaluation does, wherever it is placed. -/
def Implements {α : Type} (c : Site) (G : Generate Fragment) (M : Eval α)
    (Q : LoopEnds → Nat → List Value → α → Store → Identities → Machine → Prop) : Prop :=
  ∀ a loop φ s m pc stack, Yields c.image.consts G a → a.Placed c.routine.code pc loop →
    At c φ s m pc stack → Sim c.active.fuel φ m M s (Q loop (pc + a.size) stack)

variable {c : Site} {g : GenerateContext} {φ : Identities} {s : Store} {m : Machine}
  {pc : Nat} {stack : List Value} {loop : LoopEnds} {a : Fragment}

/-- An instruction of the routine at hand refers to entries that are there, since images are
verified. -/
theorem At.refers (h : At c φ s m pc stack) {offset : Nat} {i : Instr}
    (hi : c.routine.code[offset]? = some i) : i.Refers c.image c.routine :=
  ((Image.verify_eq_ok_iff.mp h.running.verified).2.2 _ _ h.routine).refers offset i hi

/-! ### Variables -/

/-- Loading a constant pushes a value that matches it. -/
theorem loadConst_sim {k : Const} (hk : k.IsCanonical)
    (hy : Yields c.image.consts (loadConst k) a) (hp : a.Placed c.routine.code pc loop)
    (h : At c φ s m pc stack) {v : Value} {n : Nat}
    (hv : ∀ (i : Nat), c.image.consts[i]? = some k → v.Matches φ (k.toValue i)) :
    Sim n φ m (pure v) s (Pushed c (pc + a.size) stack) := by
  obtain ⟨i, rfl, hi⟩ := yields_loadConst hk hy
  rw [Fragment.placed_one] at hp
  exact Sim.of_step (Sim.pure ⟨_, hv i hi, h.loadConst hp hi⟩)

/-- A function in the pool matches the closure without captures that loading it makes. The place of
the constant is its identity. -/
theorem constant_matches (h : At c φ s m pc stack) {f i : Nat}
    (hi : c.image.consts[i]? = some (.function f)) :
    (constant f).Matches φ ((Const.function f).toValue i) :=
  Value.function_matches_function.mpr ⟨h.linked.constants f i hi, rfl, .nil⟩

/-- Loading a variable pushes what the variable holds, whether it is a local, a global or a captured
one. -/
theorem loadVariable_sim (hc : Scene c g) {symbol slot owner n : Nat} {range : Range}
    (hy : Yields c.image.consts (loadVariable g symbol slot owner range) a)
    (hp : a.Placed c.routine.code pc loop) (h : At c φ s m pc stack) :
    Sim n φ m (readVariable c.active symbol slot owner) s (Pushed c (pc + a.size) stack) := by
  unfold loadVariable at hy
  unfold readVariable
  rw [hc.function, hc.facts]
  split at hy
  · next ho =>
      rw [if_pos ho]
      cases hy.pure_eq
      rw [Fragment.placed_one] at hp
      obtain ⟨w, hw, hat⟩ := h.loadLocal hp (h.refers hp)
      exact Sim.bind_store (Sim.of_step (Sim.pure ⟨w, hw, hat⟩))
  · next ho =>
      rw [if_neg ho]
      cases hindex : (g.facts.captures g.function).idxOf? symbol with
      | some index =>
          rw [hindex] at hy
          cases hy.pure_eq
          rw [Fragment.placed_one] at hp
          exact h.sim_loadCapture hp (h.refers hp)
      | none =>
          rw [hindex] at hy
          exact absurd hy not_yields_unresolved

/-- Loading a name pushes what the name stands for, also if it names a function. By the storage of
its symbol that is a global, a slot or captured value, or a constant. -/
theorem load_sim (hc : Scene c g) {n : Nat} {note : Note}
    (hy : Yields c.image.consts (load g note) a) (hp : a.Placed c.routine.code pc loop)
    (h : At c φ s m pc stack) :
    Sim n φ m (read c.active note) s (Pushed c (pc + a.size) stack) := by
  unfold load at hy
  unfold BigStep.read
  rw [hc.facts]
  cases hs : note.symbol with
  | none =>
      rw [hs] at hy
      exact absurd hy not_yields_unresolved
  | some symbol =>
      rw [hs] at hy
      simp only at hy ⊢
      cases hst : (g.facts.symbol symbol).storage with
      | global slot =>
          rw [hst] at hy
          cases hy.pure_eq
          rw [Fragment.placed_one] at hp
          obtain ⟨w, hw, hat⟩ := h.loadGlobal hp (h.refers hp)
          exact Sim.bind_store (Sim.of_step (Sim.pure ⟨w, hw, hat⟩))
      | frame slot =>
          rw [hst] at hy
          exact loadVariable_sim hc hy hp h
      | function f =>
          rw [hst] at hy
          exact loadConst_sim (k := .function f) trivial hy hp h fun i hi => constant_matches h hi
      | builtin b =>
          rw [hst] at hy
          exact loadConst_sim (k := .builtin b) trivial hy hp h fun i hi => Value.builtin_matches.mpr rfl

/-- Loading a variable for a closure pushes what the closure is to capture. -/
theorem loadCaptured_sim (hc : Scene c g) {n symbol : Nat} {range : Range}
    (hy : Yields c.image.consts (loadCaptured g range symbol) a)
    (hp : a.Placed c.routine.code pc loop) (h : At c φ s m pc stack) :
    Sim n φ m (readCaptured c.active symbol) s (Pushed c (pc + a.size) stack) := by
  unfold loadCaptured at hy
  unfold BigStep.readCaptured
  rw [hc.facts]
  cases hst : (g.facts.symbol symbol).storage with
  | frame slot =>
      rw [hst] at hy
      exact loadVariable_sim hc hy hp h
  | _ =>
      rw [hst] at hy
      exact absurd hy not_yields_unresolved

/-- The code that stores into a symbol writes it, and leaves the operands below. Only globals and
slots of the function itself are stored into. -/
theorem store_sim (hc : Scene c g) {n : Nat} {note : Note} {v w : Value}
    (hy : Yields c.image.consts (Generate.store g note) a) (hp : a.Placed c.routine.code pc loop)
    (h : At c φ s m pc (w :: stack)) (hv : v.Matches φ w) :
    Sim n φ m (write c.active note v) s fun _ s' φ' m' => At c φ' s' m' (pc + a.size) stack := by
  unfold Generate.store at hy
  unfold BigStep.write
  rw [hc.facts]
  cases hs : note.symbol with
  | none =>
      rw [hs] at hy
      exact absurd hy not_yields_unresolved
  | some symbol =>
      rw [hs] at hy
      simp only at hy ⊢
      cases hst : (g.facts.symbol symbol).storage with
      | global slot =>
          rw [hst] at hy
          cases hy.pure_eq
          rw [Fragment.placed_one] at hp
          exact Sim.of_step (Sim.update (h.storeGlobal hp hv))
      | frame slot =>
          rw [hst] at hy
          simp only at hy ⊢
          rw [hc.function]
          split at hy
          · next ho =>
              rw [if_pos ho]
              cases hy.pure_eq
              rw [Fragment.placed_one] at hp
              exact Sim.of_step (Sim.update (h.storeLocal hp hv))
          · exact absurd hy not_yields_unresolved
      | _ =>
          rw [hst] at hy
          exact absurd hy not_yields_unresolved

/-! ### Function values -/

/-- One more operand below others that match is one more operand that matches. -/
theorem pushedAll_cons {φ' : Identities} {v w : Value} {vs : List Value} {s' : Store}
    {m' : Machine} {count : Nat} (hle : φ.Le φ') (hv : v.Matches φ w)
    (h : PushedAll c pc (w :: stack) count vs s' φ' m') :
    PushedAll c pc stack (count + 1) (v :: vs) s' φ' m' := by
  obtain ⟨ws, rfl, hvs, hat⟩ := h
  refine ⟨w :: ws, rfl, .cons (hv.mono hle) hvs, ?_⟩
  rw [List.reverse_cons, List.append_assoc]
  exact hat

/-- The captured variables of a closure are pushed in their order. The induction is on the list of
captures. -/
theorem loadAllCaptured_sim (hc : Scene c g) {n : Nat} {range : Range} (captures : List Nat) :
    ∀ {a : Fragment} {φ : Identities} {s : Store} {m : Machine} {pc : Nat} {stack : List Value},
      Yields c.image.consts (loadAllCaptured g range captures) a →
      a.Placed c.routine.code pc loop → At c φ s m pc stack →
      Sim n φ m (readAllCaptured c.active captures) s
        (PushedAll c (pc + a.size) stack captures.length) := by
  induction captures with
  | nil =>
      intro a φ s m pc stack hy hp h
      cases hy.pure_eq
      exact Sim.pure ⟨[], rfl, .nil, h⟩
  | cons symbol rest ih =>
      intro a φ s m pc stack hy hp h
      obtain ⟨a₁, hs₁, hy₁, hy⟩ := hy.bind produces_loadCaptured fun _ =>
        grows_bind (produces_loadAllCaptured _).grows (by simp)
      obtain ⟨a₂, -, hy₂, hy⟩ := hy.bind (produces_loadAllCaptured _) (by simp)
      cases hy.pure_eq
      rw [hs₁.placed_append] at hp
      refine (loadCaptured_sim hc hy₁ hp.1 h).bind ?_
      rintro v s' φ' m' - ⟨w, hv, hat⟩
      refine (ih hy₂ hp.2 hat).bind ?_
      intro vs s'' φ'' m'' hle hpush
      rw [Fragment.size_append, ← Nat.add_assoc]
      exact Sim.pure (pushedAll_cons hle hv hpush)

/-- Building a closure pushes one that matches: a new object on one side, and on the other its
captured values. -/
theorem lambda_sim (hc : Scene c g) {n : Nat} {note : Note}
    (hy : Yields c.image.consts (Generate.lambda g note) a)
    (hp : a.Placed c.routine.code pc loop) (h : At c φ s m pc stack) :
    Sim n φ m (BigStep.lambda c.active note) s (Pushed c (pc + a.size) stack) := by
  unfold Generate.lambda at hy
  unfold BigStep.lambda
  rw [hc.facts]
  cases hf : note.function with
  | none =>
      rw [hf] at hy
      exact absurd hy not_yields_unresolved
  | some f =>
      rw [hf] at hy
      simp only at hy ⊢
      cases hcap : g.facts.captures f with
      | nil =>
          rw [hcap] at hy
          exact loadConst_sim (k := .function f) trivial hy hp h fun i hi => constant_matches h hi
      | cons symbol rest =>
          rw [hcap] at hy
          obtain ⟨a₁, hs₁, hy₁, hy⟩ := hy.bind (produces_loadAllCaptured _) (by simp)
          cases hy.pure_eq
          rw [hs₁.placed_append, Fragment.placed_one] at hp
          refine (loadAllCaptured_sim hc _ hy₁ hp.1 h).bind ?_
          rintro vs s' φ' m' - ⟨ws, hlen, hvs, hat⟩
          obtain ⟨r, hr⟩ : ∃ r, c.image.routines[f]? = some r :=
            ⟨_, Array.getElem?_eq_getElem (h.refers hp.2)⟩
          exact hat.sim_closure hp.2 hr (by rw [hlen, hc.captures f r hr, hcap]) hvs

/-! ### Expressions -/

/-- The right operand of a logical operator runs unless the left one decides. -/
theorem shortCircuit_sim {op : LogicalOp} {G : Generate Fragment} {M : Eval Value} {v w : Value}
    (hM : Implements c G M fun _ => Pushed c) (hy : Yields c.image.consts G a)
    (hi : c.routine.code[pc]? = some (op.skipJump (pc + 1 + a.size)))
    (hp : a.Placed c.routine.code (pc + 1) loop) (h : At c φ s m pc (w :: stack))
    (hv : v.Matches φ w) :
    Sim c.active.fuel φ m (shortCircuit op v M) s (Pushed c (pc + 1 + a.size) stack) := by
  refine (h.sim_skipJump hi hv).bind ?_
  intro b s' φ' m' _ hat
  split at hat
  · next hd =>
      rw [if_pos hd]
      exact Sim.pure ⟨w, hat⟩
  · next hd =>
      rw [if_neg hd]
      exact hM _ _ _ _ _ _ _ hy hp hat

/-- The code of an expression implements it: it pushes the value. -/
abbrev Implemented (c : Site) (g : GenerateContext) (e : Expr) : Prop :=
  Implements c (Generate.expr g e) (BigStep.expr c.active e) fun _ => Pushed c

/-- **Binary operators.** Both operands are pushed and replaced by the result, or the left one
decides whether the right one runs. -/
theorem binary_sim {n : Note} {op : BinaryOp} {l r : Expr} (hl : Implemented c g l)
    (hr : Implemented c g r) : Implemented c g (.binary n op l r) := by
  intro a loop φ s m pc stack hy hp h
  rw [Generate.expr] at hy
  rw [BigStep.expr]
  obtain ⟨a₁, hs₁, hy₁, hy⟩ := hy.bind (produces_expr l) (by
    intro a; refine grows_bind (by simp) fun b => ?_; split <;> simp)
  obtain ⟨a₂, hs₂, hy₂, hy⟩ := hy.bind (produces_expr r) (by intro b; split <;> simp)
  cases hop : op.split with
  | inl op =>
      simp only [hop] at hy
      cases hy.pure_eq
      rw [(hs₁.append hs₂).placed_append, hs₁.placed_append, Fragment.placed_one] at hp
      refine (hl _ _ _ _ _ _ _ hy₁ hp.1.1 h).bind ?_
      rintro v s₁ φ₁ m₁ - ⟨w, hv, hat⟩
      refine (hr _ _ _ _ _ _ _ hy₂ hp.1.2 hat).bind ?_
      rintro v' s₂ φ₂ m₂ hle ⟨w', hv', hat₂⟩
      simp only [Fragment.size_append, ← Nat.add_assoc] at hp ⊢
      exact hat₂.sim_pushResult hp.2 (fun _ _ => rfl)
        (Value.Matches.binary hat₂.linked.oneToOne (hv.mono hle) hv' op.toBinary)
  | inr op =>
      simp only [hop] at hy
      cases hy.pure_eq
      rw [hs₁.placed_skipping] at hp
      refine (hl _ _ _ _ _ _ _ hy₁ hp.1 h).bind ?_
      rintro v s₁ φ₁ m₁ - ⟨w, hv, hat⟩
      have hsize : pc + (Fragment.skipping op.skipJump a₁ a₂).size = pc + a₁.size + 1 + a₂.size := by
        simp only [Fragment.skipping, ← Nat.add_assoc]
      rw [hsize]
      exact shortCircuit_sim hr hy₂ hp.2.1 hp.2.2 hat hv

/-- **Assignments to items.** The list is loaded before the index and the value run, and stored
with the item changed. The value stays as that of the assignment. -/
theorem assignItem_sim (hc : Scene c g) {n tn : Note} {base index value : Expr}
    (hindex : Implemented c g index) (hvalue : Implemented c g value) :
    Implemented c g (.assign n (.index tn base index) value) := by
  intro a loop φ s m pc stack hy hp h
  rw [Generate.expr] at hy
  rw [BigStep.expr]
  obtain ⟨a₁, hs₁, hy₁, hy⟩ := hy.bind produces_load fun _ =>
    grows_bind grows_expr fun _ => grows_bind grows_expr (by simp)
  obtain ⟨a₂, hs₂, hy₂, hy⟩ := hy.bind (produces_expr index) (by simp)
  obtain ⟨a₃, hs₃, hy₃, hy⟩ := hy.bind (produces_expr value) (by simp)
  obtain ⟨a₄, hs₄, hy₄, hy⟩ := hy.bind produces_store (by simp)
  cases hy.pure_eq
  rw [(((hs₁.append hs₂).append hs₃).append Fragment.sized_one).placed_append,
    ((hs₁.append hs₂).append hs₃).placed_append, (hs₁.append hs₂).placed_append,
    hs₁.placed_append, Fragment.placed_one] at hp
  obtain ⟨⟨⟨⟨hp₁, hp₂⟩, hp₃⟩, hset⟩, hp₄⟩ := hp
  simp only [Fragment.size_append, ← Nat.add_assoc] at hp₃ hset hp₄ ⊢
  refine (load_sim hc hy₁ hp₁ h).bind ?_
  rintro list s₁ φ₁ m₁ - ⟨w, hw, hat₁⟩
  refine (hindex _ _ _ _ _ _ _ hy₂ hp₂ hat₁).bind ?_
  rintro i s₂ φ₂ m₂ hle₂ ⟨j, hj, hat₂⟩
  refine (hvalue _ _ _ _ _ _ _ hy₃ hp₃ hat₂).bind ?_
  rintro v s₃ φ₃ m₃ hle₃ ⟨u, hu, hat₃⟩
  refine (hat₃.sim_setItem hset ((hw.mono hle₂).mono hle₃) (hj.mono hle₃) hu).bind ?_
  rintro changed s₄ φ₄ m₄ hle₄ ⟨w', hw', hat₄⟩
  refine (store_sim hc hy₄ hp₄ hat₄ hw').bind ?_
  intro _ s₅ φ₅ m₅ hle₅ hat₅
  exact Sim.pure ⟨u, (hu.mono hle₄).mono hle₅, hat₅⟩

/-- **Assignments to names.** The value is copied, and the copy is stored, so that the value itself
is what the assignment leaves. -/
theorem assignName_sim (hc : Scene c g) {n : Note} {target value : Expr}
    (hne : ∀ tn base index, target ≠ .index tn base index) (hvalue : Implemented c g value) :
    Implemented c g (.assign n target value) := by
  intro a loop φ s m pc stack hy hp h
  rw [Generate.expr] at hy
  · rw [BigStep.expr]
    · obtain ⟨a₁, hs₁, hy₁, hy⟩ := hy.bind (produces_expr value) (by simp)
      obtain ⟨a₂, hs₂, hy₂, hy⟩ := hy.bind produces_store (by simp)
      cases hy.pure_eq
      rw [(hs₁.append Fragment.sized_one).placed_append, hs₁.placed_append,
        Fragment.placed_one] at hp
      obtain ⟨⟨hp₁, hcopy⟩, hp₂⟩ := hp
      simp only [Fragment.size_append, ← Nat.add_assoc] at hcopy hp₂ ⊢
      refine (hvalue _ _ _ _ _ _ _ hy₁ hp₁ h).bind ?_
      rintro v s₁ φ₁ m₁ - ⟨w, hv, hat⟩
      have hat' := hat.moved hcopy fun _ _ => rfl
      refine Sim.of_step ((store_sim hc hy₂ hp₂ hat' hv).bind ?_)
      intro _ s₂ φ₂ m₂ hle hat₂
      exact Sim.pure ⟨w, hv.mono hle, hat₂⟩
    · exact hne
  · exact hne

/-- **Calls.** The callee and the arguments are pushed, and the call replaces them by its
result. -/
theorem callExpr_sim (hc : Scene c g) {n : Note} {callee : Expr} {args : List Expr}
    (hcallee : Implemented c g callee)
    (hargs : Implements c (Generate.exprs g args) (BigStep.exprs c.active args)
      fun _ pc stack => PushedAll c pc stack args.length) :
    Implemented c g (.call n callee args) := by
  intro a loop φ s m pc stack hy hp h
  rw [Generate.expr] at hy
  rw [BigStep.expr]
  obtain ⟨a₁, hs₁, hy₁, hy⟩ := hy.bind (produces_expr callee) (by simp)
  obtain ⟨a₂, hs₂, hy₂, hy⟩ := hy.bind (produces_exprs args) (by simp)
  cases hy.pure_eq
  rw [(hs₁.append hs₂).placed_append, hs₁.placed_append, Fragment.placed_one] at hp
  refine (hcallee _ _ _ _ _ _ _ hy₁ hp.1.1 h).bind ?_
  rintro f s₁ φ₁ m₁ - ⟨w, hf, hat⟩
  refine (hargs _ _ _ _ _ _ _ hy₂ hp.1.2 hat).bind ?_
  rintro vs s₂ φ₂ m₂ hle ⟨ws, hlen, hvs, hat₂⟩
  simp only [← hlen, Fragment.size_append, ← Nat.add_assoc] at hp ⊢
  exact hat₂.sim_call hp.2 (hf.mono hle) hvs hc.depth hc.handles

mutual

/-- **Expressions.** The code of an expression pushes its value. The induction is on the tree; the
constructs with more than one way through their code have a lemma of their own each. -/
theorem expr_sim (hc : Scene c g) : ∀ e : Expr, Implemented c g e
  | .lit _ v => by
      intro a loop φ s m pc stack hy hp h
      rw [Generate.expr] at hy
      rw [BigStep.expr]
      refine loadConst_sim v.isCanonical_toConst hy hp h fun i hi => ?_
      cases v <;> simp [Lit.toConst, Lit.toValue, Const.toValue]
  | .ident note _ => by
      intro a loop φ s m pc stack hy hp h
      rw [Generate.expr] at hy
      rw [BigStep.expr]
      exact load_sim hc hy hp h
  | .unary _ op e => by
      intro a loop φ s m pc stack hy hp h
      rw [Generate.expr] at hy
      rw [BigStep.expr]
      obtain ⟨a₁, hs₁, hy₁, hy⟩ := hy.bind (produces_expr e) (by simp)
      cases hy.pure_eq
      rw [hs₁.placed_append, Fragment.placed_one] at hp
      refine (expr_sim hc e _ _ _ _ _ _ _ hy₁ hp.1 h).bind ?_
      rintro v s' φ' m' - ⟨w, hv, hat⟩
      exact hat.sim_pushResult hp.2 (fun _ _ => rfl) (hv.unary op)
  | .binary _ _ l r => binary_sim (expr_sim hc l) (expr_sim hc r)
  | .assign _ target value => by
      cases target with
      | index _ base index => exact assignItem_sim hc (expr_sim hc index) (expr_sim hc value)
      | _ => exact assignName_sim hc nofun (expr_sim hc value)
  | .call _ callee args => callExpr_sim hc (expr_sim hc callee) (exprs_sim hc args)
  | .index _ target index => by
      intro a loop φ s m pc stack hy hp h
      rw [Generate.expr] at hy
      rw [BigStep.expr]
      obtain ⟨a₁, hs₁, hy₁, hy⟩ := hy.bind (produces_expr target) (by simp)
      obtain ⟨a₂, hs₂, hy₂, hy⟩ := hy.bind (produces_expr index) (by simp)
      cases hy.pure_eq
      rw [(hs₁.append hs₂).placed_append, hs₁.placed_append, Fragment.placed_one] at hp
      refine (expr_sim hc target _ _ _ _ _ _ _ hy₁ hp.1.1 h).bind ?_
      rintro v s₁ φ₁ m₁ - ⟨w, hv, hat⟩
      refine (expr_sim hc index _ _ _ _ _ _ _ hy₂ hp.1.2 hat).bind ?_
      rintro i s₂ φ₂ m₂ hle ⟨j, hj, hat₂⟩
      simp only [Fragment.size_append, ← Nat.add_assoc] at hp ⊢
      exact hat₂.sim_pushResult hp.2 (fun _ _ => rfl) ((hv.mono hle).getItem hj)
  | .list _ items => by
      intro a loop φ s m pc stack hy hp h
      rw [Generate.expr] at hy
      rw [BigStep.expr]
      obtain ⟨a₁, hs₁, hy₁, hy⟩ := hy.bind (produces_exprs items) (by simp)
      cases hy.pure_eq
      rw [hs₁.placed_append, Fragment.placed_one] at hp
      refine (exprs_sim hc items _ _ _ _ _ _ _ hy₁ hp.1 h).bind ?_
      rintro vs s' φ' m' - ⟨ws, hlen, hvs, hat⟩
      rw [← hlen] at hp
      exact Sim.of_step (Sim.pure ⟨_, Value.list_matches_list.mpr hvs, hat.buildList hp.2⟩)
  | .cast _ e target => by
      intro a loop φ s m pc stack hy hp h
      rw [Generate.expr] at hy
      rw [BigStep.expr]
      obtain ⟨a₁, hs₁, hy₁, hy⟩ := hy.bind (produces_expr e) (by simp)
      cases hy.pure_eq
      rw [hs₁.placed_append, Fragment.placed_one] at hp
      refine (expr_sim hc e _ _ _ _ _ _ _ hy₁ hp.1 h).bind ?_
      rintro v s' φ' m' - ⟨w, hv, hat⟩
      exact hat.sim_pushResult hp.2 (fun _ _ => rfl) (hv.cast target)
  | .lambda note _ _ => by
      intro a loop φ s m pc stack hy hp h
      rw [Generate.expr] at hy
      rw [BigStep.expr]
      exact lambda_sim hc hy hp h

/-- Lists of expressions are implemented, the values pushed from the first to the last. -/
theorem exprs_sim (hc : Scene c g) : ∀ es : List Expr,
    Implements c (Generate.exprs g es) (BigStep.exprs c.active es)
      fun _ pc stack => PushedAll c pc stack es.length
  | [] => by
      intro a loop φ s m pc stack hy hp h
      rw [Generate.exprs] at hy
      rw [BigStep.exprs]
      cases hy.pure_eq
      exact Sim.pure ⟨[], rfl, .nil, h⟩
  | e :: es => by
      intro a loop φ s m pc stack hy hp h
      rw [Generate.exprs] at hy
      rw [BigStep.exprs]
      obtain ⟨a₁, hs₁, hy₁, hy⟩ := hy.bind (produces_expr e) (by simp)
      obtain ⟨a₂, -, hy₂, hy⟩ := hy.bind (produces_exprs es) (by simp)
      cases hy.pure_eq
      rw [hs₁.placed_append] at hp
      refine (expr_sim hc e _ _ _ _ _ _ _ hy₁ hp.1 h).bind ?_
      rintro v s' φ' m' - ⟨w, hv, hat⟩
      refine (exprs_sim hc es _ _ _ _ _ _ _ hy₂ hp.2 hat).bind ?_
      intro vs s'' φ'' m'' hle hpush
      rw [Fragment.size_append, ← Nat.add_assoc]
      exact Sim.pure (pushedAll_cons hle hv hpush)

end

/-! ### Values that are dropped -/

/-- An evaluation gives a value and changes nothing. -/
def Silent {α : Type} (M : Eval α) (s : Store) : Prop :=
  ∀ r, M s r → ∃ v, r = .ok v s

/-- Reading a variable that code was generated for never fails, so a load whose value is not used
may be left out. -/
theorem readVariable_silent (hc : Scene c g) {symbol slot owner : Nat} {range : Range}
    (hy : Yields c.image.consts (loadVariable g symbol slot owner range) a)
    (h : At c φ s m pc stack) : Silent (readVariable c.active symbol slot owner) s := by
  unfold loadVariable at hy
  unfold readVariable
  rw [hc.function, hc.facts]
  intro r hr
  split at hy
  · next ho =>
      rw [if_pos ho] at hr
      obtain ⟨q, rfl, hr⟩ := hr
      exact ⟨_, hr⟩
  · next ho =>
      rw [if_neg ho] at hr
      cases hindex : (g.facts.captures g.function).idxOf? symbol with
      | none =>
          rw [hindex] at hy
          exact absurd hy not_yields_unresolved
      | some index =>
          rw [hindex] at hr
          have hlt : index < c.active.captures.length := by
            rw [h.captures_length, hc.captures _ _ h.routine, hc.function]
            exact (List.idxOf?_eq_some_iff.mp hindex).1
          simp only [captured, List.getElem?_eq_getElem hlt] at hr
          exact ⟨_, hr⟩

/-- The same for names. -/
theorem read_silent (hc : Scene c g) {note : Note} (hy : Yields c.image.consts (load g note) a)
    (h : At c φ s m pc stack) : Silent (read c.active note) s := by
  unfold load at hy
  unfold BigStep.read
  rw [hc.facts]
  intro r hr
  cases hs : note.symbol with
  | none =>
      rw [hs] at hy
      exact absurd hy not_yields_unresolved
  | some symbol =>
      rw [hs] at hy
      simp only [hs] at hr hy
      cases hst : (g.facts.symbol symbol).storage with
      | global slot =>
          rw [hst] at hr
          obtain ⟨q, rfl, hr⟩ := hr
          exact ⟨_, hr⟩
      | frame slot =>
          rw [hst] at hy hr
          exact readVariable_silent hc hy h r hr
      | function f =>
          rw [hst] at hr
          exact ⟨_, hr⟩
      | builtin b =>
          rw [hst] at hr
          exact ⟨_, hr⟩

/-- **Loads.** An expression whose code is a single load gives a value and changes nothing. So its
code may be left out where the value is not used. -/
theorem isLoad_silent (hc : Scene c g) {e : Expr} (he : isLoad g e = true)
    (hy : Yields c.image.consts (Generate.expr g e) a) (h : At c φ s m pc stack) :
    Silent (BigStep.expr c.active e) s := by
  cases e with
  | lit _ v =>
      rw [BigStep.expr]
      exact fun r hr => ⟨_, hr⟩
  | ident note _ =>
      rw [BigStep.expr]
      rw [Generate.expr] at hy
      exact read_silent hc hy h
  | lambda note _ _ =>
      rw [BigStep.expr]
      unfold BigStep.lambda
      rw [hc.facts]
      simp only [isLoad] at he
      cases hf : note.function with
      | none =>
          rw [hf] at he
          cases he
      | some f =>
          rw [hf] at he
          have hcap : g.facts.captures f = [] := by simpa using he
          simp only [hcap]
          exact fun r hr => ⟨_, hr⟩
  | _ => cases he

/-! ### Statements -/

/-- How control has left the code of a statement: it is at its end, at the end of the loop
around it, at a jump back to the start of this loop, or at a `return`. -/
def Left (c : Site) (inLoop : Bool) (loop : LoopEnds) (pc : Nat) (stack : List Value)
    (signal : Signal) (s : Store) (φ : Identities) (m : Machine) : Prop :=
  match signal with
  | .normal => At c φ s m pc stack
  | .broke => inLoop = true ∧ At c φ s m loop.exit stack
  | .continued => inLoop = true ∧
      ∃ offset, c.routine.code[offset]? = some (.jump loop.start) ∧ At c φ s m offset stack
  | .returned v => ∃ offset stack',
      c.routine.code[offset]? = some .ret ∧ Pushed c offset stack' v s φ m

/-- The code of an expression whose value is not used only has its effects. An assignment stores
without a copy, a load is left out since it has none, and any other value is popped. -/
theorem discard_sim (hc : Scene c g) {inLoop : Bool} (e : Expr) :
    Implements c (Generate.discard g e) (do let _ ← BigStep.expr c.active e; return Signal.normal)
      (Left c inLoop) := by
  intro a loop φ s m pc stack hy hp h
  unfold Generate.discard at hy
  split at hy
  · next target value hassigned =>
      obtain ⟨note, rfl, hne⟩ := Expr.assigned?_eq_some hassigned
      rw [BigStep.expr]
      · obtain ⟨a₁, hs₁, hy₁, hy⟩ := hy.bind (produces_expr value) (by simp)
        obtain ⟨a₂, hs₂, hy₂, hy⟩ := hy.bind produces_store (by simp)
        rw [hc.tidy, if_pos rfl] at hy
        cases hy.pure_eq
        rw [hs₁.placed_append] at hp
        refine Sim.bind (Q := fun _ s' φ' m' => At c φ' s' m' (pc + (a₁ ++ a₂).size) stack) ?_ ?_
        · refine (expr_sim hc value _ _ _ _ _ _ _ hy₁ hp.1 h).bind ?_
          rintro v s₁ φ₁ m₁ - ⟨w, hv, hat⟩
          refine (store_sim hc hy₂ hp.2 hat hv).bind ?_
          intro _ s₂ φ₂ m₂ _ hat₂
          rw [Fragment.size_append, ← Nat.add_assoc]
          exact Sim.pure hat₂
        · intro v s' φ' m' _ hat
          exact Sim.pure hat
      · exact fun m base index he => hne m base index he
  · obtain ⟨a₁, hs₁, hy₁, hy⟩ := hy.bind (produces_expr e) (by simp)
    rw [hc.tidy, Bool.true_and] at hy
    by_cases hload : isLoad g e = true
    · rw [if_pos hload] at hy
      cases hy.pure_eq
      rintro r ⟨q, hq, hr⟩
      obtain ⟨v, rfl⟩ := isLoad_silent hc hload hy₁ h q hq
      cases hr
      exact ⟨0, φ, .refl φ, h⟩
    · rw [if_neg hload] at hy
      cases hy.pure_eq
      rw [hs₁.placed_append, Fragment.placed_one] at hp
      refine (expr_sim hc e _ _ _ _ _ _ _ hy₁ hp.1 h).bind ?_
      rintro v s₁ φ₁ m₁ - ⟨w, hv, hat⟩
      exact Sim.of_step (Sim.pure (hat.moved hp.2 fun _ _ => rfl))

/-- How a round of a loop ends: at a jump back to the start, at the exit, or at a `return`. -/
def RoundEnds (c : Site) (start exit : Nat) (stack : List Value) (signal : Signal) (s : Store)
    (φ : Identities) (m : Machine) : Prop :=
  match signal with
  | .normal | .continued =>
      ∃ back, c.routine.code[back]? = some (.jump start) ∧ At c φ s m back stack
  | .broke => At c φ s m exit stack
  | .returned v => ∃ offset stack',
      c.routine.code[offset]? = some .ret ∧ Pushed c offset stack' v s φ m

/-- A round ends as its body does: `break` and `continue` stand inside the loop, so they lead to its
ends. -/
theorem roundEnds_of_left {ends : LoopEnds} {back : Nat} {signal : Signal}
    (hback : c.routine.code[back]? = some (.jump ends.start))
    (hQ : Left c true ends back stack signal s φ m) :
    RoundEnds c ends.start ends.exit stack signal s φ m := by
  cases signal with
  | normal => exact ⟨_, hback, hQ⟩
  | continued => exact hQ.2
  | broke => exact hQ.2
  | returned v => exact hQ

/-- **Loops.** Rounds follow each other through a jump back to the start of the loop. The induction
is on the fuel of the loop, which the machine has no part in. -/
theorem iterate_sim {offset exit : Nat} {M : Eval Signal}
    (hM : ∀ φ s m, At c φ s m offset stack →
      Sim c.active.fuel φ m M s (RoundEnds c offset exit stack))
    {inLoop : Bool} {loop : LoopEnds} (n : Nat) :
    n ≤ c.active.fuel → ∀ φ s m, At c φ s m offset stack →
      Sim n φ m (iterate n M) s (Left c inLoop loop exit stack) := by
  induction n with
  | zero =>
      intro _ φ s m h
      exact Sim.timeout ⟨0, Nat.le_refl 0, h.outcome, h.linked.output⟩
  | succ n ih =>
      intro hn φ s m h
      refine ((hM φ s m h).mono_fuel hn).bind ?_
      intro signal s' φ' m' _ hQ
      cases signal with
      | normal =>
          obtain ⟨back, hi, hat⟩ := hQ
          exact Sim.of_step_succ (ih (by omega) φ' s' m'.step (hat.moved hi fun _ _ => rfl))
      | continued =>
          obtain ⟨back, hi, hat⟩ := hQ
          exact Sim.of_step_succ (ih (by omega) φ' s' m'.step (hat.moved hi fun _ _ => rfl))
      | broke => exact Sim.pure hQ
      | returned v => exact Sim.pure hQ

/-- What is left of a sequence after its first statement. -/
theorem next_sim {inLoop : Bool} {pc' : Nat} {signal : Signal} {M : Eval Signal}
    (hQ : Left c inLoop loop pc stack signal s φ m)
    (hM : At c φ s m pc stack → Sim c.active.fuel φ m M s (Left c inLoop loop pc' stack)) :
    Sim c.active.fuel φ m (signal.next M) s (Left c inLoop loop pc' stack) := by
  cases signal with
  | normal => exact hM hQ
  | broke => exact Sim.pure hQ
  | continued => exact Sim.pure hQ
  | returned v => exact Sim.pure hQ

/-- **Choices without `else`.** A condition that fails leads behind the block, where nothing more is
on the stack than in front of the condition. -/
theorem ifTrue_sim (hc : Scene c g) {inLoop : Bool} {n : Note} {test : Expr} {yes : Block}
    (hyes : Implements c (Generate.block g inLoop yes) (BigStep.block c.active yes)
      (Left c inLoop)) :
    Implements c (Generate.stmt g inLoop (.cond n test yes none))
      (BigStep.stmt c.active (.cond n test yes none)) (Left c inLoop) := by
  intro a loop φ s m pc stack hy hp h
  rw [Generate.stmt] at hy
  rw [BigStep.stmt]
  obtain ⟨a₁, hs₁, hy₁, hy⟩ := hy.bind (produces_expr test) (by simp)
  obtain ⟨a₂, hs₂, hy₂, hy⟩ := hy.bind (produces_block inLoop yes) (by simp)
  cases hy.pure_eq
  rw [hs₁.placed_skipping] at hp
  refine (expr_sim hc test _ _ _ _ _ _ _ hy₁ hp.1 h).bind ?_
  rintro v s₁ φ₁ m₁ - ⟨w, hv, hat⟩
  refine (hat.sim_jumpIfFalse hp.2.1 hv).bind ?_
  intro b s₂ φ₂ m₂ _ hat₂
  have hsize : pc + (Fragment.skipping .jumpIfFalse a₁ a₂).size = pc + a₁.size + 1 + a₂.size := by
    simp only [Fragment.skipping, ← Nat.add_assoc]
  rw [hsize]
  cases b with
  | true => exact hyes _ _ _ _ _ _ _ hy₂ hp.2.2 hat₂
  | false => exact Sim.pure hat₂

/-- **Choices.** A condition decides between two branches. Behind the first one there is a jump over
the second one, which is only reached if the first one ends normally. -/
theorem choice_sim (hc : Scene c g) {inLoop : Bool} {n : Note} {test : Expr} {yes : Block}
    {no : Stmt}
    (hyes : Implements c (Generate.block g inLoop yes) (BigStep.block c.active yes)
      (Left c inLoop))
    (hno : Implements c (Generate.stmt g inLoop no) (BigStep.stmt c.active no) (Left c inLoop)) :
    Implements c (Generate.stmt g inLoop (.cond n test yes (some no)))
      (BigStep.stmt c.active (.cond n test yes (some no))) (Left c inLoop) := by
  intro a loop φ s m pc stack hy hp h
  rw [Generate.stmt] at hy
  rw [BigStep.stmt]
  obtain ⟨a₁, hs₁, hy₁, hy⟩ := hy.bind (produces_expr test) fun _ =>
    grows_bind grows_block (by simp)
  obtain ⟨a₂, hs₂, hy₂, hy⟩ := hy.bind (produces_block inLoop yes) (by simp)
  obtain ⟨a₃, hs₃, hy₃, hy⟩ := hy.bind (produces_stmt inLoop no) (by simp)
  cases hy.pure_eq
  rw [hs₁.placed_choice hs₂] at hp
  obtain ⟨hp₁, hjump, hp₂, hskip, hp₃⟩ := hp
  refine (expr_sim hc test _ _ _ _ _ _ _ hy₁ hp₁ h).bind ?_
  rintro v s₁ φ₁ m₁ - ⟨w, hv, hat⟩
  refine (hat.sim_jumpIfFalse hjump hv).bind ?_
  intro b s₂ φ₂ m₂ _ hat₂
  have hsize : pc + (Fragment.choice a₁ a₂ a₃).size =
      pc + a₁.size + 1 + a₂.size + 1 + a₃.size := by
    simp only [Fragment.choice, ← Nat.add_assoc]
  rw [hsize]
  cases b with
  | true =>
      refine (hyes _ _ _ _ _ _ _ hy₂ hp₂ hat₂).then_run ?_
      intro signal s' φ' m' _ hQ
      cases signal with
      | normal => exact ⟨1, hQ.moved hskip fun _ _ => rfl⟩
      | broke => exact ⟨0, hQ⟩
      | continued => exact ⟨0, hQ⟩
      | returned v => exact ⟨0, hQ⟩
  | false => exact hno _ _ _ _ _ _ _ hy₃ hp₃ hat₂

/-- **Loops with a test.** A round runs the body only if the condition holds, and otherwise leads to
the end of the loop. -/
theorem whileLoop_sim (hc : Scene c g) {inLoop : Bool} {n : Note} {test : Expr} {b : Block}
    (hb : Implements c (Generate.block g true b) (BigStep.block c.active b) (Left c true)) :
    Implements c (Generate.stmt g inLoop (.whileLoop n test b))
      (BigStep.stmt c.active (.whileLoop n test b)) (Left c inLoop) := by
  intro a loop φ s m pc stack hy hp h
  rw [Generate.stmt] at hy
  rw [BigStep.stmt]
  obtain ⟨a₁, hs₁, hy₁, hy⟩ := hy.bind (produces_expr test) (by simp)
  obtain ⟨a₂, hs₂, hy₂, hy⟩ := hy.bind (produces_block true b) (by simp)
  cases hy.pure_eq
  rw [hs₁.placed_whileTrue hs₂] at hp
  obtain ⟨hp₁, hjump, hp₂, hback⟩ := hp
  refine iterate_sim (fun φ s m hat => ?_) _ (Nat.le_refl _) φ s m h
  refine (expr_sim hc test _ _ _ _ _ _ _ hy₁ hp₁ hat).bind ?_
  rintro v s₁ φ₁ m₁ - ⟨w, hv, hat₁⟩
  refine (hat₁.sim_jumpIfFalse hjump hv).bind ?_
  intro t s₂ φ₂ m₂ _ hat₂
  cases t with
  | false => exact Sim.pure hat₂
  | true =>
      exact (hb _ _ _ _ _ _ _ hy₂ hp₂ hat₂).mono fun _ _ _ _ _ => roundEnds_of_left hback

/-- **Endless loops.** A round runs the body. -/
theorem loop_sim {inLoop : Bool} {n : Note} {b : Block}
    (hb : Implements c (Generate.block g true b) (BigStep.block c.active b) (Left c true)) :
    Implements c (Generate.stmt g inLoop (.loop n b)) (BigStep.stmt c.active (.loop n b))
      (Left c inLoop) := by
  intro a loop φ s m pc stack hy hp h
  rw [Generate.stmt] at hy
  rw [BigStep.stmt]
  obtain ⟨a₁, hs₁, hy₁, hy⟩ := hy.bind (produces_block true b) (by simp)
  cases hy.pure_eq
  rw [hs₁.placed_forever] at hp
  refine iterate_sim (fun φ s m hat => ?_) _ (Nat.le_refl _) φ s m h
  exact (hb _ _ _ _ _ _ _ hy₁ hp.1 hat).mono fun _ _ _ _ _ => roundEnds_of_left hp.2

mutual

/-- **Statements.** The code of a statement does what the statement does, and leaves it in the way
that the signal says: at the end of the code, at an end of the loop around it, or at a `return`. -/
theorem stmt_sim (hc : Scene c g) : ∀ (inLoop : Bool) (st : Stmt),
    Implements c (Generate.stmt g inLoop st) (BigStep.stmt c.active st) (Left c inLoop)
  | inLoop, .block b => by
      intro a loop φ s m pc stack hy hp h
      rw [Generate.stmt] at hy
      rw [BigStep.stmt]
      exact block_sim hc inLoop b _ _ _ _ _ _ _ hy hp h
  | inLoop, .letVar note _ _ init => by
      intro a loop φ s m pc stack hy hp h
      rw [Generate.stmt] at hy
      rw [BigStep.stmt]
      obtain ⟨a₁, hs₁, hy₁, hy⟩ := hy.bind (produces_expr init) (by simp)
      obtain ⟨a₂, hs₂, hy₂, hy⟩ := hy.bind produces_store (by simp)
      cases hy.pure_eq
      rw [hs₁.placed_append] at hp
      refine (expr_sim hc init _ _ _ _ _ _ _ hy₁ hp.1 h).bind ?_
      rintro v s₁ φ₁ m₁ - ⟨w, hv, hat⟩
      refine (store_sim hc hy₂ hp.2 hat hv).bind ?_
      intro _ s₂ φ₂ m₂ _ hat₂
      rw [Fragment.size_append, ← Nat.add_assoc]
      exact Sim.pure hat₂
  | inLoop, .fnDecl _ _ _ _ => by
      intro a loop φ s m pc stack hy hp h
      rw [Generate.stmt] at hy
      rw [BigStep.stmt]
      cases hy.pure_eq
      exact Sim.pure h
  | inLoop, .ret _ none => by
      intro a loop φ s m pc stack hy hp h
      rw [Generate.stmt] at hy
      rw [BigStep.stmt]
      obtain ⟨a₁, hs₁, hy₁, hy⟩ := hy.bind (produces_result none) (by simp)
      cases hy.pure_eq
      rw [hs₁.placed_append, Fragment.placed_one] at hp
      obtain ⟨i, rfl, hi⟩ := yields_loadConst (c := .unit) trivial hy₁
      rw [Fragment.placed_one] at hp
      exact Sim.of_step (Sim.pure ⟨_, _, hp.2, .unit, by simp, h.loadConst hp.1 hi⟩)
  | inLoop, .ret _ (some e) => by
      intro a loop φ s m pc stack hy hp h
      rw [Generate.stmt] at hy
      rw [BigStep.stmt]
      obtain ⟨a₁, hs₁, hy₁, hy⟩ := hy.bind (produces_result (some e)) (by simp)
      cases hy.pure_eq
      rw [hs₁.placed_append, Fragment.placed_one] at hp
      refine (expr_sim hc e _ _ _ _ _ _ _ hy₁ hp.1 h).bind ?_
      intro v s₁ φ₁ m₁ _ hpush
      exact Sim.pure ⟨_, _, hp.2, hpush⟩
  | inLoop, .cond _ _ yes none => ifTrue_sim hc (block_sim hc inLoop yes)
  | inLoop, .cond _ _ yes (some no) =>
      choice_sim hc (block_sim hc inLoop yes) (stmt_sim hc inLoop no)
  | _, .whileLoop _ _ b => whileLoop_sim hc (block_sim hc true b)
  | _, .loop _ b => loop_sim (block_sim hc true b)
  | inLoop, .breakLoop note => by
      intro a loop φ s m pc stack hy hp h
      rw [Generate.stmt] at hy
      rw [BigStep.stmt]
      split at hy
      · next hl =>
          cases hy.pure_eq
          have hi := (embeds_cons.mp hp).1
          exact Sim.of_step (Sim.pure ⟨hl, h.moved hi fun _ _ => rfl⟩)
      · exact absurd hy not_yields_unresolved
  | inLoop, .continueLoop note => by
      intro a loop φ s m pc stack hy hp h
      rw [Generate.stmt] at hy
      rw [BigStep.stmt]
      split at hy
      · next hl =>
          cases hy.pure_eq
          exact Sim.pure ⟨hl, pc, (embeds_cons.mp hp).1, h⟩
      · exact absurd hy not_yields_unresolved
  | inLoop, .expr _ e => by
      intro a loop φ s m pc stack hy hp h
      rw [Generate.stmt] at hy
      rw [BigStep.stmt]
      exact discard_sim hc e _ _ _ _ _ _ _ hy hp h

/-- Statements in a row are implemented. A statement that leaves the row in another way than at its
end is the last one that runs. -/
theorem stmts_sim (hc : Scene c g) : ∀ (inLoop : Bool) (ss : List Stmt),
    Implements c (Generate.stmts g inLoop ss) (BigStep.stmts c.active ss) (Left c inLoop)
  | inLoop, [] => by
      intro a loop φ s m pc stack hy hp h
      rw [Generate.stmts] at hy
      rw [BigStep.stmts]
      cases hy.pure_eq
      exact Sim.pure h
  | inLoop, st :: ss => by
      intro a loop φ s m pc stack hy hp h
      rw [Generate.stmts] at hy
      rw [BigStep.stmts]
      obtain ⟨a₁, hs₁, hy₁, hy⟩ := hy.bind (produces_stmt inLoop st) (by simp)
      obtain ⟨a₂, hs₂, hy₂, hy⟩ := hy.bind (produces_stmts inLoop ss) (by simp)
      cases hy.pure_eq
      rw [hs₁.placed_append] at hp
      refine (stmt_sim hc inLoop st _ _ _ _ _ _ _ hy₁ hp.1 h).bind ?_
      intro signal s' φ' m' _ hQ
      rw [Fragment.size_append, ← Nat.add_assoc]
      exact next_sim hQ (stmts_sim hc inLoop ss _ _ _ _ _ _ _ hy₂ hp.2)

/-- Blocks are implemented: their statements and then their result. -/
theorem block_sim (hc : Scene c g) : ∀ (inLoop : Bool) (b : Block),
    Implements c (Generate.block g inLoop b) (BigStep.block c.active b) (Left c inLoop)
  | inLoop, .mk _ ss none => by
      intro a loop φ s m pc stack hy hp h
      rw [Generate.block] at hy
      rw [BigStep.block]
      exact stmts_sim hc inLoop ss _ _ _ _ _ _ _ hy hp h
  | inLoop, .mk _ ss (some e) => by
      intro a loop φ s m pc stack hy hp h
      rw [Generate.block] at hy
      rw [BigStep.block]
      obtain ⟨a₁, hs₁, hy₁, hy⟩ := hy.bind (produces_stmts inLoop ss) (by simp)
      obtain ⟨a₂, hs₂, hy₂, hy⟩ := hy.bind (produces_discard e) (by simp)
      cases hy.pure_eq
      rw [hs₁.placed_append] at hp
      refine (stmts_sim hc inLoop ss _ _ _ _ _ _ _ hy₁ hp.1 h).bind ?_
      intro signal s' φ' m' _ hQ
      rw [Fragment.size_append, ← Nat.add_assoc]
      exact next_sim hQ (discard_sim hc e _ _ _ _ _ _ _ hy₂ hp.2)

end

/-! ### Functions -/

section Returns

variable {final : Array Const} {x : Activation}

/-- A store is some code, and does not end with a return. -/
theorem returns_store {note : Note} (hy : Yields final (Generate.store g note) a) :
    a.size ≠ 0 ∧ a.returns = false := by
  unfold Generate.store at hy
  split at hy
  · exact absurd hy not_yields_unresolved
  · split at hy
    · cases hy.pure_eq
      exact ⟨Nat.one_ne_zero, rfl⟩
    · split at hy
      · cases hy.pure_eq
        exact ⟨Nat.one_ne_zero, rfl⟩
      · exact absurd hy not_yields_unresolved
    · exact absurd hy not_yields_unresolved

/-- Code ends with a return if its last part that is not empty does. -/
theorem returns_append (a b : Fragment) :
    (a ++ b).returns = if b.size = 0 then a.returns else b.returns := rfl

/-- An expression whose value is not used does not end with a return. -/
theorem returns_discard {e : Expr} (hy : Yields final (Generate.discard g e) a) :
    a.returns = false := by
  unfold Generate.discard at hy
  split at hy
  · obtain ⟨a₁, -, -, hy⟩ := hy.bind (produces_expr _) (by simp)
    obtain ⟨a₂, -, hy₂, hy⟩ := hy.bind produces_store (by simp)
    cases hy.pure_eq
    split
    · rw [returns_append, if_neg (returns_store hy₂).1, (returns_store hy₂).2]
    · rfl
  · obtain ⟨a₁, -, -, hy⟩ := hy.bind (produces_expr e) (by simp)
    cases hy.pure_eq
    split
    · rfl
    · rfl

/-- A sequence ends normally only if both its parts do. -/
theorem next_not_normal {signal : Signal} {M : Eval Signal} {s s' : Store}
    (h : signal.next M s (.ok .normal s')) : signal = .normal ∧ M s (.ok .normal s') := by
  cases signal with
  | normal => exact ⟨rfl, h⟩
  | broke => cases h
  | continued => cases h
  | returned v => cases h

mutual

/-- **Returning code.** Control does not reach the end of a statement whose code ends with a
return. -/
theorem stmt_not_normal : ∀ (inLoop : Bool) (st : Stmt) (a : Fragment),
    Yields final (Generate.stmt g inLoop st) a → a.returns = true →
      ∀ s s', ¬ BigStep.stmt x st s (.ok .normal s')
  | inLoop, .block b, a, hy, ha, s, s', h => by
      rw [Generate.stmt] at hy
      rw [BigStep.stmt] at h
      exact block_not_normal inLoop b a hy ha s s' h
  | inLoop, .letVar note _ _ init, a, hy, ha, s, s', h => by
      rw [Generate.stmt] at hy
      obtain ⟨a₁, -, -, hy⟩ := hy.bind (produces_expr init) (by simp)
      obtain ⟨a₂, -, hy₂, hy⟩ := hy.bind produces_store (by simp)
      cases hy.pure_eq
      rw [returns_append, if_neg (returns_store hy₂).1, (returns_store hy₂).2] at ha
      cases ha
  | inLoop, .fnDecl _ _ _ _, a, hy, ha, s, s', h => by
      rw [Generate.stmt] at hy
      cases hy.pure_eq
      cases ha
  | inLoop, .ret _ none, a, hy, ha, s, s', h => by
      rw [BigStep.stmt] at h
      cases h
  | inLoop, .ret _ (some e), a, hy, ha, s, s', h => by
      rw [BigStep.stmt, Eval.bind_ok] at h
      obtain ⟨v, t, -, h⟩ := h
      cases h
  | inLoop, .cond _ test yes none, a, hy, ha, s, s', h => by
      rw [Generate.stmt] at hy
      obtain ⟨a₁, -, -, hy⟩ := hy.bind (produces_expr test) (by simp)
      obtain ⟨a₂, -, -, hy⟩ := hy.bind (produces_block inLoop yes) (by simp)
      cases hy.pure_eq
      cases ha
  | inLoop, .cond _ test yes (some no), a, hy, ha, s, s', h => by
      rw [Generate.stmt] at hy
      obtain ⟨a₁, -, -, hy⟩ := hy.bind (produces_expr test) fun _ =>
        grows_bind grows_block (by simp)
      obtain ⟨a₂, -, -, hy⟩ := hy.bind (produces_block inLoop yes) (by simp)
      obtain ⟨a₃, -, -, hy⟩ := hy.bind (produces_stmt inLoop no) (by simp)
      cases hy.pure_eq
      cases ha
  | inLoop, .whileLoop _ test b, a, hy, ha, s, s', h => by
      rw [Generate.stmt] at hy
      obtain ⟨a₁, -, -, hy⟩ := hy.bind (produces_expr test) (by simp)
      obtain ⟨a₂, -, -, hy⟩ := hy.bind (produces_block true b) (by simp)
      cases hy.pure_eq
      cases ha
  | inLoop, .loop _ b, a, hy, ha, s, s', h => by
      rw [Generate.stmt] at hy
      obtain ⟨a₁, -, -, hy⟩ := hy.bind (produces_block true b) (by simp)
      cases hy.pure_eq
      cases ha
  | inLoop, .breakLoop _, a, hy, ha, s, s', h => by
      rw [BigStep.stmt] at h
      cases h
  | inLoop, .continueLoop _, a, hy, ha, s, s', h => by
      rw [BigStep.stmt] at h
      cases h
  | inLoop, .expr _ e, a, hy, ha, s, s', h => by
      rw [Generate.stmt] at hy
      rw [returns_discard hy] at ha
      cases ha

/-- Statements whose code ends with a return never end normally, which is why no return is appended
to them. -/
theorem stmts_not_normal : ∀ (inLoop : Bool) (ss : List Stmt) (a : Fragment),
    Yields final (Generate.stmts g inLoop ss) a → a.returns = true →
      ∀ s s', ¬ BigStep.stmts x ss s (.ok .normal s')
  | inLoop, [], a, hy, ha, s, s', h => by
      rw [Generate.stmts] at hy
      cases hy.pure_eq
      cases ha
  | inLoop, st :: ss, a, hy, ha, s, s', h => by
      rw [Generate.stmts] at hy
      rw [BigStep.stmts, Eval.bind_ok] at h
      obtain ⟨a₁, -, hy₁, hy⟩ := hy.bind (produces_stmt inLoop st) (by simp)
      obtain ⟨a₂, -, hy₂, hy⟩ := hy.bind (produces_stmts inLoop ss) (by simp)
      cases hy.pure_eq
      obtain ⟨signal, t, h₁, h₂⟩ := h
      obtain ⟨rfl, h₂⟩ := next_not_normal h₂
      rw [returns_append] at ha
      split at ha
      · exact stmt_not_normal inLoop st a₁ hy₁ ha s t h₁
      · exact stmts_not_normal inLoop ss a₂ hy₂ ha t s' h₂

/-- The same for blocks. -/
theorem block_not_normal : ∀ (inLoop : Bool) (b : Block) (a : Fragment),
    Yields final (Generate.block g inLoop b) a → a.returns = true →
      ∀ s s', ¬ BigStep.block x b s (.ok .normal s')
  | inLoop, .mk _ ss none, a, hy, ha, s, s', h => by
      rw [Generate.block] at hy
      rw [BigStep.block] at h
      exact stmts_not_normal inLoop ss a hy ha s s' h
  | inLoop, .mk _ ss (some e), a, hy, ha, s, s', h => by
      rw [Generate.block] at hy
      rw [BigStep.block, Eval.bind_ok] at h
      obtain ⟨a₁, -, hy₁, hy⟩ := hy.bind (produces_stmts inLoop ss) (by simp)
      obtain ⟨a₂, -, hy₂, hy⟩ := hy.bind (produces_discard e) (by simp)
      cases hy.pure_eq
      obtain ⟨signal, t, h₁, h₂⟩ := h
      obtain ⟨rfl, -⟩ := next_not_normal h₂
      rw [returns_append, returns_discard hy₂] at ha
      split at ha
      · exact stmts_not_normal inLoop ss a₁ hy₁ ha s t h₁
      · cases ha

end

end Returns

end Simulation

end Parlance
