import Parlance.Proofs.Analysis.Temporaries
import Parlance.Proofs.BigStep.Agreement
import Parlance.Proofs.BigStep.Effects
import Parlance.Proofs.Optimizer.Labels
import Parlance.Proofs.Tree.Noted

/-!
# Repeated subexpressions

The value of a repeated subexpression is a function of the store, given by its key. An expression
that does not write evaluates all its candidates in one store, so each of them has the value that
it has at the start. A variable that holds this value may be read in their place.

## Main definitions

* `ExprKey.value`: the value of all expressions with a key.
* `Expr.parts`: the subexpressions of an expression.

## Main results

* `Expr.value_of_key`: what an expression with a key gives.
* `Share.candidate_value`: every candidate of an expression has a value if the expression has one.
* `Share.substitute_refines`: reading a variable in the place of a subexpression.
-/

namespace Parlance

open BigStep BigStep.Eval

/-! ### Values of keys -/

namespace BigStep

/-- What a symbol stands for in a store. -/
def held (x : Activation) (s : Store) (y : Nat) : Except Fault Value :=
  match (x.facts.symbol y).storage with
  | .global k => .ok (s.globals k)
  | .frame k =>
    if (x.facts.symbol y).function = x.function then .ok (s.slots k)
    else
      match ((x.facts.captures x.function).idxOf? y).bind fun i => x.captures[i]? with
      | some v => .ok v
      | none => .error .danglingReference
  | .function f => .ok (constant f)
  | .builtin b => .ok (.builtin b)

/-- A result that is given at once leaves the store as it is. -/
theorem pure_ok {α : Type} {a b : α} {s s' : Store} :
    (pure a : Eval α) s (.ok b s') ↔ .ok a = (.ok b : Except Fault α) ∧ s' = s := by
  constructor
  · rintro ⟨⟩
    exact ⟨rfl, rfl⟩
  · rintro ⟨h, rfl⟩
    cases h
    rfl

/-- An operation on values leaves the store as it is. -/
theorem lift_ok {α : Type} {r : Except Fault α} {a : α} {s s' : Store} :
    lift r s (.ok a s') ↔ r = .ok a ∧ s' = s := by
  cases r with
  | ok b => exact pure_ok
  | error k =>
      constructor
      · rintro ⟨⟩
      · rintro ⟨h, -⟩
        cases h

/-- Reading a symbol gives what it stands for, which depends on the store and the activation alone,
and changes nothing. -/
theorem read_ok {x : Activation} {n : Note} {y : Nat} (hn : n.symbol = some y) {s s' : Store}
    {v : Value} : read x n s (.ok v s') ↔ held x s y = .ok v ∧ s' = s := by
  unfold read held
  rw [hn]
  dsimp only
  have hstore : ∀ f : Store → Value, (do return f (← store) : Eval Value) s (.ok v s') ↔
      .ok (f s) = (.ok v : Except Fault Value) ∧ s' = s := by
    intro f
    constructor
    · intro h
      obtain ⟨_, _, h₁, h⟩ := bind_ok.mp h
      cases h₁
      exact pure_ok.mp h
    · intro h
      exact bind_ok.mpr ⟨s, s, rfl, pure_ok.mpr h⟩
  cases (x.facts.symbol y).storage with
  | global k => exact hstore _
  | frame k =>
      dsimp only
      unfold readVariable
      split
      · exact hstore _
      · cases (x.facts.captures x.function).idxOf? y with
        | none => exact lift_ok (r := .error .danglingReference)
        | some i =>
            dsimp only [Option.bind_some]
            unfold captured
            cases x.captures[i]? with
            | none => exact lift_ok (r := .error .danglingReference)
            | some w => exact pure_ok
  | function f => exact pure_ok
  | builtin b => exact pure_ok

end BigStep

/-- The value of the expressions with a key. -/
def ExprKey.value (x : Activation) (s : Store) : ExprKey → Except Fault Value
  | .lit v => .ok v.toValue
  | .symbol y => held x s y
  | .unary op k => do (← k.value x s).unary op
  | .binary op l r => do
    let l ← l.value x s
    Value.binary op.toBinary l (← r.value x s)
  | .cast target k => do (← k.value x s).cast target

section

variable {x : Activation} {s s' : Store} {v : Value}

/-- Identities that are given out do not change values. -/
theorem ExprKey.value_fresh (k : ExprKey) (n : Nat) :
    k.value x { s with fresh := n } = k.value x s := by
  induction k with
  | lit v => rfl
  | symbol y => rfl
  | unary op k ih => simp only [ExprKey.value, ih]
  | binary op l r ihl ihr => simp only [ExprKey.value, ihl, ihr]
  | cast target k ih => simp only [ExprKey.value, ih]

/-- The value of a key does not change in stores that stay the same where it looks. -/
theorem ExprKey.value_stays (k : ExprKey) (h : s.Stays s') : k.value x s' = k.value x s := by
  rw [h.eq]
  exact k.value_fresh _

/-- A literal and its canonical form stand for the same value. -/
theorem Lit.toValue_canonical (l : Lit) : l.canonical.toValue = l.toValue := by
  cases l with
  | float b => exact congrArg Value.float b.canonical_canonical
  | _ => rfl

/-- A sequence of two operations succeeds exactly if both do. -/
theorem except_bind_ok {α β : Type} {r : Except Fault α} {f : α → Except Fault β} {b : β} :
    (r >>= f) = .ok b ↔ ∃ a, r = .ok a ∧ f a = .ok b := by
  cases r with
  | ok a =>
      constructor
      · exact fun h => ⟨a, rfl, h⟩
      · rintro ⟨_, ⟨⟩, h⟩
        exact h
  | error k =>
      constructor
      · intro h
        cases h
      · rintro ⟨_, ⟨⟩, -⟩

/-- An operation on a value that a key gives. -/
theorem bind_lift_ok {m : Eval Value} {r : Except Fault Value} {f : Value → Except Fault Value}
    (hm : ∀ w t, m s (.ok w t) ↔ r = .ok w ∧ t = s) :
    (m >>= fun w => lift (f w)) s (.ok v s') ↔ (r >>= f) = .ok v ∧ s' = s := by
  rw [bind_ok, except_bind_ok]
  constructor
  · rintro ⟨w, t, hw, hf⟩
    obtain ⟨hr, rfl⟩ := (hm w t).mp hw
    obtain ⟨hv, rfl⟩ := lift_ok.mp hf
    exact ⟨⟨w, hr, hv⟩, rfl⟩
  · rintro ⟨⟨w, hr, hf⟩, rfl⟩
    exact ⟨w, _, (hm w _).mpr ⟨hr, rfl⟩, lift_ok.mpr ⟨hf, rfl⟩⟩

/-- **Keys.** An expression with a key has the value of the key, and changes nothing. So two
expressions with one key have one value in the same store. -/
theorem Expr.value_of_key : ∀ (e : Expr) {k : ExprKey}, e.key? = some k →
    ∀ {v : Value} {s s' : Store}, (expr x e s (.ok v s') ↔ k.value x s = .ok v ∧ s' = s)
  | .lit _ l, k, h, v, s, s' => by
      cases h
      rw [expr, ExprKey.value, Lit.toValue_canonical]
      exact pure_ok
  | .ident n _, k, h, v, s, s' => by
      obtain ⟨y, hy, rfl⟩ := Option.map_eq_some_iff.mp h
      rw [expr]
      exact read_ok hy
  | .unary _ op e, k, h, v, s, s' => by
      obtain ⟨k, hk, rfl⟩ := Option.map_eq_some_iff.mp h
      rw [expr, ExprKey.value]
      exact bind_lift_ok fun w t => e.value_of_key hk
  | .cast _ e target, k, h, v, s, s' => by
      obtain ⟨k, hk, rfl⟩ := Option.map_eq_some_iff.mp h
      rw [expr, ExprKey.value]
      exact bind_lift_ok fun w t => e.value_of_key hk
  | .binary _ op l r, k, h, v, s, s' => by
      rw [Expr.key?] at h
      rw [expr]
      cases hop : op.split with
      | inl op' =>
          simp only [hop] at h ⊢
          obtain ⟨kl, hl, h⟩ := Option.bind_eq_some_iff.mp h
          obtain ⟨kr, hr, h⟩ := Option.bind_eq_some_iff.mp h
          cases h
          rw [ExprKey.value, bind_ok, except_bind_ok]
          constructor
          · rintro ⟨w, t, hw, h⟩
            obtain ⟨hw, rfl⟩ := (l.value_of_key hl).mp hw
            obtain ⟨hv, rfl⟩ := (bind_lift_ok fun w t => r.value_of_key hr).mp h
            exact ⟨⟨w, hw, hv⟩, rfl⟩
          · rintro ⟨⟨w, hw, h⟩, rfl⟩
            refine ⟨w, s', (l.value_of_key hl).mpr ⟨hw, rfl⟩, ?_⟩
            exact (bind_lift_ok fun w t => r.value_of_key hr).mpr ⟨h, rfl⟩
      | inr logical =>
          simp only [hop] at h
          cases h

end

/-! ### Parts -/

/-- The label of an expression. -/
def Expr.label (e : Expr) : Nat :=
  e.note.id

mutual

/-- The subexpressions of an expression and the expression itself, without those inside
lambdas. -/
def Expr.parts : Expr → List Expr
  | .lit n v => [.lit n v]
  | .ident n name => [.ident n name]
  | .lambda n s b => [.lambda n s b]
  | .unary n op e => .unary n op e :: e.parts
  | .cast n e target => .cast n e target :: e.parts
  | .binary n op a b => .binary n op a b :: (a.parts ++ b.parts)
  | .assign n a b => .assign n a b :: (a.parts ++ b.parts)
  | .index n a b => .index n a b :: (a.parts ++ b.parts)
  | .call n f args => .call n f args :: (f.parts ++ Expr.partsOf args)
  | .list n items => .list n items :: Expr.partsOf items

def Expr.partsOf : List Expr → List Expr
  | [] => []
  | e :: es => e.parts ++ Expr.partsOf es

end

/-- An expression is one of its parts. -/
theorem Expr.mem_parts_self (e : Expr) : e ∈ e.parts := by
  cases e <;> exact List.mem_cons_self

mutual

/-- The label of a part is one of the labels of the expression, and no part is counted twice. By
induction on the tree. -/
theorem Expr.count_parts (x : Nat) : ∀ e : Expr,
    (e.parts.map Expr.label).count x ≤ e.labels.count x
  | .lit _ _ | .ident _ _ => Nat.le_refl _
  | .lambda n _ b => by
      simp only [Expr.parts, Expr.labels, List.map_cons, List.map_nil, Expr.label, Expr.note, List.count_append]
      omega
  | .unary n _ e | .cast n e _ => by
      have := e.count_parts x
      simp only [Expr.parts, Expr.labels, List.map_cons, Expr.label, Expr.note, List.count_append,
        List.count_cons, List.count_nil]
      omega
  | .binary n _ a b | .assign n a b | .index n a b => by
      have := a.count_parts x
      have := b.count_parts x
      simp only [Expr.parts, Expr.labels, List.map_cons, List.map_append, Expr.label, Expr.note,
        List.count_append, List.count_cons, List.count_nil]
      omega
  | .call n f args => by
      have := f.count_parts x
      have := Expr.count_partsOf x args
      simp only [Expr.parts, Expr.labels, List.map_cons, List.map_append, Expr.label, Expr.note,
        List.count_append, List.count_cons, List.count_nil]
      omega
  | .list n items => by
      have := Expr.count_partsOf x items
      simp only [Expr.parts, Expr.labels, List.map_cons, Expr.label, Expr.note, List.count_append,
        List.count_cons, List.count_nil]
      omega

/-- The same for lists of expressions. -/
theorem Expr.count_partsOf (x : Nat) : ∀ es : List Expr,
    ((Expr.partsOf es).map Expr.label).count x ≤ (Expr.labelsOf es).count x
  | [] => Nat.le_refl _
  | e :: es => by
      have := e.count_parts x
      have := Expr.count_partsOf x es
      simp only [Expr.partsOf, Expr.labelsOf, List.map_append, List.count_append]
      omega

end

/-- Parts with one label are one part. -/
theorem Expr.eq_of_mem_parts {e d d' : Expr} (h : ∀ x, e.labels.count x ≤ 1) (hd : d ∈ e.parts)
    (hd' : d' ∈ e.parts) (hid : d.note.id = d'.note.id) : d = d' := by
  refine List.inj_on_of_nodup_map (f := Expr.label) ?_ hd hd' hid
  exact List.nodup_iff_count_le_one.mpr fun x => Nat.le_trans (e.count_parts x) (h x)

mutual

/-- The parts of an expression that does not write are scoped like it. -/
theorem Expr.parts_scoped {F : Facts} {owner : Nat → Nat} {f : Nat} {live : List Nat} : ∀ {e d : Expr},
    e.mayWrite = false → e.Scoped F f live → e.Noted owner f → d ∈ e.parts →
    d.Scoped F f live ∧ d.Noted owner f
  | .lit _ _, _, _, hs, hn, hd | .ident _ _, _, _, hs, hn, hd | .lambda _ _ _, _, _, hs, hn, hd => by
      rw [Expr.parts, List.mem_singleton] at hd
      exact hd ▸ ⟨hs, hn⟩
  | .unary _ _ e, _, hw, hs, hn, hd | .cast _ e _, _, hw, hs, hn, hd => by
      rcases List.mem_cons.mp hd with rfl | hd
      · exact ⟨hs, hn⟩
      · exact Expr.parts_scoped (e := e) hw hs hn hd
  | .binary _ _ a b, _, hw, hs, hn, hd => by
      simp only [Expr.mayWrite, Bool.or_eq_false_iff] at hw
      rcases List.mem_cons.mp hd with rfl | hd
      · exact ⟨hs, hn⟩
      · rcases List.mem_append.mp hd with hd | hd
        · exact Expr.parts_scoped hw.1 hs.1 hn.2.1 hd
        · exact Expr.parts_scoped hw.2 hs.2 hn.2.2 hd
  | .index _ a b, _, hw, hs, hn, hd => by
      simp only [Expr.mayWrite, Bool.or_eq_false_iff] at hw
      rcases List.mem_cons.mp hd with rfl | hd
      · exact ⟨hs, hn⟩
      · rcases List.mem_append.mp hd with hd | hd
        · exact Expr.parts_scoped hw.1 hs.1 hn.1 hd
        · exact Expr.parts_scoped hw.2 hs.2 hn.2 hd
  | .list _ items, _, hw, hs, hn, hd => by
      rcases List.mem_cons.mp hd with rfl | hd
      · exact ⟨hs, hn⟩
      · exact Expr.partsOf_scoped hw (show Expr.AllScoped F f live items from hs) hn hd
  | .assign _ _ _, _, hw, _, _, _ | .call _ _ _, _, hw, _, _, _ => by cases hw

/-- A part of expressions that do not write has the names in scope that they have. Without writes
there is no scope inside them that could bind another one. -/
theorem Expr.partsOf_scoped {F : Facts} {owner : Nat → Nat} {f : Nat} {live : List Nat} :
    ∀ {es : List Expr} {d : Expr},
    Expr.anyMayWrite es = false → Expr.AllScoped F f live es → Expr.AllNoted owner f es →
    d ∈ Expr.partsOf es → d.Scoped F f live ∧ d.Noted owner f
  | [], _, _, _, _, hd => by cases hd
  | e :: es, _, hw, hs, hn, hd => by
      simp only [Expr.anyMayWrite, Bool.or_eq_false_iff] at hw
      rcases List.mem_append.mp hd with hd | hd
      · exact Expr.parts_scoped hw.1 hs.1 hn.1 hd
      · exact Expr.partsOf_scoped hw.2 hs.2 hn.2 hd

end

namespace Share

/-! ### Candidates -/

/-- The expressions that may be candidates. -/
inductive Operation : Expr → Prop
  | unary (n : Note) (op : UnaryOp) (e : Expr) : Operation (.unary n op e)
  | binary (n : Note) (op : BinaryOp) (l r : Expr) : Operation (.binary n op l r)
  | cast (n : Note) (e : Expr) (target : Scalar) : Operation (.cast n e target)

/-- What is known about a candidate of an expression with these parts. -/
structure IsCandidate (parts : List Expr) (c : Candidate) : Prop where
  mem : c.expr ∈ parts
  key : c.expr.key? = some c.key
  operation : Operation c.expr

/-- A candidate of some parts is a candidate of more of them. -/
theorem IsCandidate.mono {parts parts' : List Expr} {c : Candidate} (h : IsCandidate parts c)
    (hsub : parts ⊆ parts') : IsCandidate parts' c :=
  { h with mem := hsub h.mem }

/-- The candidate that an expression is itself is one of its parts. -/
theorem isCandidate_self {e : Expr} (he : Operation e) {c : Candidate}
    (h : c ∈ (candidate? e).toList) : IsCandidate e.parts c := by
  unfold candidate? at h
  split at h
  · obtain ⟨key, hk, rfl⟩ := Option.map_eq_some_iff.mp (Option.mem_toList.mp h)
    exact ⟨e.mem_parts_self, hk, he⟩
  · cases h

mutual

/-- Each candidate of an expression is one of its parts, with the key and the type of that part. The
right operand of a logical operator is passed over. -/
theorem isCandidate : ∀ (e : Expr) {c : Candidate}, c ∈ candidates e → IsCandidate e.parts c
  | .lit _ _, _, h | .ident _ _, _, h | .lambda _ _ _, _, h => by cases h
  | .unary n op e, c, h => by
      rcases List.mem_append.mp h with h | h
      · exact isCandidate_self (.unary n op e) h
      · exact (isCandidate e h).mono (List.subset_cons_self _ _)
  | .cast n e target, c, h => by
      rcases List.mem_append.mp h with h | h
      · exact isCandidate_self (.cast n e target) h
      · exact (isCandidate e h).mono (List.subset_cons_self _ _)
  | .binary n op l r, c, h => by
      have hl : l.parts ⊆ (Expr.binary n op l r).parts :=
        List.subset_cons_of_subset _ (List.subset_append_left _ _)
      have hr : r.parts ⊆ (Expr.binary n op l r).parts :=
        List.subset_cons_of_subset _ (List.subset_append_right _ _)
      rw [candidates] at h
      split at h
      · exact (isCandidate l h).mono hl
      · rw [List.append_assoc] at h
        rcases List.mem_append.mp h with h | h
        · exact isCandidate_self (.binary n op l r) h
        · rcases List.mem_append.mp h with h | h
          · exact (isCandidate l h).mono hl
          · exact (isCandidate r h).mono hr
  | .assign n a b, c, h | .index n a b, c, h => by
      rcases List.mem_append.mp h with h | h
      · exact (isCandidate a h).mono
          (List.subset_cons_of_subset _ (List.subset_append_left _ _))
      · exact (isCandidate b h).mono
          (List.subset_cons_of_subset _ (List.subset_append_right _ _))
  | .call n f args, c, h => by
      rcases List.mem_append.mp h with h | h
      · exact (isCandidate f h).mono
          (List.subset_cons_of_subset _ (List.subset_append_left _ _))
      · exact (isCandidateOf args h).mono
          (List.subset_cons_of_subset _ (List.subset_append_right _ _))
  | .list n items, c, h => (isCandidateOf items h).mono (List.subset_cons_self _ _)

/-- The same for lists of expressions. -/
theorem isCandidateOf : ∀ (es : List Expr) {c : Candidate}, c ∈ candidatesOf es →
    IsCandidate (Expr.partsOf es) c
  | [], _, h => by cases h
  | e :: es, c, h => by
      rcases List.mem_append.mp h with h | h
      · exact (isCandidate e h).mono (List.subset_append_left _ _)
      · exact (isCandidateOf es h).mono (List.subset_append_right _ _)

end

/-- All replaced labels belong to candidates with the key of the first. -/
theorem repeated?_keys {e first : Expr} {occurrences : List Nat}
    (h : repeated? e = some (first, occurrences)) :
    ∃ c ∈ candidates e, c.expr = first ∧
      ∀ x ∈ occurrences, ∃ d ∈ candidates e, d.key = c.key ∧ d.expr.note.id = x := by
  obtain ⟨c, hc, heq⟩ := Option.map_eq_some_iff.mp h
  cases heq
  refine ⟨c, List.mem_of_find?_eq_some hc, rfl, fun x hx => ?_⟩
  obtain ⟨d, hd, rfl⟩ := List.mem_map.mp hx
  obtain ⟨hd, hk⟩ := List.mem_filter.mp hd
  exact ⟨d, hd, by simpa using hk, rfl⟩

section

variable {x : Activation}

/-- The candidate that an expression is itself has its value. -/
theorem candidate?_value {e : Expr} {c : Candidate} (hc : c ∈ (candidate? e).toList)
    {s s' : Store} {v : Value} (h : BigStep.expr x e s (.ok v s')) : ∃ w, c.key.value x s = .ok w := by
  unfold candidate? at hc
  split at hc
  · obtain ⟨key, hk, rfl⟩ := Option.map_eq_some_iff.mp (Option.mem_toList.mp hc)
    exact ⟨v, ((e.value_of_key hk).mp h).1⟩
  · cases hc

mutual

/-- **Candidates have values.** Whatever an expression that does not write evaluates, it evaluates
in the store it starts with. -/
theorem candidate_value : ∀ (e : Expr), e.mayWrite = false → ∀ {c : Candidate}, c ∈ candidates e →
    ∀ {s s' : Store} {v : Value}, BigStep.expr x e s (.ok v s') → ∃ w, c.key.value x s = .ok w
  | .lit _ _, _, _, hc, _, _, _, _ | .ident _ _, _, _, hc, _, _, _, _
  | .lambda _ _ _, _, _, hc, _, _, _, _ => by cases hc
  | .unary n op e, hw, c, hc, s, s', v, h => by
      rcases List.mem_append.mp hc with hc | hc
      · exact candidate?_value hc h
      · rw [BigStep.expr] at h
        obtain ⟨_, _, h, -⟩ := bind_ok.mp h
        exact candidate_value e hw hc h
  | .cast n e target, hw, c, hc, s, s', v, h => by
      rcases List.mem_append.mp hc with hc | hc
      · exact candidate?_value hc h
      · rw [BigStep.expr] at h
        obtain ⟨_, _, h, -⟩ := bind_ok.mp h
        exact candidate_value e hw hc h
  | .binary n op l r, hw, c, hc, s, s', v, h => by
      simp only [Expr.mayWrite, Bool.or_eq_false_iff] at hw
      have hself : ∀ {c : Candidate}, c ∈ (candidate? (.binary n op l r)).toList →
          ∃ w, c.key.value x s = .ok w := fun hc => candidate?_value hc h
      rw [BigStep.expr] at h
      obtain ⟨w, t, hl, h⟩ := bind_ok.mp h
      rw [candidates] at hc
      split at hc
      · exact candidate_value l hw.1 hc hl
      · next hop =>
          rw [List.append_assoc] at hc
          rcases List.mem_append.mp hc with hc | hc
          · exact hself hc
          · rcases List.mem_append.mp hc with hc | hc
            · exact candidate_value l hw.1 hc hl
            · -- The right operand is evaluated in a store where nothing has changed.
              rw [← c.key.value_stays (expr_still l hw.1 s w t hl)]
              obtain ⟨strict, hop⟩ := BinaryOp.exists_strict (Bool.not_eq_true _ ▸ hop)
              rw [hop] at h
              obtain ⟨_, _, hr, -⟩ := bind_ok.mp h
              exact candidate_value r hw.2 hc hr
  | .index n a b, hw, c, hc, s, s', v, h => by
      simp only [Expr.mayWrite, Bool.or_eq_false_iff] at hw
      rw [BigStep.expr] at h
      obtain ⟨w, t, ha, h⟩ := bind_ok.mp h
      obtain ⟨_, _, hb, -⟩ := bind_ok.mp h
      rcases List.mem_append.mp hc with hc | hc
      · exact candidate_value a hw.1 hc ha
      · rw [← c.key.value_stays (expr_still a hw.1 s w t ha)]
        exact candidate_value b hw.2 hc hb
  | .list n items, hw, c, hc, s, s', v, h => by
      rw [BigStep.expr] at h
      obtain ⟨_, _, h, -⟩ := bind_ok.mp h
      exact candidateOf_value items hw hc h
  | .assign _ _ _, hw, _, _, _, _, _, _ | .call _ _ _, hw, _, _, _, _, _, _ => by cases hw

/-- Where expressions without writes have values, every candidate among them has one already at the
beginning: this is why it may be computed first. -/
theorem candidateOf_value : ∀ (es : List Expr), Expr.anyMayWrite es = false →
    ∀ {c : Candidate}, c ∈ candidatesOf es →
    ∀ {s s' : Store} {vs : List Value}, BigStep.exprs x es s (.ok vs s') → ∃ w, c.key.value x s = .ok w
  | [], _, _, hc, _, _, _, _ => by cases hc
  | e :: es, hw, c, hc, s, s', vs, h => by
      simp only [Expr.anyMayWrite, Bool.or_eq_false_iff] at hw
      rw [BigStep.exprs] at h
      obtain ⟨w, t, he, h⟩ := bind_ok.mp h
      obtain ⟨_, _, hes, -⟩ := bind_ok.mp h
      rcases List.mem_append.mp hc with hc | hc
      · exact candidate_value e hw.1 hc he
      · rw [← c.key.value_stays (expr_still e hw.1 s w t he)]
        exact candidateOf_value es hw.2 hc hes

end

end

/-! ### Substitution -/

section

variable {x : Activation} {before before' : Nat → Value} {live : List Nat} {labels : List Nat}
  {name : String} {y : Nat} {k : ExprKey} {w : Value}

/-- Stores that agree while a temporary holds the value of a key. -/
structure Held (x : Activation) (before before' : Nat → Value) (live : List Nat) (y : Nat)
    (k : ExprKey) (w : Value) (s t : Store) : Prop
    extends Agree x.facts x.function before before' live s t where
  cell : t.cell x.facts y = w
  value : k.value x s = .ok w

/-- What leaves the stores alone leaves the temporary alone. -/
theorem held_of_still {α : Type} {m m' : Eval α} (h : Keeps m m' (x.Agree before before' live))
    (hm : Still m) (hm' : Still m') : Keeps m m' (Held x before before' live y k w) := by
  intro s t a s' hs ha
  obtain ⟨t', ht', hag⟩ := h s t a s' hs.toAgree ha
  refine ⟨t', ht', hag, ?_, ?_⟩
  · rw [(hm' t a t' ht').eq]
    exact hs.cell
  · rw [k.value_stays (hm s a s' ha)]
    exact hs.value

/-- In a function that owns a symbol, the symbol stands for the contents of its cell. -/
theorem held_eq_cell (hy : x.facts.Placed x.function y) (s : Store) :
    held x s y = .ok (s.cell x.facts y) := by
  unfold held Store.cell
  obtain ⟨j, hj | hj⟩ := hy.slot
  · rw [hj]
  · rw [hj]
    dsimp only
    rw [if_pos (hy.owner j hj)]

mutual

/-- **Substitution.** The temporary is read in the place of expressions with its key. It holds the
value of the key all the while, since the expression writes nothing. -/
theorem substitute_refines (hx : Twins x x) (hy : x.facts.Placed x.function y) (e : Expr)
    (hw : e.mayWrite = false) (hs : e.Scoped x.facts x.function live)
    (hk : ∀ d ∈ e.parts, labels.contains d.note.id = true → d.key? = some k) :
    Keeps (BigStep.expr x e) (BigStep.expr x (substitute labels name y e))
      (Held x before before' live y k w) := by
  have hself : Keeps (BigStep.expr x e) (BigStep.expr x e) (Held x before before' live y k w) :=
    held_of_still (expr_refines hx e hs) (expr_still e hw) (expr_still e hw)
  rw [substitute.eq_def]
  split
  · next hit =>
      intro s t v s' hst h
      obtain ⟨hv, rfl⟩ := (e.value_of_key (hk e e.mem_parts_self hit)).mp h
      refine ⟨t, ?_, hst⟩
      rw [BigStep.expr]
      refine (read_ok rfl).mpr ⟨?_, rfl⟩
      rw [held_eq_cell hy, hst.cell, ← hst.value, hv]
  · cases e with
    | lit n v => exact hself
    | ident n name => exact hself
    | lambda n signature b => exact hself
    | unary n op e =>
        exact (substitute_refines hx hy e hw hs fun d hd => hk d (List.mem_cons_of_mem _ hd)).unary
    | cast n e target =>
        exact (substitute_refines hx hy e hw hs fun d hd => hk d (List.mem_cons_of_mem _ hd)).cast
    | binary n op l r =>
        simp only [Expr.mayWrite, Bool.or_eq_false_iff] at hw
        exact (substitute_refines hx hy l hw.1 hs.1 fun d hd =>
          hk d (List.mem_cons_of_mem _ (List.mem_append_left _ hd))).binary
          (substitute_refines hx hy r hw.2 hs.2 fun d hd =>
            hk d (List.mem_cons_of_mem _ (List.mem_append_right _ hd)))
    | index n a b =>
        simp only [Expr.mayWrite, Bool.or_eq_false_iff] at hw
        exact (substitute_refines hx hy a hw.1 hs.1 fun d hd =>
          hk d (List.mem_cons_of_mem _ (List.mem_append_left _ hd))).index
          (substitute_refines hx hy b hw.2 hs.2 fun d hd =>
            hk d (List.mem_cons_of_mem _ (List.mem_append_right _ hd)))
    | list n items =>
        exact (substituteAll_refines hx hy items hw hs fun d hd =>
          hk d (List.mem_cons_of_mem _ hd)).list
    | assign n a b => cases hw
    | call n f args => cases hw

/-- The same for lists of expressions: reading the temporary gives what the key gives. -/
theorem substituteAll_refines (hx : Twins x x) (hy : x.facts.Placed x.function y) (es : List Expr)
    (hw : Expr.anyMayWrite es = false) (hs : Expr.AllScoped x.facts x.function live es)
    (hk : ∀ d ∈ Expr.partsOf es, labels.contains d.note.id = true → d.key? = some k) :
    Keeps (BigStep.exprs x es) (BigStep.exprs x (substituteAll labels name y es))
      (Held x before before' live y k w) := by
  cases es with
  | nil => exact exprs_nil_keeps
  | cons e es =>
      simp only [Expr.anyMayWrite, Bool.or_eq_false_iff] at hw
      rw [substituteAll]
      exact (substitute_refines hx hy e hw.1 hs.1 fun d hd =>
        hk d (List.mem_append_left _ hd)).exprs_cons
        (substituteAll_refines hx hy es hw.2 hs.2 fun d hd => hk d (List.mem_append_right _ hd))

end

end

section

variable {F : Facts} {owner : Nat → Nat} {f y : Nat} {live labels : List Nat} {name : String}

/-- A substitution does not turn another expression into a lambda. -/
theorem isLambda_substitute {e : Expr} (h : e.isLambda = false) :
    (substitute labels name y e).isLambda = false := by
  rw [substitute.eq_def]
  split
  · rfl
  · cases e with
    | lambda n s b => cases h
    | _ => rfl

mutual

/-- A substitution keeps names in scope if the temporary may be read. It has no effect on what the
expression writes, since that writes nothing. -/
theorem substitute_scoped (hy : F.Readable f live y) (e : Expr) (hw : e.mayWrite = false)
    (hs : e.Scoped F f live) (hn : e.Noted owner f) :
    (substitute labels name y e).Scoped F f live ∧ (substitute labels name y e).Noted owner f := by
  rw [substitute.eq_def]
  split
  · exact ⟨fun z hz => Option.some.inj hz ▸ hy, trivial⟩
  · cases e with
    | lit n v => exact ⟨hs, hn⟩
    | ident n name => exact ⟨hs, hn⟩
    | lambda n signature b => exact ⟨hs, hn⟩
    | unary n op e => exact substitute_scoped hy e hw hs hn
    | cast n e target => exact substitute_scoped hy e hw hs hn
    | binary n op l r =>
        simp only [Expr.mayWrite, Bool.or_eq_false_iff] at hw
        have hl := substitute_scoped hy l hw.1 hs.1 hn.2.1
        have hr := substitute_scoped hy r hw.2 hs.2 hn.2.2
        exact ⟨⟨hl.1, hr.1⟩, fun hop => ⟨(hn.1 hop).1, isLambda_substitute (hn.1 hop).2⟩, hl.2, hr.2⟩
    | index n a b =>
        simp only [Expr.mayWrite, Bool.or_eq_false_iff] at hw
        have ha := substitute_scoped hy a hw.1 hs.1 hn.1
        have hb := substitute_scoped hy b hw.2 hs.2 hn.2
        exact ⟨⟨ha.1, hb.1⟩, ha.2, hb.2⟩
    | list n items => exact substituteAll_scoped hy items hw hs hn
    | assign n a b => cases hw
    | call n f args => cases hw

/-- The same for lists of expressions. -/
theorem substituteAll_scoped (hy : F.Readable f live y) (es : List Expr)
    (hw : Expr.anyMayWrite es = false) (hs : Expr.AllScoped F f live es) (hn : Expr.AllNoted owner f es) :
    Expr.AllScoped F f live (substituteAll labels name y es) ∧
      Expr.AllNoted owner f (substituteAll labels name y es) := by
  cases es with
  | nil => exact ⟨trivial, trivial⟩
  | cons e es =>
      simp only [Expr.anyMayWrite, Bool.or_eq_false_iff] at hw
      have he := substitute_scoped hy e hw.1 hs.1 hn.1
      have hes := substituteAll_scoped hy es hw.2 hs.2 hn.2
      exact ⟨⟨he.1, hes.1⟩, he.2, hes.2⟩

end

/-- What has a key makes no functions. -/
theorem functions_of_key (nested : Bool) : ∀ (e : Expr) {key : ExprKey}, e.key? = some key →
    e.functions nested = []
  | .lit _ _, _, _ | .ident _ _, _, _ => rfl
  | .unary _ _ e, _, h | .cast _ e _, _, h => by
      obtain ⟨key, hkey, -⟩ := Option.map_eq_some_iff.mp h
      exact functions_of_key nested e hkey
  | .binary _ op l r, _, h => by
      rw [Expr.key?] at h
      split at h
      · obtain ⟨left, hl, h⟩ := Option.bind_eq_some_iff.mp h
        obtain ⟨right, hr, -⟩ := Option.bind_eq_some_iff.mp h
        rw [Expr.functions, functions_of_key nested l hl, functions_of_key nested r hr,
          List.append_nil]
      · cases h

mutual

/-- Reading a variable in the place of parts that make no functions keeps all functions, in the same
order. -/
theorem substitute_functions (nested : Bool) (e : Expr)
    (h : ∀ d ∈ e.parts, labels.contains d.note.id = true → d.functions nested = []) :
    (substitute labels name y e).functions nested = e.functions nested := by
  rw [substitute.eq_def]
  split
  · next hl => exact (h e e.mem_parts_self hl).symm
  · cases e with
    | lit n v => rfl
    | ident n name => rfl
    | lambda n signature b => rfl
    | unary n op e =>
        exact substitute_functions nested e fun d hd => h d (List.mem_cons_of_mem _ hd)
    | cast n e target =>
        exact substitute_functions nested e fun d hd => h d (List.mem_cons_of_mem _ hd)
    | binary n op a b | assign n a b | index n a b =>
        simp only [Expr.functions]
        rw [substitute_functions nested a fun d hd =>
            h d (List.mem_cons_of_mem _ (List.mem_append_left _ hd)),
          substitute_functions nested b fun d hd =>
            h d (List.mem_cons_of_mem _ (List.mem_append_right _ hd))]
    | call n f args =>
        simp only [Expr.functions]
        rw [substitute_functions nested f fun d hd =>
            h d (List.mem_cons_of_mem _ (List.mem_append_left _ hd)),
          substituteAll_functions nested args fun d hd =>
            h d (List.mem_cons_of_mem _ (List.mem_append_right _ hd))]
    | list n items =>
        exact substituteAll_functions nested items fun d hd => h d (List.mem_cons_of_mem _ hd)

/-- A substitution in expressions keeps their functions, since no replaced part has one. -/
theorem substituteAll_functions (nested : Bool) (es : List Expr)
    (h : ∀ d ∈ Expr.partsOf es, labels.contains d.note.id = true → d.functions nested = []) :
    Expr.functionsOf nested (substituteAll labels name y es) = Expr.functionsOf nested es := by
  cases es with
  | nil => rfl
  | cons e es =>
      rw [substituteAll, Expr.functionsOf, Expr.functionsOf,
        substitute_functions nested e fun d hd => h d (List.mem_append_left _ hd),
        substituteAll_functions nested es fun d hd => h d (List.mem_append_right _ hd)]

end

/-- The note of an operation says nothing about its scope. -/
theorem Operation.withNote_scoped {e : Expr} (h : Operation e) {k : ExprKey} (hk : e.key? = some k)
    {n : Note} (hs : e.Scoped F f live) (hn : e.Noted owner f) :
    (e.withNote n).Scoped F f live ∧ (e.withNote n).Noted owner f := by
  cases h with
  | unary _ op e => exact ⟨hs, hn⟩
  | cast _ e target => exact ⟨hs, hn⟩
  | binary _ op l r =>
      refine ⟨hs, fun hop => ?_, hn.2⟩
      cases op <;> first | cases hk | cases hop

/-- A key does not depend on the note. -/
theorem Operation.key?_withNote {e : Expr} (h : Operation e) (n : Note) :
    (e.withNote n).key? = e.key? := by
  cases h <;> rfl

end

end Share

end Parlance
