import Parlance.Proofs.Optimizer.Subexpressions

/-!
# Sharing subexpressions keeps results

Temporaries are declared in front of a statement, in the order in which they are needed. Each
declaration stores what the subexpression gives at that point, and what is left of the expression
gives the same value when it reads the temporaries.

The declarations are made with more facts than the expression was analyzed with. What was scoped
before stays so, since a temporary has a place of its own.

## Main definitions

* `Share.Prepared`: an evaluation that is refined by another one after some declarations.
* `Share.Shares`: declarations and an expression that stand for an expression.

## Main results

* `Share.expr_shares`, `Share.stmts_shares`, `Share.block_shares`: expressions, statements, blocks.
-/

namespace Parlance

/-- The functions in statements in a row are those of both parts. -/
theorem Stmt.functionsOf_append (nested : Bool) (ss ts : List Stmt) :
    Stmt.functionsOf nested (ss ++ ts) = Stmt.functionsOf nested ss ++ Stmt.functionsOf nested ts := by
  induction ss with
  | nil => rfl
  | cons s ss ih => simp [Stmt.functionsOf, ih]

namespace Share

open BigStep BigStep.Eval

/-! ### Declarations in front -/

section

variable {x : Activation} {lets ss ss' : List Stmt} {tail tail' : Option Expr} {s t u : Store}

/-- Statements run to their end if the first one does and the rest does from there. -/
theorem stmts_cons_ok {a : Stmt} :
    BigStep.stmts x (a :: ss) s (.ok .normal t) ↔
      ∃ u, BigStep.stmt x a s (.ok .normal u) ∧ BigStep.stmts x ss u (.ok .normal t) := by
  rw [BigStep.stmts, bind_ok]
  constructor
  · rintro ⟨signal, u, hu, h⟩
    cases signal with
    | normal => exact ⟨u, hu, h⟩
    | _ => cases h
  · rintro ⟨u, hu, h⟩
    exact ⟨.normal, u, hu, h⟩

/-- Statements in a row run to their end if both parts do. -/
theorem stmts_append_ok :
    BigStep.stmts x (ss ++ ss') s (.ok .normal t) ↔
      ∃ u, BigStep.stmts x ss s (.ok .normal u) ∧ BigStep.stmts x ss' u (.ok .normal t) := by
  induction ss generalizing s with
  | nil =>
      rw [BigStep.stmts]
      constructor
      · exact fun h => ⟨s, rfl, h⟩
      · rintro ⟨_, ⟨⟩, h⟩
        exact h
  | cons a ss ih =>
      rw [List.cons_append, stmts_cons_ok]
      constructor
      · rintro ⟨u, hu, h⟩
        obtain ⟨w, hw, h⟩ := ih.mp h
        exact ⟨w, stmts_cons_ok.mpr ⟨u, hu, hw⟩, h⟩
      · rintro ⟨w, hw, h⟩
        obtain ⟨u, hu, hw⟩ := stmts_cons_ok.mp hw
        exact ⟨u, hu, ih.mpr ⟨w, hw, h⟩⟩

/-- Declarations, then the rest of a block. -/
theorem finish_after {r : Signal × Value} (hl : BigStep.stmts x lets s (.ok .normal u))
    (h : finish x ss tail u (.ok r t)) : finish x (lets ++ ss) tail s (.ok r t) := by
  induction lets generalizing s with
  | nil =>
      rw [BigStep.stmts] at hl
      cases hl
      exact h
  | cons a lets ih =>
      obtain ⟨w, hw, hl⟩ := stmts_cons_ok.mp hl
      exact finish_cons.mpr ⟨.normal, w, hw, ih hl⟩

end

section

variable {α β : Type} {x : Activation} {lets : List Stmt} {m m' : Eval α}
  {P R S : Store → Store → Prop} {Q : α → Store → Store → Prop}

/-- Every value of `m` is a value of `m'` after some declarations. -/
def Prepared (x : Activation) (lets : List Stmt) (m m' : Eval α) (P : Store → Store → Prop)
    (Q : α → Store → Store → Prop) : Prop :=
  ∀ s t a s', P s t → m s (.ok a s') →
    ∃ u u', BigStep.stmts x lets t (.ok .normal u) ∧ m' u (.ok a u') ∧ Q a s' u'

/-- Where nothing is declared, what refines is prepared. -/
theorem Prepared.of_refines (h : Refines m m' P Q) : Prepared x [] m m' P Q := by
  intro s t a s' hp hm
  obtain ⟨t', ht', hq⟩ := h s t a s' hp hm
  exact ⟨t, t', by rw [BigStep.stmts]; rfl, ht', hq⟩

/-- What follows a prepared evaluation only has to refine. -/
theorem Prepared.bind {f f' : α → Eval β} {T : β → Store → Store → Prop}
    (h : Prepared x lets m m' P Q) (hf : ∀ a, Refines (f a) (f' a) (Q a) T) :
    Prepared x lets (m >>= f) (m' >>= f') P T := by
  intro s t b s' hp hm
  obtain ⟨a, w, hw, hb⟩ := bind_ok.mp hm
  obtain ⟨u, u', hl, ha, hq⟩ := h s t a w hp hw
  obtain ⟨v, hv, ht⟩ := hf a w u' b s' hq hb
  exact ⟨u, v, hl, bind_ok.mpr ⟨a, u', ha, hv⟩, ht⟩

/-- Declarations for a statement, then those after it. -/
theorem Prepared.finish_cons {a a' : Stmt} {ss ss' : List Stmt} {tail tail' : Option Expr}
    (ha : Prepared x lets (BigStep.stmt x a) (BigStep.stmt x a') P fun signal => signal.pick R S)
    (h : Refines (finish x ss tail) (finish x ss' tail') R fun _ => S) :
    Refines (finish x (a :: ss) tail) (finish x (lets ++ a' :: ss') tail') P fun _ => S := by
  intro s t r s' hp hm
  obtain ⟨signal, w, hw, hr⟩ := BigStep.finish_cons.mp hm
  obtain ⟨u, u', hl, ha', hs⟩ := ha s t signal w hp hw
  cases signal with
  | normal =>
      obtain ⟨v, hv, hs'⟩ := h w u' r s' hs hr
      exact ⟨v, finish_after hl (BigStep.finish_cons.mpr ⟨_, u', ha', hv⟩), hs'⟩
  | _ =>
      obtain ⟨rfl, rfl⟩ := hr
      exact ⟨u', finish_after hl (BigStep.finish_cons.mpr ⟨_, u', ha', rfl, rfl⟩), hs⟩

/-- Declarations for the result of a block. -/
theorem Prepared.finish_some {e e' : Expr}
    (h : Prepared x lets (BigStep.expr x e) (BigStep.expr x e') P fun _ => S) :
    Refines (finish x [] (some e)) (finish x lets (some e')) P fun _ => S := by
  intro s t r s' hp hm
  obtain ⟨v, rfl, hv⟩ := BigStep.finish_some.mp hm
  obtain ⟨u, u', hl, he, hs⟩ := h s t v s' hp hv
  have hfin := finish_after hl (BigStep.finish_some.mpr ⟨v, rfl, he⟩)
  rw [List.append_nil] at hfin
  exact ⟨u', hfin, hs⟩

end

/-! ### Expressions -/

/-- Statements in the place of others, with more facts. They declare what those declare, and new
variables. -/
structure Grown (owner : Nat → Nat) (F F' : Facts) (function : Nat) (live : List Nat) (ss ss' : List Stmt) : Prop where
  more : F.Extends F'
  orderly : F'.Orderly
  inScope : Stmt.AllScoped F' function live ss'
  sub : Stmt.liveAfter live ss ⊆ Stmt.liveAfter live ss'
  new : ∀ y ∈ Stmt.liveAfter live ss', y ∈ Stmt.liveAfter live ss ∨ F.Fresh F' function y
  noted : Stmt.AllNoted owner function ss'
  functions : ∀ nested, Stmt.functionsOf nested ss' = Stmt.functionsOf nested ss

/-- Declarations and an expression that stand for the expression `e`. -/
structure Shares (owner : Nat → Nat) (F F' : Facts) (function : Nat) (live : List Nat) (e : Expr) (lets : List Stmt)
    (e' : Expr) : Prop extends Grown owner F F' function live [] lets where
  result : e'.Scoped F' function (Stmt.liveAfter live lets)
  resultNoted : e'.Noted owner function
  resultFunctions : ∀ nested, e'.functions nested = e.functions nested
  refines : ∀ x : Activation, F'.Extends x.facts → x.function = function → Twins x x →
    ∀ before before', Prepared x lets (BigStep.expr x e) (BigStep.expr x e')
      (x.Agree before before' live) fun _ => x.Agree before before' live

section

variable {owner : Nat → Nat} {F F₁ F₂ F₃ : Facts} {function y : Nat} {live : List Nat} {e e' init init' : Expr}
  {inner rest : List Stmt} {c : Candidate} {labels : List Nat} {name : String} {n d : Note}

/-- An expression stands for itself, with nothing declared. -/
theorem Shares.refl (hF : F.Orderly) (hl : F.Live function live) (hs : e.Scoped F function live)
    (hn : e.Noted owner function) : Shares owner F F function live e [] e where
  more := .refl F
  orderly := hF
  inScope := trivial
  sub := List.Subset.refl _
  new _ hy := .inl hy
  noted := trivial
  functions _ := rfl
  result := hs
  resultNoted := hn
  resultFunctions _ := rfl
  refines x he hx htwins before before' := by
    subst hx
    exact .of_refines (expr_refines htwins e (hs.mono hF he hl.lt))

/-- What is known when a candidate gets a temporary. -/
structure Extraction (owner : Nat → Nat) (F F₁ : Facts) (function : Nat) (live : List Nat) (e : Expr) (c : Candidate)
    (labels : List Nat) (y : Nat) : Prop where
  orderly : F.Orderly
  places : F.Live function live
  inScope : e.Scoped F function live
  noted : e.Noted owner function
  still : e.mayWrite = false
  candidate : c ∈ candidates e
  keys : ∀ d ∈ e.parts, labels.contains d.note.id = true → d.key? = some c.key
  more : F.Extends F₁
  fresh : F.Fresh F₁ function y

namespace Extraction

/-- The candidate is one of the parts of the expression. -/
theorem isCandidate (h : Extraction owner F F₁ function live e c labels y) : IsCandidate e.parts c :=
  Share.isCandidate e h.candidate

/-- The declared expression is scoped. -/
theorem init_scoped (h : Extraction owner F F₁ function live e c labels y) (n : Note) :
    (c.expr.withNote n).Scoped F₁ function live ∧ (c.expr.withNote n).Noted owner function := by
  have hc := h.isCandidate
  obtain ⟨hs, hn⟩ := Expr.parts_scoped h.still h.inScope h.noted hc.mem
  exact hc.operation.withNote_scoped hc.key (hs.mono h.orderly h.more h.places.lt) hn

variable (h : Extraction owner F F₁ function live e c labels y)
  (hi : Shares owner F₁ F₂ function live init inner init')

include h hi

/-- The temporary may be declared after the temporaries that its own value needs. -/
theorem declarable : F₂.Declarable function (Stmt.liveAfter live inner) y :=
  h.fresh.declarable h.more hi.more h.places hi.new

/-- The temporary and the variables declared for its initializer have places of their own. -/
theorem places_after : F₂.Live function (y :: Stmt.liveAfter live inner) :=
  (h.declarable hi).live (hi.inScope.live (h.places.mono (h.more.trans hi.more)))

/-- What is declared newly was not there before, so no other function knows it. -/
theorem new_after : ∀ z ∈ y :: Stmt.liveAfter live inner, z ∈ live ∨ F.Fresh F₂ function z := by
  intro z hz
  rcases List.mem_cons.mp hz with rfl | hz
  · exact .inr (h.fresh.mono hi.more)
  · exact (hi.new z hz).imp_right fun hz => hz.weaken h.more

/-- What is left of the expression is scoped where the temporary is declared. -/
theorem rest_scoped (name : String) :
    (substitute labels name y e).Scoped F₂ function (y :: Stmt.liveAfter live inner) ∧
      (substitute labels name y e).Noted owner function := by
  have hsub : live ⊆ y :: Stmt.liveAfter live inner :=
    List.subset_cons_of_subset y (Stmt.subset_liveAfter live inner)
  have hs : e.Scoped F₂ function (y :: Stmt.liveAfter live inner) :=
    Expr.Scoped.shift h.orderly (h.more.trans hi.more)
      (Facts.Fresh.shift h.places hsub (h.new_after hi)) e h.inScope
      fun z hz hz' => absurd (hsub hz) hz'
  exact substitute_scoped ((h.fresh.mono hi.more).readable hi.orderly List.mem_cons_self) e h.still
    hs h.noted

end Extraction

/-- **One temporary.** Declarations for the value of a temporary, its own declaration, and the
declarations for what is left of the expression. -/
theorem Extraction.step (h : Extraction owner F F₁ function live e c labels y)
    (hi : Shares owner F₁ F₂ function live (c.expr.withNote n) inner init')
    (hr : Shares owner F₂ F₃ function (y :: Stmt.liveAfter live inner) (substitute labels name y e) rest e')
    (hd : d.symbol = some y) :
    Shares owner F F₃ function live e (inner ++ .letVar d name none init' :: rest) e' := by
  have hmore : F₁.Extends F₃ := hi.more.trans hr.more
  have hafter : ∀ ss, Stmt.liveAfter live (inner ++ .letVar d name none init' :: ss) =
      Stmt.liveAfter (y :: Stmt.liveAfter live inner) ss := by
    intro ss
    rw [Stmt.liveAfter_append, Stmt.liveAfter, Stmt.declared, hd]
    rfl
  have hplaces := h.places_after hi
  have hinner := hi.inScope.live (h.places.mono (h.more.trans hi.more))
  have hc := h.isCandidate
  refine ⟨⟨h.more.trans hmore, hr.orderly, ?_, Stmt.subset_liveAfter live _, ?_, ?_, fun nested => ?_⟩,
    ?_, hr.resultNoted, fun nested => ?_, ?_⟩
  · refine Stmt.allScoped_append.mpr ⟨hi.inScope.mono hi.orderly hr.more
      (h.places.mono (h.more.trans hi.more)).lt, ⟨hi.result.mono hi.orderly hr.more hinner.lt,
        fun z hz => ?_⟩, ?_⟩
    · rw [hd, Option.some.injEq] at hz
      subst hz
      exact (h.declarable hi).shift hr.more (.refl hinner.lt)
    · rw [Stmt.declared, hd]
      exact hr.inScope
  · rw [hafter]
    intro z hz
    rcases hr.new z hz with hz | hz
    · exact (h.new_after hi z hz).imp_right fun hz => hz.mono hr.more
    · exact .inr (hz.weaken (h.more.trans hi.more))
  · exact Stmt.allNoted_append.mpr ⟨hi.noted, hi.resultNoted, hr.noted⟩
  · have hinit := functions_of_key nested _ ((hc.operation.key?_withNote n).trans hc.key)
    simp only [Stmt.functionsOf_append, Stmt.functionsOf, Stmt.functions, hi.functions,
      hi.resultFunctions, hinit, hr.functions, List.append_nil]
  · rw [hafter]
    exact hr.result
  · rw [hr.resultFunctions]
    exact substitute_functions nested e fun d hd hlabel =>
      functions_of_key nested d (h.keys d hd hlabel)
  · intro x he hx htwins before before' s t v s' hag hm
    subst hx
    have hall : F.Extends x.facts := h.more.trans (hmore.trans he)
    have hfresh := h.fresh.mono (hmore.trans he)
    have hy := hfresh.placed htwins.orderly
    have hsep := (h.fresh.declarable h.more (hmore.trans he) h.places fun z hz => .inl hz).separate
    -- The candidate has a value before the statement, and the declarations give it.
    obtain ⟨w, hw⟩ := candidate_value e h.still h.candidate hm
    have hinit : BigStep.expr x (c.expr.withNote n) s (.ok w s) :=
      (Expr.value_of_key _ ((hc.operation.key?_withNote n).trans hc.key)).mpr ⟨hw, rfl⟩
    obtain ⟨u₁, u₂, hlets, hvalue, hag₂⟩ :=
      hi.refines x (hr.more.trans he) rfl htwins before before' s t w s hag hinit
    have hlet : BigStep.stmt x (.letVar d name none init') u₁
        (.ok .normal (u₂.put x.facts y w)) := by
      rw [BigStep.stmt]
      refine bind_ok.mpr ⟨w, u₂, hvalue, ?_⟩
      rw [write_eq hd hy]
      exact bind_ok.mpr ⟨(), _, rfl, rfl⟩
    -- The temporary holds it now, so what is left of the expression gives its value.
    have hheld : Held x before before' live y c.key w s (u₂.put x.facts y w) :=
      ⟨hag₂.put_right htwins.orderly hy hfresh.hidden hsep, Store.cell_put hy.slot, hw⟩
    obtain ⟨t₃, ht₃, hag₃⟩ := substitute_refines htwins hy e h.still
      (h.inScope.mono h.orderly hall h.places.lt) h.keys s _ v s' hheld hm
    have hself := hheld.toAgree.itself (hplaces.mono (hr.more.trans he)).lt
    obtain ⟨u₃, u₄, hrest, he', hag₄⟩ :=
      hr.refines x he rfl htwins before' before' _ _ v t₃ hself ht₃
    refine ⟨u₃, u₄, stmts_append_ok.mpr ⟨u₁, hlets, stmts_cons_ok.mpr ⟨_, hlet, hrest⟩⟩, he', ?_⟩
    exact hag₃.toAgree.trans (hag₄.mono
      (List.subset_cons_of_subset y (Stmt.subset_liveAfter live inner)))

/-- The supply behind the two labels that a temporary takes. The first one is for its initializer,
which has the type of what it stands for, and the second one is for its declaration. -/
def Supply.declared (s : Supply) (facts : Facts) (ty : Ty) : Supply :=
  { facts, labels := s.labels + 1 + 1, types := (s.types.push ty).push .unit }

/-- The facts behind a declared temporary are those that are given. -/
@[simp] theorem Supply.declared_facts (s : Supply) (facts : Facts) (ty : Ty) :
    (s.declared facts ty).facts = facts := rfl

/-- A declared temporary takes two labels. -/
@[simp] theorem Supply.declared_labels (s : Supply) (facts : Facts) (ty : Ty) :
    (s.declared facts ty).labels = s.labels + 1 + 1 := rfl

/-- One round of sharing. -/
theorem run_expr_succ {fuel : Nat} {first : Expr} (hw : e.mayWrite = false)
    (hr : repeated? e = some (first, labels)) (s : Supply) :
    (expr function (fuel + 1) e).run s =
      let name := s!"%t{s.facts.symbols.size}"
      let made := s.facts.addTemporary name first.ty function
      let inner := (expr function fuel
        (first.withNote { id := s.labels, range := first.range, ty := first.ty })).run
          (s.declared made.1 first.ty)
      let rest := (expr function fuel (substitute labels name made.2 e)).run inner.2
      ((inner.1.1 ++ .letVar { id := s.labels + 1, range := first.range, symbol := some made.2 } name
        none inner.1.2 :: rest.1.1, rest.1.2), rest.2) := by
  rw [expr, hw, hr]
  rfl

/-- The labels of an expression are distinct, and handed out already. -/
def Distinct (labels : Nat) (es : List Nat) : Prop :=
  ∀ x, es.count x ≤ fresh 0 labels x

/-- Labels that were handed out stay so when more are. -/
theorem fresh_mono {lo hi x : Nat} (h : lo ≤ hi) : fresh 0 lo x ≤ fresh 0 hi x := by
  unfold fresh
  split <;> split <;> omega

/-- A candidate with a new label. -/
theorem Distinct.withNote {k : Nat} (h : Distinct k e.labels) (hc : c ∈ candidates e)
    (hn : n.id = k) : Distinct (k + 1 + 1) (c.expr.withNote n).labels := by
  intro x
  have hle := count_withNote x c.expr n
  have hbelow := count_below x e hc
  have hx := h x
  rw [hn, List.count_singleton] at hle
  simp only [fresh, beq_iff_eq] at hle hx ⊢
  split at hle <;> split at hx <;> split <;> omega

/-- The replaced labels belong to parts with one key. -/
theorem keys_of_repeated? {first : Expr} (hd : ∀ x, e.labels.count x ≤ 1)
    (h : repeated? e = some (first, labels)) :
    ∃ c ∈ candidates e, c.expr = first ∧
      ∀ d ∈ e.parts, labels.contains d.note.id = true → d.key? = some c.key := by
  obtain ⟨c, hc, hfirst, hall⟩ := repeated?_keys h
  refine ⟨c, hc, hfirst, fun d hmem hlabel => ?_⟩
  obtain ⟨c', hc', hkey, hid⟩ := hall _ (by simpa using hlabel)
  have hcand := isCandidate e hc'
  rw [← Expr.eq_of_mem_parts hd hcand.mem hmem hid, ← hkey]
  exact hcand.key

/-- **Expressions.** Sharing an expression gives declarations that prepare what is left of it. The
induction is on the rounds, and `Extraction.step` puts a round and the rest together. -/
theorem expr_shares (fuel : Nat) : ∀ {e : Expr} {s : Supply} {live : List Nat}, s.facts.Orderly →
    function < s.facts.functions.size → s.facts.Live function live →
    e.Scoped s.facts function live → e.Noted owner function →
    Distinct s.labels e.labels →
    Shares owner s.facts ((expr function fuel e).run s).2.facts function live e
      ((expr function fuel e).run s).1.1 ((expr function fuel e).run s).1.2 := by
  induction fuel with
  | zero => exact fun hF _ hl hs hn _ => .refl hF hl hs hn
  | succ fuel ih =>
      intro e s live hF hf hl hs hn hd
      cases hw : e.mayWrite with
      | true =>
          rw [expr, hw]
          exact .refl hF hl hs hn
      | false =>
          cases hr : repeated? e with
          | none =>
              rw [expr, hw, hr]
              exact .refl hF hl hs hn
          | some r =>
              obtain ⟨first, labels⟩ := r
              have hone : ∀ x, e.labels.count x ≤ 1 := fun x =>
                Nat.le_trans (hd x) (by unfold fresh; split <;> omega)
              obtain ⟨c, hc, rfl, hkeys⟩ := keys_of_repeated? hone hr
              rw [run_expr_succ hw hr]
              dsimp only
              rw [Facts.addTemporary_symbol]
              generalize (s!"%t{s.facts.symbols.size}" : String) = name
              have hex : Extraction owner s.facts (s.facts.addTemporary name c.expr.ty function).1 function
                  live e c labels s.facts.symbols.size :=
                ⟨hF, hl, hs, hn, hw, hc, hkeys, Facts.addTemporary_extends _ _ hf,
                  Facts.addTemporary_fresh _ _ hF hf⟩
              obtain ⟨his, hin⟩ := hex.init_scoped
                { id := s.labels, range := c.expr.range, ty := c.expr.ty }
              have hi := ih (s := s.declared (s.facts.addTemporary name c.expr.ty function).1 c.expr.ty)
                (Facts.addTemporary_orderly _ _ hF hf)
                (by rw [Supply.declared_facts, hex.more.functions_size]; exact hf)
                (hl.mono hex.more) his hin (hd.withNote hc rfl)
              obtain ⟨hrs, hrn⟩ := hex.rest_scoped hi name
              have hle := (from_expr 0 function fuel _ (c.expr.withNote
                { id := s.labels, range := c.expr.range, ty := c.expr.ty })
                (s.declared (s.facts.addTemporary name c.expr.ty function).1 c.expr.ty) rfl).1
              have hrest := ih hi.orderly
                (by rw [(hex.more.trans hi.more).functions_size]; exact hf) (hex.places_after hi) hrs hrn
                fun x => Nat.le_trans (count_substitute x labels name s.facts.symbols.size e)
                  (Nat.le_trans (hd x) (fresh_mono (by rw [Supply.declared_labels] at hle; omega)))
              exact hex.step hi hrest rfl

/-- **Hoisting.** What is hoisted out of an expression and what is left of it stand for the
expression. -/
theorem root_shares {s : Supply} (hF : s.facts.Orderly) (hf : function < s.facts.functions.size)
    (hl : s.facts.Live function live) (hs : e.Scoped s.facts function live) (hn : e.Noted owner function)
    (hd : Distinct s.labels e.labels) :
    Shares owner s.facts ((root function e).run s).2.facts function live e
      ((root function e).run s).1.1 ((root function e).run s).1.2 :=
  expr_shares _ hF hf hl hs hn hd

end

/-! ### Statements -/

/-- Declarations and a statement that stand for a statement. -/
structure SharesStmt (owner : Nat → Nat) (F F' : Facts) (function : Nat) (live : List Nat) (a : Stmt)
    (lets : List Stmt) (a' : Stmt) : Prop extends Grown owner F F' function live [] lets where
  result : a'.Scoped F' function (Stmt.liveAfter live lets)
  resultNoted : a'.Noted owner function
  resultFunctions : ∀ nested, a'.functions nested = a.functions nested
  declared : a'.declared = a.declared
  refines : ∀ x : Activation, F'.Extends x.facts → x.function = function → Twins x x →
    ∀ before before', Prepared x lets (BigStep.stmt x a) (BigStep.stmt x a')
      (x.Agree before before' live) fun signal =>
        signal.pick (x.Agree before before' (a.declared ++ live)) (x.Agree before before' live)

/-- Statements that stand for others, in front of any result. -/
structure SharesStmts (owner : Nat → Nat) (F F' : Facts) (function : Nat) (live : List Nat) (ss ss' : List Stmt) : Prop
    extends Grown owner F F' function live ss ss' where
  refines : ∀ x : Activation, F'.Extends x.facts → x.function = function → Twins x x →
    ∀ before before' tail,
      (∀ e, tail = some e → e.Scoped F function (Stmt.liveAfter live ss)) →
      Keeps (finish x ss tail) (finish x ss' tail) (x.Agree before before' live)

section

variable {owner : Nat → Nat} {F F' F'' : Facts} {function : Nat} {live : List Nat} {e e' : Expr}
  {a a' : Stmt}
  {lets ss ss' : List Stmt} {n : Note} {s : Supply}

/-- Declarations make the list of declared variables longer, and each new one has a place of its
own. -/
theorem Grown.shift (h : Grown owner F F' function live [] lets) (hl : F.Live function live) :
    F.Shift F' function live (Stmt.liveAfter live lets) :=
  Facts.Fresh.shift hl h.sub h.new

/-- A statement stands for itself, with nothing declared. -/
theorem SharesStmt.refl (hF : F.Orderly) (hl : F.Live function live) (hs : a.Scoped F function live)
    (hn : a.Noted owner function) : SharesStmt owner F F function live a [] a where
  more := .refl F
  orderly := hF
  inScope := trivial
  sub := List.Subset.refl _
  new _ hy := .inl hy
  noted := trivial
  functions _ := rfl
  result := hs
  resultNoted := hn
  resultFunctions _ := rfl
  declared := rfl
  refines x he hx htwins before before' := by
    subst hx
    exact .of_refines (stmt_refines htwins a (hs.mono hF he hl.lt))

/-- A `let` may have its value hoisted from. -/
theorem Shares.letVar (h : Shares owner F F' function live e lets e') (hl : F.Live function live)
    {name : String} {ty : Option Ty} (hd : ∀ y, n.symbol = some y → F.Declarable function live y) :
    SharesStmt owner F F' function live (.letVar n name ty e) lets (.letVar n name ty e') where
  toGrown := h.toGrown
  result := ⟨h.result, fun y hy => (hd y hy).shift h.more (h.shift hl)⟩
  resultNoted := h.resultNoted
  resultFunctions := h.resultFunctions
  declared := rfl
  refines x he hx htwins before before' := by
    subst hx
    rw [BigStep.stmt, BigStep.stmt]
    refine (h.refines x he rfl htwins before before').bind fun v =>
      (write_refines htwins fun y hy => ?_).bind fun _ => Refines.pure fun _ _ h => h
    exact ((hd y hy).shift (h.more.trans he) (.refl hl.lt)).placed htwins.orderly

/-- An expression as a statement may be hoisted from. -/
theorem Shares.expr_stmt (h : Shares owner F F' function live e lets e') :
    SharesStmt owner F F' function live (.expr n e) lets (.expr n e') where
  toGrown := h.toGrown
  result := h.result
  resultNoted := h.resultNoted
  resultFunctions := h.resultFunctions
  declared := rfl
  refines x he hx htwins before before' := by
    rw [BigStep.stmt, BigStep.stmt]
    exact (h.refines x he hx htwins before before').bind fun v => keeps_pure.pick

/-- A `return` may have its value hoisted from. -/
theorem Shares.ret (h : Shares owner F F' function live e lets e') :
    SharesStmt owner F F' function live (.ret n (some e)) lets (.ret n (some e')) where
  toGrown := h.toGrown
  result := h.result
  resultNoted := h.resultNoted
  resultFunctions := h.resultFunctions
  declared := rfl
  refines x he hx htwins before before' := by
    rw [BigStep.stmt, BigStep.stmt]
    exact (h.refines x he hx htwins before before').bind fun v => keeps_pure.pick

/-- A conditional may have its test hoisted from. Its branches then run with more variables
declared. -/
theorem Shares.cond (h : Shares owner F F' function live e lets e') (hF : F.Orderly)
    (hl : F.Live function live) {yes : Block} {no : Option Stmt}
    (hs : (Stmt.cond n e yes no).Scoped F function live) (hn : (Stmt.cond n e yes no).Noted owner function) :
    SharesStmt owner F F' function live (.cond n e yes no) lets (.cond n e' yes no) := by
  have hgone : ∀ {p : Nat → Bool}, ∀ y ∈ live, y ∉ Stmt.liveAfter live lets → p y = false :=
    fun y hy hy' => absurd (h.sub hy) hy'
  cases no with
  | none =>
      refine ⟨h.toGrown, ⟨h.result, Block.Scoped.shift hF h.more yes (h.shift hl) hs.2 hgone⟩,
        ⟨h.resultNoted, hn.2⟩, fun nested => ?_, rfl, fun x he hx htwins before before' => ?_⟩
      · rw [Stmt.functions, Stmt.functions, h.resultFunctions]
      subst hx
      rw [BigStep.stmt, BigStep.stmt]
      have hb := hs.2.mono hF (h.more.trans he) hl.lt
      exact (h.refines x he rfl htwins before before').bind fun v => ((truth_keeps v).bind fun c =>
        refines_ite (fun _ => block_refines htwins yes hb) fun _ => keeps_pure).pick
  | some no =>
      refine ⟨h.toGrown, ⟨h.result, Block.Scoped.shift hF h.more yes (h.shift hl) hs.2.1 hgone,
        Stmt.Scoped.shift hF h.more no (h.shift hl) hs.2.2 hgone⟩, ⟨h.resultNoted, hn.2⟩,
        fun nested => ?_, rfl, fun x he hx htwins before before' => ?_⟩
      · rw [Stmt.functions, Stmt.functions, h.resultFunctions]
      subst hx
      rw [BigStep.stmt, BigStep.stmt]
      have hb := hs.2.1.mono hF (h.more.trans he) hl.lt
      have ha := hs.2.2.mono hF (h.more.trans he) hl.lt
      exact (h.refines x he rfl htwins before before').bind fun v => ((truth_keeps v).bind fun c =>
        refines_ite (fun _ => block_refines htwins yes hb)
          fun _ => Refines.alternate (stmt_refines htwins no ha)).pick

/-- **Statements.** Sharing the expression that a statement evaluates first, in front of the
statement. All other statements are left as they are. -/
theorem stmt_shares (hF : s.facts.Orderly) (hf : function < s.facts.functions.size)
    (hl : s.facts.Live function live) (hs : a.Scoped s.facts function live) (hn : a.Noted owner function)
    (hd : Distinct s.labels a.labels) :
    SharesStmt owner s.facts ((stmt function a).run s).2.facts function live a
      ((stmt function a).run s).1.1 ((stmt function a).run s).1.2 := by
  have hsub : ∀ {ls : List Nat}, (∀ x, ls.count x ≤ a.labels.count x) → Distinct s.labels ls :=
    fun h x => Nat.le_trans (h x) (hd x)
  cases a with
  | letVar n name ty e =>
      exact (root_shares hF hf hl hs.1 hn (hsub fun x => by
        simp only [Stmt.labels, List.count_append]; omega)).letVar hl hs.2
  | expr n e =>
      exact (root_shares hF hf hl hs hn (hsub fun x => by
        simp only [Stmt.labels, List.count_append]; omega)).expr_stmt
  | ret n value =>
      cases value with
      | none => exact .refl hF hl hs hn
      | some e =>
          exact (root_shares hF hf hl hs hn (hsub fun x => by
            simp only [Stmt.labels, List.count_append]; omega)).ret
  | cond n test yes no =>
      cases no with
      | none =>
          exact (root_shares hF hf hl hs.1 hn.1 (hsub fun x => by
            simp only [Stmt.labels, List.count_append]; omega)).cond hF hl hs hn
      | some no =>
          exact (root_shares hF hf hl hs.1 hn.1 (hsub fun x => by
            simp only [Stmt.labels, List.count_append]; omega)).cond hF hl hs hn
  | block b => exact .refl hF hl hs hn
  | fnDecl n name signature b => exact .refl hF hl hs hn
  | whileLoop n test b => exact .refl hF hl hs hn
  | loop n b => exact .refl hF hl hs hn
  | breakLoop n => exact .refl hF hl hs hn
  | continueLoop n => exact .refl hF hl hs hn

/-- No statements stand for themselves. -/
theorem SharesStmts.nil (hF : F.Orderly) (hl : F.Live function live) :
    SharesStmts owner F F function live [] [] where
  more := .refl F
  orderly := hF
  inScope := trivial
  sub := List.Subset.refl _
  new _ hy := .inl hy
  noted := trivial
  functions _ := rfl
  refines x he hx htwins before before' tail ht := by
    subst hx
    exact finish_refines htwins [] tail trivial fun e h => (ht e h).mono hF he hl.lt

/-- The variables that are declared after a statement and its declarations. -/
theorem SharesStmt.liveAfter (h : SharesStmt owner F F' function live a lets a') (ss : List Stmt) :
    Stmt.liveAfter live (lets ++ a' :: ss) =
      Stmt.liveAfter (a.declared ++ Stmt.liveAfter live lets) ss := by
  rw [Stmt.liveAfter_append, Stmt.liveAfter, h.declared]

/-- The declarations and the statement behind them are in scope in a row. -/
theorem SharesStmt.inScope_after (h : SharesStmt owner F F' function live a lets a') :
    Stmt.AllScoped F' function live (lets ++ [a']) :=
  Stmt.allScoped_append.mpr ⟨h.inScope, h.result, trivial⟩

/-- Behind the statement all declared variables have places of their own. -/
theorem SharesStmt.places_after (h : SharesStmt owner F F' function live a lets a')
    (hl : F.Live function live) : F'.Live function (a.declared ++ Stmt.liveAfter live lets) := by
  have hafter := h.inScope_after.live (hl.mono h.more)
  rwa [h.liveAfter] at hafter

/-- The statements after a shared one stand in a larger scope. -/
theorem SharesStmt.shift_after (h : SharesStmt owner F F' function live a lets a')
    (hl : F.Live function live) (hs : a.Scoped F function live) :
    F.Shift F' function (a.declared ++ live) (a.declared ++ Stmt.liveAfter live lets) :=
  (h.shift hl).declare hs

/-- Behind the statement everything is declared that was declared there before. -/
theorem SharesStmt.sub_after (h : SharesStmt owner F F' function live a lets a') :
    a.declared ++ live ⊆ a.declared ++ Stmt.liveAfter live lets :=
  List.append_subset.mpr ⟨List.subset_append_left _ _, List.subset_append_of_subset_right _ h.sub⟩

/-- **One statement more.** What the first statement is shared to comes first, and the others are
shared in the scope with its temporaries. -/
theorem SharesStmt.cons (h : SharesStmt owner F F' function live a lets a') (hF : F.Orderly)
    (hl : F.Live function live) (hs : Stmt.AllScoped F function live (a :: ss))
    (hrest : SharesStmts owner F' F'' function (a.declared ++ Stmt.liveAfter live lets) ss ss') :
    SharesStmts owner F F'' function live (a :: ss) (lets ++ a' :: ss') := by
  have hplaces := h.places_after hl
  have hplaces' := hs.1.live hl
  have hshift := h.shift_after hl hs.1
  refine ⟨⟨h.more.trans hrest.more, hrest.orderly, ?_, ?_, ?_, ?_, fun nested => ?_⟩, ?_⟩
  · obtain ⟨hlets, ha', -⟩ := Stmt.allScoped_append.mp
      (h.inScope_after.mono h.orderly hrest.more (hl.mono h.more).lt)
    refine Stmt.allScoped_append.mpr ⟨hlets, ha', ?_⟩
    rw [h.declared]
    exact hrest.inScope
  · rw [h.liveAfter]
    exact List.Subset.trans (Stmt.liveAfter_mono h.sub_after ss) hrest.sub
  · rw [h.liveAfter]
    intro y hy
    rcases hrest.new y hy with hy | hy
    · by_cases hold : y ∈ Stmt.liveAfter live (a :: ss)
      · exact .inl hold
      · rw [Stmt.liveAfter] at hold
        obtain ⟨hy, hy'⟩ := Stmt.gone_after hy hold
        simp only [List.mem_append, not_or] at hy hy'
        exact .inr (((h.new y (hy.resolve_left hy'.1)).resolve_left hy'.2).mono hrest.more)
    · exact .inr (hy.weaken h.more)
  · exact Stmt.allNoted_append.mpr ⟨h.noted, h.resultNoted, hrest.noted⟩
  · rw [Stmt.functionsOf_append, Stmt.functionsOf, Stmt.functionsOf, h.functions, h.resultFunctions,
      hrest.functions]
    rfl
  · intro x he hx htwins before before' tail ht
    subst hx
    have hall := h.more.trans (hrest.more.trans he)
    -- First the statement alone, in front of the old ones; then those, in the larger scope.
    have hfirst : Keeps (finish x (a :: ss) tail) (finish x (lets ++ a' :: ss) tail)
        (x.Agree before before' live) := by
      refine Prepared.finish_cons (h.refines x (hrest.more.trans he) rfl htwins before before')
        ((finish_refines htwins ss tail (hs.2.mono hF hall hplaces'.lt) fun e h' => ?_).post
          fun _ _ _ h => h.mono (List.subset_append_right _ _))
      exact (ht e h').mono hF hall (hs.2.live hplaces').lt
    have hthen : Keeps (finish x (lets ++ [a'] ++ ss) tail) (finish x (lets ++ [a'] ++ ss') tail)
        (x.Agree before' before' live) := by
      refine finish_append htwins (lets ++ [a']) (h.inScope_after.mono h.orderly
        (hrest.more.trans he) (hl.mono h.more).lt) (List.Subset.refl _) ?_
      rw [h.liveAfter]
      refine (hrest.refines x he rfl htwins before' before' tail fun e h' => ?_).post fun _ _ _ hag =>
        hag.mono fun z hz => List.mem_append_right _ (h.sub hz)
      refine Expr.Scoped.shift hF h.more (hshift.after hs.2) e (ht e h') fun z hz hz' => ?_
      exact absurd (Stmt.liveAfter_mono h.sub_after ss hz) hz'
    simp only [List.append_assoc, List.singleton_append] at hthen
    exact hfirst.trans hthen (fun _ _ h => h.right) fun _ _ _ _ h h' => h.trans h'

/-- **Statements of a block.** Each statement is shared in with what the temporaries of those before
it have left of slots and labels. -/
theorem stmts_shares : ∀ (ss : List Stmt) {s : Supply} {live : List Nat}, s.facts.Orderly →
    function < s.facts.functions.size → s.facts.Live function live →
    Stmt.AllScoped s.facts function live ss → Stmt.AllNoted owner function ss →
    Distinct s.labels (Stmt.labelsOf ss) →
    SharesStmts owner s.facts ((stmts function ss).run s).2.facts function live ss
      ((stmts function ss).run s).1.1
  | [], _, _, hF, _, hl, _, _, _ => .nil hF hl
  | a :: ss, s, live, hF, hf, hl, hs, hn, hd => by
      have ha : SharesStmt owner s.facts ((stmt function a).run s).2.facts function live a
          ((stmt function a).run s).1.1 ((stmt function a).run s).1.2 :=
        stmt_shares hF hf hl hs.1 hn.1 fun x => by
          have := hd x
          rw [Stmt.labelsOf, List.count_append] at this
          omega
      have hle := (from_stmt 0 function _ a s rfl).1
      have hrest := stmts_shares ss ha.orderly (by rw [ha.more.functions_size]; exact hf)
        (ha.places_after hl) (Stmt.AllScoped.shift hF ha.more ss (ha.shift_after hl hs.1) hs.2
          fun z hz hz' => absurd (ha.sub_after hz) hz') hn.2 fun x => by
            have := hd x
            have := fresh_mono hle (x := x)
            simp only [Stmt.labelsOf, List.count_append] at *
            omega
      exact ha.cons hF hl hs hrest

/-- **Blocks.** A block that shares subexpressions is scoped, and refines the block. With a tail,
the temporaries of the tail are declared behind the statements. -/
theorem block_shares {tail : Option Expr} (hF : s.facts.Orderly)
    (hf : function < s.facts.functions.size) (hl : s.facts.Live function live)
    (hs : (Block.mk n ss tail).Scoped s.facts function live) (hn : (Block.mk n ss tail).Noted owner function)
    (hd : Distinct s.labels (Block.mk n ss tail).labels) :
    s.facts.Extends ((block function (.mk n ss tail)).run s).2.facts ∧
    ((block function (.mk n ss tail)).run s).2.facts.Orderly ∧
    ((block function (.mk n ss tail)).run s).1.1.Scoped
      ((block function (.mk n ss tail)).run s).2.facts function live ∧
    ((block function (.mk n ss tail)).run s).1.1.Noted owner function ∧
    (∀ nested, ((block function (.mk n ss tail)).run s).1.1.functions nested =
      (Block.mk n ss tail).functions nested) ∧
    ∀ x : Activation, ((block function (.mk n ss tail)).run s).2.facts.Extends x.facts →
      x.function = function → Twins x x → ∀ before before', Keeps (finish x ss tail)
        (finish x ((block function (.mk n ss tail)).run s).1.1.stmts
          ((block function (.mk n ss tail)).run s).1.1.tail) (x.Agree before before' live) := by
  obtain ⟨hss, ht⟩ := Block.scoped_mk.mp hs
  obtain ⟨hno, hnss, hnt⟩ := Block.noted_mk.mp hn
  have hstmts := stmts_shares ss hF hf hl hss hnss fun x => by
    have := hd x
    cases tail <;> simp only [Block.labels, List.count_append] at this <;> omega
  cases tail with
  | none =>
      exact ⟨hstmts.more, hstmts.orderly, hstmts.inScope, ⟨hno, hstmts.noted⟩, hstmts.functions,
        fun x he hx htwins before before' =>
          hstmts.refines x he hx htwins before before' none fun _ h => by cases h⟩
  | some e =>
      have hplaces := hstmts.inScope.live (hl.mono hstmts.more)
      have hle := (from_stmts 0 function _ ss s rfl).1
      have hscoped : e.Scoped ((stmts function ss).run s).2.facts function
          (Stmt.liveAfter live ((stmts function ss).run s).1.1) :=
        Expr.Scoped.shift hF hstmts.more (Facts.Fresh.shift (hss.live hl) hstmts.sub hstmts.new) e
          (ht e rfl) fun z hz hz' => absurd (hstmts.sub hz) hz'
      have hroot := root_shares hstmts.orderly (by rw [hstmts.more.functions_size]; exact hf)
        hplaces hscoped (hnt e rfl) fun x => by
          have := hd x
          have := fresh_mono hle (x := x)
          simp only [Block.labels, List.count_append] at *
          omega
      refine ⟨hstmts.more.trans hroot.more, hroot.orderly,
        ⟨Stmt.allScoped_append.mpr ⟨hstmts.inScope.mono hstmts.orderly hroot.more
          (hl.mono hstmts.more).lt, hroot.inScope⟩, ?_⟩,
        ⟨hno, Stmt.allNoted_append.mpr ⟨hstmts.noted, hroot.noted⟩, hroot.resultNoted⟩,
        fun nested => ?_, fun x he hx htwins before before' => ?_⟩
      · rw [Stmt.liveAfter_append]
        exact hroot.result
      · change Stmt.functionsOf nested (((stmts function ss).run s).1.1 ++
            ((root function e).run ((stmts function ss).run s).2).1.1) ++
          ((root function e).run ((stmts function ss).run s).2).1.2.functions nested = _
        rw [Stmt.functionsOf_append, hstmts.functions, hroot.functions, hroot.resultFunctions,
          Block.functions, Stmt.functionsOf, List.append_nil]
      · subst hx
        have hfirst := hstmts.refines x (hroot.more.trans he) rfl htwins before before' (some e) ht
        have hthen : Keeps (finish x (((stmts x.function ss).run s).1.1 ++ []) (some e))
            (finish x (((stmts x.function ss).run s).1.1 ++
              ((root x.function e).run ((stmts x.function ss).run s).2).1.1)
              (some ((root x.function e).run ((stmts x.function ss).run s).2).1.2))
            (x.Agree before' before' live) :=
          finish_append htwins _ (hstmts.inScope.mono hstmts.orderly (hroot.more.trans he)
            (hl.mono hstmts.more).lt) (List.Subset.refl _)
            ((Prepared.finish_some (hroot.refines x he rfl htwins before' before')).post
              fun _ _ _ hag => hag.mono (Stmt.subset_liveAfter _ _))
        rw [List.append_nil] at hthen
        exact hfirst.trans hthen (fun _ _ h => h.right) fun _ _ _ _ h h' => h.trans h'

end

end Share

end Parlance
