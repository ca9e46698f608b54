import Mathlib.Data.List.Basic
import Parlance.Tree.Parser

/-!
# The shape of parsed trees

Parsing hands out labels in order, so the labels of a tree, listed from left to right with
every node after its parts, only go up. Types come from the text, so none of them is the error
type. Only the bodies of functions end with a result, and the alternative of a conditional is
a block or another conditional.

These are facts about everything that a parser gives, also after it recovered from errors.
They are proved in a small logic (`Parse.From`) that follows the next free label.

## Main results

* `parseTokens_regular`: the form of a parsed program.
* `parseTokens_labels_nodup`: no two nodes of a parsed program share a label.
-/

namespace Parlance

/-! ### Labels -/

mutual

/-- The labels of the nodes of an expression, those of its parts first. -/
def Expr.labels : Expr → List Nat
  | .lit n _ | .ident n _ => [n.id]
  | .unary n _ e | .cast n e _ => e.labels ++ [n.id]
  | .binary n _ a b | .assign n a b | .index n a b => a.labels ++ b.labels ++ [n.id]
  | .call n f args => f.labels ++ Expr.labelsOf args ++ [n.id]
  | .list n items => Expr.labelsOf items ++ [n.id]
  | .lambda n _ b => b.labels ++ [n.id]

def Expr.labelsOf : List Expr → List Nat
  | [] => []
  | e :: es => e.labels ++ Expr.labelsOf es

/-- The labels of the nodes of a statement. -/
def Stmt.labels : Stmt → List Nat
  | .block b => b.labels
  | .letVar n _ _ e | .expr n e | .ret n (some e) => e.labels ++ [n.id]
  | .fnDecl n _ _ b | .loop n b => b.labels ++ [n.id]
  | .ret n none | .breakLoop n | .continueLoop n => [n.id]
  | .cond n test yes none => test.labels ++ yes.labels ++ [n.id]
  | .cond n test yes (some no) => test.labels ++ yes.labels ++ no.labels ++ [n.id]
  | .whileLoop n test b => test.labels ++ b.labels ++ [n.id]

def Stmt.labelsOf : List Stmt → List Nat
  | [] => []
  | s :: ss => s.labels ++ Stmt.labelsOf ss

/-- The labels of the nodes of a block. -/
def Block.labels : Block → List Nat
  | .mk n ss none => Stmt.labelsOf ss ++ [n.id]
  | .mk n ss (some e) => Stmt.labelsOf ss ++ e.labels ++ [n.id]

end

/-- Labels that go up, from `lo` on and below `hi`. -/
def Ascending (lo hi : Nat) (labels : List Nat) : Prop :=
  labels.Pairwise (· < ·) ∧ ∀ k ∈ labels, lo ≤ k ∧ k < hi

namespace Ascending

variable {lo mid hi : Nat} {as bs : List Nat}

/-- No labels go up, between any bounds. -/
theorem nil : Ascending lo hi [] :=
  ⟨.nil, by simp⟩

/-- A single label goes up, between itself and every bound above it. -/
theorem singleton (h : lo < hi) : Ascending lo hi [lo] :=
  ⟨by simp, by simpa using h⟩

/-- Labels that go up to a bound, and labels that go up from there on, go up together. -/
theorem append (ha : Ascending lo mid as) (hb : Ascending mid hi bs) (h : lo ≤ mid)
    (h' : mid ≤ hi) : Ascending lo hi (as ++ bs) := by
  refine ⟨List.pairwise_append.mpr ⟨ha.1, hb.1, fun a hma b hmb => ?_⟩, fun k hk => ?_⟩
  · have := ha.2 a hma
    have := hb.2 b hmb
    omega
  · rcases List.mem_append.mp hk with hk | hk
    · have := ha.2 k hk
      omega
    · have := hb.2 k hk
      omega

/-- A node gets the next label after its parts. -/
theorem snoc (ha : Ascending lo mid as) (h : lo ≤ mid) : Ascending lo (mid + 1) (as ++ [mid]) :=
  ha.append (singleton (Nat.lt_succ_self _)) h (Nat.le_succ _)

/-- Labels between two bounds are between wider ones. -/
theorem mono {lo' hi' : Nat} (ha : Ascending lo hi as) (h : lo' ≤ lo) (h' : hi ≤ hi') :
    Ascending lo' hi' as := by
  refine ⟨ha.1, fun k hk => ?_⟩
  have := ha.2 k hk
  omega

end Ascending

/-! ### Form -/

/-- The types of a signature are types of the language. -/
def Signature.Regular (s : Signature) : Prop :=
  (∀ p ∈ s.params, p.ty.isError = false) ∧ s.returns.isError = false

/-- Types have no error among them exactly if none of them is one. -/
theorem Ty.anyError_eq_false {ts : List Ty} : Ty.anyError ts = false ↔ ∀ t ∈ ts, t.isError = false := by
  induction ts with
  | nil => simp [Ty.anyError]
  | cons t ts ih => simp [Ty.anyError, ih]

/-- The type of a function with a regular signature is no error type. -/
theorem Signature.Regular.ty {s : Signature} (h : s.Regular) : s.ty.isError = false := by
  have hparams : Ty.anyError (s.params.map (·.ty)) = false := by
    rw [Ty.anyError_eq_false]
    intro t ht
    obtain ⟨p, hp, rfl⟩ := List.mem_map.mp ht
    exact h.1 p hp
  rw [Signature.ty, Ty.isError, hparams, h.2]
  rfl

/-- What may follow `else`. -/
def Stmt.IsAlternate : Stmt → Prop
  | .block _ | .cond _ _ _ _ => True
  | _ => False

mutual

/-- The form of a parsed expression: types are types of the language, only the bodies of
functions end with a result, and the node of an operator has no symbol. -/
def Expr.Regular : Expr → Prop
  | .lit _ _ | .ident _ _ => True
  | .unary _ _ e | .cast _ e _ => e.Regular
  | .binary n _ a b => n.symbol = none ∧ a.Regular ∧ b.Regular
  | .assign _ a b | .index _ a b => a.Regular ∧ b.Regular
  | .call _ f args => f.Regular ∧ Expr.AllRegular args
  | .list _ items => Expr.AllRegular items
  | .lambda _ s b => s.Regular ∧ b.Regular true

def Expr.AllRegular : List Expr → Prop
  | [] => True
  | e :: es => e.Regular ∧ Expr.AllRegular es

/-- The form of a parsed statement. -/
def Stmt.Regular : Stmt → Prop
  | .block b | .loop _ b => b.Regular false
  | .letVar _ _ t e => (∀ ty, t = some ty → ty.isError = false) ∧ e.Regular
  | .expr _ e | .ret _ (some e) => e.Regular
  | .fnDecl _ _ s b => s.Regular ∧ b.Regular true
  | .ret _ none | .breakLoop _ | .continueLoop _ => True
  | .cond _ test yes none => test.Regular ∧ yes.Regular false
  | .cond _ test yes (some no) =>
    test.Regular ∧ yes.Regular false ∧ no.IsAlternate ∧ no.Regular
  | .whileLoop _ test b => test.Regular ∧ b.Regular false

def Stmt.AllRegular : List Stmt → Prop
  | [] => True
  | s :: ss => s.Regular ∧ Stmt.AllRegular ss

/-- The form of a parsed block, which may end with a result if `tail` holds. -/
def Block.Regular (tail : Bool) : Block → Prop
  | .mk _ ss none => Stmt.AllRegular ss
  | .mk _ ss (some e) => tail = true ∧ Stmt.AllRegular ss ∧ e.Regular

end

namespace Parse

/-! ### A logic of labels -/

variable {α β : Type} {lo : Nat}

/-- A parser that starts with the next label `lo` never takes labels back, and what it gives
is related to the next label after it. -/
def From (lo : Nat) (p : Parse α) (Q : Nat → α → Prop) : Prop :=
  ∀ s : ParseState, s.nextId = lo →
    match p s with
    | .ok a s' => lo ≤ s'.nextId ∧ Q s'.nextId a
    | .error _ s' => lo ≤ s'.nextId

/-- A parser hands out no labels, and what it gives has a property. -/
def Quiet (p : Parse α) (Q : α → Prop) : Prop :=
  ∀ lo, From lo p fun hi a => hi = lo ∧ Q a

/-- A result that is there already hands out no label. -/
theorem From.pure {a : α} {Q : Nat → α → Prop} (h : Q lo a) : From lo (pure a) Q := by
  rintro s rfl
  exact ⟨Nat.le_refl _, h⟩

/-- Two parsers in a row. The second one starts with the next label after the first, wherever that
is. -/
theorem From.bind {p : Parse α} {f : α → Parse β} {Q : Nat → α → Prop} {R : Nat → β → Prop}
    (hp : From lo p Q) (hf : ∀ mid a, lo ≤ mid → Q mid a → From mid (f a) R) :
    From lo (p >>= f) R := by
  intro s hs
  have h := hp s hs
  change match EStateM.bind p f s with
    | .ok a s' => lo ≤ s'.nextId ∧ R s'.nextId a
    | .error _ s' => lo ≤ s'.nextId
  unfold EStateM.bind
  cases he : p s with
  | error e s' =>
      rw [he] at h
      exact h
  | ok a s' =>
      rw [he] at h
      have h' := hf s'.nextId a h.1 h.2 s' rfl
      dsimp only
      cases hfa : f a s' with
      | error e s'' =>
          rw [hfa] at h'
          exact Nat.le_trans h.1 h'
      | ok b s'' =>
          rw [hfa] at h'
          exact ⟨Nat.le_trans h.1 h'.1, h'.2⟩

/-- What a parser gives may be described more loosely. -/
theorem From.mono {p : Parse α} {Q R : Nat → α → Prop} (hp : From lo p Q)
    (h : ∀ hi a, lo ≤ hi → Q hi a → R hi a) : From lo p R := by
  intro s hs
  have hp := hp s hs
  cases he : p s with
  | error e s' =>
      rw [he] at hp
      exact hp
  | ok a s' =>
      rw [he] at hp
      exact ⟨hp.1, h _ _ hp.1 hp.2⟩

/-- A choice between two parsers gives what both of them give. -/
theorem From.ite {c : Prop} [Decidable c] {p q : Parse α} {Q : Nat → α → Prop}
    (hp : From lo p Q) (hq : From lo q Q) : From lo (if c then p else q) Q := by
  split
  · exact hp
  · exact hq

/-- After a parser that hands out no labels, the rest starts with the same label. -/
theorem Quiet.bind {p : Parse α} {f : α → Parse β} {Q : α → Prop} {R : Nat → β → Prop}
    (hp : Quiet p Q) (hf : ∀ a, Q a → From lo (f a) R) : From lo (p >>= f) R := by
  refine (hp lo).bind ?_
  rintro mid a - ⟨rfl, ha⟩
  exact hf a ha

/-- A result that is there already hands out no labels. -/
theorem Quiet.pure {a : α} {Q : α → Prop} (h : Q a) : Quiet (Pure.pure a) Q :=
  fun _ => From.pure ⟨rfl, h⟩

/-- A parser that fails gives nothing, so everything it gives is as described. -/
theorem from_throw {e : SyntaxError} {Q : Nat → α → Prop} : From lo (throw e : Parse α) Q := by
  rintro s rfl
  exact Nat.le_refl _

/-- A change of the state that leaves the next label alone. -/
theorem quiet_modify {f : ParseState → ParseState} (h : ∀ s, (f s).nextId = s.nextId) :
    Quiet (modify f : Parse Unit) fun _ => True := by
  rintro lo s rfl
  exact ⟨Nat.le_of_eq (h s).symm, h s, trivial⟩

/-- Looking at the state hands out no labels. -/
@[simp] theorem quiet_get : Quiet (get : Parse ParseState) fun _ => True := by
  rintro lo s rfl
  exact ⟨Nat.le_refl _, rfl, trivial⟩

/-! ### Tokens -/

/-- Looking at the current token hands out no labels. -/
@[simp] theorem quiet_current : Quiet current fun _ => True :=
  fun _ => quiet_get.bind fun _ _ => From.pure ⟨rfl, trivial⟩

/-- Looking one token ahead hands out no labels. -/
@[simp] theorem quiet_secondKind : Quiet secondKind fun _ => True :=
  fun _ => quiet_get.bind fun _ _ => From.pure ⟨rfl, trivial⟩

/-- Taking a token hands out no labels. -/
@[simp] theorem quiet_bump : Quiet bump fun _ => True := by
  refine quiet_modify fun s => ?_
  split <;> rfl

/-- Comparing the current token hands out no labels. -/
@[simp] theorem quiet_check (kind : TokenKind) : Quiet (check kind) fun _ => True := by
  intro lo
  refine quiet_current.bind fun t _ => ?_
  split
  · exact From.pure ⟨rfl, trivial⟩
  · exact (quiet_modify (by simp)).bind fun _ _ => From.pure ⟨rfl, trivial⟩

/-- Taking a token of one kind hands out no labels, whether it is there or not. -/
@[simp] theorem quiet_eat (kind : TokenKind) : Quiet (eat kind) fun _ => True := by
  intro lo
  refine (quiet_check kind).bind fun b _ => ?_
  split
  · exact quiet_bump.bind fun _ _ => From.pure ⟨rfl, trivial⟩
  · exact From.pure ⟨rfl, trivial⟩

/-- Failing at a token hands out no labels. -/
@[simp] theorem quiet_unexpected : Quiet unexpected fun _ => True :=
  fun _ => quiet_current.bind fun _ _ => quiet_get.bind fun _ _ => From.pure ⟨rfl, trivial⟩

/-- A parser that only reports that it found something else. -/
theorem from_unexpected {Q : Nat → α → Prop} :
    From lo (do throw (← unexpected) : Parse α) Q :=
  quiet_unexpected.bind fun _ _ => from_throw

/-- Asking for a token hands out no labels, even if this fails. -/
@[simp] theorem quiet_expect (kind : TokenKind) : Quiet (expect kind) fun _ => True := by
  intro lo
  refine (quiet_eat kind).bind fun b _ => ?_
  split
  · exact From.pure ⟨rfl, trivial⟩
  · exact from_unexpected

/-- The offset of the current token is read without a new label. -/
@[simp] theorem quiet_startOffset : Quiet startOffset fun _ => True :=
  fun _ => quiet_current.bind fun _ _ => From.pure ⟨rfl, trivial⟩

/-- A range is read off the tokens without a new label. -/
@[simp] theorem quiet_rangeFrom (start : Nat) : Quiet (rangeFrom start) fun _ => True :=
  fun _ => quiet_get.bind fun _ _ => From.pure ⟨rfl, trivial⟩

/-- A noted error hands out no labels, and keeps those handed out before it. -/
@[simp] theorem quiet_report (e : SyntaxError) : Quiet (report e) fun _ => True :=
  quiet_modify fun _ => rfl

/-- The precedence for the right operand is a number, or its overflow, and no label either way. -/
@[simp] theorem quiet_rightPrecedence (rule : BinaryRule) :
    Quiet (rightPrecedence rule) fun _ => True := by
  intro lo
  unfold rightPrecedence
  split
  · exact From.pure ⟨rfl, trivial⟩
  · exact (quiet_modify (f := fun s => { s with overflowed := true }) fun _ => rfl).bind
      fun _ _ => From.pure ⟨rfl, trivial⟩

/-- A name becomes part of another node, and has no label of its own. -/
@[simp] theorem quiet_ident : Quiet ident fun _ => True := by
  intro lo
  refine quiet_current.bind fun t _ => (quiet_check _).bind fun b _ => ?_
  split
  · exact quiet_bump.bind fun _ _ => From.pure ⟨rfl, trivial⟩
  · exact from_unexpected

/-- Comparing the current token with several kinds hands out no labels. -/
theorem quiet_checkEach (kinds : List TokenKind) : Quiet (checkEach kinds) fun _ => True := by
  induction kinds with
  | nil => exact Quiet.pure trivial
  | cons k ks ih => exact fun lo => (quiet_check k).bind fun _ _ => ih lo

/-- A literal's value is read without a label. Its node is made around it. -/
@[simp] theorem quiet_lit : Quiet lit fun _ => True := by
  intro lo
  refine quiet_current.bind fun t _ => ?_
  split
  · exact quiet_bump.bind fun _ _ => From.pure ⟨rfl, trivial⟩
  · exact from_throw
  · exact (quiet_checkEach _).bind fun _ _ => from_unexpected

/-- A new label is the next one, and the node has no symbol yet. -/
theorem from_newNote_blank (start : Nat) :
    From lo (newNote start) fun hi n => (n.id = lo ∧ n.symbol = none) ∧ hi = lo + 1 := by
  refine (quiet_rangeFrom start).bind fun range _ => ?_
  rintro s rfl
  exact ⟨Nat.le_succ _, ⟨rfl, rfl⟩, rfl⟩

/-- Every new node gets the next label, and only that one. -/
theorem from_newNote (start : Nat) :
    From lo (newNote start) fun hi n => n.id = lo ∧ hi = lo + 1 :=
  (from_newNote_blank start).mono fun _ _ _ h => ⟨h.1.1, h.2⟩

/-- Skipping tokens hands out no labels. -/
theorem quiet_synchronize (stop : TokenKind) (fuel : Nat) :
    Quiet (synchronize stop fuel) fun _ => True := by
  induction fuel with
  | zero => exact Quiet.pure trivial
  | succ fuel ih =>
      intro lo
      refine quiet_current.bind fun t _ => ?_
      dsimp only
      split
      · exact quiet_bump lo
      · split
        · exact From.pure ⟨rfl, trivial⟩
        · exact quiet_bump.bind fun _ _ => ih lo

/-- Recovery hands out no labels. So the labels of a failed item are lost, but none is used twice.
-/
@[simp] theorem quiet_recover (stop : TokenKind) (before : Nat) :
    Quiet (recover stop before) fun _ => True := by
  intro lo
  refine quiet_get.bind fun s _ => (quiet_synchronize _ _).bind fun _ _ =>
    quiet_get.bind fun s' _ => ?_
  split
  · exact quiet_bump lo
  · exact From.pure ⟨rfl, trivial⟩

/-- Trying a parser gives its result, or hands out some labels for nothing. -/
theorem From.attempt {p : Parse α} {Q : Nat → α → Prop} (h : From lo p Q) :
    From lo (Parse.attempt p) fun hi r => ∀ a, r = .ok a → Q hi a := by
  intro s hs
  have h := h s hs
  unfold Parse.attempt
  cases he : p s with
  | error e s' =>
      rw [he] at h
      exact ⟨h, nofun⟩
  | ok a s' =>
      rw [he] at h
      refine ⟨h.1, fun b hb => ?_⟩
      cases hb
      exact h.2

/-! ### Lists of items and types -/

/-- Items up to a token. `R` is what is known of lists if `P` is known of items. -/
theorem from_itemsUntil {item : Parse α} {P : Nat → Nat → α → Prop}
    {R : Nat → Nat → List α → Prop} (hitem : ∀ lo, From lo item (P lo))
    (hnil : ∀ lo, R lo lo [])
    (hcons : ∀ lo mid hi a as, lo ≤ mid → mid ≤ hi → P lo mid a → R mid hi as →
      R lo hi (a :: as)) (stop : TokenKind) (fuel : Nat) :
    ∀ lo, From lo (itemsUntil item stop fuel) (R lo) := by
  induction fuel with
  | zero => exact fun lo => From.pure (hnil lo)
  | succ fuel ih =>
      intro lo
      refine (quiet_eat stop).bind fun b _ => ?_
      split
      · exact From.pure (hnil lo)
      · refine (hitem lo).bind fun mid a hle ha => (quiet_eat stop).bind fun b _ => ?_
        split
        · exact From.pure (hcons lo mid mid a [] hle (Nat.le_refl _) ha (hnil mid))
        · refine (quiet_expect _).bind fun _ _ => (ih mid).bind fun hi as hle' has => ?_
          exact From.pure (hcons lo mid hi a as hle hle' ha has)

/-- Items between brackets give labels one after another, by induction on the fuel of the loop. -/
theorem from_itemsBetween {item : Parse α} {P : Nat → Nat → α → Prop}
    {R : Nat → Nat → List α → Prop} (hitem : ∀ lo, From lo item (P lo))
    (hnil : ∀ lo, R lo lo [])
    (hcons : ∀ lo mid hi a as, lo ≤ mid → mid ≤ hi → P lo mid a → R mid hi as →
      R lo hi (a :: as)) (start stop : TokenKind) :
    From lo (itemsBetween start item stop) (R lo) :=
  (quiet_expect start).bind fun _ _ => quiet_get.bind fun _ _ =>
    from_itemsUntil hitem hnil hcons stop _ lo

/-- Items that need no labels need none between brackets, and each of them has its property. -/
theorem Quiet.itemsBetween {item : Parse α} {Q : α → Prop} (h : Quiet item Q)
    (start stop : TokenKind) : Quiet (itemsBetween start item stop) fun as => ∀ a ∈ as, Q a := by
  intro lo
  refine from_itemsBetween (R := fun lo hi as => hi = lo ∧ ∀ a ∈ as, Q a) h (by simp) ?_ start stop
  rintro lo mid hi a as - - ⟨rfl, ha⟩ ⟨rfl, has⟩
  refine ⟨rfl, fun b hb => ?_⟩
  rcases List.mem_cons.mp hb with rfl | hb
  · exact ha
  · exact has b hb

/-- No name stands for the error type. -/
theorem namedType?_regular {name : String} {t : Ty} (h : namedType? name = some t) :
    t.isError = false := by
  unfold namedType? at h
  split at h
  · cases h
    rfl
  · obtain ⟨s, -, rfl⟩ := Option.map_eq_some_iff.mp h
    cases s <;> rfl

/-- Types of which none is an error type have no error among them. -/
theorem anyError_eq_false {ts : List Ty} (h : ∀ t ∈ ts, t.isError = false) :
    Ty.anyError ts = false := by
  induction ts with
  | nil => rfl
  | cons t ts ih =>
      rw [Ty.anyError, h t (by simp), ih fun u hu => h u (by simp [hu])]
      rfl

/-- **Types.** A parsed type is a type of the language. -/
theorem quiet_type (fuel : Nat) : Quiet (type fuel) fun t => t.isError = false := by
  induction fuel with
  | zero => exact fun _ => from_unexpected
  | succ fuel ih =>
      intro lo
      refine (quiet_eat _).bind fun b _ => ?_
      split
      · exact ih.bind fun item h => (quiet_expect _).bind fun _ _ => From.pure ⟨rfl, h⟩
      · refine (quiet_eat _).bind fun b _ => ?_
        split
        · refine (ih.itemsBetween _ _).bind fun params hps => (quiet_eat _).bind fun b _ => ?_
          have hps := anyError_eq_false hps
          split
          · exact ih.bind fun returns hr => From.pure ⟨rfl, by simp [Ty.isError, hps, hr]⟩
          · exact From.pure ⟨rfl, by simp [Ty.isError, hps]⟩
        · refine quiet_current.bind fun t _ => quiet_ident.bind fun name _ => ?_
          split
          · next hn => exact From.pure ⟨rfl, namedType?_regular hn⟩
          · exact from_throw

/-- A type is parsed without labels, and it is never the error type. -/
theorem quiet_anyType : Quiet anyType fun t => t.isError = false :=
  fun lo => quiet_get.bind fun _ _ => quiet_type _ lo

/-- A parameter is parsed without labels, and its type is no error type. -/
theorem quiet_param : Quiet param fun p => p.ty.isError = false :=
  fun _ => quiet_startOffset.bind fun _ _ => quiet_ident.bind fun _ _ =>
    (quiet_expect _).bind fun _ _ => quiet_anyType.bind fun _ h =>
      (quiet_rangeFrom _).bind fun _ _ => From.pure ⟨rfl, h⟩

/-- A signature is parsed without labels, and all its types are types of the language. -/
theorem quiet_signature : Quiet signature Signature.Regular := by
  intro lo
  refine (quiet_param.itemsBetween _ _).bind fun params hps => (quiet_eat _).bind fun b _ => ?_
  split
  · exact quiet_anyType.bind fun returns hr => From.pure ⟨rfl, hps, hr⟩
  · exact From.pure ⟨rfl, hps, rfl⟩

end Parse

/-! ### Trees -/

/-- What parsing knows of an expression that it gave these labels. -/
def Expr.Fits (lo hi : Nat) (e : Expr) : Prop :=
  Ascending lo hi e.labels ∧ e.Regular

def Expr.AllFit (lo hi : Nat) (es : List Expr) : Prop :=
  Ascending lo hi (Expr.labelsOf es) ∧ Expr.AllRegular es

def Stmt.Fits (lo hi : Nat) (s : Stmt) : Prop :=
  Ascending lo hi s.labels ∧ s.Regular

def Block.Fits (tail : Bool) (lo hi : Nat) (b : Block) : Prop :=
  Ascending lo hi b.labels ∧ b.Regular tail

/-- The labels in a block, without its own. -/
def Block.innerLabels : Block → List Nat
  | .mk _ ss none => Stmt.labelsOf ss
  | .mk _ ss (some e) => Stmt.labelsOf ss ++ e.labels

/-- A block's own label stands behind those of its parts. -/
theorem Block.labels_eq (b : Block) : b.labels = b.innerLabels ++ [b.note.id] := by
  cases b with
  | mk n ss tail => cases tail <;> rfl

/-- The labels in a block start with those of its first statement. -/
theorem Block.innerLabels_cons {n : Note} {s : Stmt} {ss : List Stmt} {tail : Option Expr} :
    (Block.mk n (s :: ss) tail).innerLabels = s.labels ++ (Block.mk n ss tail).innerLabels := by
  cases tail <;> simp [Block.innerLabels, Stmt.labelsOf]

/-- A block has the right form if its first statement and the rest of it have. -/
theorem Block.regular_cons {n : Note} {s : Stmt} {ss : List Stmt} {tail : Option Expr}
    {allowed : Bool} :
    (Block.mk n (s :: ss) tail).Regular allowed ↔ s.Regular ∧ (Block.mk n ss tail).Regular allowed := by
  cases tail <;> simp [Block.Regular, Stmt.AllRegular, and_assoc, and_left_comm]

namespace Parse

variable {lo mid : Nat}

/-- What parsing knows of the statements and the result of a block. -/
def BodyFits (tail : Bool) (lo hi : Nat) (r : List Stmt × Option Expr) : Prop :=
  ∀ n, Ascending lo hi (Block.mk n r.1 r.2).innerLabels ∧ (Block.mk n r.1 r.2).Regular tail

/-- What parsing knows of an item of a block. -/
def ItemFits (tail : Bool) (lo hi : Nat) : Item → Prop
  | .stmt s => s.Fits lo hi
  | .tail e => e.Fits lo hi ∧ tail = true

/-- A binary node or an assignment gets its label after both of its operands. -/
theorem infixNode_fits {op : Operator} {n : Note} {l r : Expr} {m : Nat} (hl : l.Fits lo mid)
    (hr : r.Fits mid m) (hle : lo ≤ mid) (hle' : mid ≤ m) (hn : n.id = m)
    (hs : n.symbol = none) : (infixNode op n l r).Fits lo (m + 1) := by
  have ha := (hl.1.append hr.1 hle hle').snoc (Nat.le_trans hle hle')
  unfold infixNode
  split
  · exact ⟨by rw [Expr.labels, hn]; exact ha, hs, hl.2, hr.2⟩
  · exact ⟨by rw [Expr.labels, hn]; exact ha, hl.2, hr.2⟩

/-- A statement is made last, so it gets the label behind those of its parts. -/
theorem from_stmtNode {start : Nat} {node : Note → Stmt} {parts : List Nat} {tail : Bool}
    (hparts : Ascending lo mid parts) (hle : lo ≤ mid)
    (hl : ∀ n, (node n).labels = parts ++ [n.id]) (hr : ∀ n, (node n).Regular) :
    From mid (do return Item.stmt (node (← newNote start))) (ItemFits tail lo) := by
  refine (from_newNote start).bind ?_
  rintro hi n - ⟨hn, rfl⟩
  refine From.pure ⟨?_, hr n⟩
  rw [hl, hn]
  exact hparts.snoc hle

/-- An expression is made last, so it gets the label behind those of its parts. -/
theorem from_exprNode {start : Nat} {node : Note → Expr} {parts : List Nat}
    (hparts : Ascending lo mid parts) (hle : lo ≤ mid)
    (hl : ∀ n, (node n).labels = parts ++ [n.id]) (hr : ∀ n, (node n).Regular) :
    From mid (do return node (← newNote start)) (Expr.Fits lo) := by
  refine (from_newNote start).bind ?_
  rintro hi n - ⟨hn, rfl⟩
  refine From.pure ⟨?_, hr n⟩
  rw [hl, hn]
  exact hparts.snoc hle

/-- Items between brackets have ascending labels if each of them has, whatever the first label is.
-/
theorem from_args {fuel : Nat} (h : ∀ lo, From lo (expr fuel 1) (Expr.Fits lo))
    (start stop : TokenKind) (lo : Nat) :
    From lo (itemsBetween start (expr fuel 1) stop) (Expr.AllFit lo) := by
  refine from_itemsBetween (R := Expr.AllFit) h (fun _ => ⟨.nil, trivial⟩) ?_ start stop
  intro lo mid hi e es hle hle' he hes
  exact ⟨he.1.append hes.1 hle hle', he.2, hes.2⟩

mutual

/-- **Expressions.** Their labels go up from the next one on, and the label of the whole is the last
of them. -/
theorem from_expr : ∀ (fuel : Nat) (least : UInt8) (lo : Nat),
    From lo (expr fuel least) (Expr.Fits lo)
  | 0, _, _ => by rw [expr]; exact from_unexpected
  | fuel + 1, least, lo => by
      rw [expr]
      exact quiet_startOffset.bind fun start _ => (from_unary fuel lo).bind fun mid left hle hl =>
        from_operators fuel least start lo mid left hle hl

/-- The operators behind a left operand give labels behind those of this operand. So the labels of
an expression go up from left to right, and the node has the last one. -/
theorem from_operators : ∀ (fuel : Nat) (least : UInt8) (start lo mid : Nat) (left : Expr),
    lo ≤ mid → left.Fits lo mid → From mid (operators fuel least start left) (Expr.Fits lo)
  | 0, _, _, _, _, _, _, hl => by rw [operators]; exact From.pure hl
  | fuel + 1, least, start, lo, mid, left, hle, hl => by
      rw [operators]
      refine quiet_current.bind fun t _ => ?_
      split
      · refine quiet_get.bind fun s _ => ?_
        split
        · exact From.pure hl
        · refine quiet_bump.bind fun _ _ => quiet_startOffset.bind fun _ _ =>
            quiet_anyType.bind fun ty _ => ?_
          split
          · exact (quiet_rangeFrom _).bind fun _ _ => from_throw
          · refine (from_newNote start).bind ?_
            rintro hi n hle' ⟨hn, rfl⟩
            refine from_operators fuel least start lo _ _ (by omega) ⟨?_, hl.2⟩
            rw [Expr.labels, hn]
            exact hl.1.snoc hle
      · refine quiet_get.bind fun s _ => ?_
        split
        · exact From.pure hl
        · split
          · exact From.pure hl
          · refine quiet_bump.bind fun _ _ => (quiet_rightPrecedence _).bind fun _ _ =>
              (from_expr fuel _ mid).bind fun m right hle' hr => ?_
            refine (from_newNote_blank start).bind ?_
            rintro hi n - ⟨⟨hn, hs⟩, rfl⟩
            exact from_operators fuel least start lo _ _ (by omega)
              (infixNode_fits hl hr hle hle' hn hs)
      · exact From.pure hl

/-- An operator in front gets its label after its operand. -/
theorem from_unary : ∀ (fuel lo : Nat), From lo (unary fuel) (Expr.Fits lo)
  | 0, _ => by rw [unary]; exact from_unexpected
  | fuel + 1, lo => by
      rw [unary]
      refine quiet_startOffset.bind fun start _ => quiet_current.bind fun t _ => ?_
      split
      · refine quiet_get.bind fun s _ => ?_
        split
        · refine quiet_bump.bind fun _ _ => quiet_get.bind fun s' _ =>
            (from_expr fuel _ lo).bind fun mid e hle he => ?_
          exact from_exprNode he.1 hle (fun _ => rfl) fun _ => he.2
        · exact from_primary fuel lo
      · exact from_primary fuel lo

/-- An expression with its suffixes gives labels that go up. -/
theorem from_primary : ∀ (fuel lo : Nat), From lo (primary fuel) (Expr.Fits lo)
  | 0, _ => by rw [primary]; exact from_unexpected
  | fuel + 1, lo => by
      rw [primary]
      exact quiet_startOffset.bind fun start _ => (from_atom fuel lo).bind fun mid e hle he =>
        from_suffixes fuel start lo mid e hle he

/-- Every call and every index behind an expression gets its label after the labels of the
expression. -/
theorem from_suffixes : ∀ (fuel start lo mid : Nat) (e : Expr),
    lo ≤ mid → e.Fits lo mid → From mid (suffixes fuel start e) (Expr.Fits lo)
  | 0, _, _, _, _, _, he => by rw [suffixes]; exact From.pure he
  | fuel + 1, start, lo, mid, e, hle, he => by
      rw [suffixes]
      refine (quiet_check _).bind fun b _ => ?_
      refine From.ite ?_ ?_
      · refine (from_args (from_expr fuel 1) _ _ mid).bind fun m args hle' has => (from_newNote start).bind ?_
        rintro hi n - ⟨hn, rfl⟩
        refine from_suffixes fuel start lo _ _ (by omega) ⟨?_, he.2, has.2⟩
        rw [Expr.labels, hn]
        exact (he.1.append has.1 hle hle').snoc (Nat.le_trans hle hle')
      · refine (quiet_eat _).bind fun b _ => ?_
        refine From.ite ?_ ?_
        · refine (from_expr fuel 1 mid).bind fun m index hle' hi => (quiet_expect _).bind fun _ _ =>
            (from_newNote start).bind ?_
          rintro hi n - ⟨hn, rfl⟩
          refine from_suffixes fuel start lo _ _ (by omega) ⟨?_, he.2, hi.2⟩
          rw [Expr.labels, hn]
          exact (he.1.append hi.1 hle hle').snoc (Nat.le_trans hle hle')
        · exact From.pure he

/-- The smallest expressions get a single label, apart from those in brackets and from lambdas,
which get theirs behind all the labels inside. -/
theorem from_atom : ∀ (fuel lo : Nat), From lo (atom fuel) (Expr.Fits lo)
  | 0, _ => by rw [atom]; exact from_unexpected
  | fuel + 1, lo => by
      rw [atom]
      refine quiet_startOffset.bind fun start _ => (quiet_eat _).bind fun b _ => ?_
      refine From.ite ?_ ?_
      · exact (from_expr fuel 1 lo).bind fun mid e hle he => (quiet_expect _).bind fun _ _ =>
          From.pure he
      · refine (quiet_check _).bind fun b _ => ?_
        refine From.ite ?_ ?_
        · exact quiet_ident.bind fun name _ =>
            from_exprNode .nil (Nat.le_refl _) (fun _ => rfl) fun _ => trivial
        · refine (quiet_check _).bind fun b _ => ?_
          refine From.ite ?_ ?_
          · exact (from_args (from_expr fuel 1) _ _ lo).bind fun mid items hle his =>
              from_exprNode his.1 hle (fun _ => rfl) fun _ => his.2
          · refine (quiet_eat _).bind fun b _ => ?_
            refine From.ite ?_ ?_
            · exact quiet_signature.bind fun sig hsig =>
                (from_block fuel true lo).bind fun mid b hle hb =>
                  from_exprNode hb.1 hle (fun _ => rfl) fun _ => ⟨hsig, hb.2⟩
            · exact quiet_lit.bind fun v _ =>
                from_exprNode .nil (Nat.le_refl _) (fun _ => rfl) fun _ => trivial

/-- **Blocks.** A block gets its label after its statements. It ends with a result only where one is
allowed. -/
theorem from_block : ∀ (fuel : Nat) (tail : Bool) (lo : Nat),
    From lo (block fuel tail) (Block.Fits tail lo)
  | 0, _, _ => by rw [block]; exact from_unexpected
  | fuel + 1, tail, lo => by
      rw [block]
      refine quiet_startOffset.bind fun start _ => (quiet_expect _).bind fun _ _ =>
        (from_body fuel _ tail lo).bind fun mid r hle hr => (from_newNote start).bind ?_
      rintro hi n - ⟨hn, rfl⟩
      refine From.pure ⟨?_, (hr n).2⟩
      rw [Block.labels_eq, Block.note, hn]
      exact (hr n).1.snoc hle

/-- The statements of a body have labels in a row, also where recovery leaves out an item between
them. -/
theorem from_body : ∀ (fuel : Nat) (stop : TokenKind) (tail : Bool) (lo : Nat),
    From lo (body fuel stop tail) (BodyFits tail lo)
  | 0, _, _, _ => by rw [body]; exact From.pure fun n => ⟨.nil, trivial⟩
  | fuel + 1, stop, tail, lo => by
      rw [body]
      refine (quiet_eat stop).bind fun b _ => ?_
      refine From.ite ?_ ?_
      · exact From.pure fun n => ⟨.nil, trivial⟩
      · refine (quiet_check _).bind fun b _ => ?_
        refine From.ite ?_ ?_
        · exact quiet_unexpected.bind fun e _ => (quiet_report e).bind fun _ _ =>
            From.pure fun n => ⟨.nil, trivial⟩
        · refine quiet_get.bind fun s _ =>
            (from_item fuel stop tail lo).attempt.bind fun mid r hle hr => ?_
          split
          · next s =>
              refine (from_body fuel stop tail mid).bind fun hi rest hle' hrest => From.pure fun n => ?_
              have hs : s.Fits lo mid := hr _ rfl
              refine ⟨?_, Block.regular_cons.mpr ⟨hs.2, (hrest n).2⟩⟩
              rw [Block.innerLabels_cons]
              exact hs.1.append (hrest n).1 hle hle'
          · next e =>
              have he : e.Fits lo mid ∧ tail = true := hr _ rfl
              exact quiet_bump.bind fun _ _ => From.pure fun n =>
                ⟨he.1.1, he.2, trivial, he.1.2⟩
          · refine (quiet_report _).bind fun _ _ => (quiet_recover _ _).bind fun _ _ =>
              (from_body fuel stop tail mid).mono fun hi rest _ hrest n => ?_
            exact ⟨(hrest n).1.mono hle (Nat.le_refl _), (hrest n).2⟩

/-- An item is a statement or a result, with labels that go up either way. A statement gets its own
label when it is finished, behind the labels of its parts. -/
theorem from_item : ∀ (fuel : Nat) (stop : TokenKind) (tail : Bool) (lo : Nat),
    From lo (item fuel stop tail) (ItemFits tail lo)
  | 0, _, _, _ => by rw [item]; exact from_unexpected
  | fuel + 1, stop, tail, lo => by
      rw [item]
      refine quiet_startOffset.bind fun start _ => (quiet_eat _).bind fun _ _ => .ite ?letVar <|
        (quiet_check _).bind fun _ _ => quiet_secondKind.bind fun _ _ => .ite
          (quiet_bump.bind fun _ _ => quiet_ident.bind fun name _ =>
            quiet_signature.bind fun sig hsig => (from_block fuel true lo).bind fun mid b hle hb =>
              from_stmtNode hb.1 hle (fun _ => rfl) fun _ => ⟨hsig, hb.2⟩) <|
        (quiet_eat _).bind fun _ _ => .ite ?ret <|
        (quiet_check _).bind fun _ _ => .ite
          ((from_conditional fuel lo).bind fun mid s _ hs => From.pure hs.1) <|
        (quiet_eat _).bind fun _ _ => .ite
          ((from_expr fuel 1 lo).bind fun m test hle ht =>
            (from_block fuel false m).bind fun m' b hle' hb =>
              from_stmtNode (ht.1.append hb.1 hle hle') (Nat.le_trans hle hle') (fun _ => rfl)
                fun _ => ⟨ht.2, hb.2⟩) <|
        (quiet_eat _).bind fun _ _ => .ite
          ((from_block fuel false lo).bind fun mid b hle hb =>
            from_stmtNode hb.1 hle (fun _ => rfl) fun _ => hb.2) <|
        (quiet_eat _).bind fun _ _ => .ite
          ((quiet_expect _).bind fun _ _ =>
            from_stmtNode .nil (Nat.le_refl _) (fun _ => rfl) fun _ => trivial) <|
        (quiet_eat _).bind fun _ _ => .ite
          ((quiet_expect _).bind fun _ _ =>
            from_stmtNode .nil (Nat.le_refl _) (fun _ => rfl) fun _ => trivial) <|
        (quiet_check _).bind fun _ _ => .ite
          ((from_block fuel false lo).bind fun mid b _ hb => From.pure hb) ?expr
      case letVar =>
        refine quiet_ident.bind fun name _ => (quiet_eat _).bind fun _ _ => ?_
        have hrest : ∀ declared : Option Ty, (∀ ty, declared = some ty → ty.isError = false) →
            From lo (do
              expect (.operator .assign)
              let init ← expr fuel 1
              expect (.punct .semicolon)
              return Item.stmt (.letVar (← newNote start) name declared init))
              (ItemFits tail lo) := fun declared hd =>
          (quiet_expect _).bind fun _ _ => (from_expr fuel 1 lo).bind fun mid e hle he =>
            (quiet_expect _).bind fun _ _ =>
              from_stmtNode he.1 hle (fun _ => rfl) fun _ => ⟨hd, he.2⟩
        refine .ite ?_ (hrest none nofun)
        rw [map_eq_pure_bind, bind_assoc]
        exact quiet_anyType.bind fun t ht => hrest (some t) fun ty h => Option.some.inj h ▸ ht
      case ret =>
        refine (quiet_check _).bind fun _ _ => .ite ?_ ?_
        · exact (quiet_expect _).bind fun _ _ =>
            from_stmtNode .nil (Nat.le_refl _) (fun _ => rfl) fun _ => trivial
        · rw [map_eq_pure_bind, bind_assoc]
          exact (from_expr fuel 1 lo).bind fun mid e hle he => (quiet_expect _).bind fun _ _ =>
            from_stmtNode he.1 hle (fun _ => rfl) fun _ => he.2
      case expr =>
        refine (from_expr fuel 1 lo).bind fun mid e hle he => ?_
        have hlast : ∀ isTail : Bool, (isTail = true → tail = true) →
            From mid (if isTail = true then pure (Item.tail e) else do
              expect (.punct .semicolon)
              return Item.stmt (.expr (← newNote start) e))
              (ItemFits tail lo) := by
          intro isTail hb
          split
          · next h => exact From.pure ⟨he, hb h⟩
          · exact (quiet_expect _).bind fun _ _ =>
              from_stmtNode he.1 hle (fun _ => rfl) fun _ => he.2
        dsimp only
        split
        · next h => exact (quiet_check _).bind fun b _ => hlast b fun _ => h
        · rw [pure_bind]
          exact hlast false nofun

/-- What stands behind `else` is a block or another conditional, so it declares nothing. -/
theorem from_conditional : ∀ (fuel lo : Nat),
    From lo (conditional fuel) fun hi s => s.Fits lo hi ∧ s.IsAlternate
  | 0, _ => by rw [conditional]; exact from_unexpected
  | fuel + 1, lo => by
      rw [conditional]
      refine quiet_startOffset.bind fun start _ => (quiet_expect _).bind fun _ _ =>
        (from_expr fuel 1 lo).bind fun m test hle ht =>
          (from_block fuel false m).bind fun m' yes hle' hy => (quiet_eat _).bind fun b _ => ?_
      have hty := ht.1.append hy.1 hle hle'
      split
      · refine (quiet_check _).bind fun b _ => ?_
        refine From.ite ?_ ?_
        · refine (from_conditional fuel m').bind fun m'' no hle'' hno => (from_newNote start).bind ?_
          rintro hi n - ⟨hn, rfl⟩
          refine From.pure ⟨⟨?_, ht.2, hy.2, hno.2, hno.1.2⟩, trivial⟩
          rw [Stmt.labels, hn]
          exact (hty.append hno.1.1 (by omega) hle'').snoc (by omega)
        · refine (from_block fuel false m').bind fun m'' no hle'' hno => (from_newNote start).bind ?_
          rintro hi n - ⟨hn, rfl⟩
          refine From.pure ⟨⟨?_, ht.2, hy.2, trivial, hno.2⟩, trivial⟩
          rw [Stmt.labels, hn]
          exact (hty.append hno.1 (by omega) hle'').snoc (by omega)
      · refine (from_newNote start).bind ?_
        rintro hi n - ⟨hn, rfl⟩
        refine From.pure ⟨⟨?_, ht.2, hy.2⟩, trivial⟩
        rw [Stmt.labels, hn]
        exact hty.snoc (by omega)

end

end Parse

/-! ### Programs -/

variable {g : Grammar} {size : Nat} {tokens : List Token}

/-- What parsing gives, in one statement: the root has the label `0`, and the labels inside it
are those from `1` to the number of labels. -/
theorem parseTokens_fits :
    let p := (parseTokens g size tokens).1
    p.root.note.id = 0 ∧ Ascending 1 p.labels p.root.innerLabels ∧ p.root.Regular true := by
  have h := Parse.from_body (8 * tokens.length + 8) .eof true 1 (.start g tokens) rfl
  unfold parseTokens
  dsimp only
  split
  · next stmts tail s he =>
      rw [he] at h
      exact ⟨rfl, h.2 _⟩
  · next e s he => exact ⟨rfl, .nil, trivial⟩

/-- **Form.** A parsed program has the form of the language. -/
theorem parseTokens_regular : (parseTokens g size tokens).1.root.Regular true :=
  parseTokens_fits.2.2

/-- **Labels.** No two nodes of a parsed program share a label, and all labels are below the
number of labels. -/
theorem parseTokens_labels :
    (parseTokens g size tokens).1.root.labels.Nodup ∧
      ∀ k ∈ (parseTokens g size tokens).1.root.innerLabels,
        k < (parseTokens g size tokens).1.labels := by
  obtain ⟨hid, ha, -⟩ := @parseTokens_fits g size tokens
  refine ⟨?_, fun k hk => (ha.2 k hk).2⟩
  rw [Block.labels_eq, hid, List.nodup_append]
  refine ⟨ha.1.imp fun h => Nat.ne_of_lt h, by simp, fun k hk j hj => ?_⟩
  have := (ha.2 k hk).1
  rw [List.mem_singleton.mp hj]
  omega

end Parlance
