import Mathlib.Data.List.Forall2
import Mathlib.Tactic.Common
import Parlance.Value.Ops

/-!
# Values up to the identity of functions

Two runs of one program may give their function values different identities. Values of the
two runs correspond if they are equal except for the identities, and a relation between the
identities says which function values are meant to be the same. All operations on values
respect a correspondence that is one to one; only `==` needs that it is.

## Main results

* `Value.Matches.equal`: corresponding values compare alike.
* `Value.Matches.display`: corresponding values are printed alike.
* `Value.Matches.unary`, `.binary`, `.cast`, `.getItem`, `.setItem`: operations on
  corresponding values have corresponding results.
-/

namespace Parlance

/-- A relation between the identities of function values in two runs. -/
abbrev Identities := Nat → Nat → Prop

/-- No identity corresponds to two others. -/
def Identities.OneToOne (φ : Identities) : Prop :=
  ∀ t u t' u', φ t u → φ t' u' → (t = t' ↔ u = u')

mutual

/-- Two values are equal up to the identities of functions, and these are related. -/
def Value.Matches (φ : Identities) : Value → Value → Prop
  | .unit, .unit => True
  | .int a, .int b => a = b
  | .float a, .float b => a = b
  | .bool a, .bool b => a = b
  | .str a, .str b => a = b
  | .list as, .list bs => Value.AllMatch φ as bs
  | .function t f as, .function u g bs => φ t u ∧ f = g ∧ Value.AllMatch φ as bs
  | .builtin a, .builtin b => a = b
  | _, _ => False

/-- Two lists of values match pairwise. -/
def Value.AllMatch (φ : Identities) : List Value → List Value → Prop
  | [], [] => True
  | a :: as, b :: bs => Value.Matches φ a b ∧ Value.AllMatch φ as bs
  | _, _ => False

end

mutual

/-- A value without the identities of the functions in it. -/
def Value.anonymous : Value → Value
  | .list items => .list (Value.anonymousAll items)
  | .function _ index captures => .function 0 index (Value.anonymousAll captures)
  | v => v

def Value.anonymousAll : List Value → List Value
  | [] => []
  | v :: vs => v.anonymous :: Value.anonymousAll vs

end

/-- Two values are equal in structure: functions have the same index and captures that are
equal in structure. Identities do not count. -/
def Value.Alike (v w : Value) : Prop :=
  v.anonymous = w.anonymous

/-- Two results of an operation: the same fault, or values that match. -/
def ResultsMatch (φ : Identities) : Except Fault Value → Except Fault Value → Prop
  | .ok v, .ok w => v.Matches φ w
  | .error k, .error l => k = l
  | _, _ => False

namespace Value

variable {φ ψ : Identities} {v w : Value}

/-- Lists match exactly if they have the same length and their items match in pairs. -/
theorem allMatch_iff {as bs : List Value} :
    AllMatch φ as bs ↔ List.Forall₂ (Matches φ) as bs := by
  induction as generalizing bs with
  | nil => cases bs <;> simp [AllMatch]
  | cons a as ih => cases bs <;> simp [AllMatch, ih]

/-- Two lists match if their items do. -/
@[simp] theorem list_matches_list {as bs : List Value} :
    (list as).Matches φ (list bs) ↔ List.Forall₂ (Matches φ) as bs :=
  allMatch_iff

/-- Two functions match if their identities are related, their indices are equal and what they
captured matches. -/
@[simp] theorem function_matches_function {t u f g : Nat} {as bs : List Value} :
    (function t f as).Matches φ (function u g bs) ↔
      φ t u ∧ f = g ∧ List.Forall₂ (Matches φ) as bs :=
  and_congr_right fun _ => and_congr_right fun _ => allMatch_iff

/-! ### Inversion -/

/-- Neither a list nor a function. -/
def IsAtom : Value → Prop
  | .list _ | .function _ _ _ => False
  | _ => True

/-- The unit value has no parts. -/
@[simp] theorem atom_unit : unit.IsAtom := trivial

/-- An integer has no parts. -/
@[simp] theorem atom_int {n : Int64} : (int n).IsAtom := trivial

/-- A float has no parts. -/
@[simp] theorem atom_float {x : Binary64} : (float x).IsAtom := trivial

/-- A bool has no parts. -/
@[simp] theorem atom_bool {b : Bool} : (bool b).IsAtom := trivial

/-- A string has no parts, as it cannot be changed. -/
@[simp] theorem atom_str {s : String} : (str s).IsAtom := trivial

/-- A builtin has no parts, and no identity beside its name. -/
@[simp] theorem atom_builtin {b : Builtin} : (builtin b).IsAtom := trivial

/-- An atom matches itself and nothing else. -/
theorem IsAtom.matches_iff (h : v.IsAtom) : v.Matches φ w ↔ w = v := by
  cases v with
  | list as => exact h.elim
  | function t f as => exact h.elim
  | _ => cases w <;> simp [Matches, eq_comm]

/-- The unit value matches itself only. -/
@[simp] theorem unit_matches : unit.Matches φ w ↔ w = unit :=
  atom_unit.matches_iff

/-- An integer matches itself only. -/
@[simp] theorem int_matches {n : Int64} : (int n).Matches φ w ↔ w = int n :=
  atom_int.matches_iff

/-- A float matches itself only, bit by bit. -/
@[simp] theorem float_matches {x : Binary64} : (float x).Matches φ w ↔ w = float x :=
  atom_float.matches_iff

/-- A bool matches itself only. -/
@[simp] theorem bool_matches {b : Bool} : (bool b).Matches φ w ↔ w = bool b :=
  atom_bool.matches_iff

/-- A string matches itself only. -/
@[simp] theorem str_matches {s : String} : (str s).Matches φ w ↔ w = str s :=
  atom_str.matches_iff

/-- A builtin matches itself only. -/
@[simp] theorem builtin_matches {b : Builtin} : (builtin b).Matches φ w ↔ w = builtin b :=
  atom_builtin.matches_iff

/-- Only lists match a list, and their items match in pairs. -/
theorem list_matches {as : List Value} :
    (list as).Matches φ w ↔ ∃ bs, w = list bs ∧ List.Forall₂ (Matches φ) as bs := by
  cases w with
  | list bs => simp
  | _ => simp [Matches]

/-- Only functions match a function, with the same index and captures that match. -/
theorem function_matches {t f : Nat} {as : List Value} :
    (function t f as).Matches φ w ↔
      ∃ u bs, w = function u f bs ∧ φ t u ∧ List.Forall₂ (Matches φ) as bs := by
  cases w with
  | function u g bs =>
      simp only [function_matches_function, function.injEq]
      constructor
      · rintro ⟨h, rfl, hs⟩
        exact ⟨u, bs, ⟨rfl, rfl, rfl⟩, h, hs⟩
      · rintro ⟨u', bs', ⟨rfl, rfl, rfl⟩, h, hs⟩
        exact ⟨h, rfl, hs⟩
  | _ => simp [Matches]

/-- **Inversion.** Values that match are equal atoms, or lists or functions whose parts
match. -/
theorem Matches.cases (h : v.Matches φ w) :
    (v.IsAtom ∧ w = v) ∨
      (∃ as bs, v = list as ∧ w = list bs ∧ List.Forall₂ (Matches φ) as bs) ∨
      ∃ t u f as bs, v = function t f as ∧ w = function u f bs ∧ φ t u ∧
        List.Forall₂ (Matches φ) as bs := by
  cases v with
  | list as =>
      obtain ⟨bs, rfl, hs⟩ := list_matches.mp h
      exact .inr (.inl ⟨as, bs, rfl, rfl, hs⟩)
  | function t f as =>
      obtain ⟨u, bs, rfl, htu, hs⟩ := function_matches.mp h
      exact .inr (.inr ⟨t, u, f, as, bs, rfl, rfl, htu, hs⟩)
  | _ => exact .inl ⟨trivial, by simpa using h⟩

/-- A value without parts matches itself, however identities are related. -/
theorem IsAtom.matches (h : v.IsAtom) : v.Matches φ v :=
  h.matches_iff.mpr rfl

/-! ### Weakening -/

mutual

/-- **Monotonicity.** Values that match still do when more identities are related. -/
theorem Matches.mono (h : ∀ t u, φ t u → ψ t u) :
    ∀ {v w : Value}, v.Matches φ w → v.Matches ψ w
  | .list as, w, hm => by
      obtain ⟨bs, rfl, hs⟩ := list_matches.mp hm
      rw [Matches]
      exact AllMatch.mono h (allMatch_iff.mpr hs)
  | .function t f as, w, hm => by
      obtain ⟨u, bs, rfl, htu, hs⟩ := function_matches.mp hm
      rw [Matches]
      exact ⟨h t u htu, rfl, AllMatch.mono h (allMatch_iff.mpr hs)⟩
  | .unit, w, hm => by simpa using hm
  | .int _, w, hm => by simpa using hm
  | .float _, w, hm => by simpa using hm
  | .bool _, w, hm => by simpa using hm
  | .str _, w, hm => by simpa using hm
  | .builtin _, w, hm => by simpa using hm

/-- Lists that match still match when more identities are related. -/
theorem AllMatch.mono (h : ∀ t u, φ t u → ψ t u) :
    ∀ {as bs : List Value}, AllMatch φ as bs → AllMatch ψ as bs
  | [], [], _ => by simp [AllMatch]
  | a :: as, b :: bs, hm => by
      rw [AllMatch] at hm ⊢
      exact ⟨hm.1.mono h, AllMatch.mono h hm.2⟩
  | [], _ :: _, hm => by simp [AllMatch] at hm
  | _ :: _, [], hm => by simp [AllMatch] at hm

end

mutual

/-- Values that match are equal in structure. -/
theorem Matches.alike : ∀ {v w : Value}, v.Matches φ w → v.Alike w
  | .list as, w, h => by
      obtain ⟨bs, rfl, hs⟩ := list_matches.mp h
      rw [Alike, anonymous, anonymous, AllMatch.anonymousAll (allMatch_iff.mpr hs)]
  | .function t f as, w, h => by
      obtain ⟨u, bs, rfl, -, hs⟩ := function_matches.mp h
      rw [Alike, anonymous, anonymous, AllMatch.anonymousAll (allMatch_iff.mpr hs)]
  | .unit, w, h => by rw [unit_matches.mp h]; rfl
  | .int _, w, h => by rw [int_matches.mp h]; rfl
  | .float _, w, h => by rw [float_matches.mp h]; rfl
  | .bool _, w, h => by rw [bool_matches.mp h]; rfl
  | .str _, w, h => by rw [str_matches.mp h]; rfl
  | .builtin _, w, h => by rw [builtin_matches.mp h]; rfl

/-- Lists that match are the same list once identities are taken out. -/
theorem AllMatch.anonymousAll :
    ∀ {as bs : List Value}, AllMatch φ as bs → anonymousAll as = anonymousAll bs
  | [], [], _ => rfl
  | a :: as, b :: bs, h => by
      rw [AllMatch] at h
      have ha := Matches.alike h.1
      rw [Alike] at ha
      rw [Value.anonymousAll, Value.anonymousAll, ha, AllMatch.anonymousAll h.2]
  | [], _ :: _, h => by simp [AllMatch] at h
  | _ :: _, [], h => by simp [AllMatch] at h

end

/-! ### Printing -/

/-- Values that match have types of the same name, so faults that name a type are the same. -/
theorem Matches.typeName (h : v.Matches φ w) : w.typeName = v.typeName := by
  obtain ⟨-, rfl⟩ | ⟨as, bs, rfl, rfl, -⟩ | ⟨t, u, f, as, bs, rfl, rfl, -⟩ := h.cases
  · rfl
  · rfl
  · rfl

mutual

/-- **Printing.** Values that match are printed alike. -/
theorem Matches.display : ∀ {v w : Value}, v.Matches φ w → w.display = v.display
  | .list as, w, h => by
      obtain ⟨bs, rfl, hs⟩ := list_matches.mp h
      rw [Value.display, Value.display, AllMatch.reprAll (allMatch_iff.mpr hs)]
  | .function t f as, w, h => by
      obtain ⟨u, bs, rfl, -⟩ := function_matches.mp h
      rw [Value.display, Value.display]
  | .unit, w, h => by rw [unit_matches.mp h]
  | .int _, w, h => by rw [int_matches.mp h]
  | .float _, w, h => by rw [float_matches.mp h]
  | .bool _, w, h => by rw [bool_matches.mp h]
  | .str _, w, h => by rw [str_matches.mp h]
  | .builtin _, w, h => by rw [builtin_matches.mp h]

/-- Lists that match are printed the same, item by item. -/
theorem AllMatch.reprAll :
    ∀ {as bs : List Value}, AllMatch φ as bs → Value.reprAll bs = Value.reprAll as
  | [], [], _ => rfl
  | a :: as, b :: bs, h => by
      rw [AllMatch] at h
      have hd := Matches.display h.1
      have hr := AllMatch.reprAll h.2
      cases a with
      | str s =>
          rw [str_matches.mp h.1, Value.reprAll, Value.reprAll, hr]
      | _ =>
          rw [Value.reprAll, Value.reprAll, hd, hr]
          · rintro s ⟨⟩
          · rintro s rfl
            simp [Matches] at h
  | [], _ :: _, h => by simp [AllMatch] at h
  | _ :: _, [], h => by simp [AllMatch] at h

end

/-- Values that match are printed the same, since no identity is ever printed. -/
theorem Matches.repr (h : v.Matches φ w) : w.repr = v.repr := by
  obtain ⟨-, rfl⟩ | ⟨as, bs, rfl, rfl, -⟩ | ⟨t, u, f, as, bs, rfl, rfl, -⟩ := h.cases
  · rfl
  · exact h.display
  · exact h.display

/-! ### Comparison -/

/-- Lists are equal if their items are. -/
@[simp] theorem equal_list {as bs : List Value} : (list as).equal (list bs) = equalAll as bs := by
  rw [equal]

/-- Functions are equal if their identities are, whatever they captured. -/
@[simp] theorem equal_function {t u f g : Nat} {as bs : List Value} :
    (function t f as).equal (function u g bs) = (t == u) := by
  rw [equal]

/-- A value without parts is no list. -/
theorem IsAtom.equal_list (h : v.IsAtom) {as : List Value} : v.equal (list as) = false := by
  cases v <;> first | exact h.elim | (rw [equal]; all_goals simp)

/-- A value without parts is no function. -/
theorem IsAtom.equal_function (h : v.IsAtom) {t f : Nat} {as : List Value} :
    v.equal (function t f as) = false := by
  cases v <;> first | exact h.elim | (rw [equal]; all_goals simp)

/-- A list is equal to lists only. -/
theorem list_equal_of_ne {as : List Value} (h : ∀ bs, v ≠ list bs) :
    (list as).equal v = false := by
  rw [equal]
  all_goals simp_all

/-- A function is equal to functions only. -/
theorem function_equal_of_ne {t f : Nat} {as : List Value} (h : ∀ u g bs, v ≠ function u g bs) :
    (function t f as).equal v = false := by
  rw [equal]
  all_goals simp_all

/-- A value without parts is equal to one of two matching values exactly if it is equal to the
other. -/
theorem IsAtom.equal_matches (h : v.IsAtom) {v' w' : Value} (h' : v'.Matches φ w') :
    v.equal w' = v.equal v' := by
  obtain ⟨-, rfl⟩ | ⟨as, bs, rfl, rfl, -⟩ | ⟨t, u, f, as, bs, rfl, rfl, -⟩ := h'.cases
  · rfl
  · rw [h.equal_list, h.equal_list]
  · rw [h.equal_function, h.equal_function]

mutual

/-- **Comparison.** Values that match compare alike if identities correspond one to one. Functions
are compared by their identities alone, and lists item by item. -/
theorem Matches.equal (hφ : φ.OneToOne) :
    ∀ {v w v' w' : Value}, v.Matches φ w → v'.Matches φ w' → w.equal w' = v.equal v'
  | .list as, w, v', w', h, h' => by
      obtain ⟨bs, rfl, hs⟩ := list_matches.mp h
      cases v' with
      | list as' =>
          obtain ⟨bs', rfl, hs'⟩ := list_matches.mp h'
          rw [equal_list, equal_list]
          exact AllMatch.equalAll hφ (allMatch_iff.mpr hs) (allMatch_iff.mpr hs')
      | _ =>
          rw [list_equal_of_ne, list_equal_of_ne]
          · simp
          · rintro bs' rfl
            simp [Matches] at h'
  | .function t f as, w, v', w', h, h' => by
      obtain ⟨u, bs, rfl, htu, -⟩ := function_matches.mp h
      cases v' with
      | function t' f' as' =>
          obtain ⟨u', bs', rfl, htu', -⟩ := function_matches.mp h'
          rw [equal_function, equal_function, Bool.eq_iff_iff, beq_iff_eq, beq_iff_eq]
          exact (hφ t u t' u' htu htu').symm
      | _ =>
          rw [function_equal_of_ne, function_equal_of_ne]
          · simp
          · rintro u' g bs' rfl
            simp [Matches] at h'
  | .unit, w, _, _, h, h' => by rw [unit_matches.mp h, atom_unit.equal_matches h']
  | .int _, w, _, _, h, h' => by rw [int_matches.mp h, atom_int.equal_matches h']
  | .float _, w, _, _, h, h' => by rw [float_matches.mp h, atom_float.equal_matches h']
  | .bool _, w, _, _, h, h' => by rw [bool_matches.mp h, atom_bool.equal_matches h']
  | .str _, w, _, _, h, h' => by rw [str_matches.mp h, atom_str.equal_matches h']
  | .builtin _, w, _, _, h, h' => by
      rw [builtin_matches.mp h, atom_builtin.equal_matches h']

/-- Lists that match in pairs are equal in one run exactly if they are in the other. For functions
this needs identities that are related one to one. -/
theorem AllMatch.equalAll (hφ : φ.OneToOne) :
    ∀ {as bs as' bs' : List Value}, AllMatch φ as bs → AllMatch φ as' bs' →
      Value.equalAll bs bs' = Value.equalAll as as'
  | a :: as, b :: bs, a' :: as', b' :: bs', h, h' => by
      rw [AllMatch] at h h'
      rw [Value.equalAll, Value.equalAll, Matches.equal hφ h.1 h'.1,
        AllMatch.equalAll hφ h.2 h'.2]
  | [], [], [], [], _, _ => rfl
  | [], [], _ :: _, _ :: _, _, _ => rfl
  | _ :: _, _ :: _, [], [], _, _ => rfl
  | [], _ :: _, _, _, h, _ => by simp [AllMatch] at h
  | _ :: _, [], _, _, h, _ => by simp [AllMatch] at h
  | _, _, [], _ :: _, _, h => by simp [AllMatch] at h
  | _, _, _ :: _, [], _, h => by simp [AllMatch] at h

end

/-! ### Operations -/

/-- Operations that agree and give atoms have results that match. -/
theorem resultsMatch_of_eq {r r' : Except Fault Value} (h : r' = r)
    (hr : ∀ v, r = .ok v → v.IsAtom) : ResultsMatch φ r r' := by
  subst h
  cases r' with
  | ok v => exact (hr v rfl).matches
  | error k => rfl

/-- A unary operation gives a value without parts. -/
theorem isAtom_of_unary {op : UnaryOp} (h : v.unary op = .ok w) : w.IsAtom := by
  unfold Value.unary at h
  split at h <;> simp at h <;> subst h <;> simp

/-- A binary operation gives a value without parts. -/
theorem isAtom_of_binary {op : BinaryOp} {l r : Value} (h : Value.binary op l r = .ok w) :
    w.IsAtom := by
  unfold Value.binary at h
  split at h
  · simp at h; subst h; simp
  · simp at h; subst h; simp
  iterate 4
    · split at h <;> simp at h
      subst h; simp
  · split at h
    · unfold binaryInt at h
      split at h <;> (try split at h) <;> simp at h <;> subst h <;> simp
    · unfold binaryFloat at h
      split at h <;> (try split at h) <;> simp at h <;> subst h <;> simp
    · split at h <;> simp at h
      subst h; simp
    · split at h <;> simp at h <;> subst h <;> simp
    · simp at h

/-- A cast gives a value without parts. -/
theorem isAtom_of_cast {target : Scalar} (h : v.cast target = .ok w) : w.IsAtom := by
  unfold Value.cast at h
  split at h
  · next u hu =>
      simp only [Except.ok.injEq] at h
      subst h
      unfold Value.cast? at hu
      split at hu <;>
        simp only [Option.map_eq_some_iff, Option.some.injEq, reduceCtorEq] at hu
      all_goals first
        | (subst hu; simp)
        | (obtain ⟨_, _, rfl⟩ := hu; simp)
  · simp at h

/-- A unary operation gives the same on values that match, or the same fault. -/
theorem Matches.unary (h : v.Matches φ w) (op : UnaryOp) :
    ResultsMatch φ (v.unary op) (w.unary op) := by
  refine resultsMatch_of_eq ?_ fun u => isAtom_of_unary
  obtain ⟨-, rfl⟩ | ⟨as, bs, rfl, rfl, -⟩ | ⟨t, u, f, as, bs, rfl, rfl, -⟩ := h.cases
  · rfl
  · cases op <;> rfl
  · cases op <;> rfl

/-- A cast gives the same on values that match, or the same fault. -/
theorem Matches.cast (h : v.Matches φ w) (target : Scalar) :
    ResultsMatch φ (v.cast target) (w.cast target) := by
  refine resultsMatch_of_eq ?_ fun u => isAtom_of_cast
  have hr := h.repr
  obtain ⟨-, rfl⟩ | ⟨as, bs, rfl, rfl, -⟩ | ⟨t, u, f, as, bs, rfl, rfl, -⟩ := h.cases
  · rfl
  · simp only [Value.cast, Value.cast?, hr]
  · simp only [Value.cast, Value.cast?, hr]

/-- Values that match are ordered in the same way, or are both not ordered. -/
theorem Matches.order? {v' w' : Value} (h : v.Matches φ w) (h' : v'.Matches φ w') :
    Value.order? w w' = Value.order? v v' := by
  obtain ⟨-, rfl⟩ | ⟨as, bs, rfl, rfl, -⟩ | ⟨t, u, f, as, bs, rfl, rfl, -⟩ := h.cases
  · obtain ⟨-, rfl⟩ | ⟨as, bs, rfl, rfl, -⟩ | ⟨t, u, f, as, bs, rfl, rfl, -⟩ := h'.cases
    · rfl
    · cases w <;> rfl
    · cases w <;> rfl
  · rfl
  · rfl

/-- A binary operation gives the same on values that match, or the same fault. Only equality looks
at identities. -/
theorem Matches.binary (hφ : φ.OneToOne) {v' w' : Value} (h : v.Matches φ w)
    (h' : v'.Matches φ w') (op : BinaryOp) :
    ResultsMatch φ (Value.binary op v v') (Value.binary op w w') := by
  refine resultsMatch_of_eq ?_ fun u => isAtom_of_binary
  have he := Matches.equal hφ h h'
  have ho := h.order? h'
  have ht := h.typeName
  unfold Value.binary
  rw [he, ho, ht]
  split
  iterate 6 rfl
  · obtain ⟨-, rfl⟩ | ⟨as, bs, rfl, rfl, -⟩ | ⟨t, u, f, as, bs, rfl, rfl, -⟩ := h.cases
    · obtain ⟨-, rfl⟩ | ⟨as, bs, rfl, rfl, -⟩ | ⟨t, u, f, as, bs, rfl, rfl, -⟩ := h'.cases
      · rfl
      · cases w <;> rfl
      · cases w <;> rfl
    · rfl
    · rfl

/-! ### Items -/

/-- Indices that match are checked with the same outcome. -/
theorem Matches.checkedIndex {i j : Value} (h : i.Matches φ j) (n : Nat) :
    Value.checkedIndex j n = Value.checkedIndex i n := by
  obtain ⟨-, rfl⟩ | ⟨as, bs, rfl, rfl, -⟩ | ⟨t, u, f, as, bs, rfl, rfl, -⟩ := h.cases
  · rfl
  · rfl
  · rfl

/-- In lists that match the items at one place match, also behind the end. -/
theorem forall₂_getD {as bs : List Value} (h : List.Forall₂ (Matches φ) as bs) (i : Nat) :
    (as.getD i .unit).Matches φ (bs.getD i .unit) := by
  induction h generalizing i with
  | nil => simp
  | cons hab _ ih =>
      cases i with
      | zero => simpa using hab
      | succ i => simpa using ih i

/-- Lists that match still match after matching values are set at one place. -/
theorem forall₂_set {as bs : List Value} (h : List.Forall₂ (Matches φ) as bs)
    (hv : v.Matches φ w) (i : Nat) : List.Forall₂ (Matches φ) (as.set i v) (bs.set i w) := by
  induction h generalizing i with
  | nil => simp
  | cons hab hs ih =>
      cases i with
      | zero => exact .cons hv hs
      | succ i => exact .cons hab (ih i)

/-- Reading an item of lists that match gives values that match, or the same fault. -/
theorem Matches.getItem {i j : Value} (h : v.Matches φ w) (hi : i.Matches φ j) :
    ResultsMatch φ (v.getItem i) (w.getItem j) := by
  obtain ⟨a, rfl⟩ | ⟨as, bs, rfl, rfl, hs⟩ | ⟨t, u, f, as, bs, rfl, rfl, -⟩ := h.cases
  · cases w with
    | str s =>
        simp only [Value.getItem, hi.checkedIndex]
        cases Value.checkedIndex i s.toList.length with
        | ok k => simp [bind, Except.bind, pure, Except.pure, ResultsMatch]
        | error k => rfl
    | list _ => exact a.elim
    | _ => rfl
  · simp only [Value.getItem, hi.checkedIndex, hs.length_eq]
    cases Value.checkedIndex i bs.length with
    | ok k => exact forall₂_getD hs k
    | error k => rfl
  · rfl

/-- Setting an item of lists that match gives lists that match, or the same fault. -/
theorem Matches.setItem {i j v' w' : Value} (h : v.Matches φ w) (hi : i.Matches φ j)
    (h' : v'.Matches φ w') : ResultsMatch φ (v.setItem i v') (w.setItem j w') := by
  obtain ⟨a, rfl⟩ | ⟨as, bs, rfl, rfl, hs⟩ | ⟨t, u, f, as, bs, rfl, rfl, -⟩ := h.cases
  · cases w with
    | list _ => exact a.elim
    | _ => rfl
  · simp only [Value.setItem, hi.checkedIndex, hs.length_eq]
    cases Value.checkedIndex i bs.length with
    | ok k => exact list_matches_list.mpr (forall₂_set hs h' k)
    | error k => rfl
  · rfl

/-- Adding to the end of lists that match gives lists that match, or the same fault. -/
theorem Matches.push {v' w' : Value} (h : v.Matches φ w) (h' : v'.Matches φ w') :
    ResultsMatch φ (v.push v') (w.push w') := by
  obtain ⟨a, rfl⟩ | ⟨as, bs, rfl, rfl, hs⟩ | ⟨t, u, f, as, bs, rfl, rfl, -⟩ := h.cases
  · cases w with
    | list _ => exact a.elim
    | _ => exact rfl
  · exact list_matches_list.mpr (List.rel_append hs (.cons h' .nil))
  · rfl

/-- Values that match have the same length, or the same fault. -/
theorem Matches.length (h : v.Matches φ w) : w.length = v.length := by
  obtain ⟨-, rfl⟩ | ⟨as, bs, rfl, rfl, hs⟩ | ⟨t, u, f, as, bs, rfl, rfl, -⟩ := h.cases
  · rfl
  · rw [Value.length, Value.length, hs.length_eq]
  · rfl

end Value

end Parlance
