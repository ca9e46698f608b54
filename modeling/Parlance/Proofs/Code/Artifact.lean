import Mathlib
import Parlance.Code.Artifact
import Parlance.Proofs.Code.Verify
import Parlance.Proofs.Json.RoundTrip

/-!
# Images survive the way to text and back

An image that passes verification is read back from its text, and what is read has the same
text again. The numbers of an image are unsigned 32-bit integers in the text, so an image
whose numbers are larger has no text; `Image.Wordsized` says that all of them fit. A
not-a-number loses its payload: the image that is read back has the canonical one, which is
the same constant (`Const.same`).

## Main results

* `Artifact.image?_ofImage`: the JSON value of an image is read as the image with canonical
  constants.
* `Artifact.wordsized_of_image?`: what is read has numbers that fit.
* `Image.ofText_toText`: a verified image is read back from its text.
* `Image.artifact_roundTrip`: images and texts correspond, in both directions.
-/

namespace Parlance

/-! ### Sizes -/

/-- The number in an instruction. -/
def Instr.number? : Instr → Option Nat
  | .loadConst n | .loadLocal n | .storeLocal n | .loadGlobal n | .storeGlobal n | .loadCapture n
  | .closure n | .buildList n | .jump n | .jumpIfFalse n | .jumpIfTrueOrPop n
  | .jumpIfFalseOrPop n | .call n => some n
  | _ => none

/-- The number in an instruction is an unsigned 32-bit integer. -/
def Instr.Wordsized (i : Instr) : Prop :=
  ∀ n ∈ i.number?, n < 2 ^ 32

def Const.Wordsized : Const → Prop
  | .function f => f < 2 ^ 32
  | _ => True

@[mk_iff]
structure Routine.Wordsized (r : Routine) : Prop where
  params : r.params < 2 ^ 32
  slots : r.slots < 2 ^ 32
  captures : r.captures < 2 ^ 32
  code : ∀ i ∈ r.code.toList, i.Wordsized

/-- All numbers of an image are unsigned 32-bit integers. -/
structure Image.Wordsized (image : Image) : Prop where
  globals : image.globals < 2 ^ 32
  consts : ∀ c ∈ image.consts.toList, c.Wordsized
  routines : ∀ r ∈ image.routines.toList, r.Wordsized

/-! ### Equality of images -/

/-- A constant with the payload of a not-a-number forgotten. -/
def Const.canonical : Const → Const
  | .float x => .float x.canonical
  | c => c

/-- Equal images, where all not-a-numbers are one constant. -/
structure Image.Same (a b : Image) : Prop where
  globals : a.globals = b.globals
  routines : a.routines = b.routines
  consts : List.Forall₂ (fun c d => c.same d = true) a.consts.toList b.consts.toList

def Image.canonical (image : Image) : Image :=
  { image with consts := image.consts.map Const.canonical }

namespace Artifact

/-! ### Lists -/

/-- What is written item by item is read back item by item, if every item is. -/
theorem mapM_map_eq_some {α β γ : Type} {f : α → β} {g : β → Option γ} {h : α → γ} {as : List α}
    (hg : ∀ a ∈ as, g (f a) = some (h a)) : (as.map f).mapM g = some (as.map h) := by
  induction as with
  | nil => rfl
  | cons a as ih =>
      simp [hg a (by simp), ih fun b hb => hg b (List.mem_cons_of_mem a hb)]

/-- Every item that was read came from an item of the text. -/
theorem exists_of_mem_mapM {α β : Type} {g : α → Option β} {as : List α} {bs : List β}
    (h : as.mapM g = some bs) : ∀ b ∈ bs, ∃ a ∈ as, g a = some b := by
  induction as generalizing bs with
  | nil => simp_all
  | cons a as ih =>
      simp only [List.mapM_cons, Option.bind_eq_bind, Option.bind_eq_some_iff, Option.pure_def,
        Option.some.injEq] at h
      obtain ⟨b, hb, bs', hbs, rfl⟩ := h
      rintro c (_ | ⟨_, hc⟩)
      · exact ⟨a, by simp, hb⟩
      · obtain ⟨a', ha', hg⟩ := ih hbs c hc
        exact ⟨a', List.mem_cons_of_mem a ha', hg⟩

/-! ### Reading what was written -/

/-- A number that fits in 32 bits is read back. -/
theorem word?_ofNat {n : Nat} (h : n < 2 ^ 32) : word? (.ofNat n) = some n := by
  have hle : (n : Int) ≤ 0xffffffff := by omega
  simp [word?, Json.ofNat, int?, hle]

/-- An instruction with a number is looked for among those with its number. -/
theorem instr?_ofInstr_of_number {i : Instr} {n : Nat} (h : i.number? = some n) :
    instr? (ofInstr i) =
      (word? (.ofNat n)).bind fun n => (wordInstrs n).find? fun j => opName j == opName i := by
  cases i <;> cases h <;> rfl

/-- An instruction is read back if its number fits. -/
theorem instr?_ofInstr {i : Instr} (h : i.Wordsized) : instr? (ofInstr i) = some i := by
  have hword : ∀ n ∈ i.number?, word? (.ofNat n) = some n := fun n hn => word?_ofNat (h n hn)
  cases i with
  | unary op => cases op <;> rfl
  | binary op => cases op <;> rfl
  | cast target => cases target <;> rfl
  | pop | copy | getItem | setItem | ret => rfl
  | _ n =>
      rw [instr?_ofInstr_of_number rfl, hword n rfl]
      rfl

/-- A constant is read back, with the payload of a not-a-number forgotten. -/
theorem const?_ofConst {c : Const} (h : c.Wordsized) : const? (ofConst c) = some c.canonical := by
  cases c with
  | unit | bool | str => rfl
  | int n =>
      have hn : int? Int64.minValue.toInt Int64.maxValue.toInt (.int n.toInt) = some n.toInt :=
        if_pos ⟨Int64.minValue_le_toInt n, Int64.toInt_le n⟩
      rw [show const? (ofConst (.int n)) = (int? Int64.minValue.toInt Int64.maxValue.toInt
        (.int n.toInt)).map fun n => .int (Int64.ofInt n) from rfl, hn]
      simp [Const.canonical]
  | float x =>
      have hle : (x.canonical.bits.toNat : Int) ≤ 0xffffffffffffffff := by
        have := x.canonical.bits.toNat_lt
        omega
      simp [const?, ofConst, constOf?, int?, Json.ofNat, hle, Const.canonical]
  | function f => simp [const?, ofConst, constOf?, word?_ofNat h, Const.canonical]
  | builtin b => cases b <;> rfl

/-- A routine is read back if its numbers fit. -/
theorem routine?_ofRoutine {r : Routine} (h : r.Wordsized) : routine? (ofRoutine r) = some r := by
  have hcode : (r.code.toList.map ofInstr).mapM instr? = some (r.code.toList.map id) :=
    mapM_map_eq_some fun i hi => instr?_ofInstr (h.code i hi)
  simp [routine?, ofRoutine, fields?, Json.ofList, items?, str?, word?_ofNat h.params,
    word?_ofNat h.slots, word?_ofNat h.captures, hcode]

/-- **Images.** The JSON value of an image is read as the image with canonical constants. -/
theorem image?_ofImage {image : Image} (h : image.Wordsized) :
    image? (ofImage image) = some (Image.format, Image.version, image.canonical) := by
  have hconsts : (image.consts.toList.map ofConst).mapM const? =
      some (image.consts.toList.map Const.canonical) :=
    mapM_map_eq_some fun c hc => const?_ofConst (h.consts c hc)
  have hroutines : (image.routines.toList.map ofRoutine).mapM routine? =
      some (image.routines.toList.map id) :=
    mapM_map_eq_some fun r hr => routine?_ofRoutine (h.routines r hr)
  have hversion : word? (.ofNat Image.version) = some Image.version := rfl
  simp [image?, ofImage, fields?, Json.ofList, items?, str?, word?_ofNat h.globals, hversion,
    hconsts, hroutines, Image.canonical, ← List.map_toArray]

/-! ### The JSON values of images are plain -/

/-- A list is written plainly if its items are. -/
theorem plain_ofList {α : Type} {f : α → Json} (hf : ∀ a, (f a).Plain) (as : List α) :
    (Json.ofList f as).Plain :=
  .array (by simpa [Json.ofList] using fun a _ => hf a)

/-- A number is written plainly. -/
theorem plain_ofNat (n : Nat) : (Json.ofNat n).Plain :=
  .int n

/-- An instruction is written plainly. -/
theorem plain_ofInstr (i : Instr) : (ofInstr i).Plain := by
  refine .object fun f hf => ?_
  obtain rfl | hf := List.mem_cons.mp hf
  · exact .str _
  · cases i <;> simp [argOf?] at hf <;> subst hf <;> first | exact plain_ofNat _ | exact .str _

/-- A constant is written plainly: a float is written as its bits, so no number with a fraction
occurs. -/
theorem plain_ofConst (c : Const) : (ofConst c).Plain := by
  cases c with
  | unit => exact .str _
  | int n => exact .object (by simpa using .int _)
  | float x => exact .object (by simpa using plain_ofNat _)
  | bool b => exact .object (by simpa using .bool _)
  | str s => exact .object (by simpa using .str _)
  | function f => exact .object (by simpa using plain_ofNat _)
  | builtin b => exact .object (by simpa using .str _)

/-- A routine is written plainly. -/
theorem plain_ofRoutine (r : Routine) : (ofRoutine r).Plain :=
  .object (by
    simp only [List.mem_cons, List.not_mem_nil, or_false, forall_eq_or_imp, forall_eq]
    exact ⟨.str _, plain_ofNat _, plain_ofNat _, plain_ofNat _, plain_ofList plain_ofInstr _⟩)

/-- An image is written plainly. -/
theorem plain_ofImage (image : Image) : (ofImage image).Plain :=
  .object (by
    simp only [List.mem_cons, List.not_mem_nil, or_false, forall_eq_or_imp, forall_eq]
    exact ⟨.str _, plain_ofNat _, plain_ofList plain_ofConst _, plain_ofNat _,
      plain_ofList plain_ofRoutine _⟩)

/-! ### What is read fits -/

/-- A number that is read fits in 32 bits. -/
theorem lt_of_word? {j : Json} {n : Nat} (h : word? j = some n) : n < 2 ^ 32 := by
  cases j <;> simp [word?, int?] at h
  obtain ⟨⟨-, hle⟩, rfl⟩ := h
  omega

/-- The number of an instruction that is read fits, whichever name it was read under, since numbers
that do not fit are refused. -/
theorem wordsized_of_instrOf? {readName : Json → Option String} {op : String} {arg : Option Json}
    {i : Instr} (h : instrOf? readName op arg = some i) : i.Wordsized := by
  unfold instrOf? at h
  split at h
  · next j hj =>
      have hplain : ∀ j ∈ plainInstrs, j.number? = none := by decide
      have hnone := hplain j (List.mem_of_find?_eq_some hj)
      split at h
      · cases h
        simp [Instr.Wordsized, hnone]
      · cases h
        simp [Instr.Wordsized, hnone]
      · cases h
  · split at h
    · cases h
    · next arg =>
        split at h
        · obtain ⟨target, -, rfl⟩ := Option.map_eq_some_iff.mp h
          simp [Instr.Wordsized, Instr.number?]
        · obtain ⟨n, hn, h⟩ := Option.bind_eq_some_iff.mp h
          have hnumber : ∀ j ∈ wordInstrs n, j.number? = some n := by
            simp [wordInstrs, Instr.number?]
          simpa [Instr.Wordsized, hnumber i (List.mem_of_find?_eq_some h)] using lt_of_word? hn

/-- An instruction that is read with its name has a number that fits. -/
theorem wordsized_of_named {readName : Json → Option String} {op : Json} {arg : Option Json}
    {i : Instr} (h : ((name? op).bind fun op => instrOf? readName op arg) = some i) :
    i.Wordsized := by
  obtain ⟨op, -, h⟩ := Option.bind_eq_some_iff.mp h
  exact wordsized_of_instrOf? h

/-- An instruction that is read has a number that fits. -/
theorem wordsized_of_instr? {j : Json} {i : Instr} (h : instr? j = some i) : i.Wordsized := by
  unfold instr? at h
  split at h
  · split at h
    · exact wordsized_of_named h
    · exact wordsized_of_named h
    · exact wordsized_of_named h
    · cases h
  · exact wordsized_of_named h
  · cases h

/-- A constant that is read has a number that fits, whichever kind it is. -/
theorem wordsized_of_constOf? {kind : String} {v : Json} {c : Const}
    (h : constOf? kind v = some c) : c.Wordsized := by
  unfold constOf? at h
  cases c with
  | function f =>
      split at h <;> simp at h
      exact lt_of_word? h
  | _ => trivial

/-- A constant that is read has a number that fits. -/
theorem wordsized_of_const? {j : Json} {c : Const} (h : const? j = some c) : c.Wordsized := by
  unfold const? at h
  split at h
  · cases h
    trivial
  · exact wordsized_of_constOf? h
  · cases h

/-- A routine that is read has numbers that fit. -/
theorem wordsized_of_routine? {j : Json} {r : Routine} (h : routine? j = some r) :
    r.Wordsized := by
  obtain ⟨fields, -, h⟩ := Option.bind_eq_some_iff.mp h
  split at h
  · simp only [Option.bind_eq_bind, Option.bind_eq_some_iff, Option.pure_def,
      Option.some.injEq] at h
    obtain ⟨items, -, code, hcode, name, -, params, hparams, slots, hslots, captures, hcaptures,
      rfl⟩ := h
    refine ⟨lt_of_word? hparams, lt_of_word? hslots, lt_of_word? hcaptures, fun i hi => ?_⟩
    obtain ⟨j, -, hj⟩ := exists_of_mem_mapM hcode i hi
    exact wordsized_of_instr? hj
  · cases h

/-- **Sizes.** An image that is read has numbers that fit. -/
theorem wordsized_of_image? {j : Json} {format : String} {version : Nat} {image : Image}
    (h : image? j = some (format, version, image)) : image.Wordsized := by
  obtain ⟨fields, -, h⟩ := Option.bind_eq_some_iff.mp h
  split at h
  · simp only [Option.bind_eq_bind, Option.bind_eq_some_iff, Option.pure_def,
      Option.some.injEq, Prod.mk.injEq] at h
    obtain ⟨items, -, consts, hconsts, items', -, routines, hroutines, _, -, _, -, globals,
      hglobals, -, -, rfl⟩ := h
    refine ⟨lt_of_word? hglobals, fun c hc => ?_, fun r hr => ?_⟩
    · obtain ⟨j, -, hj⟩ := exists_of_mem_mapM hconsts c hc
      exact wordsized_of_const? hj
    · obtain ⟨j, -, hj⟩ := exists_of_mem_mapM hroutines r hr
      exact wordsized_of_routine? hj
  · cases h

end Artifact

namespace Image

/-! ### Canonical images -/

/-- A constant and its canonical form are written the same. -/
theorem ofConst_canonical (c : Const) : Artifact.ofConst c.canonical = Artifact.ofConst c := by
  cases c <;> simp [Const.canonical, Artifact.ofConst]

/-- An image and its canonical form have the same text. -/
theorem toText_canonical (image : Image) : image.canonical.toText = image.toText := by
  have h : Artifact.ofConst ∘ Const.canonical = Artifact.ofConst := funext ofConst_canonical
  simp [toText, Artifact.ofImage, canonical, Json.ofList, h]

/-- An image and its canonical form are the same up to not-a-numbers. -/
theorem same_canonical (image : Image) : image.canonical.Same image := by
  refine ⟨rfl, rfl, ?_⟩
  have hsame : ∀ c : Const, c.canonical.same c = true := by
    intro c
    cases c <;> simp [Const.canonical, Const.same, Binary64.same]
  simp [canonical, List.forall₂_map_left_iff, List.forall₂_same, hsame]

/-- The canonical form of a verified image is verified, since the check does not look at payloads.
-/
theorem verify_canonical {image : Image} (h : image.verify = .ok ()) :
    image.canonical.verify = .ok () := by
  rw [verify_eq_ok_iff] at h ⊢
  obtain ⟨hentry, hconsts, hroutines⟩ := h
  refine ⟨hentry, fun i c hc => ?_, fun f r hr => ?_⟩
  · simp only [canonical, Array.getElem?_map, Option.map_eq_some_iff] at hc
    obtain ⟨c, hc, rfl⟩ := hc
    have href := hconsts i c hc
    cases c <;> exact href
  · obtain ⟨hp, he, hi⟩ := hroutines f r hr
    refine ⟨hp, he, fun pc i hpc => ?_⟩
    have href := hi pc i hpc
    cases i <;> first | exact href | simpa [canonical, Instr.Refers] using href

/-! ### Texts -/

/-- A text is read as an image exactly if it has the format and the version, and the image in it is
verified. -/
theorem ofText_eq_ok_iff {text : String} {image : Image} :
    ofText text = .ok image ↔
      (Json.parse? text).bind Artifact.image? = some (format, version, image) ∧
        image.verify = .ok () := by
  unfold ofText
  cases (Json.parse? text).bind Artifact.image? with
  | none => simp
  | some read =>
      obtain ⟨f, v, read⟩ := read
      simp only [Option.some.injEq, Prod.mk.injEq, ne_eq, ite_not]
      constructor
      · intro h
        split_ifs at h with hf hv
        subst hf hv
        split at h
        · next hok =>
            cases h
            exact ⟨⟨rfl, rfl, rfl⟩, hok⟩
        · cases h
      · rintro ⟨⟨rfl, rfl, rfl⟩, hok⟩
        simp [hok]

/-- A verified image is read back from its text, with canonical constants. -/
theorem ofText_toText {image : Image} (hv : image.verify = .ok ()) (hw : image.Wordsized) :
    ofText image.toText = .ok image.canonical := by
  rw [ofText_eq_ok_iff]
  refine ⟨?_, verify_canonical hv⟩
  rw [toText, Json.parse?_renderPretty (Artifact.plain_ofImage image)]
  exact Artifact.image?_ofImage hw

/-- A text is read as an image that is verified and whose numbers fit. -/
theorem sound_of_ofText {text : String} {image : Image} (h : ofText text = .ok image) :
    image.verify = .ok () ∧ image.Wordsized := by
  obtain ⟨hread, hv⟩ := ofText_eq_ok_iff.mp h
  obtain ⟨j, -, hj⟩ := Option.bind_eq_some_iff.mp hread
  exact ⟨hv, Artifact.wordsized_of_image? hj⟩

/-- The image is read back from its text: what is read is the same image, and it has the same
text again. -/
def Survives (image : Image) : Prop :=
  ∃ loaded, ofText image.toText = .ok loaded ∧ loaded.Same image ∧ loaded.toText = image.toText

/-- A verified image with numbers that fit survives being written and read. -/
theorem survives {image : Image} (hv : image.verify = .ok ()) (hw : image.Wordsized) :
    image.Survives :=
  ⟨image.canonical, ofText_toText hv hw, same_canonical image, toText_canonical image⟩

/-- **Round trip.** Every verified image is read back from its text, and every text that is
read gives a verified image that is read back from its own text. -/
theorem artifact_roundTrip :
    (∀ image : Image, image.verify = .ok () → image.Wordsized → image.Survives) ∧
      ∀ (text : String) (image : Image), ofText text = .ok image →
        image.verify = .ok () ∧ image.Wordsized ∧ image.Survives := by
  refine ⟨fun image => survives, fun text image h => ?_⟩
  obtain ⟨hv, hw⟩ := sound_of_ofText h
  exact ⟨hv, hw, survives hv hw⟩

/-- A program whose constants are hard to write: a not-a-number with a payload, a negative
zero, the least integer, and a text with a control character, a quote and a character beyond
the basic plane. -/
def awkward : Image where
  consts := #[.float ⟨0x7ff0000000000001⟩, .float ⟨0x8000000000000000⟩, .int Int64.minValue,
    .str "\x00\"\\🙂", .function 0, .builtin .print]
  globals := 1
  routines := #[{ name := "main\n", params := 0, slots := 0, captures := 0,
                  code := #[.loadConst 0, .storeGlobal 0, .loadConst 3, .cast .str, .ret] }]

/-- This image is verified and its numbers fit, so it survives, and so does what is read back from
its text. -/
theorem awkward_survives :
    awkward.verify = .ok () ∧ awkward.Wordsized ∧ awkward.Survives ∧
      ∃ image, ofText awkward.toText = .ok image ∧ image.verify = .ok () ∧ image.Survives := by
  have hv : awkward.verify = .ok () := by decide
  have hw : awkward.Wordsized := by
    constructor <;> simp [awkward, Const.Wordsized, Instr.Wordsized, Instr.number?, Routine.wordsized_iff]
  obtain ⟨hv', -, hs⟩ := artifact_roundTrip.2 _ _ (ofText_toText hv hw)
  exact ⟨hv, hw, artifact_roundTrip.1 _ hv hw, _, ofText_toText hv hw, hv', hs⟩

end Image

end Parlance
