import Parlance.Code.Image
import Parlance.Json.Reader
import Parlance.Json.Writer

/-!
# Images as JSON

`Image.toText` writes an image as a JSON text and `Image.ofText` reads one back and verifies
it. A record is an object in which each field stands once; names that are not its own are
ignored. It may also be given as the array of its fields in order. A name of an enumeration
is a string, or an object with that one field, `null`. Numbers are unsigned 32-bit integers,
apart from integer constants (signed 64-bit) and floats (their 64-bit pattern).
-/

namespace Parlance

/-- Why a text is not an image. -/
inductive ArtifactError where
  /-- Not JSON, or not of the right shape. -/
  | malformed
  | unknownFormat (format : String)
  | unsupportedVersion (version : Nat)
  | invalid (e : VerifyError)
  deriving DecidableEq, Repr, Inhabited

def ArtifactError.message : ArtifactError → String
  | .malformed => "malformed program"
  | .unknownFormat format => s!"unknown format `{format}`"
  | .unsupportedVersion version => s!"unsupported version {version}"
  | .invalid e => s!"invalid program ({e.message})"

namespace Artifact

/-! ### Writing -/

def opName : Instr → String
  | .pop => "pop"
  | .copy => "copy"
  | .loadConst _ => "load_const"
  | .loadLocal _ => "load_local"
  | .storeLocal _ => "store_local"
  | .loadGlobal _ => "load_global"
  | .storeGlobal _ => "store_global"
  | .loadCapture _ => "load_capture"
  | .closure _ => "closure"
  | .buildList _ => "build_list"
  | .getItem => "get_item"
  | .setItem => "set_item"
  | .unary .neg => "neg"
  | .unary .not => "not"
  | .binary .add => "add"
  | .binary .sub => "sub"
  | .binary .mul => "mul"
  | .binary .div => "div"
  | .binary .rem => "rem"
  | .binary .pow => "pow"
  | .binary .eq => "eq"
  | .binary .ne => "ne"
  | .binary .lt => "lt"
  | .binary .le => "le"
  | .binary .gt => "gt"
  | .binary .ge => "ge"
  | .cast _ => "cast"
  | .jump _ => "jump"
  | .jumpIfFalse _ => "jump_if_false"
  | .jumpIfTrueOrPop _ => "jump_if_true_or_pop"
  | .jumpIfFalseOrPop _ => "jump_if_false_or_pop"
  | .call _ => "call"
  | .ret => "return"

/-- The operand of an instruction. -/
def argOf? : Instr → Option Json
  | .loadConst n | .loadLocal n | .storeLocal n | .loadGlobal n | .storeGlobal n | .loadCapture n
  | .closure n | .buildList n | .jump n | .jumpIfFalse n | .jumpIfTrueOrPop n
  | .jumpIfFalseOrPop n | .call n => some (.ofNat n)
  | .cast target => some (.str target.name)
  | _ => none

def ofInstr (i : Instr) : Json :=
  .object (("op", .str (opName i)) :: ((argOf? i).map fun arg => ("arg", arg)).toList)

def ofConst : Const → Json
  | .unit => .str "unit"
  | .int n => .object [("int", .int n.toInt)]
  | .float x => .object [("float", .ofNat x.canonical.bits.toNat)]
  | .bool b => .object [("bool", .bool b)]
  | .str s => .object [("str", .str s)]
  | .function f => .object [("function", .ofNat f)]
  | .builtin b => .object [("builtin", .str b.name)]

def ofRoutine (r : Routine) : Json :=
  .object [("name", .str r.name), ("param_count", .ofNat r.params), ("slot_count", .ofNat r.slots),
    ("capture_count", .ofNat r.captures), ("code", .ofList ofInstr r.code.toList)]

def ofImage (image : Image) : Json :=
  .object [("format", .str Image.format), ("version", .ofNat Image.version),
    ("consts", .ofList ofConst image.consts.toList), ("global_count", .ofNat image.globals),
    ("functions", .ofList ofRoutine image.routines.toList)]

/-! ### Reading -/

/-- The values of a record's fields. -/
def fields? (names : List String) : Json → Option (List Json)
  | .object fields => names.mapM fun name =>
    match fields.filter fun f => f.1 == name with
    | [(_, v)] => some v
    | _ => none
  | .array items => if items.length = names.length then some items else none
  | _ => none

/-- An integer from `low` to `high`. -/
def int? (low high : Int) : Json → Option Int
  | .int n => if low ≤ n ∧ n ≤ high then some n else none
  | _ => none

/-- An unsigned 32-bit integer. -/
def word? (j : Json) : Option Nat :=
  (int? 0 0xffffffff j).map Int.toNat

def str? : Json → Option String
  | .str s => some s
  | _ => none

def items? : Json → Option (List Json)
  | .array items => some items
  | _ => none

/-- A name of an enumeration: a text, or the one field of an object, which is `null`. -/
def name? : Json → Option String
  | .str s => some s
  | .object [(s, .null)] => some s
  | _ => none

/-- A name as `name?` reads it, or the one field of an object, which is an empty object. -/
def looseName? : Json → Option String
  | .object [(s, .object [])] => some s
  | j => name? j

def builtin? (j : Json) : Option Builtin :=
  (name? j).bind Builtin.ofName?

/-- The constant of a kind. -/
def constOf? (kind : String) (value : Json) : Option Const :=
  match kind, value with
  | "unit", .null => some .unit
  | "int", v => (int? Int64.minValue.toInt Int64.maxValue.toInt v).map fun n => .int (Int64.ofInt n)
  | "float", v => (int? 0 0xffffffffffffffff v).map fun n => .float ⟨UInt64.ofNat n.toNat⟩
  | "bool", .bool b => some (.bool b)
  | "str", .str s => some (.str s)
  | "function", v => (word? v).map .function
  | "builtin", v => (builtin? v).map .builtin
  | _, _ => none

def const? : Json → Option Const
  | .str "unit" => some .unit
  | .object [(kind, v)] => constOf? kind v
  | _ => none

/-- The instructions without operand. -/
def plainInstrs : List Instr :=
  [.pop, .copy, .getItem, .setItem, .unary .neg, .unary .not, .ret] ++ StrictOp.all.map .binary

/-- The instructions with a numeric operand. -/
def wordInstrs (n : Nat) : List Instr :=
  [.loadConst n, .loadLocal n, .storeLocal n, .loadGlobal n, .storeGlobal n, .loadCapture n,
    .closure n, .buildList n, .jump n, .jumpIfFalse n, .jumpIfTrueOrPop n, .jumpIfFalseOrPop n,
    .call n]

/-- The instruction of a name and an operand, which is `none` if there is no such field.
`readName` reads an operand that is a name. -/
def instrOf? (readName : Json → Option String) (op : String) (arg : Option Json) : Option Instr :=
  match plainInstrs.find? fun i => opName i == op with
  | some i =>
    match arg with
    | none | some .null => some i
    | some _ => none
  | none =>
    match arg with
    | none => none
    | some arg =>
      if op == "cast" then ((readName arg).bind Scalar.ofName?).map .cast
      else do
        let n ← word? arg
        (wordInstrs n).find? fun i => opName i == op

/-- An instruction: a record of a name, `op`, and perhaps an operand, `arg`. An operand that
stands before the name may be a loose name. -/
def instr? : Json → Option Instr
  | .object fields =>
    match fields.filter fun f => f.1 == "op" || f.1 == "arg" with
    | [("op", op)] => (name? op).bind fun op => instrOf? name? op none
    | [("op", op), ("arg", arg)] => (name? op).bind fun op => instrOf? name? op (some arg)
    | [("arg", arg), ("op", op)] => (name? op).bind fun op => instrOf? looseName? op (some arg)
    | _ => none
  | .array [op, arg] => (name? op).bind fun op => instrOf? name? op (some arg)
  | _ => none

def routine? (j : Json) : Option Routine := do
  match ← fields? ["name", "param_count", "slot_count", "capture_count", "code"] j with
  | [name, params, slots, captures, code] =>
    let code ← (← items? code).mapM instr?
    return { name := ← str? name, params := ← word? params, slots := ← word? slots,
             captures := ← word? captures, code := code.toArray }
  | _ => none

/-- The format tag, the version and the image of a JSON value. -/
def image? (j : Json) : Option (String × Nat × Image) := do
  match ← fields? ["format", "version", "consts", "global_count", "functions"] j with
  | [format, version, consts, globals, functions] =>
    let consts ← (← items? consts).mapM const?
    let routines ← (← items? functions).mapM routine?
    return (← str? format, ← word? version,
      { consts := consts.toArray, globals := ← word? globals, routines := routines.toArray })
  | _ => none

end Artifact

namespace Image

/-- An image as a JSON text. -/
def toText (image : Image) : String :=
  (Artifact.ofImage image).renderPretty

/-- The verified image of a JSON text. -/
def ofText (text : String) : Except ArtifactError Image :=
  match (Json.parse? text).bind Artifact.image? with
  | none => .error .malformed
  | some (format, version, image) =>
    if format ≠ Image.format then .error (.unknownFormat format)
    else if version ≠ Image.version then .error (.unsupportedVersion version)
    else
      match image.verify with
      | .ok () => .ok image
      | .error e => .error (.invalid e)

end Image

end Parlance
