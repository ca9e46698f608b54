import Parlance.Code.Instr
import Parlance.Value.Basic

/-!
# Images

An image is a compiled program: a pool of constants, a number of global slots, and the code
of its functions. The first routine is the program itself. `verify` checks that everything
the code refers to exists.
-/

namespace Parlance

/-- The code of a function. -/
structure Routine where
  name : String
  params : Nat
  /-- The number of frame slots, parameters included. -/
  slots : Nat
  captures : Nat
  code : Array Instr
  deriving DecidableEq, Repr, Inhabited

/-- A compiled program. -/
structure Image where
  consts : Array Const
  /-- The number of global slots. -/
  globals : Nat
  routines : Array Routine
  deriving Inhabited

/-! ### Verification -/

/-- A dangling reference or a malformed routine. -/
inductive VerifyError where
  | missingEntry
  | invalidEntry
  | paramsExceedSlots (function : Nat)
  | fallsOffEnd (function : Nat)
  | constOutOfRange (function pc index : Nat)
  | localOutOfRange (function pc index : Nat)
  | globalOutOfRange (function pc index : Nat)
  | captureOutOfRange (function pc index : Nat)
  | jumpOutOfRange (function pc target : Nat)
  | functionOutOfRange (index : Nat)
  | capturingConst (index function : Nat)
  deriving DecidableEq, Repr, Inhabited

def VerifyError.message : VerifyError → String
  | .missingEntry => "program has no entry function"
  | .invalidEntry => "entry function takes parameters or captures"
  | .paramsExceedSlots f => s!"function {f} has more parameters than slots"
  | .fallsOffEnd f => s!"function {f} does not end with a return or jump"
  | .constOutOfRange f pc i => s!"constant {i} out of range (in function {f} at {pc})"
  | .localOutOfRange f pc i => s!"local slot {i} out of range (in function {f} at {pc})"
  | .globalOutOfRange f pc i => s!"global slot {i} out of range (in function {f} at {pc})"
  | .captureOutOfRange f pc i => s!"capture {i} out of range (in function {f} at {pc})"
  | .jumpOutOfRange f pc t => s!"jump target {t} out of range (in function {f} at {pc})"
  | .functionOutOfRange i => s!"function {i} out of range"
  | .capturingConst i f => s!"constant {i} refers to function {f}, which captures values"

/-- Checks a list in order, each item with its position. -/
def verifyEach {α : Type} (check : Nat → α → Except VerifyError Unit) :
    Nat → List α → Except VerifyError Unit
  | _, [] => .ok ()
  | i, a :: as =>
    match check i a with
    | .ok () => verifyEach check (i + 1) as
    | .error e => .error e

/-- Fails unless a condition holds. -/
def require (condition : Bool) (e : VerifyError) : Except VerifyError Unit :=
  if condition then .ok () else .error e

namespace Image

/-- Functions in the pool exist and capture nothing. -/
def verifyConst (image : Image) (index : Nat) : Const → Except VerifyError Unit
  | .function f =>
    match image.routines[f]? with
    | none => .error (.functionOutOfRange f)
    | some r => require (r.captures == 0) (.capturingConst index f)
  | _ => .ok ()

/-- What an instruction of a routine refers to exists. -/
def verifyInstr (image : Image) (function : Nat) (r : Routine) (pc : Nat) :
    Instr → Except VerifyError Unit
  | .loadConst i => require (i < image.consts.size) (.constOutOfRange function pc i)
  | .loadLocal i | .storeLocal i => require (i < r.slots) (.localOutOfRange function pc i)
  | .loadGlobal i | .storeGlobal i => require (i < image.globals) (.globalOutOfRange function pc i)
  | .loadCapture i => require (i < r.captures) (.captureOutOfRange function pc i)
  | .closure i => require (i < image.routines.size) (.functionOutOfRange i)
  | .jump t | .jumpIfFalse t | .jumpIfTrueOrPop t | .jumpIfFalseOrPop t =>
    require (t < r.code.size) (.jumpOutOfRange function pc t)
  | _ => .ok ()

/-- A routine has room for its parameters, control does not run off its end, and what it
refers to exists. -/
def verifyRoutine (image : Image) (function : Nat) (r : Routine) : Except VerifyError Unit := do
  require (r.params ≤ r.slots) (.paramsExceedSlots function)
  require (r.code.back?.any Instr.isFinal) (.fallsOffEnd function)
  verifyEach (image.verifyInstr function r) 0 r.code.toList

/-- Checks an image. Gives the first error. -/
def verify (image : Image) : Except VerifyError Unit :=
  match image.routines[0]? with
  | none => .error .missingEntry
  | some entry => do
    require (entry.params == 0 && entry.captures == 0) .invalidEntry
    verifyEach image.verifyConst 0 image.consts.toList
    verifyEach image.verifyRoutine 0 image.routines.toList

/-! ### Text -/

/-- The format tag of images. -/
def format : String := "abstracta"

/-- The version of the format. -/
def version : Nat := 1

/-- A line of a listing: the position, padded to five columns, and the text. -/
def renderLine (text : String) (position : Nat) : String :=
  "    " ++ padRight 5 (toString position) ++ text ++ "\n"

def renderRoutine (r : Routine) (index : Nat) : String :=
  s!"function {index} {r.name} (params: {r.params}, slots: {r.slots}, captures: {r.captures}):\n"
    ++ String.join (r.code.toList.zipIdx.map fun (i, pc) => renderLine i.render pc)

/-- A listing of an image. -/
def render (image : Image) : String :=
  s!"{format} v{version}\nglobals: {image.globals}\nconsts:\n"
    ++ String.join (image.consts.toList.zipIdx.map fun (c, i) => renderLine c.render i)
    ++ String.join (image.routines.toList.zipIdx.map fun (r, i) => renderRoutine r i)

end Image

end Parlance
