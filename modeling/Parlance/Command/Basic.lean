import Parlance.Code.Artifact
import Parlance.Command.Arguments
import Parlance.Command.Files
import Parlance.Evaluation
import Parlance.Grammar.Config

/-!
# Commands

`compile` compiles a source file, `run` runs a source file or a compiled program, and `emit`
shows the result of a stage. `Command.ofArguments` reads a command line; `Command.begin`
executes the command up to the point where a program has to run.
-/

namespace Parlance

/-- How a source file is compiled. -/
structure SourceOptions where
  /-- The file of the grammar. -/
  grammar : Option String := none
  recovery : Recovery := .halt
  optimize : Bool := true
  /-- Whether diagnostics are written as JSON. -/
  json : Bool := false

inductive Command where
  | compile (path : String) (output : Option String) (source : SourceOptions)
  | run (path : String) (options : RunOptions) (trace : Bool) (source : SourceOptions)
  | emit (stage : Stage) (path : String) (source : SourceOptions)

/-- What a command did. -/
structure Response where
  stdout : String := ""
  stderr : String := ""
  code : Nat := 0
  /-- A file to write, with its text. -/
  file : Option (String × String) := none
  deriving DecidableEq, Repr, Inhabited

/-! ### Command lines -/

/-- The name of the program. -/
def programName : String := "abstracta"

/-- The version of the program. -/
def programVersion : String := "0.1.0"

namespace Command

/-- An unsigned 64-bit integer. -/
def word64? (s : String) : Option Nat := do
  let n ← match s.toList with
    | '+' :: cs => readNat? cs
    | cs => readNat? cs
  if n < UInt64.size then return n else none

def recovery? (s : String) : Option Recovery :=
  if s == "halt" then some .halt else if s == "skip" then some .skip else none

/-- Whether diagnostics of this format are JSON. -/
def json? (s : String) : Option Bool :=
  if s == "json" then some true else if s == "text" then some false else none

/-- The rule of an option with a value that a reader accepts. -/
def valued {α : Type} (name : String) (read : String → Option α) : OptionRule :=
  { name, value := some fun s => (read s).isSome }

/-- A path is any text but the empty one. -/
def path? (s : String) : Option String :=
  if s.isEmpty then none else some s

/-- The options of all commands. -/
def sourceRules : List OptionRule :=
  [valued "grammar" path?, valued "lexer-recovery" recovery?, { name := "no-optimize" },
    valued "diagnostics" json?]

def compileRules : List OptionRule :=
  { valued "output" path? with short := some 'o' } :: sourceRules

def runRules : List OptionRule :=
  [{ valued "input" some with repeatable := true }, valued "max-steps" word64?,
    valued "max-depth" word64?, { name := "trace" }] ++ sourceRules

def emitRules : List OptionRule :=
  valued "stage" Stage.ofName? :: sourceRules

def sourceOptions (a : Arguments) : SourceOptions :=
  { grammar := a.value? "grammar"
    recovery := ((a.value? "lexer-recovery").bind recovery?).getD .halt
    optimize := !a.has "no-optimize"
    json := ((a.value? "diagnostics").bind json?).getD false }

/-- The one operand of a command. -/
def operand (a : Arguments) : Except Refusal String :=
  match a.operands with
  | [path] => .ok path
  | _ => .error .usage

/-- The commands that can be explained. -/
def commandNames : List String :=
  ["compile", "run", "emit", "help"]

/-- Reads a command line. -/
def ofArguments : List String → Except Refusal Command
  | "compile" :: words => do
    let a ← Arguments.split compileRules 1 {} words
    return .compile (← operand a) (a.value? "output") (sourceOptions a)
  | "run" :: words => do
    let a ← Arguments.split runRules 1 {} words
    let options : RunOptions :=
      { inputs := a.values "input"
        maxSteps := (a.value? "max-steps").bind word64?
        maxDepth := ((a.value? "max-depth").bind word64?).getD ({} : RunOptions).maxDepth }
    return .run (← operand a) options (a.has "trace") (sourceOptions a)
  | "emit" :: words => do
    let a ← Arguments.split emitRules 1 {} words
    match (a.value? "stage").bind Stage.ofName? with
    | none => .error .usage
    | some stage => return .emit stage (← operand a) (sourceOptions a)
  | ["help"] | "-h" :: _ | "--help" :: _ => .error .help
  | ["help", name] => .error (if commandNames.contains name then .help else .usage)
  | "-V" :: _ | "--version" :: _ => .error .version
  | _ => .error .usage

/-! ### Execution -/

/-- A failed command. Each part of the message explains the one before it. -/
def failed (stderr : String) (parts : List String) : Response :=
  { stderr := stderr ++ ": ".intercalate parts ++ "\n", code := 1 }

/-- Diagnostics as they are written to the user. -/
def report (json : Bool) (ds : Diagnostics) : String :=
  if ds.isEmpty then "" else if json then ds.toJson.renderPretty ++ "\n" else ds.render

/-- The failure of a compilation. A compilation that was aborted takes the command with it. -/
def compileFailed (source : SourceOptions) (ds : Diagnostics) : Response :=
  if ds = Diagnostics.aborted then { code := 101 }
  else failed (report source.json ds) [s!"compile failed with {ds.errorCount} error(s)"]

/-- A way to read files. -/
abbrev ReadFile := String → Except FileError String

def readSource (read : ReadFile) (path : String) : Except Response String :=
  match read path with
  | .ok text => .ok text
  | .error e => .error (failed "" [s!"can not read {path}", e.message])

def readGrammar (read : ReadFile) : Option String → Except Response Grammar
  | none => .ok .standard
  | some path =>
    let parts : Except (List String) Grammar :=
      match read path with
      | .error e => .error [s!"read grammar file error: {e.message}", e.message]
      | .ok text => (Grammar.ofText text).mapError fun e => [e.message]
    parts.mapError fun parts => failed "" (s!"can not load grammar {path}" :: parts)

def compileOptions (read : ReadFile) (source : SourceOptions) : Except Response CompileOptions := do
  let grammar ← readGrammar read source.grammar
  return { grammar, recovery := source.recovery, optimize := source.optimize }

/-- Compiles a source text. -/
def compileSource (read : ReadFile) (source : SourceOptions) (text : String) :
    Except Response Compilation := do
  let o ← compileOptions read source
  (o.compile text.toList).mapError (compileFailed source)

/-- The parts of the message about an artifact. -/
def artifactParts : ArtifactError → List String
  | .invalid e => [(ArtifactError.invalid e).message, e.message]
  | e => [e.message]

/-- The image to run, and what is written about it. -/
def loadProgram (read : ReadFile) (source : SourceOptions) (path : String) :
    Except Response (Image × String) := do
  let text ← readSource read path
  if extension? path == some "json" then
    let image ← (Image.ofText text).mapError fun e =>
      failed "" (s!"can not load {path}" :: artifactParts e)
    return (image, "")
  else
    let c ← compileSource read source text
    return (c.image, report source.json c.warnings)

/-- What a command comes to: an answer, or a machine to run to its end. -/
inductive Begun where
  | finished (r : Response)
  /-- The machine, and what was written to the user before it runs. -/
  | running (m : Machine) (trace : Bool) (stderr : String)

/-- Executes a command up to the run of a program. -/
def begin (read : ReadFile) (command : Command) : Begun :=
  let result : Except Response Begun :=
    match command with
    | .compile path output source => do
      let text ← readSource read path
      let c ← compileSource read source text
      let stderr := report source.json c.warnings
      let json := c.image.toText
      match output with
      | some output => return .finished { stderr, file := some (output, json) }
      | none => return .finished { stderr, stdout := json ++ "\n" }
    | .emit stage path source => do
      let text ← readSource read path
      let o ← compileOptions read source
      let out ← (o.emit stage text.toList).mapError (compileFailed source)
      return .finished { stdout := out }
    | .run path options trace source => do
      let (image, stderr) ← loadProgram read source path
      let m ← (Machine.start image options).mapError fun e => failed stderr [e.message]
      return .running m trace stderr
  match result with
  | .ok begun => begun
  | .error r => .finished r

/-- The value that is printed after what the program printed. Unit is not printed. -/
def closingLine : Value → String
  | .unit => ""
  | v => v.display ++ "\n"

/-- The answer after the run of a program, without what the program printed. -/
def conclude (stderr : String) (outcome : Outcome) : Response :=
  match outcome with
  | .ok v => { stdout := closingLine v, stderr }
  | .error e => failed stderr ["runtime error", e.message]

/-- The answer to a file that can not be written. -/
def writeFailed (r : Response) (path : String) (e : FileError) : Response :=
  failed r.stderr [s!"can not write {path}", e.message]

/-- The answer to arguments that make no command. -/
def refused : Refusal → Response
  | .usage => { stderr := s!"usage: {programName} compile|run|emit [options] path\n", code := 2 }
  | .help => { stdout := s!"usage: {programName} compile|run|emit [options] path\n" }
  | .version => { stdout := s!"{programName} {programVersion}\n" }

end Command

end Parlance
