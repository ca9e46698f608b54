import Parlance.Analysis.Checker
import Parlance.Code.Generator
import Parlance.Diagnostic
import Parlance.Optimizer.Passes
import Parlance.Tree.Outline
import Parlance.Tree.Parser
import Parlance.Tree.Printer
import Parlance.Text.Quoted

/-!
# Compilation

The way from a text to a program, stage by stage. A stage gives the input of the next one,
or stops the compilation with diagnostics.
-/

namespace Parlance

/-- The choices of a compilation. -/
structure CompileOptions where
  grammar : Grammar := .standard
  recovery : Recovery := .halt
  /-- Whether the tree is optimized between analysis and code generation. -/
  optimize : Bool := true

/-- A compiled program with the warnings about it. -/
structure Compilation where
  image : Image
  warnings : Diagnostics

/-- The diagnostic of a failure of the compiler itself. -/
def InternalError.diagnostics (e : InternalError) (stage : Stage) (index : LineIndex) : Diagnostics :=
  let message := s!"internal error: {e.message}"
  if e.range.start = e.range.stop then [{ stage, severity := .error, message, span := none }]
  else [.located index stage .error message e.range]

/-- The diagnostics of warnings. -/
def Warning.diagnostics (index : LineIndex) (ws : List Warning) : Diagnostics :=
  ws.map fun w => .located index .semantic .warning w.message w.range

namespace CompileOptions

/-- The tokens of a text. With `Recovery.skip` all lexical errors are reported, else the
first one. -/
def lex (o : CompileOptions) (text : List Char) : Except Diagnostics (List Token) :=
  let index := LineIndex.ofText text
  let found := lexItems o.grammar o.recovery text
  let errors := found.filterMap fun
    | .error e => some (Diagnostic.located index .lexer .error e.message e.range)
    | .ok _ => none
  if errors.isEmpty then .ok (found.filterMap Except.toOption) else .error errors

/-- The tree of a text with its syntax errors. A parse that overflows ends the compilation at
once: there is nothing to report then. -/
def parseAll (o : CompileOptions) (text : List Char) :
    Except Diagnostics (Program × List SyntaxError) := do
  let tokens ← o.lex text
  if parseOverflows o.grammar tokens then throw Diagnostics.aborted
  else return parseTokens o.grammar (byteLength text) tokens

/-- The tree of a text. -/
def parse (o : CompileOptions) (text : List Char) : Except Diagnostics Program := do
  let (program, errors) ← o.parseAll text
  if errors.isEmpty then return program
  else
    let index := LineIndex.ofText text
    throw (errors.map fun e => .located index .parser .error e.message e.range)

/-- The tree of a text with its notes and facts. -/
def analyze (o : CompileOptions) (text : List Char) : Except Diagnostics Analyzed := do
  let program ← o.parse text
  let (analyzed, errors) := Parlance.analyze program
  if errors.isEmpty then return analyzed
  else
    let index := LineIndex.ofText text
    throw (errors.map (fun e => .located index .semantic .error e.fault.message e.range)
      ++ Warning.diagnostics index analyzed.facts.warnings)

/-- The analyzed tree of a text, optimized if the options say so. -/
def optimized (o : CompileOptions) (text : List Char) : Except Diagnostics Analyzed := do
  let analyzed ← o.analyze text
  if o.optimize then
    match analyzed.optimize with
    | (analyzed, .ok _) => return analyzed
    | (_, .error e) => throw (e.diagnostics .optimizer (LineIndex.ofText text))
  else return analyzed

/-- Compiles a text. -/
def compile (o : CompileOptions) (text : List Char) : Except Diagnostics Compilation := do
  let analyzed ← o.optimized text
  let index := LineIndex.ofText text
  match generate analyzed with
  | .ok image => return { image, warnings := Warning.diagnostics index analyzed.facts.warnings }
  | .error e => throw (e.diagnostics .codegen index)

/-! ### Listings -/

/-- A line for each token: its place, its kind and its text. -/
def renderTokens (tokens : List Token) : String :=
  String.join (tokens.map fun t =>
    padRight 8 t.location.render ++ padRight 24 t.kind.render ++ quoteText t.text ++ "\n")

/-- A line for each node that has a symbol. -/
def renderSymbols (a : Analyzed) : String :=
  String.join (a.program.nodes.map fun node =>
    match node.note.symbol with
    | none => ""
    | some symbol =>
      s!"#{node.note.id} {node.kind.name} -> {a.facts.nameOf symbol}: {node.note.ty.render}\n")

/-- The result of a stage as text: tokens, the tree, the tables of analysis, the optimized
program or the code. -/
def emit (o : CompileOptions) (stage : Stage) (text : List Char) : Except Diagnostics String := do
  match stage with
  | .lexer => return renderTokens (← o.lex text)
  | .parser => return (← o.parse text).dump
  | .semantic =>
    let a ← o.analyze text
    return a.facts.render ++ renderSymbols a
  | .optimizer => return (← { o with optimize := true }.optimized text).program.render
  | .codegen => return (← o.compile text).image.render

end CompileOptions

end Parlance
