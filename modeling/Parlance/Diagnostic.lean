import Parlance.Json.Basic
import Parlance.Text.Position

/-!
# Diagnostics

What the stages of a compilation report to the user.
-/

namespace Parlance

/-- The stages of a compilation. -/
inductive Stage where
  | lexer
  | parser
  | semantic
  | optimizer
  | codegen
  deriving DecidableEq, Repr, Inhabited

namespace Stage

def all : List Stage :=
  [.lexer, .parser, .semantic, .optimizer, .codegen]

def name : Stage → String
  | .lexer => "lexer"
  | .parser => "parser"
  | .semantic => "semantic"
  | .optimizer => "optimizer"
  | .codegen => "codegen"

def ofName? (s : String) : Option Stage :=
  all.find? fun stage => stage.name == s

end Stage

/-- How grave a diagnostic is. Warnings never stop a compilation. -/
inductive Severity where
  | error
  | warning
  deriving DecidableEq, Repr, Inhabited

def Severity.name : Severity → String
  | .error => "error"
  | .warning => "warning"

structure Diagnostic where
  stage : Stage
  severity : Severity
  message : String
  span : Option Span
  deriving DecidableEq, Repr, Inhabited

/-- Diagnostics in the order of their report. -/
abbrev Diagnostics := List Diagnostic

namespace Diagnostic

/-- The diagnostic of a message about a range of a text. -/
def located (index : LineIndex) (stage : Stage) (severity : Severity) (message : String)
    (range : Range) : Diagnostic :=
  { stage, severity, message, span := some (index.span range) }

/-- A line with the message, and one with the place if there is one. -/
def render (d : Diagnostic) : String :=
  s!"{d.severity.name}[{d.stage.name}]: {d.message}"
    ++ d.span.elim "" fun s => "\n  --> " ++ s.start.render

end Diagnostic

namespace Diagnostics

/-- What a compilation leaves that was not ended by a stage but by an arithmetic overflow in
one: no diagnostic. -/
def aborted : Diagnostics :=
  []

/-- All diagnostics, each followed by a line break. -/
def render (ds : Diagnostics) : String :=
  String.join (ds.map fun d => d.render ++ "\n")

def errorCount (ds : Diagnostics) : Nat :=
  (ds.filter fun d => d.severity == .error).length

end Diagnostics

/-! ### JSON -/

def Location.toJson (l : Location) : Json :=
  .object [("lineno", .ofNat l.line), ("column", .ofNat l.column), ("offset", .ofNat l.offset)]

def Span.toJson (s : Span) : Json :=
  .object [("start", s.start.toJson), ("end", s.stop.toJson)]

def Diagnostic.toJson (d : Diagnostic) : Json :=
  .object [("stage", .str d.stage.name), ("severity", .str d.severity.name),
    ("message", .str d.message), ("span", .ofOption Span.toJson d.span)]

def Diagnostics.toJson (ds : Diagnostics) : Json :=
  .ofList Diagnostic.toJson ds

end Parlance
