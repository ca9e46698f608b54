import Parlance.Command.Basic

/-!
# The command line
-/

open Parlance

/-- The number of a system error, which is reported with either sign. -/
def errorNumber (code : UInt32) : UInt32 :=
  min code (0 - code)

/-- The file error that the system reports. -/
def fileError (e : IO.Error) : FileError :=
  match e with
  | .noFileOrDirectory _ _ _ => .notFound
  | .inappropriateType _ code _ => if errorNumber code = 20 then .notDirectory else .isDirectory
  | .invalidArgument _ code _ =>
    if errorNumber code = 36 then .nameTooLong else .other (toString e)
  | e => .other (toString e)

/-- Reads a file of the system. -/
def readSystemFile (path : String) : IO (Except FileError String) := do
  try
    return .ok (← IO.FS.readFile path)
  catch e => return .error (fileError e)

/-- The files that a command reads. -/
def readPaths : Command → List String
  | .compile path _ source | .emit _ path source | .run path _ _ source =>
    path :: source.grammar.toList

/-- Runs a machine to its end and prints what the program prints. -/
partial def runToEnd (trace : Bool) (m : Machine) : IO Outcome := do
  match m.outcome with
  | some outcome => return outcome
  | none =>
    let (lines, m) := if trace then m.runTraced 256 else ([], m.run 4096)
    for line in lines do
      IO.eprintln line
    IO.print m.output.text
    runToEnd trace { m with output := { m.output with text := "" } }

/-- Writes the answer of a command. -/
def respond (r : Response) : IO UInt32 := do
  let r ← match r.file with
    | none => pure r
    | some (path, text) =>
      try
        IO.FS.writeFile path text
        pure r
      catch e => pure (Command.writeFailed r path (fileError e))
  IO.eprint r.stderr
  IO.print r.stdout
  return r.code.toUInt32

def main (args : List String) : IO UInt32 := do
  match Command.ofArguments args with
  | .error e => respond (Command.refused e)
  | .ok command =>
    let files ← (readPaths command).mapM fun path => do return (path, ← readSystemFile path)
    let read (path : String) := (files.lookup path).getD (.error .notFound)
    match command.begin read with
    | .finished r => respond r
    | .running m trace stderr =>
      IO.eprint stderr
      let outcome ← runToEnd trace m
      respond (Command.conclude "" outcome)
