import Parlance.Code.Internal
import Parlance.Optimizer.DeadCode
import Parlance.Optimizer.Fold
import Parlance.Optimizer.Share
import Parlance.Tree.Blocks

/-!
# Optimization

A pass sweeps over a program until a sweep changes nothing. Optimizing runs all passes until
none of them changes anything. Both give up after `maxRounds`, and then leave the program as
the last sweep left it.
-/

namespace Parlance

/-- The passes, in the order in which they run. -/
inductive Pass where
  | constantFolding
  | deadCode
  | commonSubexpr
  deriving DecidableEq, Repr, Inhabited

namespace Pass

def all : List Pass :=
  [.constantFolding, .deadCode, .commonSubexpr]

def name : Pass → String
  | .constantFolding => "constant-folding"
  | .deadCode => "dead-code"
  | .commonSubexpr => "common-subexpr"

def ofName? (s : String) : Option Pass :=
  all.find? fun p => p.name == s

end Pass

namespace Analyzed

/-! ### Blocks -/

/-- All blocks: those of the program, then those of functions that lost their place. -/
def allBlocks (a : Analyzed) : List OwnedBlock :=
  a.program.root.blocks 0 ++ a.detached.flatMap fun (f, b) => b.blocks f

/-- Puts a block in the place of the block with a label. Functions that lose their place are
kept, as they still belong to the image. -/
def setBlock (a : Analyzed) (label : Nat) (old new : Block) : Analyzed :=
  let put (b : Block) := b.update label fun _ => new
  { a with
    program := { a.program with root := put a.program.root }
    detached := a.detached.map (fun (f, b) => (f, put b)) ++ old.functionsLost new }

/-- Sweeps dead code from the block with a label. -/
def sweepDeadCode (a : Analyzed) (label : Nat) : Analyzed × Nat :=
  match a.allBlocks.find? fun (b, _) => b.note.id == label with
  | none => (a, 0)
  | some (b, _) =>
    let (new, changes) := DeadCode.block a.facts b
    if changes = 0 then (a, 0) else (a.setBlock label b new, changes)

/-- The symbols, labels and types that sharing starts with. -/
def supply (a : Analyzed) : Share.Supply :=
  { facts := a.facts, labels := a.program.labels, types := a.program.types }

/-- Shares the repeated subexpressions of the block with a label. -/
def sweepRepeated (a : Analyzed) (label : Nat) : Analyzed × Nat :=
  match a.allBlocks.find? fun (b, _) => b.note.id == label with
  | none => (a, 0)
  | some (b, function) =>
    let ((new, count), supply) := (Share.block function b).run a.supply
    if count = 0 then (a, 0)
    else
      let a := a.setBlock label b new
      let program := { a.program with labels := supply.labels, types := supply.types }
      ({ a with facts := supply.facts, program }, count)

/-- Sweeps the blocks that the program has at the start, the outer ones first. -/
def sweepBlocks (sweep : Analyzed → Nat → Analyzed × Nat) (a : Analyzed) : Analyzed × Nat :=
  (a.program.root.blocks 0).foldl (fun (a, count) (b, _) =>
    let (a, changes) := sweep a b.note.id
    (a, count + changes)) (a, 0)

end Analyzed

/-! ### Passes -/

/-- One sweep of a pass. Gives the number of changes. -/
def Pass.sweep : Pass → Analyzed → Analyzed × Nat
  | .constantFolding => foldSweep
  | .deadCode => Analyzed.sweepBlocks Analyzed.sweepDeadCode
  | .commonSubexpr => Analyzed.sweepBlocks Analyzed.sweepRepeated

/-- The most rounds of the optimizer, and the most sweeps of a pass. -/
def maxRounds : Nat := 16

/-- Repeats a sweep until it changes nothing, at most `rounds` times. The answer says whether
there was a change, and is `none` if the last sweep still changed something. -/
def repeatSweep (sweep : Analyzed → Analyzed × Nat) :
    Nat → Bool → Analyzed → Analyzed × Option Bool
  | 0, _, a => (a, none)
  | rounds + 1, changed, a =>
    match sweep a with
    | (a, 0) => (a, some changed)
    | (a, _ + 1) => repeatSweep sweep rounds true a

namespace Analyzed

/-- Runs a pass. The answer says whether it changed the program. -/
def runPass (p : Pass) (a : Analyzed) : Analyzed × Except InternalError Bool :=
  match repeatSweep p.sweep maxRounds false a with
  | (a, some changed) => (a, .ok changed)
  | (a, none) => (a, .error (.optimizerDiverged maxRounds))

/-- Runs passes one after the other, up to the first that fails. -/
def runPasses : List Pass → Bool → Analyzed → Analyzed × Except InternalError Bool
  | [], changed, a => (a, .ok changed)
  | p :: ps, changed, a =>
    match a.runPass p with
    | (a, .ok c) => runPasses ps (changed || c) a
    | (a, .error e) => (a, .error e)

/-- Runs all passes until none changes anything, at most `rounds` times. The answer is the
number of rounds, counted from `round`. -/
def optimizeRounds : Nat → Nat → Analyzed → Analyzed × Except InternalError Nat
  | 0, _, a => (a, .error (.optimizerDiverged maxRounds))
  | rounds + 1, round, a =>
    match runPasses Pass.all false a with
    | (a, .ok false) => (a, .ok round)
    | (a, .ok true) => optimizeRounds rounds (round + 1) a
    | (a, .error e) => (a, .error e)

/-- Optimizes a program. Gives the number of rounds. -/
def optimize (a : Analyzed) : Analyzed × Except InternalError Nat :=
  optimizeRounds maxRounds 1 a

end Analyzed

end Parlance
