/-!
# The output of a run

What a program prints goes to an output that may have a limit. A write that would pass the
limit is refused as a whole.
-/

namespace Parlance

structure Output where
  /-- All that was written. -/
  text : String := ""
  /-- The most bytes that may be written; `none` is no limit. -/
  limit : Option Nat := none
  deriving DecidableEq, Repr, Inhabited

namespace Output

/-- The output after one more write, `none` if the write is refused. -/
def write? (o : Output) (s : String) : Option Output :=
  if o.limit.any fun limit => limit < o.text.utf8ByteSize + s.utf8ByteSize then none
  else some { o with text := o.text ++ s }

/-- Writes a text and then a line break. The answer says whether both were written. -/
def writeLine (o : Output) (s : String) : Output × Bool :=
  match o.write? s with
  | none => (o, false)
  | some o =>
    match o.write? "\n" with
    | none => (o, false)
    | some o => (o, true)

/-- The written lines, without a last one that has no line break. -/
def lines (o : Output) : String :=
  String.ofList (o.text.toList.reverse.dropWhile (· ≠ '\n')).reverse

end Output

end Parlance
