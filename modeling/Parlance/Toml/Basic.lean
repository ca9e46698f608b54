/-!
# TOML documents

The values of a configuration file. A table remembers how it came about, because that
decides whether a later line may add to it.
-/

namespace Parlance

/-- How a table came about. -/
inductive TableOrigin where
  /-- Named by a header or written in braces. -/
  | explicit
  /-- Named only as part of the path of a header. -/
  | implicit
  /-- Named only as part of a dotted key. -/
  | dotted
  deriving DecidableEq, Repr, Inhabited

inductive Toml where
  | str (s : String)
  | int (n : Int)
  | bool (b : Bool)
  /-- A number that is not an integer, as it is written. -/
  | float (text : String)
  /-- A date, a time, or both. -/
  | dateTime
  | array (items : List Toml)
  /-- Tables that headers in double brackets append to, the last first. -/
  | tables (items : List (List (String × Toml)))
  /-- A table with its entries in order. One in braces is closed. -/
  | table (origin : TableOrigin) (closed : Bool) (entries : List (String × Toml))
  deriving Inhabited

namespace Toml

/-- The entries of a table in order. -/
abbrev Entries := List (String × Toml)

/-- The entry of a key replaced, or added at the end. -/
def setEntry (key : String) (v : Toml) : Entries → Entries
  | [] => [(key, v)]
  | (k, w) :: rest => if k = key then (k, v) :: rest else (k, w) :: setEntry key v rest

/-- The entries after adding a value under a key that none of them has. -/
def addEntry (key : String) (v : Toml) (entries : Entries) : Option Entries :=
  match entries.lookup key with
  | none => some (entries ++ [(key, v)])
  | some _ => none

/-- The entries of a table after adding a value under `key` to the table at a path below it.
Missing tables on the way are made. The way may lead through tables without a header of their
own and through the last of tables in double brackets, but it has to end at a table that dotted
keys made. `origin` is that of the table itself. -/
def insertBelow (key : String) (v : Toml) : List String → TableOrigin → Entries → Option Entries
  | [], .dotted, entries => addEntry key v entries
  | [], _, _ => none
  | part :: path, _, entries =>
    match entries.lookup part with
    | none => do
      let inner ← insertBelow key v path .dotted []
      return entries ++ [(part, .table .dotted false inner)]
    | some (.table .explicit _ _) => none
    | some (.table origin false inner) => do
      let inner ← insertBelow key v path origin inner
      return setEntry part (.table origin false inner) entries
    | some (.tables (last :: before)) => do
      let last ← insertBelow key v path .explicit last
      return setEntry part (.tables (last :: before)) entries
    | some _ => none

/-- The entries after adding a value under the parts of a key; `none` if the key is taken or
leads through something that can not be added to. -/
def insertDotted (parts : List String) (v : Toml) (entries : Entries) : Option Entries :=
  match parts with
  | [] => none
  | [key] => addEntry key v entries
  | part :: rest => insertBelow (rest.getLast?.getD "") v (part :: rest.dropLast) .explicit entries

/-- The entries after a change to the table at a path. Missing tables on the way are made,
and of tables in double brackets the last one is meant. -/
def changeAt (change : Entries → Option Entries) : List String → Entries → Option Entries
  | [], entries => change entries
  | key :: path, entries =>
    match entries.lookup key with
    | none => do
      let inner ← changeAt change path []
      return entries ++ [(key, .table .implicit false inner)]
    | some (.table origin false inner) => do
      let inner ← changeAt change path inner
      return setEntry key (.table origin false inner) entries
    | some (.tables (last :: before)) => do
      let last ← changeAt change path last
      return setEntry key (.tables (last :: before)) entries
    | some _ => none

/-- The entries after a header in brackets for `key`. A table that was only part of a path
gets its place from the header. -/
def openTable (key : String) (entries : Entries) : Option Entries :=
  match entries.lookup key with
  | none => some (entries ++ [(key, .table .explicit false [])])
  | some (.table .implicit false inner) =>
    some (entries.filter (fun e => e.1 != key) ++ [(key, .table .explicit false inner)])
  | some _ => none

/-- The entries after a header in double brackets for `key`. -/
def appendTable (key : String) (entries : Entries) : Option Entries :=
  match entries.lookup key with
  | none => some (entries ++ [(key, .tables [[]])])
  | some (.tables items) => some (setEntry key (.tables ([] :: items)) entries)
  | some _ => none

end Toml

end Parlance
