/-!
# Files

The files that a command reads and writes. A `Directory` holds the files of a working
directory in memory, so that a command can be executed without a file system. A path is followed
name by name: every name but the last has to lead to a directory, and the first one that does
not decides the error.
-/

namespace Parlance

/-- Why a file can not be read or written. -/
inductive FileError where
  | notFound
  | notDirectory
  | isDirectory
  | nameTooLong
  | other (reason : String)
  deriving DecidableEq, Repr, Inhabited

def FileError.message : FileError → String
  | .notFound => "No such file or directory (os error 2)"
  | .notDirectory => "Not a directory (os error 20)"
  | .isDirectory => "Is a directory (os error 21)"
  | .nameTooLong => "File name too long (os error 36)"
  | .other reason => reason

/-! ### Paths -/

/-- The longest name in bytes. -/
def nameLimit : Nat := 255

/-- The longest path in bytes. -/
def pathLimit : Nat := 4095

/-- The parts of a path between its slashes. -/
def pathParts (path : String) : List String :=
  (path.splitOn "/").filter (· != "")

/-- The names on the way to a file. -/
def pathNames (path : String) : List String :=
  (pathParts path).filter (· != ".")

/-- The part of a file's name after its last dot; `none` if there is no dot but at the start
of the name. -/
def extension? (path : String) : Option String := do
  let name ← (pathNames path).getLast?
  let cs := name.toList
  if name == ".." || !cs.tail.contains '.' then none
  else some (String.ofList (cs.reverse.takeWhile (· ≠ '.')).reverse)

/-! ### Directories -/

/-- The files of a directory by path. -/
structure Directory where
  files : List (String × String)
  deriving DecidableEq, Repr, Inhabited

namespace Directory

/-- What a path leads to. -/
inductive Place where
  /-- A directory in the working directory, by the names that lead to it. -/
  | inside (names : List String)
  /-- A directory around the working directory. -/
  | around
  /-- A directory of the system, by the names that lead to it from the root. -/
  | system (names : List String)
  | file (name text : String)
  /-- The device that is always empty and forgets what is written to it. -/
  | nullDevice
  deriving DecidableEq, Repr

/-- What a name leads to from a directory that a path names from the root. Only the directories
for devices and for temporary files and the null device are known. -/
def systemEntry (names : List String) : Except FileError Place :=
  match names with
  | ["dev"] | ["tmp"] => .ok (.system names)
  | ["dev", "null"] => .ok .nullDevice
  | _ => .error .notFound

/-- What a name leads to in the directory at `names`. -/
def insideEntry (d : Directory) (names : List String) : Except FileError Place :=
  match d.files.find? fun f => pathNames f.1 == names with
  | some (name, text) => .ok (.file name text)
  | none =>
    if d.files.any fun f => names.isPrefixOf (pathNames f.1) then .ok (.inside names)
    else .error .notFound

/-- Follows one part of a path. -/
def step (d : Directory) (place : Place) (part : String) : Except FileError Place :=
  match place with
  | .file _ _ | .nullDevice => .error .notDirectory
  | place =>
    if part = "." then .ok place
    else if part = ".." then
      match place with
      | .inside names => .ok (if names.isEmpty then .around else .inside names.dropLast)
      | .system names => .ok (.system names.dropLast)
      | place => .ok place
    else if nameLimit < part.utf8ByteSize then .error .nameTooLong
    else
      match place with
      | .inside names => d.insideEntry (names ++ [part])
      | .system names => systemEntry (names ++ [part])
      | _ => .error .notFound

/-- Where paths start. -/
def origin (path : String) : Place :=
  if path.startsWith "/" then .system [] else .inside []

/-- What the parts of a path lead to. -/
def follow (d : Directory) (path : String) (parts : List String) : Except FileError Place :=
  if path.isEmpty then .error .notFound
  else if pathLimit < path.utf8ByteSize then .error .nameTooLong
  else parts.foldlM d.step (origin path)

/-- The text of a file. -/
def read (d : Directory) (path : String) : Except FileError String := do
  match ← d.follow path (pathParts path) with
  | .file _ text => if path.endsWith "/" then .error .notDirectory else .ok text
  | .nullDevice => if path.endsWith "/" then .error .notDirectory else .ok ""
  | _ => .error .isDirectory

/-- The directory with a new file, or the same one if the file is somewhere else. -/
def create (d : Directory) (place : Place) (name text : String) : Directory :=
  match place with
  | .inside names => { files := d.files ++ [("/".intercalate (names ++ [name]), text)] }
  | _ => d

/-- Writes a file, which may be new if its directory exists. -/
def write (d : Directory) (path text : String) : Except FileError Directory := do
  let parts := pathParts path
  let place ← d.follow path parts.dropLast
  match parts.getLast? with
  | none => .error .isDirectory
  | some last =>
    let directory ← d.step place "."
    if path.endsWith "/" then .error .isDirectory
    else
      match d.step directory last with
      | .ok (.file name _) =>
        return { files := d.files.map fun f => if f.1 == name then (name, text) else f }
      | .ok .nullDevice => return d
      | .ok _ => .error .isDirectory
      | .error .notFound => return d.create directory last text
      | .error e => .error e

end Directory

end Parlance
