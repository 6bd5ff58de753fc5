/-
**Files and directories.**

Main definitions:

* `PageTemplate.Command.FileTree` — files and directories by the names that lead to them;
* `PageTemplate.Command.FileTree.entry` — what a path leads to;
* `PageTemplate.Command.FileTree.read`, `PageTemplate.Command.FileTree.write` — reading and writing
  a file;
* `PageTemplate.Command.FileTree.walk` — a directory with everything below it.
-/

import PageTemplate.Command.Path

set_option relaxedAutoImplicit false
set_option autoImplicit false

namespace PageTemplate.Command

/-- Why a file cannot be read or written. -/
inductive FileFault where
  | notFound
  | notDirectory
  | isDirectory
  | nameTooLong
  deriving DecidableEq, Repr

/-- What the system calls a fault. -/
def FileFault.message : FileFault → String
  | notFound => "No such file or directory (os error 2)"
  | notDirectory => "Not a directory (os error 20)"
  | isDirectory => "Is a directory (os error 21)"
  | nameTooLong => "File name too long (os error 36)"

/-- The names that lead from the top of the file system to a file or a directory. -/
abbrev Location := List String

/-- Files and directories that are known, and the directory where paths without a slash at their
front start.  What leads to a file or to a directory is a directory. -/
structure FileTree where
  files : List (Location × String)
  directories : List Location
  workingDirectory : Location
  deriving DecidableEq, Repr

/-- What a path leads to. -/
inductive Entry where
  | file (location : Location) (content : String)
  | directory (location : Location)
  deriving DecidableEq, Repr

namespace FileTree

/-- The content of a file. -/
def content? (t : FileTree) (location : Location) : Option String :=
  (t.files.find? (·.1 == location)).map (·.2)

/-- Whether a location is a directory. -/
def isDirectory (t : FileTree) (location : Location) : Bool :=
  location.isPrefixOf t.workingDirectory || t.directories.any (location.isPrefixOf ·) ||
    t.files.any fun f => location.isPrefixOf f.1 && f.1 != location

/-- The most bytes of a name. -/
def nameLimit : Nat := 255

/-- The most bytes of a path. -/
def pathLimit : Nat := 4095

/-- What the names lead to from the directory `dir`.  The directory above the top is the top. -/
def entryFrom (t : FileTree) (dir : Location) : List String → Except FileFault Entry
  | [] => .ok (.directory dir)
  | name :: rest =>
      if Path.isIdle name then entryFrom t dir rest
      else if name = ".." then entryFrom t dir.dropLast rest
      else if nameLimit < name.utf8ByteSize then .error .nameTooLong
      else
        let location := dir ++ [name]
        match t.content? location with
        | some content => if rest = [] then .ok (.file location content) else .error .notDirectory
        | none =>
            if t.isDirectory location then entryFrom t location rest else .error .notFound

/-- The directory where a path starts. -/
def start (t : FileTree) (path : String) : Location :=
  if path.toList.head? = some '/' then [] else t.workingDirectory

/-- What a path leads to.  The empty path leads nowhere, and neither does one that is too long,
whatever its names are. -/
def entry (t : FileTree) (path : String) : Except FileFault Entry :=
  if path = "" then .error .notFound
  else if pathLimit < path.utf8ByteSize then .error .nameTooLong
  else t.entryFrom (t.start path) (Path.names path)

/-- Whether a path leads to a file. -/
def isFile (t : FileTree) (path : String) : Bool :=
  match t.entry path with
  | .ok (.file _ _) => true
  | _ => false

/-- The content of the file that a path leads to. -/
def read (t : FileTree) (path : String) : Except FileFault String :=
  match t.entry path with
  | .ok (.file _ content) => .ok content
  | .ok (.directory _) => .error .isDirectory
  | .error e => .error e

/-- Puts a file into a list of files, in the place of the one at the same location. -/
def put (location : Location) (content : String) :
    List (Location × String) → List (Location × String)
  | [] => [(location, content)]
  | f :: rest =>
      if f.1 = location then (location, content) :: rest else f :: put location content rest

/-- The location of a new file: the directory that all names but the last lead to, and the last. -/
def place (t : FileTree) (path : String) : Except FileFault Location :=
  let names := Path.names path
  match names.getLast?, t.entryFrom (t.start path) names.dropLast with
  | some name, .ok (.directory dir) => .ok (dir ++ [name])
  | none, _ => .error .notFound
  | _, .ok (.file _ _) => .error .notDirectory
  | _, .error e => .error e

/-- Writes a file, a new one if the path leads to none. -/
def write (t : FileTree) (path content : String) : Except FileFault FileTree :=
  match t.entry path with
  | .ok (.file location _) => .ok { t with files := put location content t.files }
  | .ok (.directory _) => .error .isDirectory
  | .error .notFound =>
      (t.place path).map fun location => { t with files := put location content t.files }
  | .error e => .error e

/-- The names in a directory, each once, in order. -/
def namesIn (t : FileTree) (dir : Location) : List String :=
  let names := (t.files.map (·.1) ++ t.directories).filterMap fun location =>
    if dir.isPrefixOf location then (location.drop dir.length).head? else none
  names.eraseDups.mergeSort fun a b => decide (a ≤ b)

/-- The paths of a location and of everything below it, at most `fuel - 1` directories deep.  A
directory comes before what is in it. -/
def walkFrom (t : FileTree) : Nat → String → Location → List String
  | 0, _, _ => []
  | fuel + 1, path, location =>
      path :: (t.namesIn location).flatMap fun name =>
        t.walkFrom fuel (Path.join path name) (location ++ [name])

/-- Nothing that is known lies deeper than this many directories. -/
def depth (t : FileTree) : Nat :=
  ((t.files.map (·.1) ++ t.directories).map (·.length)).foldl max 0

/-- The path of a directory and those of everything below it. -/
def walk (t : FileTree) (path : String) (location : Location) : List String :=
  t.walkFrom (t.depth + 1) path location

end FileTree

end PageTemplate.Command
