/-
**The command.**

This is the outer layer of the program: it looks up the files that the arguments ask for, lets
`PageTemplate.Command.run` decide what happens, and then writes files and messages.

Main definitions:

* `PageTemplate.Main.load` — adds a file, or a directory with what is in it, to the known files;
* `main` — the command.
-/

import PageTemplate.Command.Run

set_option relaxedAutoImplicit false
set_option autoImplicit false

namespace PageTemplate.Main

open PageTemplate.Command PageTemplate.Diagnostic

/-- The location that a path leads to from a directory. -/
def locate (start : Location) (path : String) : Location :=
  let start := if path.toList.head? = some '/' then [] else start
  (Path.names path).foldl
    (fun location name =>
      if Path.isIdle name then location
      else if name = ".." then location.dropLast
      else location ++ [name]) start

/-- The path of a location. -/
def pathOf (location : Location) : String :=
  "/" ++ "/".intercalate location

/-- Whether the command can have a use for a file in a directory. -/
def isOfUse (path : String) : Bool :=
  Path.extension? path == some "html" || Path.extension? path == some "json"

/-- Adds the file at a path to the known files, or the directory at the path with everything below
it.  What cannot be read stays unknown. -/
partial def load (t : FileTree) (path : String) : IO FileTree := do
  let location := locate t.workingDirectory path
  try
    let real ← IO.FS.realPath path
    if ← real.isDir then
      let mut t := { t with directories := location :: t.directories }
      for e in ← real.readDir do
        let inside := Path.join path e.fileName
        if isOfUse inside || (← e.path.isDir) then
          t ← load t inside
      return t
    else
      let content ← IO.FS.readFile real
      return { t with files := (location, content) :: t.files }
  catch _ => return t

/-- The paths that a task asks for. -/
def pathsOf : Task → List String
  | .check path _ => [path]
  | .render _ data true _ => data.toList
  | .render path data false _ =>
      path.toList ++ (path.map fun p => Path.withExtension p "json").toList ++ data.toList

/-- Reads the lines of a stream up to its end. -/
partial def readAll (input : IO.FS.Stream) (text : String) : IO String := do
  let line ← input.getLine
  if line.isEmpty then return text
  readAll input (text ++ line)

/-- Looks up what a request asks for, runs it, and writes the files that are new or changed. -/
def perform (palette : Palette) (r : Request) (files : FileTree) : IO Result := do
  let files ← (pathsOf r.task).foldlM load files
  let input ← match r.task with
    | .render _ _ true _ => readAll (← IO.getStdin) ""
    | _ => pure ""
  let result := run palette r files input
  for f in result.files.files do
    if !files.files.contains f then
      IO.FS.writeFile (pathOf f.1) f.2
  return result

end PageTemplate.Main

section

open PageTemplate.Command PageTemplate.Diagnostic PageTemplate.Main

/-- The command. -/
def main (arguments : List String) : IO UInt32 := do
  let started ← IO.monoNanosNow
  let palette := if ← (← IO.getStderr).isTty then Palette.color else Palette.plain
  let here := locate [] (← IO.currentDir).toString
  let files : FileTree := ⟨[], [], here⟩
  let result ← match Request.ofArguments arguments with
    | .ok r => perform palette r files
    | .error _ => pure (runArguments palette arguments files "")
  IO.print result.output
  IO.eprint (result.messages palette ((← IO.monoNanosNow) - started))
  return UInt32.ofNat result.exitCode

end
