/-
**Paths of files.**

A path is a text of names between slashes.  Empty names and single dots lead nowhere, so they have
no meaning behind other names, and two dots are no name.

Main definitions:

* `PageTemplate.Command.Path.names` — the parts of a path between the slashes;
* `PageTemplate.Command.Path.fileName?`, `PageTemplate.Command.Path.extension?` — the last name of a
  path, and what stands behind its last dot;
* `PageTemplate.Command.Path.withExtension` — the path of a neighbour with another extension;
* `PageTemplate.Command.Path.isTemplate` — whether a path is that of a template.
-/

import PageTemplate.Text.Split

set_option relaxedAutoImplicit false
set_option autoImplicit false

namespace PageTemplate.Command.Path

/-- The parts of a path between the slashes. -/
def names (path : String) : List String :=
  (Text.split '/' path.toList).map String.ofList

/-- Whether a part of a path leads nowhere. -/
def isIdle (name : String) : Bool :=
  name == "" || name == "."

/-- The parts of a path without those at its end that lead nowhere. -/
def trimmed (path : String) : List String :=
  ((names path).reverse.dropWhile isIdle).reverse

/-- The last name of a path. -/
def fileName? (path : String) : Option String :=
  ((trimmed path).getLast?).filter (· != "..")

/-- The last name of a path, for a reader. -/
def fileName (path : String) : String :=
  (fileName? path).getD "unknown"

/-- A name in two parts, before and behind its last dot.  A dot at the front does not count. -/
def splitName (name : String) : String × Option String :=
  let behind := (name.toList.reverse.takeWhile (· != '.')).reverse
  let before := ((name.toList.reverse.dropWhile (· != '.')).drop 1).reverse
  if before = [] then (name, none) else (String.ofList before, some (String.ofList behind))

/-- What stands behind the last dot of the last name of a path. -/
def extension? (path : String) : Option String :=
  (fileName? path).bind fun name => (splitName name).2

/-- The path with another extension on its last name.  A path without a last name stays as it is. -/
def withExtension (path extension : String) : String :=
  match fileName? path with
  | none => path
  | some name =>
      "/".intercalate ((trimmed path).dropLast ++ [(splitName name).1 ++ "." ++ extension])

/-- The path of `name` in the directory `path`. -/
def join (path name : String) : String :=
  if path = "" || path.toList.getLast? == some '/' then path ++ name else path ++ "/" ++ name

/-- Whether `path` ends with `ending`, letter by letter. -/
def endsWith (path ending : String) : Bool :=
  ending.toList.isSuffixOf path.toList

/-- The extension of what templates are rendered to. -/
def renderedExtension : String := "rendered.html"

/-- Whether a path is that of a template: an HTML file, and not one that a template was rendered to
or is expected to be rendered to. -/
def isTemplate (path : String) : Bool :=
  extension? path == some "html" && !endsWith path ("." ++ renderedExtension) &&
    !endsWith path ".expected.html"

end PageTemplate.Command.Path
