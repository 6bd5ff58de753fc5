/-
**What the command does.**

The command is a function of its arguments, its input and the files of the working directory.  It
gives what is written to its outputs, the files as they are afterwards, and an exit code.

Main definitions:

* `PageTemplate.Command.Result` — what a run of the command leads to;
* `PageTemplate.Command.loadData` — the data in a file;
* `PageTemplate.Command.renderEntry`, `PageTemplate.Command.renderEntries` — rendering a template of
  a directory, and all of them in the order of a given walk;
* `PageTemplate.Command.run` — what a request leads to;
* `PageTemplate.Command.runArguments` — what arguments lead to.
-/

import PageTemplate.Command.Arguments
import PageTemplate.Command.Duration
import PageTemplate.Command.FileTree
import PageTemplate.Data.JsonReader
import PageTemplate.Page

set_option relaxedAutoImplicit false
set_option autoImplicit false

namespace PageTemplate.Command

open PageTemplate.Binding PageTemplate.Data PageTemplate.Diagnostic

/-! ### Results -/

/-- What a run of the command leads to.  If it has rendered a directory, `rendered` is the number of
files. -/
structure Result where
  exitCode : Nat
  output : String
  errors : String
  files : FileTree
  rendered : Option Nat := none
  deriving DecidableEq, Repr

namespace Result

/-- A run that has done what was asked. -/
def success (files : FileTree) (output errors : String) : Result where
  exitCode := 0
  output := output
  errors := errors
  files := files

/-- A run that has failed, behind the messages so far. -/
def failure (files : FileTree) (errors message : String) : Result where
  exitCode := 1
  output := ""
  errors := errors ++ "Error: " ++ message ++ "\n"
  files := files

/-- A run that ends with a fault of a page. -/
def fault (files : FileTree) (p : Palette) (e : PageError) (source name : String) : Result where
  exitCode := 1
  output := ""
  errors := e.render p source name
  files := files

/-- How many files of a directory were rendered, and that it took `nanos` nanoseconds. -/
def totalLine (p : Palette) (count nanos : Nat) : String :=
  "\n" ++ p.strong ++ "✨ Rendered " ++ toString count ++
    (if count = 1 then " file" else " files") ++ " in " ++ duration nanos ++ p.reset ++ "\n"

/-- All messages of a run that took `nanos` nanoseconds. -/
def messages (r : Result) (p : Palette) (nanos : Nat) : String :=
  match r.rendered with
  | some count => r.errors ++ totalLine p count nanos
  | none => r.errors

end Result

/-- The line that says that a file is done. -/
def doneLine (p : Palette) (path : String) : String :=
  "  " ++ p.done ++ "✓" ++ p.reset ++ " " ++ path ++ "\n"

/-! ### Reading -/

/-- The source in a file. -/
def loadSource (t : FileTree) (path : String) : Except String String :=
  match t.read path with
  | .ok text => .ok text
  | .error e => .error ("failed to read " ++ path ++ ": " ++ e.message)

/-- The data in a file. -/
def loadData (t : FileTree) (path : String) : Except String Value :=
  match loadSource t path with
  | .error e => .error e
  | .ok text =>
      match Value.ofJson text with
      | .ok v => .ok v
      | .error e => .error ("invalid JSON in " ++ path ++ ": " ++ e.message text)

/-- The data in the file that stands beside a template and has its name, if there is one. -/
def neighbourData? (t : FileTree) (path : String) : Option (Except String Value) :=
  let dataPath := Path.withExtension path "json"
  if t.isFile dataPath then some (loadData t dataPath) else none

/-! ### Directories -/

/-- What rendering the templates of a directory has led to so far. -/
structure Progress where
  files : FileTree
  errors : String := ""
  done : Nat := 0
  failed : Bool := false
  deriving DecidableEq, Repr

/-- Renders the template at a path of a directory into the file beside it, if there are data for it.
What is no template is passed over.  A fault of the page or of its data is noted, and one of a file
ends the run. -/
def renderEntry (palette : Palette) (options : Options) (p : Progress) (path : String) :
    Except Result Progress :=
  if !Path.isTemplate path then .ok p
  else
    match neighbourData? p.files path with
    | none => .ok p
    | some data =>
        match loadSource p.files path with
        | .error message => .error (.failure p.files p.errors message)
        | .ok source =>
            let rendered : Except PageError Page.Rendered :=
              match data with
              | .error message => .error (.data message)
              | .ok data => Page.render source data options
            match rendered with
            | .error e =>
                .ok { p with errors := p.errors ++ e.render palette source path, failed := true }
            | .ok rendered =>
                let target := Path.withExtension path Path.renderedExtension
                match p.files.write target rendered.markup with
                | .error e =>
                    .error (.failure p.files p.errors
                      ("failed to write " ++ target ++ ": " ++ e.message))
                | .ok files =>
                    .ok { p with
                      files := files
                      errors := p.errors ++ doneLine palette target
                      done := p.done + 1 }

/-- Renders the templates among the paths of a directory, in the order of the paths. -/
def renderEntries (palette : Palette) (options : Options) (p : Progress) :
    List String → Except Result Progress
  | [] => .ok p
  | path :: rest =>
      match renderEntry palette options p path with
      | .error r => .error r
      | .ok p => renderEntries palette options p rest

/-- Renders the templates among the paths of a directory.  It is a failure if a page is at fault, or
if nothing was rendered. -/
def renderDirectory (palette : Palette) (options : Options) (files : FileTree) (directory : String)
    (paths : List String) : Result :=
  match renderEntries palette options { files := files } paths with
  | .error r => r
  | .ok p =>
      if p.failed then { exitCode := 1, output := "", errors := p.errors, files := p.files }
      else if p.done = 0 then
        .failure p.files p.errors ("no .html templates with data found in " ++ directory)
      else { Result.success p.files "" p.errors with rendered := some p.done }

/-! ### Tasks -/

/-- Renders one page against its data, and writes it to the output, with what it binds if `json`. -/
def renderPage (palette : Palette) (options : Options) (files : FileTree) (json : Bool)
    (source name : String) (data : Except String Value) : Result :=
  match data with
  | .error message => .failure files "" message
  | .ok data =>
      match Page.render source data options with
      | .error e => .fault files palette e source name
      | .ok rendered =>
          .success files (if json then rendered.toValue.jsonText ++ "\n" else rendered.markup) ""

/-- Renders the page in the input.  Without a file with data it is rendered against an empty
object. -/
def renderInput (palette : Palette) (options : Options) (files : FileTree) (data : Option String)
    (json : Bool) (input : String) : Result :=
  renderPage palette options files json input "<stdin>"
    (match data with
    | some path => loadData files path
    | none => .ok .emptyObject)

/-- Renders the page in a file.  Without a file with data it is rendered against those beside it. -/
def renderFile (palette : Palette) (options : Options) (files : FileTree) (data : Option String)
    (json : Bool) (path : String) : Result :=
  if !Path.isTemplate path then .failure files "" (path ++ " is not an .html template")
  else
    match loadSource files path with
    | .error message => .failure files "" message
    | .ok source =>
        renderPage palette options files json source (Path.fileName path)
          (match data with
          | some path => loadData files path
          | none => (neighbourData? files path).getD (.ok .emptyObject))

/-- Says what the page in a file binds. -/
def checkFile (palette : Palette) (options : Options) (files : FileTree) (json : Bool)
    (path : String) : Result :=
  match loadSource files path with
  | .error message => .failure files "" message
  | .ok source =>
      match Page.check source options with
      | .error e => .fault files palette e source (Path.fileName path)
      | .ok summary =>
          if json then .success files (summary.toValue.jsonText ++ "\n") ""
          else .success files (summary.outline 0) (doneLine palette path)

/-- What a request leads to. -/
def run (palette : Palette) (r : Request) (files : FileTree) (input : String) : Result :=
  match r.task with
  | .check path json => checkFile palette r.options files json path
  | .render path data stdin json =>
      if stdin then renderInput palette r.options files data json input
      else
        match path with
        | none => .failure files "" "provide a file/directory or use --stdin"
        | some path =>
            match files.entry path with
            | .ok (.file _ _) => renderFile palette r.options files data json path
            | .ok (.directory location) =>
                renderDirectory palette r.options files path (files.walk path location)
            | .error _ => .failure files "" (path ++ " does not exist")

/-- What arguments lead to.  The exit code of refused arguments is two. -/
def runArguments (palette : Palette) (arguments : List String) (files : FileTree)
    (input : String) : Result :=
  match Request.ofArguments arguments with
  | .ok r => run palette r files input
  | .error .help => .success files (Refusal.help.message ++ "\n") ""
  | .error e =>
      { exitCode := 2, output := "", errors := "error: " ++ e.message ++ "\n", files := files }

end PageTemplate.Command
