/-
**The arguments of the command.**

The command has two tasks, rendering and checking, and the name of the task comes before what is
asked of it.  Options that have a meaning for both tasks may stand before or behind this name, and
one that stands behind it counts.  Arguments are read from the front, and the first that is a fault
or a call for help decides.

Main definitions:

* `PageTemplate.Command.Task`, `PageTemplate.Command.Request` — what is asked for;
* `PageTemplate.Command.Refusal` — why arguments are refused;
* `PageTemplate.Command.Given` — what the options on one side of the task's name say;
* `PageTemplate.Command.Request.ofArguments` — what the arguments ask for.
-/

import PageTemplate.Binding.Options
import PageTemplate.Command.Path

set_option relaxedAutoImplicit false
set_option autoImplicit false

namespace PageTemplate.Command

open PageTemplate.Binding

/-- What the command is to do. -/
inductive Task where
  /-- Render a file or, with `stdin`, the input, against the data in `data` or beside the file. -/
  | render (file data : Option String) (stdin json : Bool)
  /-- Say what a file binds. -/
  | check (file : String) (json : Bool)
  deriving DecidableEq, Repr

/-- A task with the names of the directives. -/
structure Request where
  task : Task
  options : Options
  deriving DecidableEq, Repr

/-- Why there is nothing to do. -/
inductive Refusal where
  | help
  | noTask
  | unknownTask (name : String)
  | unknownOption (name : String)
  | unneededValue (name : String)
  | missingValue (name : String)
  | repeatedOption (name : String)
  | unexpectedArgument (argument : String)
  | emptyPath
  | missingFile
  deriving DecidableEq, Repr

/-- What a refusal is called. -/
def Refusal.message : Refusal → String
  | help =>
      "usage: hb [OPTIONS] render [--data FILE] [--stdin] [--json] [FILE] | " ++
        "check [--json] FILE"
  | noTask => "expected `render` or `check`"
  | unknownTask name => "unrecognized subcommand '" ++ name ++ "'"
  | unknownOption name => "unexpected argument '" ++ name ++ "' found"
  | unneededValue name => "unexpected value for '" ++ name ++ "' found"
  | missingValue name => "a value is required for '" ++ name ++ "' but none was supplied"
  | repeatedOption name => "the argument '" ++ name ++ "' cannot be used multiple times"
  | unexpectedArgument argument => "unexpected argument '" ++ argument ++ "' found"
  | emptyPath => "a path cannot be empty"
  | missingFile => "a file or directory is required"

/-! ### Options -/

/-- The options that are there or not. -/
inductive Flag where
  | verbose
  | help
  | stdin
  | json
  deriving DecidableEq, Repr

/-- The options that have a value. -/
inductive Setting where
  | repeatAttribute
  | controllerAttribute
  | data
  deriving DecidableEq, Repr

/-- The side of the task's name on which options stand: before it, or behind that of a task. -/
inductive Side where
  | before
  | behindRender
  | behindCheck
  deriving DecidableEq, Repr

/-- The long name of a flag on a side, if it is known there. -/
def Side.flag? (side : Side) (name : String) : Option Flag :=
  if name = "verbose" then some .verbose
  else if name = "help" then some .help
  else if name = "json" && side != .before then some .json
  else if name = "stdin" && side == .behindRender then some .stdin
  else none

/-- The long name of a setting on a side, if it is known there. -/
def Side.setting? (side : Side) (name : String) : Option Setting :=
  if name = "repeat-attribute" then some .repeatAttribute
  else if name = "controller-attribute" then some .controllerAttribute
  else if name = "data" && side == .behindRender then some .data
  else none

/-- What the arguments on one side of the task's name say. -/
structure Given where
  stdin : Bool := false
  json : Bool := false
  repeatAttribute : Option String := none
  controllerAttribute : Option String := none
  data : Option String := none
  file : Option String := none

namespace Given

/-- Adds a flag.  The one for a fuller log may come again, and changes nothing that is asked for. -/
def addFlag (g : Given) (name : String) : Flag → Except Refusal Given
  | .verbose => .ok g
  | .help => .error .help
  | .stdin => if g.stdin then .error (.repeatedOption name) else .ok { g with stdin := true }
  | .json => if g.json then .error (.repeatedOption name) else .ok { g with json := true }

/-- Adds a setting, which may not come again. -/
def addSetting (g : Given) (name value : String) : Setting → Except Refusal Given
  | .repeatAttribute =>
      if g.repeatAttribute.isSome then .error (.repeatedOption name)
      else .ok { g with repeatAttribute := some value }
  | .controllerAttribute =>
      if g.controllerAttribute.isSome then .error (.repeatedOption name)
      else .ok { g with controllerAttribute := some value }
  | .data =>
      if g.data.isSome then .error (.repeatedOption name)
      else if value = "" then .error (.missingValue name)
      else .ok { g with data := some value }

/-- Adds a file, of which there is at most one. -/
def addFile (g : Given) (file : String) : Except Refusal Given :=
  if g.file.isSome then .error (.unexpectedArgument file)
  else if file = "" then .error .emptyPath
  else .ok { g with file := some file }

/-- Adds files. -/
def addFiles (g : Given) : List String → Except Refusal Given
  | [] => .ok g
  | file :: rest =>
      match g.addFile file with
      | .error e => .error e
      | .ok g => g.addFiles rest

/-- Adds the flags of a cluster of letters. -/
def addLetters (g : Given) : List Char → Except Refusal Given
  | [] => .ok g
  | 'v' :: rest => g.addLetters rest
  | 'h' :: _ => .error .help
  | c :: _ => .error (.unknownOption (String.ofList ['-', c]))

end Given

/-- What an argument looks like. -/
inductive Shape where
  /-- Two dashes alone: what follows are files. -/
  | dashes
  /-- Two dashes and a name, perhaps with a value behind an equals sign. -/
  | long (name : String) (value : Option String)
  /-- A dash and letters. -/
  | letters (cs : List Char)
  | plain
  deriving DecidableEq, Repr

/-- What an argument looks like. -/
def Shape.of (argument : String) : Shape :=
  match argument.toList with
  | ['-', '-'] => .dashes
  | '-' :: '-' :: cs =>
      let name := String.ofList (cs.takeWhile (· != '='))
      match cs.dropWhile (· != '=') with
      | [] => .long name none
      | _ :: value => .long name (some (String.ofList value))
  | '-' :: c :: cs => .letters (c :: cs)
  | _ => .plain

/-- Reads arguments on one side of the task's name.  Gives those from the task's name on as well, if
they are read before it. -/
def readArguments (side : Side) (g : Given) : List String → Except Refusal (Given × List String)
  | [] => .ok (g, [])
  | argument :: rest =>
      match Shape.of argument with
      | .dashes =>
          match side, rest with
          | .before, extra :: _ => .error (.unexpectedArgument extra)
          | _, _ => (g.addFiles rest).map fun g => (g, [])
      | .long name attached =>
          match side.flag? name, side.setting? name with
          | some flag, _ =>
              if attached.isSome then .error (.unneededValue name)
              else
                match g.addFlag argument flag with
                | .error e => .error e
                | .ok g => readArguments side g rest
          | none, some setting =>
              match attached with
              | some value =>
                  match g.addSetting name value setting with
                  | .error e => .error e
                  | .ok g => readArguments side g rest
              | none =>
                  match rest with
                  | [] => .error (.missingValue name)
                  | value :: others =>
                      if Shape.of value = .plain then
                        match g.addSetting name value setting with
                        | .error e => .error e
                        | .ok g => readArguments side g others
                      else .error (.missingValue name)
          | none, none => .error (.unknownOption argument)
      | .letters cs =>
          match g.addLetters cs with
          | .error e => .error e
          | .ok g => readArguments side g rest
      | .plain =>
          match side with
          | .before => .ok (g, argument :: rest)
          | _ =>
              match g.addFile argument with
              | .error e => .error e
              | .ok g => readArguments side g rest

/-! ### Requests -/

/-- The names of the directives that the options say, first those behind the task's name. -/
def optionsOf (before behind : Given) : Options :=
  let default : Options := {}
  { repeatAttribute :=
      (behind.repeatAttribute.or before.repeatAttribute).getD default.repeatAttribute
    controllerAttribute :=
      (behind.controllerAttribute.or before.controllerAttribute).getD default.controllerAttribute }

/-- What the options on both sides of the name of a task ask for. -/
def requestOf (before behind : Given) (side : Side) : Except Refusal Request :=
  let request (task : Task) : Request := ⟨task, optionsOf before behind⟩
  match side, behind.file with
  | .behindCheck, some file => .ok (request (.check file behind.json))
  | .behindCheck, none => .error .missingFile
  | _, file =>
      if file.isNone && !behind.stdin then .error .missingFile
      else .ok (request (.render file behind.data behind.stdin behind.json))

/-- The side behind the name of a task. -/
def Side.behind? (name : String) : Option Side :=
  if name = "render" then some .behindRender
  else if name = "check" then some .behindCheck
  else none

/-- What stands in place of a task's name to ask for help. -/
def helpName : String := "help"

/-- What a call for help leads to.  It may name one thing to have help on: a task, or help. -/
def refusalOfHelp : List String → Refusal
  | [] => .help
  | topic :: rest =>
      if topic = helpName || (Side.behind? topic).isSome then
        match rest with
        | [] => .help
        | extra :: _ => .unknownTask extra
      else .unknownTask topic

/-- What the arguments of the command ask for. -/
def Request.ofArguments (arguments : List String) : Except Refusal Request :=
  match readArguments .before {} arguments with
  | .error e => .error e
  | .ok (_, []) => .error .noTask
  | .ok (before, name :: rest) =>
      match Side.behind? name with
      | some side =>
          match readArguments side {} rest with
          | .error e => .error e
          | .ok (behind, _) => requestOf before behind side
      | none => .error (if name = helpName then refusalOfHelp rest else .unknownTask name)

end PageTemplate.Command
