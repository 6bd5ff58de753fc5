/-
**What can be wrong with the directives of a page.**

Main definitions:

* `PageTemplate.Diagnostic.BindError` — a directive that cannot be read, a controller that is
  registered twice, and an element whose controller is not registered;
* `PageTemplate.Diagnostic.BindError.message`, `PageTemplate.Diagnostic.BindError.help` — what a
  reader is told;
* `PageTemplate.Diagnostic.BindError.render` — the fault as a message.
-/

import PageTemplate.Diagnostic.Snippet

set_option relaxedAutoImplicit false
set_option autoImplicit false

namespace PageTemplate.Diagnostic

open PageTemplate.Text

/-- A fault in the directives of a page or in their controllers. -/
inductive BindError where
  /-- The value of a repeat directive does not name an item and a collection. -/
  | invalidRepeat (expression : String) (span : Option Span)
  /-- A controller with this name is registered already. -/
  | alreadyRegistered (name : String)
  /-- An element names a controller that is not registered. -/
  | unknownController (name : String) (span : Option Span)
  deriving DecidableEq, Repr

namespace BindError

/-- The place of the fault, if it has one. -/
def span? : BindError → Option Span
  | invalidRepeat _ span => span
  | alreadyRegistered _ => none
  | unknownController _ span => span

/-- The expression or the name that is at fault. -/
def subject : BindError → String
  | invalidRepeat expression _ => expression
  | alreadyRegistered name => name
  | unknownController name _ => name

/-- What a reader is told. -/
def message : BindError → String
  | invalidRepeat expression _ => "\"" ++ expression ++ "\" is not a valid repeat expression."
  | alreadyRegistered name => "Controller '" ++ name ++ "' is already registered."
  | unknownController name _ => "Controller '" ++ name ++ "' doesn't exist."

/-- How the fault can be mended. -/
def help : BindError → Option String
  | invalidRepeat _ _ =>
      some "Write it as \"<item> in <collection>\", e.g. \"track in album.tracks\""
  | alreadyRegistered _ => none
  | unknownController _ _ => some "Register the controller before bootstrapping the document"

/-- The fault as a message for a reader of `source`. -/
def render (e : BindError) (p : Palette) (source fileName : String) : String :=
  match e.span? with
  | some span => Snippet.render ⟨e.message, span, none, e.help⟩ p source fileName
  | none => renderPlain p e.message

end BindError

end PageTemplate.Diagnostic
