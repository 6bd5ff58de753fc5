/-
**What can be wrong with a page.**

Main definitions:

* `PageTemplate.Diagnostic.PageError` — a fault of the markup, of the directives or of the data;
* `PageTemplate.Diagnostic.PageError.message`, `PageTemplate.Diagnostic.PageError.render` — what a
  reader is told, without and with the place.
-/

import PageTemplate.Diagnostic.BindError
import PageTemplate.Diagnostic.ParseError

set_option relaxedAutoImplicit false
set_option autoImplicit false

namespace PageTemplate.Diagnostic

/-- Why a page cannot be rendered. -/
inductive PageError where
  | parse (error : ParseError)
  | bind (error : BindError)
  | data (message : String)
  deriving DecidableEq, Repr

namespace PageError

/-- What a reader is told. -/
def message : PageError → String
  | parse e => e.message
  | bind e => e.message
  | data text => "Invalid data: " ++ text

/-- The fault as a message for a reader of `source`. -/
def render (e : PageError) (p : Palette) (source fileName : String) : String :=
  match e with
  | parse e => e.render p source fileName
  | bind e => e.render p source fileName
  | data _ => renderPlain p e.message

end PageError

end PageTemplate.Diagnostic
