/-
**What can be wrong with a markup text.**

Main definitions:

* `PageTemplate.Diagnostic.ParseError` — a fault of a markup text;
* `PageTemplate.Diagnostic.ParseError.unclosed`, `PageTemplate.Diagnostic.ParseError.repeated` — the
  two faults that reading a document can find;
* `PageTemplate.Diagnostic.ParseError.render` — the fault as a message.
-/

import PageTemplate.Diagnostic.Snippet

set_option relaxedAutoImplicit false
set_option autoImplicit false

namespace PageTemplate.Diagnostic

open PageTemplate.Text

/-- The kinds of faults. -/
inductive ParseError.Kind where
  | unclosedElement
  | duplicateAttribute
  deriving DecidableEq, Repr

/-- What a kind of fault is called. -/
def ParseError.Kind.title : ParseError.Kind → String
  | unclosedElement => "Unclosed element"
  | duplicateAttribute => "Duplicate attribute"

/-- A fault of a markup text: its kind, what a reader is told, and where it shows. -/
structure ParseError where
  kind : ParseError.Kind
  message : String
  span : Span
  relatedSpan : Option Span := none
  relatedLabel : Option String := none
  help : Option String := none
  deriving DecidableEq, Repr

namespace ParseError

/-- The element `tag`, whose opening tag is at `opened`, is still open at `span`. -/
def unclosed (tag : String) (span opened : Span) : ParseError where
  kind := .unclosedElement
  message := "<" ++ tag ++ "> is never closed."
  span := span
  relatedSpan := some opened
  help := some ("Close with </" ++ tag ++ ">")

/-- An opening tag sets the attribute `name` at `first` and again at `span`. -/
def repeated (name : String) (span first : Span) : ParseError where
  kind := .duplicateAttribute
  message := "\"" ++ name ++ "\" is set twice on this element."
  span := span
  relatedSpan := some first
  relatedLabel := some "first use"

/-- The fault as a message with its places.  A related place without a label of its own is where
something was opened. -/
def snippet (e : ParseError) : Snippet where
  message := e.message
  span := e.span
  related := e.relatedSpan.map fun span => ⟨span, e.relatedLabel.getD "opened here"⟩
  help := e.help

/-- The fault as a message for a reader of `source`. -/
def render (e : ParseError) (p : Palette) (source fileName : String) : String :=
  e.snippet.render p source fileName

end ParseError

end PageTemplate.Diagnostic
