/-
**Rendering and checking pages.**

A page with controller elements is bootstrapped: the data of the controller `name` are the field
`name` of the data of the page.  A page without is bound to its data as a whole.

Main definitions:

* `PageTemplate.Page.Rendered` — a rendered page, and what its scopes bind;
* `PageTemplate.Page.render` — renders a page;
* `PageTemplate.Page.check` — says what a page binds, without rendering it.
-/

import PageTemplate.Binding.Registry
import PageTemplate.Diagnostic.PageError
import PageTemplate.Document.Parse
import PageTemplate.Document.Tree

set_option relaxedAutoImplicit false
set_option autoImplicit false

namespace PageTemplate.Page

open PageTemplate.Binding PageTemplate.Data PageTemplate.Diagnostic

/-- A rendered page: its markup, and what is bound, by one scope for each controller element or by
one for the whole page. -/
structure Rendered where
  markup : String
  summaries : List Summary

namespace Rendered

/-- A rendered page as data. -/
def toValue (r : Rendered) : Value :=
  .object [("html", .string r.markup), ("scopes", .array (r.summaries.map (·.toValue)))]

end Rendered

/-- The registry in which each field of an object is the data of a controller with its name. -/
def registryOf (options : Options) (data : Value) : Registry :=
  ⟨(data.fields?.getD []).map fun (name, v) => (name, [.setData v]), options⟩

/-- Binds a document to its data as a whole and renders it. -/
def renderWhole (options : Options) (data : Value) (d : Document) :
    Except BindError (Stage × List Summary) :=
  let (scopes, scope) := Scopes.empty.newRoot data
  match (⟨d, scopes⟩ : Stage).compile options.repeatAttribute scope Document.root with
  | .error e => .error e
  | .ok st =>
      let st := st.render scope
      .ok (st, [st.scopes.summary scope])

/-- Mounts the controller elements of a document. -/
def renderControllers (options : Options) (data : Value) (d : Document) :
    Except BindError (Stage × List Summary) :=
  let outcome := (registryOf options data).bootstrap ⟨d, .empty⟩ []
  match outcome.mounts with
  | .error e => .error e
  | .ok mounts => .ok (outcome.stage, mounts.map fun m => outcome.stage.scopes.summary m.scope)

/-- Renders the page that a source text writes. -/
def render (source : String) (data : Value) (options : Options) : Except PageError Rendered :=
  match Document.parse source with
  | .error e => .error (.parse e)
  | .ok d =>
      let elements := d.elementsWithAttribute Document.root options.controllerAttribute
      let result :=
        if elements = [] then renderWhole options data d else renderControllers options data d
      match result with
      | .error e => .error (.bind e)
      | .ok (st, summaries) => .ok ⟨st.document.markup, summaries⟩

/-- What the page that a source text writes binds as a whole. -/
def check (source : String) (options : Options) : Except PageError Summary :=
  match Document.parse source with
  | .error e => .error (.parse e)
  | .ok d =>
      let (scopes, scope) := Scopes.empty.newRoot .emptyObject
      match (⟨d, scopes⟩ : Stage).compile options.repeatAttribute scope Document.root with
      | .error e => .error (.bind e)
      | .ok st => .ok (st.scopes.summary scope)

end PageTemplate.Page
