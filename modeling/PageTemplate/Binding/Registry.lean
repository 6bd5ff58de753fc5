/-
**Controllers, and mounting them.**

An element that names a controller is bound to a scope of its own, which the controller fills with
data before the element is rendered.  The controllers of a document are mounted from its last
element to its first, so that an element inside another one is bound before the outer one is, and
the outer one finds nothing left to bind in it.

Main definitions:

* `PageTemplate.Binding.Action`, `PageTemplate.Binding.Controller` — what a controller does;
* `PageTemplate.Binding.Call` — what a controller saw when it was called;
* `PageTemplate.Binding.Registry` — controllers by name;
* `PageTemplate.Binding.Mount` — an element with its scope;
* `PageTemplate.Binding.Registry.Failure` — where mounting an element has stopped;
* `PageTemplate.Binding.Registry.mount`, `PageTemplate.Binding.Registry.bootstrap` — mounting one
  element, and all elements of a document.
-/

import PageTemplate.Binding.Options
import PageTemplate.Binding.Stage
import PageTemplate.Binding.Summary
import PageTemplate.Document.Walk

set_option relaxedAutoImplicit false
set_option autoImplicit false

namespace PageTemplate.Binding

open PageTemplate.Data PageTemplate.Diagnostic

/-! ### Controllers -/

/-- One thing that a controller does with its scope. -/
inductive Action where
  | set (name : String) (v : Value)
  | setData (data : Value)
  | get (path : String)

/-- What a controller does, in order.  This is a fixed script: a controller does the same each time it
is called, whatever it gets to see, and it neither reads nor changes anything but its scope. -/
abbrev Controller := List Action

/-- What a controller saw: what its scope binds when it is called, and each value that it asks
for. -/
inductive Call where
  | entered (controller : String) (summary : Summary)
  | got (value : Option Value)

/-- Does one thing with a scope, and notes what the controller sees behind `calls`. -/
def Action.run (s : ScopeId) (f : Scopes) (calls : List Call) : Action → Scopes × List Call
  | set name v => (f.set s name v, calls)
  | setData data => (f.setData s data, calls)
  | get path => (f, calls ++ [.got (f.lookup? s path)])

/-- Calls a controller for a scope, and notes what it sees behind `calls`. -/
def Controller.run (c : Controller) (name : String) (s : ScopeId) (f : Scopes)
    (calls : List Call) : Scopes × List Call :=
  c.foldl (fun (f, calls) action => action.run s f calls)
    (f, calls ++ [.entered name (f.summary s)])

/-! ### Registries -/

/-- Controllers by name, and the names of the directives. -/
structure Registry where
  controllers : List (String × Controller)
  options : Options

/-- An element with its controller's name and its scope. -/
structure Mount where
  name : String
  element : NodeId
  scope : ScopeId
  deriving DecidableEq, Repr

namespace Registry

/-- Why an element could not be mounted, with the stage, and what controllers saw, up to then. -/
structure Failure where
  fault : BindError
  stage : Stage
  calls : List Call

/-- A failure counts as its fault. -/
instance : Coe Failure BindError := ⟨Failure.fault⟩

/-- No controllers. -/
def empty (options : Options) : Registry := ⟨[], options⟩

/-- The controller with a name. -/
def controller? (r : Registry) (name : String) : Option Controller :=
  (r.controllers.find? (·.1 == name)).map (·.2)

/-- Registers a controller under a name that is not taken. -/
def register (r : Registry) (name : String) (c : Controller) : Except BindError Registry :=
  match r.controller? name with
  | some _ => .error (.alreadyRegistered name)
  | none => .ok { r with controllers := r.controllers ++ [(name, c)] }

/-- Binds an element to a new scope, calls its controller, and renders the scope, which is held.  If
the element cannot be compiled, the new scope is let go. -/
def mount (r : Registry) (st : Stage) (calls : List Call) (element : NodeId) :
    Except Failure (Stage × List Call × Mount) :=
  let name := (st.document.attribute? element r.options.controllerAttribute).getD ""
  match r.controller? name with
  | none => .error ⟨.unknownController name (st.document.span? element), st, calls⟩
  | some c =>
      let (scopes, scope) := st.scopes.newRoot .emptyObject
      let st := { st with scopes := scopes }
      match st.compile r.options.repeatAttribute scope element with
      | .error e => .error ⟨e, { st with scopes := st.scopes.letGo scope }, calls⟩
      | .ok st =>
          let (scopes, calls) := c.run name scope st.scopes calls
          .ok (({ st with scopes := scopes } : Stage).render scope, calls, ⟨name, element, scope⟩)

/-- What mounting several elements leads to: the stage and what controllers saw, up to the first
fault if there is one, and the mounts if there is none. -/
structure Outcome where
  stage : Stage
  calls : List Call
  mounts : Except BindError (List Mount)

/-- Mounts elements one after the other, where `mounts` are those of the elements before, the last
one first.  After a fault the scopes of these are let go. -/
def mountAll (r : Registry) (st : Stage) (calls : List Call) (mounts : List Mount) :
    List NodeId → Outcome
  | [] => ⟨st, calls, .ok mounts⟩
  | element :: rest =>
      match r.mount st calls element with
      | .error e =>
          let scopes := mounts.foldl (fun f m => f.letGo m.scope) e.stage.scopes
          ⟨{ e.stage with scopes := scopes }, e.calls, .error e⟩
      | .ok (st, calls, m) => mountAll r st calls (m :: mounts) rest

/-- Mounts every controller element of a document, the last one first.  The mounts are in document
order. -/
def bootstrap (r : Registry) (st : Stage) (calls : List Call) : Outcome :=
  r.mountAll st calls []
    (st.document.elementsWithAttribute Document.root r.options.controllerAttribute).reverse

end Registry

end PageTemplate.Binding
