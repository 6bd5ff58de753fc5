/-
**Binding a document to scopes, and rendering it.**

A `Stage` is a document together with the scopes that are bound to it.  Compiling the part of the
document below a node binds it to a scope: each repeat directive there is taken out and bound to a
new child scope, and the placeholders in what is left become slots.  Rendering a scope makes the
copies of each of its repeated elements anew, one for each item of the collection as it is now, and
fills its slots.

Main definitions:

* `PageTemplate.Binding.Stage` — a document and its scopes;
* `PageTemplate.Binding.repeated` — the repeated elements below a node that are not inside others;
* `PageTemplate.Binding.invalidRepeat?` — the first directive that cannot be read;
* `PageTemplate.Binding.Stage.compile` — binding, unless some directive cannot be read;
* `PageTemplate.Binding.Stage.render` — rendering.

Main results:

* `PageTemplate.Binding.Stage.compile_eq_error_iff` — compiling fails exactly when some directive
  cannot be read.
-/

import PageTemplate.Binding.Scope
import PageTemplate.Diagnostic.BindError

set_option relaxedAutoImplicit false
set_option autoImplicit false

namespace PageTemplate.Binding

open PageTemplate.Data PageTemplate.Diagnostic

/-! ### Directives -/

/-- The elements with the attribute `mark` among the nodes of the stack and the nodes reached from
these through elements without it.  Each round visits one node. -/
def repeatedFrom (d : Document) (mark : String) : Nat → List NodeId → List NodeId
  | 0, _ => []
  | _ + 1, [] => []
  | fuel + 1, node :: stack =>
      match d.element? node with
      | some e =>
          if e.hasAttribute mark then node :: repeatedFrom d mark fuel stack
          else repeatedFrom d mark fuel (d.children node ++ stack)
      | none => repeatedFrom d mark fuel stack

/-- The repeated elements below `node` that are not inside other ones, in document order. -/
def repeated (d : Document) (mark : String) (node : NodeId) : List NodeId :=
  repeatedFrom d mark d.nodes.size (d.children node)

/-- The value of the directive of an element. -/
def directive (d : Document) (mark : String) (element : NodeId) : String :=
  (d.attribute? element mark).getD ""

/-- The first repeated element below `node`, at most `fuel` ones inside each other, whose directive
cannot be read. -/
def invalidTo (d : Document) (mark : String) : Nat → NodeId → Option NodeId
  | 0, _ => none
  | fuel + 1, node =>
      (repeated d mark node).findSome? fun element =>
        match RepeatExpression.parse? (directive d mark element) with
        | none => some element
        | some _ => invalidTo d mark fuel element

/-- The fault of the first directive below `node` that cannot be read. -/
def invalidRepeat? (d : Document) (mark : String) (node : NodeId) : Option BindError :=
  (invalidTo d mark d.nodes.size node).map fun element =>
    .invalidRepeat (directive d mark element) (d.span? element)

/-! ### Stages -/

/-- A document, and the scopes that parts of it are bound to. -/
structure Stage where
  document : Document
  scopes : Scopes

namespace Stage

/-- The document without content, and no scopes. -/
def empty : Stage := ⟨.empty, .empty⟩

/-- Takes what the repeat directives of a scope have made out of the document, and lets their scopes
go. -/
def dismantle (st : Stage) (s : ScopeId) : Stage :=
  let old := st.scopes.repeats s
  let scopes := st.scopes.update s fun scope =>
    { scope with
      repeats := []
      children := scope.children.filter fun c => !old.any (·.scope == c) }
  { document := (old.flatMap (·.copies)).foldl Document.remove st.document
    scopes := if old.isEmpty then st.scopes else scopes.collect }

/-- Takes the directive from a repeated element, and the element from the document.  Directives
that are anchored at this element are then anchored where it was. -/
def takeOut (mark : String) (st : Stage) (repeats : List Repeat)
    (expression : RepeatExpression) (scope : ScopeId) (element container : NodeId) :
    Stage × List Repeat :=
  let anchor := st.document.nextSibling? element
  let document := (st.document.eraseAttribute element mark).detach element
  let repeats := repeats.map fun r =>
    if r.anchor = some element then { r with anchor := anchor } else r
  ({ st with document := document },
    repeats ++ [⟨expression, scope, element, container, anchor, []⟩])

/-- Binds what is below `node` to the scope `s`, with repeat directives at most `fuel - 1` ones
inside each other. -/
def compileTo (mark : String) : Nat → Stage → ScopeId → NodeId → Stage
  | 0, st, _, _ => st
  | fuel + 1, st, s, node =>
      let (st, repeats) := (repeated st.document mark node).foldl
        (fun (st, repeats) element =>
          match RepeatExpression.parse? (directive st.document mark element),
              st.document.parent? element with
          | some expression, some container =>
              let (scopes, scope) := st.scopes.newChild s .emptyObject
              let st := compileTo mark fuel { st with scopes := scopes } scope element
              takeOut mark st repeats expression scope element container
          | _, _ => (st, repeats)) (st, ([] : List Repeat))
      let (document, slots) := extract st.document node
      { document := document
        scopes := st.scopes.update s fun scope =>
          { scope with slots := slots, repeats := repeats } }

/-- Binds what is below `node` to the scope `s`, instead of what was bound to it.  If a directive
cannot be read, wherever below `node` it is, nothing happens. -/
def compile (mark : String) (st : Stage) (s : ScopeId) (node : NodeId) :
    Except BindError Stage :=
  match invalidRepeat? st.document mark node with
  | some e => .error e
  | none =>
      let st := st.dismantle s
      .ok (compileTo mark (st.document.nodes.size + 1) st s node)

/-- Compiling fails exactly when some directive cannot be read, with the fault of the first one. -/
theorem compile_eq_error_iff (mark : String) (st : Stage) (s : ScopeId) (node : NodeId)
    (e : BindError) :
    st.compile mark s node = .error e ↔
      invalidRepeat? st.document mark node = some e := by
  unfold compile
  split
  · rename_i e' he
    simp [he]
  · rename_i he
    simp [he]

/-! ### Rendering -/

/-- Makes a copy of the pattern of a directive at its place. -/
def copyPattern (d : Document) (r : Repeat) : Document × NodeId :=
  let (d, copy) := d.clone r.pattern
  (d.insertBefore r.container copy r.anchor, copy)

/-- Makes the copies of a directive anew, where `renderItem` renders its scope.  Each item is put
into this scope and shown in the pattern before the pattern is copied. -/
def renderRepeat (renderItem : Stage → ScopeId → Stage) (st : Stage) (s : ScopeId) (r : Repeat) :
    Stage × Repeat :=
  let st := { st with document := r.copies.foldl Document.remove st.document }
  match items? (st.scopes.lookup? s r.expression.collection) with
  | none => (st, { r with copies := [] })
  | some items =>
      let (st, copies) := items.foldl
        (fun (st, copies) item =>
          let st := { st with scopes := st.scopes.set r.scope r.expression.item item }
          let st := renderItem st r.scope
          let (document, copy) := copyPattern st.document r
          ({ st with document := document }, copies ++ [copy])) (st, ([] : List NodeId))
      (st, { r with copies := copies })

/-- Renders a scope, with the scopes of repeat directives at most `fuel - 1` ones below each
other. -/
def renderTo : Nat → Stage → ScopeId → Stage
  | 0, st, _ => st
  | fuel + 1, st, s =>
      let (st, repeats) := (st.scopes.repeats s).foldl
        (fun (st, repeats) r =>
          let (st, r) := renderRepeat (renderTo fuel) st s r
          (st, repeats ++ [r])) (st, ([] : List Repeat))
      let scopes := st.scopes.update s fun scope => { scope with repeats := repeats }
      let slots := ((scopes.get? s).map (·.slots)).getD .empty
      { document := slots.fill (scopes.lookup? s) st.document
        scopes := scopes }

/-- Renders a scope: first its repeated elements, then its slots.  No scope is below another over
more steps than there are scopes. -/
def render (st : Stage) (s : ScopeId) : Stage :=
  renderTo st.scopes.entries.size st s

/-- The copies that each repeat directive of a scope has in the document. -/
def copies (st : Stage) (s : ScopeId) : List (List NodeId) :=
  (st.scopes.repeats s).map (·.copies)

end Stage

end PageTemplate.Binding
