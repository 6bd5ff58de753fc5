/-
**Documents as trees, and their markup.**

A `Tree` is what a node and everything below it are, without slots and links.  Markup is written
from trees: text is escaped, except in the content of script and style elements, and a void element
has neither content nor a closing tag.

Main definitions:

* `PageTemplate.Tree` — a node with the nodes below it;
* `PageTemplate.Document.tree?`, `PageTemplate.Document.subtrees` — the tree view of a document;
* `PageTemplate.Tree.markup`, `PageTemplate.Tree.markupAll` — the markup of trees;
* `PageTemplate.Document.innerMarkup`, `PageTemplate.Document.markup` — the markup of what is below
  a node, and of a whole document.

Main results:

* `PageTemplate.Tree.markupAll_append` — the markup of two lists of trees is that of one behind the
  other;
* `PageTemplate.Tree.markup_congr` — the markup of a tree is made of that of the trees below it.
-/

import PageTemplate.Document.Basic
import PageTemplate.Markup.Reference

set_option relaxedAutoImplicit false
set_option autoImplicit false

namespace PageTemplate

open PageTemplate.Markup PageTemplate.Text

/-- A node with the nodes below it. -/
inductive Tree where
  | node (kind : NodeKind) (span : Option Span) (children : List Tree)

namespace Tree

/-- What the topmost node of a tree is. -/
def kind : Tree → NodeKind
  | node k _ _ => k

/-- The trees right below the topmost node. -/
def children : Tree → List Tree
  | node _ _ ts => ts

/-- The markup of an attribute, with the blank before it. -/
def attributeMarkup (a : Attribute) : List Char :=
  ' ' :: a.name.toList ++
    match a.value with
    | some v => '=' :: '"' :: escapeAttribute v.toList ++ ['"']
    | none => []

/-- The opening tag of an element. -/
def openTag (e : Element) : List Char :=
  '<' :: e.tag.toList ++ e.attributes.flatMap attributeMarkup ++ ['>']

/-- The closing tag of an element. -/
def closeTag (e : Element) : List Char :=
  '<' :: '/' :: e.tag.toList ++ ['>']

mutual

/-- The markup of a tree.  Text is not escaped if it is raw text. -/
def markup (raw : Bool) : Tree → List Char
  | node (.document) _ ts => markupAll false ts
  | node (.text t) _ _ => if raw then t.toList else escapeText t.toList
  | node (.comment t) _ _ => "<!--".toList ++ t.toList ++ "-->".toList
  | node (.doctype t) _ _ => "<!".toList ++ t.toList ++ ">".toList
  | node (.element e) _ ts =>
      if isVoid e.tag then openTag e
      else openTag e ++ markupAll (isRawText e.tag) ts ++ closeTag e

/-- The markup of trees that stand side by side. -/
def markupAll (raw : Bool) : List Tree → List Char
  | [] => []
  | t :: ts => markup raw t ++ markupAll raw ts

end

@[simp] theorem markupAll_nil (raw : Bool) : markupAll raw [] = [] := by
  rw [markupAll]

theorem markupAll_cons (raw : Bool) (t : Tree) (ts : List Tree) :
    markupAll raw (t :: ts) = markup raw t ++ markupAll raw ts := by
  rw [markupAll]

theorem markupAll_append (raw : Bool) (ts us : List Tree) :
    markupAll raw (ts ++ us) = markupAll raw ts ++ markupAll raw us := by
  induction ts with
  | nil => simp
  | cons t ts ih => rw [List.cons_append, markupAll_cons, markupAll_cons, ih, List.append_assoc]

theorem markupAll_eq_flatMap (raw : Bool) (ts : List Tree) :
    markupAll raw ts = ts.flatMap (markup raw) := by
  induction ts with
  | nil => rfl
  | cons t ts ih => rw [markupAll_cons, ih, List.flatMap_cons]

/-- The markup of a tree depends on the trees below its topmost node only through their markup. -/
theorem markup_congr {raw : Bool} {kind : NodeKind} {span span' : Option Span} {ts us : List Tree}
    (h : ∀ raw, markupAll raw ts = markupAll raw us) :
    markup raw (node kind span ts) = markup raw (node kind span' us) := by
  cases kind <;> simp only [markup, h]

end Tree

namespace Document

/-- The tree of a live node, down to depth `fuel`. -/
def treeTo (d : Document) : Nat → NodeId → Option Tree
  | 0, _ => none
  | fuel + 1, id =>
      (d.get? id).map fun n => .node n.kind n.span (n.children.filterMap (d.treeTo fuel))

/-- The tree of a live node.  No node of a tree lies deeper than there are slots. -/
def tree? (d : Document) (id : NodeId) : Option Tree :=
  d.treeTo d.nodes.size id

/-- The trees right below a node. -/
def subtrees (d : Document) (id : NodeId) : List Tree :=
  (d.children id).filterMap d.tree?

/-- Whether the content of a node is raw text. -/
def holdsRawText (d : Document) (id : NodeId) : Bool :=
  (d.element? id).any fun e => isRawText e.tag

/-- The markup of what is below a node. -/
def innerMarkup (d : Document) (id : NodeId) : String :=
  String.ofList (Tree.markupAll (d.holdsRawText id) (d.subtrees id))

/-- The markup of a document. -/
def markup (d : Document) : String :=
  d.innerMarkup root

end Document

end PageTemplate
