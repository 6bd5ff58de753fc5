/-
**Documents: nodes in numbered slots.**

A document keeps its nodes in slots, and a node is known by the number of its slot.  A live node
records its parent and, in order, its children, so that each link is stored on both of its sides.
Slots without a node are kept on a list, the most recently freed one first, and are used again
before a new slot is made.  Slot zero holds the document node, whose children are the top level of
the document.  A node without a parent is not part of the tree below the document node, but stays
alive.

Main definitions:

* `PageTemplate.NodeKind`, `PageTemplate.Node`, `PageTemplate.Document` — what is stored;
* `PageTemplate.Document.get?`, `PageTemplate.Document.parent?`,
  `PageTemplate.Document.children` — the view of a document as linked nodes;
* `PageTemplate.Document.alloc`, `PageTemplate.Document.update` — a new node without links, and a
  change of one node: every other operation is built from these two and from freeing a slot.

Main results:

* `PageTemplate.Document.get?_update`, `PageTemplate.Document.get?_alloc_of_ne` — what these do to
  the view.
-/

import PageTemplate.Markup.Element
import PageTemplate.Text.Position

set_option relaxedAutoImplicit false
set_option autoImplicit false

namespace PageTemplate

open PageTemplate.Markup PageTemplate.Text

/-- The number of a node's slot. -/
abbrev NodeId := Nat

/-- What a node is, without its links. -/
inductive NodeKind where
  | document
  | element (element : Element)
  | text (text : String)
  | comment (text : String)
  | doctype (text : String)
  deriving DecidableEq, Repr

namespace NodeKind

/-- The element that a node is. -/
def element? : NodeKind → Option Element
  | element e => some e
  | _ => none

/-- The text of a text node. -/
def text? : NodeKind → Option String
  | text t => some t
  | _ => none

end NodeKind

/-- A node with its links, and the stretch of the source that it was read from. -/
structure Node where
  kind : NodeKind
  parent : Option NodeId
  children : List NodeId
  span : Option Span
  deriving DecidableEq, Repr

/-- A node that is linked to no other. -/
def Node.loose (kind : NodeKind) (span : Option Span) : Node := ⟨kind, none, [], span⟩

/-- Nodes in slots, and the slots that are free. -/
structure Document where
  nodes : Array (Option Node)
  free : List NodeId
  deriving DecidableEq, Repr

namespace Document

/-- The document without content. -/
def empty : Document := ⟨#[some (Node.loose .document none)], []⟩

/-- The slot of the document node. -/
def root : NodeId := 0

/-! ### Inspection -/

/-- The live node in a slot. -/
def get? (d : Document) (id : NodeId) : Option Node :=
  d.nodes[id]?.join

/-- Whether a slot holds a live node. -/
def contains (d : Document) (id : NodeId) : Bool :=
  (d.get? id).isSome

/-- The number of live nodes. -/
def size (d : Document) : Nat :=
  d.nodes.size - d.free.length

/-- What a live node is. -/
def kind? (d : Document) (id : NodeId) : Option NodeKind :=
  (d.get? id).map (·.kind)

/-- The element that a node is. -/
def element? (d : Document) (id : NodeId) : Option Element :=
  (d.kind? id).bind (·.element?)

/-- The text of a text node. -/
def text? (d : Document) (id : NodeId) : Option String :=
  (d.kind? id).bind (·.text?)

/-- The stretch of the source that a node was read from. -/
def span? (d : Document) (id : NodeId) : Option Span :=
  (d.get? id).bind (·.span)

/-- The parent of a node. -/
def parent? (d : Document) (id : NodeId) : Option NodeId :=
  (d.get? id).bind (·.parent)

/-- The children of a node, in order.  A slot without a node has none. -/
def children (d : Document) (id : NodeId) : List NodeId :=
  ((d.get? id).map (·.children)).getD []

/-- Whether the document node has no children. -/
def isEmpty (d : Document) : Bool :=
  (d.children root).isEmpty

/-- The first attribute of this name that an element has. -/
def attribute? (d : Document) (id : NodeId) (name : String) : Option String :=
  (d.element? id).bind (·.attribute? name)

/-- Whether a node is an element with an attribute of this name. -/
def hasAttribute (d : Document) (id : NodeId) (name : String) : Bool :=
  (d.element? id).any (·.hasAttribute name)

/-- What comes right behind the first `id` in a list. -/
def following? (id : NodeId) : List NodeId → Option NodeId
  | [] => none
  | c :: cs => if c = id then cs.head? else following? id cs

/-- The next child of a node's parent. -/
def nextSibling? (d : Document) (id : NodeId) : Option NodeId :=
  (d.parent? id).bind fun p => following? id (d.children p)

/-! ### The two ways to change a slot that leave it live -/

/-- Puts a node without links into a free slot, or into a new one if there is none. -/
def alloc (d : Document) (kind : NodeKind) (span : Option Span) : Document × NodeId :=
  match d.free with
  | id :: free => (⟨d.nodes.setIfInBounds id (some (Node.loose kind span)), free⟩, id)
  | [] => (⟨d.nodes.push (some (Node.loose kind span)), []⟩, d.nodes.size)

/-- Changes a node.  A slot without one stays as it is. -/
def update (d : Document) (id : NodeId) (f : Node → Node) : Document :=
  { d with nodes := d.nodes.modify id (Option.map f) }

theorem get?_eq_some_iff {d : Document} {id : NodeId} {n : Node} :
    d.get? id = some n ↔ d.nodes[id]? = some (some n) := by
  simp [get?, Option.join_eq_some_iff]

/-- Only the node itself changes. -/
theorem get?_update (d : Document) (id other : NodeId) (f : Node → Node) :
    (d.update id f).get? other = if other = id then (d.get? id).map f else d.get? other := by
  unfold get? update
  simp only [Array.getElem?_modify]
  by_cases h : id = other
  · subst h
    cases hn : d.nodes[id]? with
    | none => simp
    | some n => simp
  · simp [h, Ne.symm h]

@[simp] theorem free_update (d : Document) (id : NodeId) (f : Node → Node) :
    (d.update id f).free = d.free := rfl

@[simp] theorem size_nodes_update (d : Document) (id : NodeId) (f : Node → Node) :
    (d.update id f).nodes.size = d.nodes.size := by
  simp [update]

/-- A new node disturbs no other slot. -/
theorem get?_alloc_of_ne (d : Document) (kind : NodeKind) (span : Option Span) {id : NodeId}
    (h : id ≠ (d.alloc kind span).2) : (d.alloc kind span).1.get? id = d.get? id := by
  unfold alloc at *
  split at h
  · rename_i i free hfree
    have h' : i ≠ id := fun e => h e.symm
    simp [get?, h']
  · have h' : id ≠ d.nodes.size := h
    simp [get?, Array.getElem?_push, h']

end Document

end PageTemplate
