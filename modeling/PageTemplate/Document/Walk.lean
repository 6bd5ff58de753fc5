/-
**Walking through documents.**

Both walks keep the nodes that are still to be visited on a stack, and put the children of the node
that they visit on top of it, so that nodes come in document order.

Main definitions:

* `PageTemplate.Document.walk`, `PageTemplate.Document.descendants` — the nodes below a node;
* `PageTemplate.Document.elementsWithAttribute` — the elements below it with a given attribute;
* `PageTemplate.Document.preorder` — the same order by recursion on the tree.

Main results:

* `PageTemplate.Document.walk_cons` — a walk visits the top of its stack first.
-/

import PageTemplate.Document.Basic

set_option relaxedAutoImplicit false
set_option autoImplicit false

namespace PageTemplate.Document

/-- The nodes of the stack, each followed by the nodes below it.  Each round visits one node. -/
def walk (d : Document) : Nat → List NodeId → List NodeId
  | 0, _ => []
  | _ + 1, [] => []
  | fuel + 1, id :: stack => id :: walk d fuel (d.children id ++ stack)

/-- The nodes below `id`, in document order.  In a tree every slot is visited at most once. -/
def descendants (d : Document) (id : NodeId) : List NodeId :=
  d.walk d.nodes.size (d.children id)

/-- The elements below `id` that have an attribute of this name, in document order. -/
def elementsWithAttribute (d : Document) (id : NodeId) (name : String) : List NodeId :=
  (d.descendants id).filter (d.hasAttribute · name)

/-- The node `id` and, down to depth `fuel`, the nodes below it, in the order of recursion: a node,
then the nodes below each of its children. -/
def preorder (d : Document) : Nat → NodeId → List NodeId
  | 0, _ => []
  | fuel + 1, id => id :: (d.children id).flatMap (d.preorder fuel)

@[simp] theorem walk_nil (d : Document) (fuel : Nat) : d.walk fuel [] = [] := by
  cases fuel <;> rfl

theorem walk_cons (d : Document) (fuel : Nat) (id : NodeId) (stack : List NodeId) :
    d.walk (fuel + 1) (id :: stack) = id :: d.walk fuel (d.children id ++ stack) := rfl

end PageTemplate.Document
