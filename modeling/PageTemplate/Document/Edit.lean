/-
**Changing documents.**

Links are only ever changed on both of their sides.  A node that is put somewhere is first taken
from where it was, so it never has two parents.  Nothing is asked of the numbers that an operation
is given: where a number names no live node, or a link would make a node its own parent, nothing
happens.

Main definitions:

* `PageTemplate.Document.setText`, `PageTemplate.Document.eraseAttribute` — changes of one node;
* `PageTemplate.Document.detach`, `PageTemplate.Document.insertBefore`,
  `PageTemplate.Document.append` — changes of links;
* `PageTemplate.Document.divide`, `PageTemplate.Document.splitText?` — one text node into two;
* `PageTemplate.Document.remove` — freeing a node with everything below it;
* `PageTemplate.Document.clone` — a copy of a node with everything below it.

Main results:

* `PageTemplate.Document.splitBytes?_append` — a text is cut into parts that make it up.
-/

import PageTemplate.Document.Basic

set_option relaxedAutoImplicit false
set_option autoImplicit false

namespace PageTemplate.Document

open PageTemplate.Markup PageTemplate.Text

/-! ### One node -/

/-- Replaces the text of a text node.  Other nodes stay as they are. -/
def setText (d : Document) (id : NodeId) (text : String) : Document :=
  d.update id fun n =>
    match n.kind with
    | .text _ => { n with kind := .text text }
    | _ => n

/-- Takes the attributes of this name from an element. -/
def eraseAttribute (d : Document) (id : NodeId) (name : String) : Document :=
  d.update id fun n =>
    match n.kind with
    | .element e => { n with kind := .element (e.eraseAttribute name) }
    | _ => n

/-! ### Links -/

/-- Takes a node from its parent.  What is below the node stays below it. -/
def detach (d : Document) (id : NodeId) : Document :=
  match d.parent? id with
  | none => d
  | some p =>
      (d.update p fun n => { n with children := n.children.filter (· != id) }).update id
        fun n => { n with parent := none }

/-- Puts `child` before the first `anchor` of a list, or at its end if there is none. -/
def placeBefore (child anchor : NodeId) : List NodeId → List NodeId
  | [] => [child]
  | c :: cs => if c = anchor then child :: c :: cs else c :: placeBefore child anchor cs

/-- Puts `child` before the anchor of a list, or at its end if the anchor is missing. -/
def place (child : NodeId) (anchor : Option NodeId) (children : List NodeId) : List NodeId :=
  match anchor with
  | some a => placeBefore child a children
  | none => children ++ [child]

/-- Makes `child` a child of `parent`, before `anchor`.  Without an anchor, or with one that is no
child of `parent`, it becomes the last child. -/
def insertBefore (d : Document) (parent child : NodeId) (anchor : Option NodeId) : Document :=
  if d.contains parent && d.contains child && parent != child then
    ((d.detach child).update parent fun n =>
      { n with children := place child anchor n.children }).update child
        fun n => { n with parent := some parent }
  else d

/-- Makes `child` the last child of `parent`. -/
def append (d : Document) (parent child : NodeId) : Document :=
  d.insertBefore parent child none

/-! ### Splitting text -/

/-- Cuts a text behind `n` bytes, if a character ends there. -/
def splitBytes? : Nat → List Char → Option (List Char × List Char)
  | 0, cs => some ([], cs)
  | _ + 1, [] => none
  | n + 1, c :: cs =>
      if c.utf8Size ≤ n + 1 then
        (splitBytes? (n + 1 - c.utf8Size) cs).map fun p => (c :: p.1, p.2)
      else none
termination_by _ cs => cs

/-- Both parts together are the text, and the first one has the given number of bytes. -/
theorem splitBytes?_append {n : Nat} {cs : List Char} {p : List Char × List Char}
    (h : splitBytes? n cs = some p) : p.1 ++ p.2 = cs ∧ byteSize p.1 = n := by
  fun_induction splitBytes? n cs generalizing p with
  | case1 cs =>
      cases h
      simp
  | case2 n => simp at h
  | case3 n c cs hc ih =>
      obtain ⟨q, hq, rfl⟩ := Option.map_eq_some_iff.1 h
      obtain ⟨h₁, h₂⟩ := ih hq
      refine ⟨by simp [h₁], ?_⟩
      simp only [byteSize_cons, h₂]
      omega
  | case4 n c cs hc => simp at h

/-- Makes a new text node with the text `tail` right behind the node `id`, which keeps the text
`head`.  The new node has the span of `id`, and no parent if `id` has none. -/
def divide (d : Document) (id : NodeId) (head tail : String) : Document × NodeId :=
  let (e, new) := (d.setText id head).alloc (.text tail) (d.span? id)
  match e.parent? id with
  | none => (e, new)
  | some p => (e.insertBefore p new (e.nextSibling? id), new)

/-- Splits a text node behind `offset` bytes, and gives the new node with the second part.  There is
no result if the text is shorter or no character ends there.  Behind anything but a text node the
new one is empty. -/
def splitText? (d : Document) (id : NodeId) (offset : Nat) : Option (Document × NodeId) :=
  match d.text? id with
  | none => some (d.divide id "" "")
  | some text =>
      (splitBytes? offset text.toList).map fun p =>
        d.divide id (String.ofList p.1) (String.ofList p.2)

/-! ### Subtrees -/

/-- Empties a slot, which is then the next to be used. -/
def release (d : Document) (id : NodeId) : Document :=
  ⟨d.nodes.setIfInBounds id none, id :: d.free⟩

/-- Frees the nodes on a stack and everything below them: the top one, then its children, the last
child first, then the rest of the stack.  Each round takes one number from the stack. -/
def releaseAll : Nat → List NodeId → Document → Document
  | 0, _, d => d
  | _ + 1, [], d => d
  | fuel + 1, id :: stack, d =>
      match d.get? id with
      | none => releaseAll fuel stack d
      | some n => releaseAll fuel (n.children.reverse ++ stack) (d.release id)

/-- Takes a node and everything below it out of the document.  The document node stays.  A node is
on the stack once as the child of its parent, so there are no more rounds than slots. -/
def remove (d : Document) (id : NodeId) : Document :=
  if id != root && d.contains id then releaseAll (d.nodes.size + 1) [id] (d.detach id) else d

/-- Copies a node and, down to depth `fuel`, what is below it.  The copy of a node is made before
those of its children.  A slot without a node is its own copy. -/
def cloneTo : Nat → NodeId → Document → Document × NodeId
  | 0, id, d => (d, id)
  | fuel + 1, id, d =>
      match d.get? id with
      | none => (d, id)
      | some n =>
          let (d, copy) := d.alloc n.kind n.span
          let d := n.children.foldl
            (fun d child =>
              let (d, childCopy) := cloneTo fuel child d
              d.append copy childCopy) d
          (d, copy)

/-- Copies a node and everything below it.  The copy has no parent.  No node of a tree lies deeper
than there are slots. -/
def clone (d : Document) (id : NodeId) : Document × NodeId :=
  cloneTo (d.nodes.size + 1) id d

end PageTemplate.Document
