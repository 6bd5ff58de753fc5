/-
**The text nodes that placeholders leave.**

When a part of a document is bound, each placeholder in its text becomes a text node of its own,
which starts out empty and is overwritten whenever the document is rendered.  `Slots` lists these
nodes by the path of the placeholder.  The paths stand in the order in which they first occur.

Main definitions:

* `PageTemplate.Binding.Slots` — the nodes of each path;
* `PageTemplate.Binding.cutText` — cuts a text node into the nodes of its pieces;
* `PageTemplate.Binding.extract` — cuts the text below a node, and lists the slots;
* `PageTemplate.Binding.takeOver`, `PageTemplate.Binding.showIn` — one slot;
* `PageTemplate.Binding.Slots.fill` — overwrites the slots.

Main results:

* `PageTemplate.Binding.Slots.nodes_add` — what a new slot does to the nodes of each path.
-/

import PageTemplate.Binding.Placeholder
import PageTemplate.Data.Display
import PageTemplate.Document.Edit

set_option relaxedAutoImplicit false
set_option autoImplicit false

namespace PageTemplate.Binding

open PageTemplate.Data

/-! ### Slots by path -/

/-- The text nodes of each path, in document order, where the paths are in the order in which they
first occur. -/
structure Slots where
  entries : List (String × List NodeId)
  deriving DecidableEq, Repr

namespace Slots

/-- No slots. -/
def empty : Slots := ⟨[]⟩

/-- The paths, in the order in which they first occur. -/
def paths (s : Slots) : List String :=
  s.entries.map (·.1)

/-- The nodes of a path. -/
def nodes (s : Slots) (path : String) : List NodeId :=
  ((s.entries.find? (·.1 == path)).map (·.2)).getD []

/-- The number of slots of all paths together. -/
def size (s : Slots) : Nat :=
  s.entries.foldl (fun n e => n + e.2.length) 0

/-- Whether there are no slots. -/
def isEmpty (s : Slots) : Bool :=
  s.entries.isEmpty

/-- A list of slots with one more, behind those of its path. -/
def addTo (path : String) (node : NodeId) :
    List (String × List NodeId) → List (String × List NodeId)
  | [] => [(path, [node])]
  | (p, nodes) :: rest =>
      if p = path then (p, nodes ++ [node]) :: rest else (p, nodes) :: addTo path node rest

/-- The slots with one more. -/
def add (s : Slots) (path : String) (node : NodeId) : Slots :=
  ⟨addTo path node s.entries⟩

/-- A new slot comes behind those of its path, and leaves other paths alone. -/
theorem nodes_add (s : Slots) (path other : String) (node : NodeId) :
    (s.add path node).nodes other =
      if path = other then s.nodes other ++ [node] else s.nodes other := by
  obtain ⟨entries⟩ := s
  simp only [nodes, add]
  induction entries with
  | nil => by_cases h : path = other <;> simp [addTo, h]
  | cons e rest ih =>
      obtain ⟨p, ns⟩ := e
      rw [addTo]
      by_cases hp : p = path
      · subst hp
        by_cases h : p = other <;> simp [h]
      · by_cases h : p = other
        · subst h
          simp [hp, Ne.symm hp]
        · simpa [hp, h] using ih

end Slots

/-! ### Cutting text -/

/-- Lays out pieces as text nodes side by side, the first one in `node`, and lists the slots among
them. -/
def layOut (d : Document) (slots : Slots) (node : NodeId) : List Piece → Document × Slots
  | [] => (d, slots)
  | piece :: rest =>
      let text := String.ofList piece.text
      let slots :=
        match piece with
        | .slot path => slots.add (String.ofList path) node
        | .literal _ => slots
      match rest with
      | [] => (d.setText node text, slots)
      | _ :: _ =>
          let (d, next) := d.divide node text ""
          layOut d slots next rest

/-- Cuts a text node into the nodes of its pieces, and lists their slots behind `slots`. -/
def cutText (d : Document) (slots : Slots) (node : NodeId) : Document × Slots :=
  match d.text? node with
  | some text => layOut d slots node (pieces text.toList)
  | none => (d, slots)

/-- Cuts the text nodes that are reached from `node` through elements, down to depth `fuel`. -/
def extractTo : Nat → Document → Slots → NodeId → Document × Slots
  | 0, d, slots, _ => (d, slots)
  | fuel + 1, d, slots, node =>
      (d.children node).foldl
        (fun (d, slots) child =>
          match d.kind? child with
          | some (.text _) => cutText d slots child
          | some (.element _) => extractTo fuel d slots child
          | _ => (d, slots)) (d, slots)

/-- Cuts the text nodes that are reached from `node` through elements, and lists their slots. -/
def extract (d : Document) (node : NodeId) : Document × Slots :=
  extractTo (d.nodes.size + 1) d .empty node

/-! ### Filling slots -/

/-- Makes a slot of a text node.  Until something is shown in it, it is empty. -/
def takeOver (d : Document) (node : NodeId) : Document :=
  d.setText node ""

/-- Shows a value in a slot, and nothing if it is absent. -/
def showIn (d : Document) (node : NodeId) (v : Option Value) : Document :=
  d.setText node (display v)

namespace Slots

/-- Shows the value of each path in its slots. -/
def fill (s : Slots) (value : String → Option Value) (d : Document) : Document :=
  s.entries.foldl
    (fun d (path, nodes) =>
      let v := value path
      nodes.foldl (fun d node => showIn d node v) d) d

end Slots

end PageTemplate.Binding
