/-
**Trees in the slots of a document.**

A document is a table of slots, and a reader thinks of it as trees.  A `Placed` tree says which slot
each node of a tree is in, and `Document.Holds` says that a document has this tree in these slots,
with every link on both of its sides.  What a document holds depends only on the slots of the tree,
so a change elsewhere leaves it alone.

Main definitions:

* `PageTemplate.Placed` — a tree together with the slot of each of its nodes;
* `PageTemplate.Placed.ids`, `PageTemplate.Placed.tree` — its slots in document order, and the tree
  without them;
* `PageTemplate.Document.Holds` — a document has a placed tree below a given parent.

Main results:

* `PageTemplate.Document.Holds.congr` — only the slots of a placed tree are read;
* `PageTemplate.Document.Holds.move` — a tree below another parent is the same tree;
* `PageTemplate.Document.Holds.tree?` — the tree view of a document finds the trees that it holds;
* `PageTemplate.Document.Holds.markup` — and their markup is that of the document.
-/

import Mathlib.Data.List.MinMax
import Mathlib.Data.List.Nodup
import Mathlib.Data.List.Perm.Subperm
import Mathlib.Order.Lattice
import Mathlib.Order.Nat
import PageTemplate.Document.Tree

set_option relaxedAutoImplicit false
set_option autoImplicit false

namespace PageTemplate

open PageTemplate.Text

/-- A tree together with the slot of each of its nodes. -/
inductive Placed where
  | node (id : NodeId) (kind : NodeKind) (span : Option Span) (children : List Placed)

namespace Placed

/-- To prove something of all placed trees, prove it of a node whose children have it. -/
@[elab_as_elim, induction_eliminator]
theorem induction {P : Placed → Prop}
    (node : ∀ id kind span cs, (∀ c ∈ cs, P c) → P (.node id kind span cs)) : ∀ t, P t
  | .node id kind span cs => node id kind span cs fun c _ => induction node c

/-- To prove something of all lists of placed trees, prove it of a tree before others, where it
holds of the children of the tree and of the others. -/
@[elab_as_elim]
theorem forest_induction {P : List Placed → Prop} (nil : P [])
    (cons : ∀ id kind span cs ts, P cs → P ts → P (node id kind span cs :: ts)) : ∀ ts, P ts
  | [] => nil
  | node id kind span cs :: ts =>
      cons id kind span cs ts (forest_induction nil cons cs) (forest_induction nil cons ts)

/-- The slot of the topmost node. -/
def id : Placed → NodeId
  | node i _ _ _ => i

/-- What the topmost node is. -/
def kind : Placed → NodeKind
  | node _ k _ _ => k

/-- The stretch of the source that the topmost node was read from. -/
def span : Placed → Option Span
  | node _ _ s _ => s

/-- The placed trees right below the topmost node. -/
def children : Placed → List Placed
  | node _ _ _ cs => cs

@[simp] theorem id_node (i : NodeId) (k : NodeKind) (s : Option Span) (cs : List Placed) :
    (node i k s cs).id = i := rfl

@[simp] theorem kind_node (i : NodeId) (k : NodeKind) (s : Option Span) (cs : List Placed) :
    (node i k s cs).kind = k := rfl

@[simp] theorem span_node (i : NodeId) (k : NodeKind) (s : Option Span) (cs : List Placed) :
    (node i k s cs).span = s := rfl

@[simp] theorem children_node (i : NodeId) (k : NodeKind) (s : Option Span) (cs : List Placed) :
    (node i k s cs).children = cs := rfl

/-- The slots of a placed tree, in document order. -/
def ids : Placed → List NodeId
  | node i _ _ cs => i :: cs.flatMap ids

/-- The tree without its slots. -/
def tree : Placed → Tree
  | node _ k s cs => .node k s (cs.map tree)

/-- The number of nodes on the longest way down. -/
def depth : Placed → Nat
  | node _ _ _ cs => (cs.map depth).foldr max 0 + 1

@[simp] theorem ids_node (i : NodeId) (k : NodeKind) (s : Option Span) (cs : List Placed) :
    (node i k s cs).ids = i :: cs.flatMap ids := by
  rw [ids]

@[simp] theorem tree_node (i : NodeId) (k : NodeKind) (s : Option Span) (cs : List Placed) :
    (node i k s cs).tree = .node k s (cs.map tree) := by
  rw [tree]

theorem depth_node (i : NodeId) (k : NodeKind) (s : Option Span) (cs : List Placed) :
    (node i k s cs).depth = (cs.map depth).foldr max 0 + 1 := by
  rw [depth]

theorem id_mem_ids (t : Placed) : t.id ∈ t.ids := by
  cases t with
  | node i k s cs => simp

theorem ids_ne_nil (t : Placed) : t.ids ≠ [] := List.ne_nil_of_mem t.id_mem_ids

/-- The slots below a child are slots of the tree. -/
theorem mem_ids_of_child {i x : NodeId} {k : NodeKind} {s : Option Span} {cs : List Placed}
    {c : Placed} (hc : c ∈ cs) (hx : x ∈ c.ids) : x ∈ (node i k s cs).ids := by
  rw [ids_node]
  exact List.mem_cons_of_mem _ (List.mem_flatMap.2 ⟨c, hc, hx⟩)

/-- A child is less deep. -/
theorem depth_lt_of_child {i : NodeId} {k : NodeKind} {s : Option Span} {cs : List Placed}
    {c : Placed} (hc : c ∈ cs) : c.depth < (node i k s cs).depth := by
  rw [depth_node]
  have hle : c.depth ≤ (cs.map depth).foldr max 0 :=
    List.le_max_of_le' 0 (List.mem_map_of_mem hc) (Nat.le_refl _)
  omega

/-- No way down is longer than there are slots. -/
theorem depth_le_length_ids (t : Placed) : t.depth ≤ t.ids.length := by
  induction t with
  | node i k s cs ih =>
      rw [depth_node, ids_node, List.length_cons]
      have hle : (cs.map depth).foldr max 0 ≤ (cs.flatMap ids).length := by
        refine List.max_le_of_forall_le (cs.map depth) _ fun x hx => ?_
        obtain ⟨c, hc, rfl⟩ := List.mem_map.1 hx
        exact (ih c hc).trans (List.sublist_flatten_of_mem (List.mem_map_of_mem hc)).length_le
      omega

/-- The slots of a child occur once if those of the tree do. -/
theorem nodup_child {i : NodeId} {k : NodeKind} {s : Option Span} {cs : List Placed} {c : Placed}
    (h : (node i k s cs).ids.Nodup) (hc : c ∈ cs) : c.ids.Nodup := by
  rw [ids_node, List.nodup_cons] at h
  exact (List.nodup_flatMap.1 h.2).1 c hc

/-- The slots of the topmost nodes are among the slots of the trees. -/
theorem map_id_sublist (ts : List Placed) : (ts.map id).Sublist (ts.flatMap ids) := by
  induction ts with
  | nil => simp
  | cons t ts ih =>
      obtain ⟨i, k, span, cs⟩ := t
      rw [List.map_cons, List.flatMap_cons, id_node, ids_node, List.cons_append]
      exact (ih.trans (List.sublist_append_right _ _)).cons_cons _

end Placed

namespace Document

/-- The document has the placed tree in its slots, with the given parent. -/
inductive Holds (d : Document) : Option NodeId → Placed → Prop
  | node {parent : Option NodeId} {id : NodeId} {kind : NodeKind} {span : Option Span}
      {cs : List Placed} (h : d.get? id = some ⟨kind, parent, cs.map Placed.id, span⟩)
      (hcs : ∀ c ∈ cs, Holds d (some id) c) : Holds d parent (.node id kind span cs)

variable {d e : Document} {parent : Option NodeId} {t : Placed}

/-- The topmost node of a held tree. -/
theorem Holds.get? (h : d.Holds parent t) :
    d.get? t.id = some ⟨t.kind, parent, t.children.map Placed.id, t.span⟩ := by
  cases h with
  | node h _ => exact h

/-- The element at the top of a held tree. -/
theorem Holds.element? (h : d.Holds parent t) : d.element? t.id = t.kind.element? := by
  simp [Document.element?, kind?, h.get?]

theorem Holds.child (h : d.Holds parent t) {c : Placed} (hc : c ∈ t.children) :
    d.Holds (some t.id) c := by
  cases h with
  | node _ hcs => exact hcs c hc

/-- The slots of a held tree are live. -/
theorem Holds.live (h : d.Holds parent t) {x : NodeId} (hx : x ∈ t.ids) :
    ∃ n, d.get? x = some n := by
  induction h with
  | node h _ ih =>
      rw [Placed.ids_node] at hx
      rcases List.mem_cons.1 hx with rfl | hx
      · exact ⟨_, h⟩
      · obtain ⟨c, hc, hxc⟩ := List.mem_flatMap.1 hx
        exact ih c hc hxc

/-- **Only the slots of a placed tree are read.** -/
theorem Holds.congr (h : d.Holds parent t) (he : ∀ x ∈ t.ids, e.get? x = d.get? x) :
    e.Holds parent t := by
  induction h with
  | node h _ ih =>
      refine .node ?_ fun c hc => ih c hc fun x hx => he x (Placed.mem_ids_of_child hc hx)
      rw [he _ (by simp), h]

/-- A tree whose topmost node gets another parent, and is otherwise left alone. -/
theorem Holds.move {q : Option NodeId} (h : d.Holds parent t) (hn : t.ids.Nodup)
    (htop : e.get? t.id = some ⟨t.kind, q, t.children.map Placed.id, t.span⟩)
    (he : ∀ x ∈ t.ids, x ≠ t.id → e.get? x = d.get? x) : e.Holds q t := by
  obtain ⟨i, k, s, cs⟩ := t
  refine .node htop fun c hc => (h.child hc).congr fun x hx => ?_
  refine he x (Placed.mem_ids_of_child hc hx) ?_
  rintro rfl
  rw [Placed.ids_node, List.nodup_cons] at hn
  exact hn.1 (List.mem_flatMap.2 ⟨c, hc, hx⟩)

/-- A node of a held tree is the parent of its children. -/
theorem Holds.parent_of_child (h : d.Holds parent t) {i j : NodeId} {n : Node} (hi : i ∈ t.ids)
    (hn : d.get? i = some n) (hj : j ∈ n.children) : ∃ m, d.get? j = some m ∧ m.parent = some i := by
  induction h with
  | @node parent id kind span cs hget hcs ih =>
      rw [Placed.ids_node] at hi
      rcases List.mem_cons.1 hi with rfl | hi
      · rw [hget] at hn
        cases hn
        obtain ⟨c, hc, rfl⟩ := List.mem_map.1 hj
        exact ⟨_, (hcs c hc).get?, rfl⟩
      · obtain ⟨c, hc, hic⟩ := List.mem_flatMap.1 hi
        exact ih c hc hic

/-- A node of a held tree has each of its children once. -/
theorem Holds.nodup_children (h : d.Holds parent t) (hnodup : t.ids.Nodup) {i : NodeId} {n : Node}
    (hi : i ∈ t.ids) (hn : d.get? i = some n) : n.children.Nodup := by
  induction h with
  | @node parent id kind span cs hget hcs ih =>
      rw [Placed.ids_node] at hi
      rcases List.mem_cons.1 hi with rfl | hi
      · rw [hget] at hn
        cases hn
        rw [Placed.ids_node, List.nodup_cons] at hnodup
        exact hnodup.2.sublist (Placed.map_id_sublist cs)
      · obtain ⟨c, hc, hic⟩ := List.mem_flatMap.1 hi
        exact ih c hc (Placed.nodup_child hnodup hc) hic

theorem lt_size_of_get? {id : NodeId} {n : Node} (h : d.get? id = some n) : id < d.nodes.size := by
  rw [get?_eq_some_iff] at h
  exact (Array.getElem?_eq_some_iff.1 h).1

/-- There are no more live slots than slots. -/
theorem length_le_size {xs : List NodeId} (hn : xs.Nodup) (h : ∀ x ∈ xs, ∃ n, d.get? x = some n) :
    xs.length ≤ d.nodes.size := by
  have hsub : xs ⊆ List.range d.nodes.size := by
    intro x hx
    obtain ⟨n, hx⟩ := h x hx
    exact List.mem_range.2 (lt_size_of_get? hx)
  have := (hn.subperm hsub).length_le
  rwa [List.length_range] at this

/-- A held tree is no deeper than there are slots. -/
theorem Holds.depth_le (h : d.Holds parent t) (hn : t.ids.Nodup) : t.depth ≤ d.nodes.size :=
  le_trans t.depth_le_length_ids (length_le_size hn fun _ hx => h.live hx)

/-! ### The tree view -/

/-- A list whose members all have an image has the list of these as its image. -/
theorem filterMap_eq_map {f : NodeId → Option Tree} {cs : List Placed}
    (h : ∀ c ∈ cs, f c.id = some c.tree) :
    (cs.map Placed.id).filterMap f = cs.map Placed.tree := by
  induction cs with
  | nil => rfl
  | cons c cs ih =>
      rw [List.map_cons, List.filterMap_cons, h c (List.mem_cons_self ..), List.map_cons,
        ih fun c hc => h c (List.mem_cons_of_mem _ hc)]

/-- With rounds for its depth, the tree view finds a held tree. -/
theorem Holds.treeTo (h : d.Holds parent t) {fuel : Nat} (hf : t.depth ≤ fuel) :
    d.treeTo fuel t.id = some t.tree := by
  induction h generalizing fuel with
  | @node parent id kind span cs h _ ih =>
      obtain ⟨fuel, rfl⟩ : ∃ k, fuel = k + 1 := by
        rw [Placed.depth_node] at hf
        exact ⟨fuel - 1, by omega⟩
      rw [Document.treeTo, Placed.id_node, h, Option.map_some, Placed.tree_node, filterMap_eq_map]
      intro c hc
      have hlt : c.depth < (Placed.node id kind span cs).depth := Placed.depth_lt_of_child hc
      exact ih c hc (by omega)

/-- **The tree view of a document finds the trees that it holds.** -/
theorem Holds.tree? (h : d.Holds parent t) (hn : t.ids.Nodup) : d.tree? t.id = some t.tree :=
  h.treeTo (h.depth_le hn)

/-- The trees right below the topmost node of a held tree. -/
theorem Holds.subtrees (h : d.Holds parent t) (hn : t.ids.Nodup) :
    d.subtrees t.id = t.children.map Placed.tree := by
  rw [Document.subtrees, children, h.get?, Option.map_some, Option.getD_some]
  refine filterMap_eq_map fun c hc => ?_
  cases t with
  | node id kind span cs => exact (h.child hc).tree? (Placed.nodup_child hn hc)

/-- The markup below the topmost node of a held tree. -/
theorem Holds.innerMarkup (h : d.Holds parent t) (hn : t.ids.Nodup) :
    d.innerMarkup t.id =
      String.ofList (Tree.markupAll (d.holdsRawText t.id) (t.children.map Placed.tree)) := by
  rw [Document.innerMarkup, h.subtrees hn]

/-- **The markup of a document is that of the tree that it holds at its root.** -/
theorem Holds.markup {span : Option Span} {cs : List Placed}
    (h : d.Holds parent (.node root .document span cs))
    (hn : (Placed.node root .document span cs).ids.Nodup) :
    d.markup = String.ofList (Tree.markupAll false (cs.map Placed.tree)) := by
  have hraw : d.holdsRawText root = false := by
    have htop : d.element? root = none := h.element?
    rw [holdsRawText, htop, Option.any_none]
  have := h.innerMarkup hn
  simpa [Document.markup, hraw] using this

end Document

end PageTemplate
