/-
**Walking through a held tree.**

A walk visits the nodes of a held tree in document order, so that the search for elements with an
attribute finds those of the tree.

Main definitions:

* `PageTemplate.Placed.carriers`, `PageTemplate.Placed.carrying` — the elements of a placed tree with an
  attribute of a given name, without and with what is below them.

Main results:

* `PageTemplate.Document.walk_eq` — a walk visits the slots of the trees on its stack;
* `PageTemplate.Document.Holds.elementsWithAttribute` — the elements that the search finds.
-/

import PageTemplate.Document.Walk
import PageTemplate.Proofs.Document.Effects
import PageTemplate.Proofs.Document.Placed

set_option relaxedAutoImplicit false
set_option autoImplicit false

namespace PageTemplate

/-- Whether a node is an element with an attribute of this name. -/
def NodeKind.carries (name : String) (kind : NodeKind) : Bool :=
  kind.element?.any (·.hasAttribute name)

/-- The elements of a placed tree that have an attribute of this name, in document order. -/
def Placed.carriers (name : String) : Placed → List NodeId
  | node id kind _ cs => (if kind.carries name then [id] else []) ++ cs.flatMap (carriers name)

theorem Placed.carriers_node (name : String) (id : NodeId) (kind : NodeKind)
    (span : Option Text.Span) (cs : List Placed) :
    (node id kind span cs).carriers name =
      (if kind.carries name then [id] else []) ++ cs.flatMap (carriers name) := by
  rw [carriers]

/-- The same elements with what is below them. -/
def Placed.carrying (name : String) : Placed → List Placed
  | node id kind span cs =>
      (if kind.carries name then [node id kind span cs] else []) ++ cs.flatMap (carrying name)

theorem Placed.carrying_node (name : String) (id : NodeId) (kind : NodeKind)
    (span : Option Text.Span) (cs : List Placed) :
    (node id kind span cs).carrying name =
      (if kind.carries name then [node id kind span cs] else []) ++ cs.flatMap (carrying name) := by
  rw [carrying]

theorem Placed.map_id_carrying (name : String) (ts : List Placed) :
    (ts.flatMap (carrying name)).map id = ts.flatMap (carriers name) := by
  induction ts using Placed.forest_induction with
  | nil => rfl
  | cons i kind span cs ts ihcs ihts =>
      rw [List.flatMap_cons, List.map_append, ihts, carrying_node, List.map_append, ihcs,
        List.flatMap_cons, carriers_node]
      split <;> rfl

/-- They are among the slots of the trees. -/
theorem Placed.mem_ids_of_carrying {name : String} {ts : List Placed} {u : Placed}
    (hu : u ∈ ts.flatMap (carrying name)) {x : NodeId} (hx : x ∈ u.ids) : x ∈ ts.flatMap ids := by
  induction ts using Placed.forest_induction with
  | nil => cases hu
  | cons i kind span cs ts ihcs ihts =>
      rw [List.flatMap_cons, List.mem_append, carrying_node, List.mem_append] at hu
      rw [List.flatMap_cons, List.mem_append, ids_node, List.mem_cons]
      rcases hu with (hu | hu) | hu
      · split at hu
        · rw [List.mem_singleton.1 hu, ids_node, List.mem_cons] at hx
          exact .inl hx
        · cases hu
      · exact .inl (.inr (ihcs hu))
      · exact .inr (ihts hu)

namespace Document

variable {d : Document} {p : Option NodeId} {t : Placed}

/-- Elements with an attribute are on top of held trees. -/
theorem Holds.of_carrying {ts : List Placed} {name : String} (hts : ∀ t ∈ ts, d.Holds p t)
    (hn : (ts.flatMap Placed.ids).Nodup) {u : Placed} (hu : u ∈ ts.flatMap (Placed.carrying name)) :
    ∃ q, d.Holds q u ∧ u.ids.Nodup ∧ u.kind.carries name = true := by
  induction ts using Placed.forest_induction generalizing p with
  | nil => cases hu
  | cons id kind span cs ts ihcs ihts =>
      rw [List.flatMap_cons] at hn
      obtain ⟨hnode, hbehind, -⟩ := List.nodup_append.1 hn
      have hheld := hts _ (List.mem_cons_self ..)
      rw [List.flatMap_cons, List.mem_append, Placed.carrying_node, List.mem_append] at hu
      rcases hu with (hu | hu) | hu
      · split at hu
        · rename_i hcarries
          rw [List.mem_singleton.1 hu]
          exact ⟨p, hheld, hnode, hcarries⟩
        · cases hu
      · rw [Placed.ids_node, List.nodup_cons] at hnode
        exact ihcs (fun c hc => hheld.child hc) hnode.2 hu
      · exact ihts (fun t ht => hts t (List.mem_cons_of_mem _ ht)) hbehind hu

theorem Holds.hasAttribute (h : d.Holds p t) (name : String) :
    d.hasAttribute t.id name = t.kind.carries name := by
  rw [Document.hasAttribute, h.element?, NodeKind.carries]

/-- The elements with an attribute are found among the slots of a held tree. -/
theorem Holds.filter_ids (h : d.Holds p t) (name : String) :
    t.ids.filter (d.hasAttribute · name) = t.carriers name := by
  induction t generalizing p with
  | node id kind span cs ih =>
      have hid : d.hasAttribute id name = kind.carries name := h.hasAttribute name
      have hcs : (cs.flatMap Placed.ids).filter (d.hasAttribute · name) =
          cs.flatMap (Placed.carriers name) := by
        rw [List.filter_flatMap]
        exact List.flatMap_congr fun c hc => ih c hc (h.child hc)
      rw [Placed.ids_node, Placed.carriers_node, ← hcs, ← hid, List.filter_cons]
      split <;> rfl

/-- **A walk visits the slots of the trees on its stack**, with a round for each of them. -/
theorem walk_eq (fuel : Nat) (ts : List Placed) (hts : ∀ t ∈ ts, ∃ p, d.Holds p t)
    (hf : (ts.flatMap Placed.ids).length ≤ fuel) :
    d.walk fuel (ts.map Placed.id) = ts.flatMap Placed.ids := by
  induction fuel generalizing ts with
  | zero =>
      rw [List.length_eq_zero_iff.1 (Nat.le_zero.1 hf)]
      rfl
  | succ fuel ih =>
      cases ts with
      | nil => rfl
      | cons t ts =>
          obtain ⟨id, kind, span, cs⟩ := t
          obtain ⟨p, ht⟩ := hts _ (List.mem_cons_self ..)
          have hchildren : d.children id = cs.map Placed.id := children_of_get? ht.get?
          have hheld : ∀ u ∈ cs ++ ts, ∃ p, d.Holds p u := by
            intro u hu
            rcases List.mem_append.1 hu with hu | hu
            · exact ⟨_, ht.child hu⟩
            · exact hts u (List.mem_cons_of_mem _ hu)
          rw [List.flatMap_cons, Placed.ids_node, List.cons_append, ← List.flatMap_append,
            List.length_cons] at hf
          rw [List.map_cons, Placed.id_node, walk_cons, hchildren, ← List.map_append,
            ih _ hheld (Nat.le_of_succ_le_succ hf), List.flatMap_cons, Placed.ids_node,
            List.cons_append, List.flatMap_append]

/-- The nodes below the topmost node of a held tree are those of its children. -/
theorem Holds.descendants (h : d.Holds p t) (hn : t.ids.Nodup) :
    d.descendants t.id = t.children.flatMap Placed.ids := by
  obtain ⟨id, kind, span, cs⟩ := t
  have hsize := length_le_size hn fun _ hx => h.live hx
  rw [Placed.ids_node, List.length_cons] at hsize
  have hchildren : d.children id = cs.map Placed.id := children_of_get? h.get?
  rw [Document.descendants, Placed.id_node, hchildren,
    walk_eq _ cs (fun c hc => ⟨_, h.child hc⟩) (Nat.le_of_succ_le hsize), Placed.children_node]

/-- **The search for an attribute finds the elements below the topmost node** of a held tree. -/
theorem Holds.elementsWithAttribute (h : d.Holds p t) (hn : t.ids.Nodup) (name : String) :
    d.elementsWithAttribute t.id name = t.children.flatMap (Placed.carriers name) := by
  rw [Document.elementsWithAttribute, h.descendants hn, List.filter_flatMap]
  obtain ⟨id, kind, span, cs⟩ := t
  exact List.flatMap_congr fun c hc => (h.child hc).filter_ids name

end Document

end PageTemplate
