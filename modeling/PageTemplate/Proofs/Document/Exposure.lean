/-
**Nodes that are reached through elements.**

A walk that goes down through elements only does not see what is below other nodes.  Where nothing but
elements has children, there is nothing that it does not see.

Main definitions:

* `PageTemplate.Document.exposed` — the nodes below a node that are reached through elements.

Main results:

* `PageTemplate.Document.Holds.exposed` — what is reached through elements in a held tree;
* `PageTemplate.Document.exposed_eq_descendants` — where only elements have children, all nodes are
  reached through elements.
-/

import PageTemplate.Proofs.Document.Forest

set_option relaxedAutoImplicit false
set_option autoImplicit false

namespace PageTemplate

open PageTemplate.Text

namespace Document

/-- The nodes of the stack, and the nodes reached from these through elements.  Each round visits one
node. -/
def exposedFrom (d : Document) : Nat → List NodeId → List NodeId
  | 0, _ => []
  | _ + 1, [] => []
  | fuel + 1, id :: stack =>
      id :: exposedFrom d fuel ((if (d.element? id).isSome then d.children id else []) ++ stack)

/-- **The nodes below `id` that are reached through elements**, in document order. -/
def exposed (d : Document) (id : NodeId) : List NodeId :=
  d.exposedFrom d.nodes.size (d.children id)

end Document

namespace Placed

/-- The slots of a placed tree that are reached through elements, in document order. -/
def exposed : Placed → List NodeId
  | node id kind _ cs => id :: if kind.element?.isSome then cs.flatMap exposed else []

theorem exposed_node (id : NodeId) (kind : NodeKind) (span : Option Span) (cs : List Placed) :
    (node id kind span cs).exposed =
      id :: if kind.element?.isSome then cs.flatMap exposed else [] := by
  rw [exposed]

end Placed

namespace Document

variable {d : Document} {p : Option NodeId} {t : Placed} {id : NodeId}

/-- The walk through elements visits what is reached through elements. -/
theorem exposedFrom_eq (fuel : Nat) (ts : List Placed) (hts : ∀ t ∈ ts, ∃ p, d.Holds p t)
    (hf : (ts.flatMap Placed.ids).length ≤ fuel) :
    d.exposedFrom fuel (ts.map Placed.id) = ts.flatMap Placed.exposed := by
  induction fuel generalizing ts with
  | zero =>
      cases ts with
      | nil => rfl
      | cons t ts =>
          have hpos := List.length_pos_iff.2 t.ids_ne_nil
          rw [List.flatMap_cons, List.length_append] at hf
          omega
  | succ fuel ih =>
      cases ts with
      | nil => rfl
      | cons t ts =>
          obtain ⟨id, kind, span, cs⟩ := t
          obtain ⟨p, ht⟩ := hts _ (List.mem_cons_self ..)
          have hrest := fun t ht => hts t (List.mem_cons_of_mem _ ht)
          have helement : d.element? id = kind.element? := ht.element?
          have hchildren : d.children id = cs.map Placed.id := children_of_get? ht.get?
          rw [List.flatMap_cons, Placed.ids_node, List.cons_append, List.length_cons,
            List.length_append] at hf
          rw [List.map_cons, Placed.id_node, exposedFrom, helement, List.flatMap_cons,
            Placed.exposed_node, List.cons_append]
          congr 1
          split
          · have hheld : ∀ t ∈ cs ++ ts, ∃ p, d.Holds p t := by
              intro t ht'
              rcases List.mem_append.1 ht' with h | h
              · exact ⟨_, ht.child h⟩
              · exact hrest t h
            have hlen : ((cs ++ ts).flatMap Placed.ids).length ≤ fuel := by
              rw [List.flatMap_append, List.length_append]
              omega
            rw [hchildren, ← List.map_append, ih _ hheld hlen, List.flatMap_append]
          · exact ih ts hrest (by omega)

/-- What is reached through elements below the topmost node of a held tree. -/
theorem Holds.exposed (h : d.Holds p t) (hn : t.ids.Nodup) :
    d.exposed t.id = t.children.flatMap Placed.exposed := by
  obtain ⟨id, kind, span, cs⟩ := t
  have hsize := length_le_size hn fun _ hx => h.live hx
  rw [Placed.ids_node, List.length_cons] at hsize
  rw [Document.exposed, children_of_get? h.get?, Placed.children_node]
  exact exposedFrom_eq _ cs (fun c hc => ⟨_, h.child hc⟩) (by omega)

/-- Nothing is below a slot without a node. -/
theorem exposed_of_dead (hdead : d.get? id = none) : d.exposed id = [] := by
  rw [Document.exposed, children_eq_nil_of_dead hdead]
  cases d.nodes.size <;> rfl

theorem contains_of_mem_exposedFrom (h : d.Linked []) {x : NodeId} {fuel : Nat} {stack : List NodeId}
    (hstack : ∀ y ∈ stack, d.contains y = true) (hx : x ∈ d.exposedFrom fuel stack) :
    d.contains x = true := by
  induction fuel generalizing stack with
  | zero => exact absurd hx List.not_mem_nil
  | succ fuel ih =>
      cases stack with
      | nil => cases hx
      | cons y stack =>
          rcases List.mem_cons.1 hx with rfl | hx
          · exact hstack x (List.mem_cons_self ..)
          · refine ih (fun z hz => ?_) hx
            rcases List.mem_append.1 hz with hz | hz
            · split at hz
              · exact contains_of_parent? (h.child y z hz)
              · cases hz
            · exact hstack z (List.mem_cons_of_mem _ hz)

/-- What is reached is live. -/
theorem contains_of_mem_exposed (h : d.Linked []) {x : NodeId} (hx : x ∈ d.exposed id) :
    d.contains x = true :=
  contains_of_mem_exposedFrom h (fun c hc => contains_of_parent? (h.child id c hc)) hx

/-- In a held tree in which only elements have children, all is reached through elements. -/
theorem Holds.exposed_eq_ids (h : d.Holds p t)
    (hplain : ∀ x ∈ t.ids, d.children x ≠ [] → d.element? x ≠ none) : t.exposed = t.ids := by
  induction h with
  | @node parent id kind span cs hget hcs ih =>
      have hchildren : d.children id = cs.map Placed.id := children_of_get? hget
      have helement : d.element? id = kind.element? := by
        simp [Document.element?, Document.kind?, hget]
      have hbelow : cs.flatMap Placed.exposed = cs.flatMap Placed.ids :=
        List.flatMap_congr fun c hc =>
          ih c hc fun x hx => hplain x (Placed.mem_ids_of_child hc hx)
      rw [Placed.exposed_node, Placed.ids_node]
      split
      · rw [hbelow]
      · next hnone =>
          cases cs with
          | nil => rfl
          | cons c cs =>
              have := hplain id (by simp) (by simp [hchildren])
              rw [helement] at this
              exact absurd (Option.isSome_iff_ne_none.2 this) hnone

/-- **Where only elements have children, all nodes are reached through elements.** -/
theorem exposed_eq_descendants (h : d.Linked []) (hfinite : d.FiniteBelow id)
    (hplain : ∀ x, d.Below x id → d.children x ≠ [] → d.element? x ≠ none) :
    d.exposed id = d.descendants id := by
  cases hlive : d.contains id with
  | false =>
      rw [contains_eq_false_iff] at hlive
      rw [exposed_of_dead hlive, descendants_of_dead hlive]
  | true =>
      obtain ⟨t, rfl, ht, hn, hmem⟩ := h.exists_held hfinite hlive
      rw [ht.exposed hn, ht.descendants hn]
      refine List.flatMap_congr fun c hc => (ht.child hc).exposed_eq_ids fun x hx => hplain x ?_
      -- a node in a child is below the topmost node
      obtain ⟨i, k, s, cs⟩ := t
      have hup := (hmem x).1 (Placed.mem_ids_of_child hc hx)
      refine (Relation.reflTransGen_iff_eq_or_transGen.1 hup).resolve_left fun heq => ?_
      rw [Placed.ids_node, List.nodup_cons] at hn
      exact hn.1 (List.mem_flatMap.2 ⟨c, hc, by rw [Placed.id_node] at heq; rwa [heq]⟩)

end Document

end PageTemplate
