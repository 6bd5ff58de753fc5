/-
**Removing a node frees one tree.**

In a document without loops a node is on top of a tree, and to remove it empties the slots of this
tree and no others.  What is left is as it was, but for the parent of the removed node, which has one
child less.  So the nodes below any node are those that were below it, without the removed ones.

Main definitions:

* `PageTemplate.Document.branch` — a node with the nodes below it;
* `PageTemplate.Document.Removal` — what is left without a branch.

Main results:

* `PageTemplate.Document.Freed.size_add` — each freed node is counted once;
* `PageTemplate.Document.Consistent.branch_eq` — a branch has the slots of a held tree;
* `PageTemplate.Document.descendants_of_pruned` — the nodes below a node when others are gone;
* `PageTemplate.Document.remove_removal` — what removing leaves.
-/

import PageTemplate.Proofs.Document.Orderly

set_option relaxedAutoImplicit false
set_option autoImplicit false

namespace PageTemplate.Document

open Relation

variable {d e : Document} {id : NodeId}

/-- A node and the nodes below it, in document order. -/
def branch (d : Document) (id : NodeId) : List NodeId := id :: d.descendants id

theorem Holds.branch {p : Option NodeId} {t : Placed} (h : d.Holds p t) (hn : t.ids.Nodup) :
    d.branch t.id = t.ids := by
  obtain ⟨i, k, s, cs⟩ := t
  rw [Document.branch, h.descendants hn, Placed.id_node, Placed.children_node, Placed.ids_node]

/-- Each freed node was counted once. -/
theorem Freed.size_add {xs : List NodeId} (h : Freed d e xs) : e.size + xs.length = d.size := by
  obtain ⟨freed, hfree, hperm⟩ := h.stack
  have hlen : e.free.length = xs.length + d.free.length := by
    rw [hfree, List.length_append, hperm.length_eq]
  have hle := h.slots.length_free_le
  rw [Document.size, Document.size, ← h.size]
  omega

theorem size_detach (d : Document) (id : NodeId) : (d.detach id).size = d.size := by
  rw [size, size, size_nodes_detach, free_detach]

/-- **A branch without loops has the slots of a held tree**, which are those of the node and of what
is below it. -/
theorem Consistent.branch_eq (h : d.Consistent) (hfinite : d.FiniteBelow id)
    (hlive : d.contains id = true) :
    ∃ t : Placed, t.id = id ∧ d.Holds (d.parent? id) t ∧ t.ids.Nodup ∧ d.branch id = t.ids ∧
      (∀ x, x ∈ t.ids ↔ x = id ∨ d.Below x id) ∧ ∀ p, d.parent? id = some p → p ∉ t.ids := by
  obtain ⟨t, rfl, ht, hn, hmem⟩ := h.exists_held hfinite hlive
  refine ⟨t, rfl, ht, hn, ht.branch hn, fun x => ?_, fun p hp hpt => ?_⟩
  · rw [hmem, reflTransGen_iff_eq_or_transGen, eq_comm]
    rfl
  · exact h.not_finiteBelow (TransGen.head' hp ((hmem p).1 hpt)) hfinite

/-! ### What is left of the trees -/

/-- The document `e` has lost the nodes `gone`, among them everything below them, and all others are
in it without children among these. -/
structure Pruned (d e : Document) (gone : List NodeId) : Prop where
  dead : ∀ x ∈ gone, e.get? x = none
  below : ∀ x ∈ gone, ∀ c ∈ d.children x, c ∈ gone
  kept : ∀ x, x ∉ gone → e.get? x =
    (d.get? x).map fun n => { n with children := n.children.filter (· ∉ gone) }

variable {gone : List NodeId}

/-- What is below a lost node is lost. -/
theorem Pruned.ids_subset (h : Pruned d e gone) {p : Option NodeId} {t : Placed} (ht : d.Holds p t)
    (hid : t.id ∈ gone) : ∀ x ∈ t.ids, x ∈ gone := by
  induction ht with
  | @node p id kind span cs hget hcs ih =>
      intro x hx
      rw [Placed.ids_node] at hx
      rcases List.mem_cons.1 hx with rfl | hx
      · exact hid
      · obtain ⟨c, hc, hxc⟩ := List.mem_flatMap.1 hx
        refine ih c hc (h.below id hid c.id ?_) x hxc
        rw [children_of_get? hget]
        exact List.mem_map.2 ⟨c, hc, rfl⟩

/-- Of trees that stand side by side there is left what has not been lost. -/
theorem Pruned.exists_held (h : Pruned d e gone) (p : Option NodeId) (ts : List Placed)
    (hts : ∀ t ∈ ts, d.Holds p t) : ∃ us : List Placed, (∀ u ∈ us, e.Holds p u) ∧
      us.map Placed.id = (ts.map Placed.id).filter (· ∉ gone) ∧
      us.flatMap Placed.ids = (ts.flatMap Placed.ids).filter (· ∉ gone) := by
  induction ts using Placed.forest_induction generalizing p with
  | nil => exact ⟨[], by simp, rfl, rfl⟩
  | cons i kind span cs ts ihcs ihts =>
      have ht := hts _ (List.mem_cons_self ..)
      obtain ⟨us, hus, hid, hids⟩ := ihts p fun t ht => hts t (List.mem_cons_of_mem _ ht)
      rw [List.map_cons, List.flatMap_cons, List.filter_append, Placed.id_node]
      by_cases hi : i ∈ gone
      · have hall := h.ids_subset ht hi
        have hnone : (Placed.node i kind span cs).ids.filter (· ∉ gone) = [] := by
          simpa [List.filter_eq_nil_iff] using hall
        exact ⟨us, hus, by simp [hi, hid], by rw [hnone, hids, List.nil_append]⟩
      · obtain ⟨vs, hvs, hvid, hvids⟩ := ihcs (some i) fun c hc => ht.child hc
        have hget : d.get? i = some ⟨kind, p, cs.map Placed.id, span⟩ := ht.get?
        refine ⟨.node i kind span vs :: us, ?_, by simp [hi, hid], by simp [hi, hids, hvids]⟩
        refine List.forall_mem_cons.2 ⟨.node ?_ hvs, hus⟩
        rw [h.kept i hi, hget, Option.map_some, hvid]

/-- **Below any node there is left what has not been lost**, in the same order. -/
theorem Pruned.descendants (h : Pruned d e gone) (hd : d.Consistent) (hfinite : d.FiniteBelow id) :
    e.descendants id = (d.descendants id).filter (· ∉ gone) := by
  cases hlive : d.contains id with
  | false =>
      have hdead := contains_eq_false_iff.1 hlive
      have hdead' : e.get? id = none := by
        by_cases hid : id ∈ gone
        · exact h.dead id hid
        · rw [h.kept id hid, hdead, Option.map_none]
      rw [descendants_of_dead hdead, descendants_of_dead hdead', List.filter_nil]
  | true =>
      obtain ⟨t, rfl, ht, hn, -⟩ := hd.exists_held hfinite hlive
      obtain ⟨i, kind, span, cs⟩ := t
      rw [ht.descendants hn, Placed.id_node, Placed.children_node]
      by_cases hi : i ∈ gone
      · have hall := h.ids_subset ht hi
        rw [descendants_of_dead (h.dead i hi), eq_comm, List.filter_eq_nil_iff]
        intro x hx
        simpa using hall x (by rw [Placed.ids_node]; exact List.mem_cons_of_mem _ hx)
      · obtain ⟨us, hus, hid, hids⟩ := h.exists_held (some i) cs fun c hc => ht.child hc
        have hget : d.get? i = some ⟨kind, d.parent? i, cs.map Placed.id, span⟩ := ht.get?
        have hleft : e.Holds (d.parent? i) (.node i kind span us) := by
          refine .node ?_ hus
          rw [h.kept i hi, hget, Option.map_some, hid]
        have hnodup : (Placed.node i kind span us).ids.Nodup := by
          rw [Placed.ids_node, List.nodup_cons] at hn ⊢
          rw [hids]
          exact ⟨fun hmem => hn.1 (List.mem_of_mem_filter hmem), hn.2.filter _⟩
        exact (hleft.descendants hnodup).trans hids

/-! ### Removing -/

/-- The document `e` is `d` without the node `id` and everything below it. -/
structure Removal (d e : Document) (id : NodeId) : Prop where
  /-- The branch has the node and what is below it, -/
  mem_branch : ∀ x, x ∈ d.branch id ↔ x = id ∨ d.Below x id
  /-- all of it live, -/
  branch_live : ∀ x ∈ d.branch id, d.contains x = true
  /-- and each node once. -/
  branch_nodup : (d.branch id).Nodup
  /-- What is live is what was, without the branch. -/
  live : ∀ x, e.contains x = true ↔ d.contains x = true ∧ x ∉ d.branch id
  /-- Each slot of the branch is put in front of the free ones once. -/
  free : ∃ freed, e.free = freed ++ d.free ∧ freed.Perm (d.branch id)
  /-- The parent of the node loses it from among its children.  Nothing else is changed. -/
  kept : ∀ x n, d.get? x = some n → x ∉ d.branch id → e.get? x =
    some (if d.parent? id = some x then { n with children := n.children.erase id } else n)
  /-- What is below a node is what was, without the branch. -/
  descendants : ∀ x, e.descendants x = (d.descendants x).filter (· ∉ d.branch id)
  /-- The size is smaller by that of the branch. -/
  size : e.size + (d.branch id).length = d.size

/-- A node of a tree that is a child of a node outside is on top of it. -/
theorem Consistent.eq_of_child (h : d.Consistent) {t : Placed}
    (hmem : ∀ x, x ∈ t.ids ↔ x = t.id ∨ d.Below x t.id) {x c : NodeId} (hx : x ∉ t.ids)
    (hc : c ∈ d.children x) (hct : c ∈ t.ids) : c = t.id := by
  rcases (hmem c).1 hct with heq | hbelow
  · exact heq
  · obtain ⟨p, hp, hup⟩ := TransGen.head'_iff.1 hbelow
    obtain rfl : x = p := rightUnique_childOf d (h.mem_children_iff.1 hc) hp
    refine absurd ((hmem x).2 ?_) hx
    rw [eq_comm]
    exact reflTransGen_iff_eq_or_transGen.1 hup

variable {t : Placed}

/-- What freeing a tree that was taken from its parent leaves of the other nodes. -/
theorem Freed.get?_of_detached (hfreed : Freed (d.detach t.id) e t.ids) (h : d.Consistent)
    {x : NodeId} {n : Node} (hget : d.get? x = some n) (hx : x ∉ t.ids) : e.get? x =
      some (if d.parent? t.id = some x then { n with children := n.children.erase t.id } else n) := by
  have hne : x ≠ t.id := fun heq => hx (heq ▸ t.id_mem_ids)
  have hdistinct := h.distinct x
  rw [children_of_get? hget] at hdistinct
  rw [hfreed.get?, if_neg hx, get?_detach_of_ne hne, hget, Option.map_some,
    hdistinct.erase_eq_filter]

theorem Freed.pruned (hfreed : Freed (d.detach t.id) e t.ids) (h : d.Consistent)
    {p : Option NodeId} (ht : d.Holds p t)
    (hmem : ∀ x, x ∈ t.ids ↔ x = t.id ∨ d.Below x t.id) : Pruned d e t.ids where
  dead x hx := by rw [hfreed.get?, if_pos hx]
  below x hx c hc := ht.mem_of_child hx hc
  kept x hx := by
    cases hget : d.get? x with
    | none =>
        have hdead : (d.detach t.id).get? x = none := by
          rw [← contains_eq_false_iff, contains_detach, contains_eq_false_iff, hget]
        rw [hfreed.get?, if_neg hx, hdead, Option.map_none]
    | some n =>
        have hdistinct := h.distinct x
        rw [children_of_get? hget] at hdistinct
        -- the only one of the children that can be lost is the topmost node of the tree
        have hfilter : n.children.filter (· ∉ t.ids) = n.children.erase t.id := by
          rw [hdistinct.erase_eq_filter]
          refine List.filter_congr fun c hc => ?_
          rw [← children_of_get? hget] at hc
          have honly := h.eq_of_child hmem hx hc
          by_cases hct : c ∈ t.ids
          · simp [honly hct, t.id_mem_ids]
          · have hne : c ≠ t.id := fun heq => hct (heq ▸ t.id_mem_ids)
            simp [hct, hne]
        rw [hfreed.get?_of_detached h hget hx, Option.map_some, hfilter]
        split
        · rfl
        · rename_i hp
          have hno : t.id ∉ n.children := by
            rwa [← children_of_get? hget, h.mem_children_iff]
          rw [List.erase_of_not_mem hno]

/-- **To remove a node frees the tree that it is on top of, and nothing else.** -/
theorem remove_removal (h : d.Consistent) (hacyclic : ∀ x, ¬d.Below x x)
    (hlive : d.contains id = true) (hid : id ≠ root) : Removal d (d.remove id) id := by
  have hfinite := h.finiteBelow hacyclic
  obtain ⟨t, rfl, ht, hn, hbranch, hmem, hparent⟩ := h.branch_eq (hfinite id) hlive
  have hfreed := h.slotted.remove ht hn hparent hid
  have hpruned := hfreed.pruned h ht hmem
  refine ⟨?_, ?_, ?_, ?_, ?_, ?_, ?_, ?_⟩
  all_goals rw [hbranch]
  · exact hmem
  · exact fun x hx => contains_iff.2 (ht.live hx)
  · exact hn
  · intro x
    rw [contains, hfreed.get?]
    by_cases hx : x ∈ t.ids
    · simp only [hx, if_true, not_true_eq_false, and_false, Option.isSome_none, Bool.false_eq_true]
    · rw [if_neg hx, ← contains, contains_detach, and_iff_left hx]
  · simpa using hfreed.stack
  · exact fun x n hget hx => hfreed.get?_of_detached h hget hx
  · exact fun x => hpruned.descendants h (hfinite x)
  · rw [← size_detach d t.id]
    exact hfreed.size_add

theorem remove_removal_nested :
    nested.Consistent ∧ (∀ x, ¬nested.Below x x) ∧ nested.contains 1 = true ∧ 1 ≠ root ∧
      Removal nested (nested.remove 1) 1 := by
  obtain ⟨hlinked, hforest⟩ := orderly_nested.linked_forest
  exact ⟨hlinked.consistent, hforest.acyclic, rfl, by decide,
    remove_removal hlinked.consistent hforest.acyclic rfl (by decide)⟩

end PageTemplate.Document
