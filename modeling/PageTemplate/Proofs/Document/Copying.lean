/-
**A copy is a tree of its own.**

To copy a node puts the tree that it is on top of a second time into the document, in slots that were
free, and leaves all that was there alone.  To remove the copy right afterwards empties these slots
again.  There is one exception.  Once the document node has been freed together with a node above it,
its slot is one of those that a copy may take, and what is in this slot is never removed.

Main definitions:

* `PageTemplate.Document.Copied` — a document has got a copy of a node.

Main results:

* `PageTemplate.Document.Gained.size` — what a new tree adds to the size;
* `PageTemplate.Document.Gained.remove` — to remove a new tree frees it;
* `PageTemplate.Document.clone_copied` — what copying leaves, and what removing the copy does;
* `PageTemplate.Document.reachable_rootless` — a copy that is not removed.
-/

import PageTemplate.Proofs.Document.Removal

set_option relaxedAutoImplicit false
set_option autoImplicit false

namespace PageTemplate

/-- Trees that look the same have as many slots. -/
theorem Placed.length_ids_eq (ts us : List Placed) (h : us.map tree = ts.map tree) :
    (us.flatMap ids).length = (ts.flatMap ids).length := by
  induction ts using Placed.forest_induction generalizing us with
  | nil =>
      obtain rfl : us = [] := List.map_eq_nil_iff.1 h
      rfl
  | cons i kind span cs ts ihcs ihts =>
      obtain ⟨⟨j, kind', span', bs⟩, vs, rfl, htree, hvs⟩ := List.map_eq_cons_iff.1 h
      rw [tree_node, tree_node, Tree.node.injEq] at htree
      rw [List.flatMap_cons, List.flatMap_cons, List.length_append, List.length_append, ids_node,
        ids_node, List.length_cons, List.length_cons, ihcs bs htree.2.2, ihts vs hvs]

namespace Document

variable {d e : Document} {id copy : NodeId}

/-! ### A new tree -/

theorem mem_live {x : NodeId} : x ∈ d.live ↔ d.contains x = true := by
  rw [live, List.mem_filter, List.mem_range, and_iff_right_iff_imp]
  exact lt_size_of_contains

theorem nodup_live (d : Document) : d.live.Nodup := List.nodup_range.filter _

theorem Gained.contains {t : Placed} (h : Gained d e t) (x : NodeId) :
    e.contains x = true ↔ d.contains x = true ∨ x ∈ t.ids := by
  by_cases hx : x ∈ t.ids
  · exact iff_of_true (contains_iff.2 (h.holds.live hx)) (.inr hx)
  · rw [or_iff_left hx, Document.contains, Document.contains, h.keeps x hx]

/-- Each node of the new tree is counted once. -/
theorem Gained.size {t : Placed} (h : Gained d e t) (hd : d.Slotted) :
    e.size = d.size + t.ids.length := by
  have hnew : ∀ x ∈ d.live, ∀ y ∈ t.ids, x ≠ y := by
    rintro x hx _ hxt rfl
    rw [mem_live, Document.contains, h.free x hxt] at hx
    cases hx
  have hperm : e.live.Perm (d.live ++ t.ids) := by
    rw [List.perm_ext_iff_of_nodup e.nodup_live
      (List.nodup_append.2 ⟨d.nodup_live, h.nodup, hnew⟩)]
    intro x
    rw [mem_live, h.contains, List.mem_append, mem_live]
  rw [h.slots.size_eq, hd.size_eq, hperm.length_eq, List.length_append]

/-- **To remove the new tree frees its slots.**  What was there before is there again. -/
theorem Gained.remove {t : Placed} (h : Gained d e t) (hd : d.Slotted) (hne : t.id ≠ root) :
    (∀ x, (e.remove t.id).get? x = d.get? x) ∧ (e.remove t.id).size = d.size := by
  have hfreed := h.slots.remove h.holds h.nodup nofun hne
  rw [detach_of_loose h.holds.get? rfl] at hfreed
  refine ⟨fun x => ?_, ?_⟩
  · rw [hfreed.get?]
    split
    · rename_i hx
      rw [h.free x hx]
    · rename_i hx
      rw [h.keeps x hx]
  · have hless := hfreed.size_add
    have hmore := h.size hd
    omega

/-! ### Copying -/

/-- The document `e` is `d` with a copy of the node `id`, which is on top of a tree. -/
structure Copied (d e : Document) (id copy : NodeId) : Prop where
  /-- The copy has no parent, -/
  loose : e.contains copy = true ∧ e.parent? copy = none
  /-- and it is on top of the same tree, -/
  tree : ∃ t u : Placed, t.id = id ∧ d.Holds (d.parent? id) t ∧ t.ids = d.branch id ∧
    u.id = copy ∧ e.Holds none u ∧ u.ids = e.branch copy ∧ u.tree = t.tree
  /-- with the same markup below it, -/
  innerMarkup : e.innerMarkup copy = d.innerMarkup id
  /-- in slots that were free, each of them used once. -/
  fresh : ∀ x ∈ e.branch copy, d.contains x = false
  nodup : (e.branch copy).Nodup
  /-- No other node is new, -/
  live : ∀ x, e.contains x = true ↔ d.contains x = true ∨ x ∈ e.branch copy
  /-- all that was there is as it was, -/
  kept : ∀ x n, d.get? x = some n → e.get? x = some n
  /-- and the size is larger by that of the tree. -/
  size : e.size = d.size + (d.branch id).length
  /-- To remove the copy restores what was live, with its contents, -/
  restored : copy ≠ root →
    (∀ x, (e.remove copy).get? x = d.get? x) ∧ (e.remove copy).size = d.size
  /-- unless it is in the slot of the document node, which is not removed. -/
  refused : copy = root → e.remove copy = e

/-- **A node on top of a tree is copied into free slots, and removing the copy undoes this.** -/
theorem clone_copied (h : d.Consistent) (hlive : d.contains id = true)
    (hfinite : d.FiniteBelow id) : Copied d (d.clone id).1 id (d.clone id).2 := by
  obtain ⟨t, rfl, ht, hn, hbranch, -, -⟩ := h.branch_eq hfinite hlive
  obtain ⟨u, hid, htree, hu⟩ := h.slotted.clone ht hn
  generalize (d.clone t.id).1 = e at hu ⊢
  generalize (d.clone t.id).2 = copy at hid ⊢
  subst hid
  have hbranch' : e.branch u.id = u.ids := hu.holds.branch hu.nodup
  refine ⟨⟨contains_of_get? hu.holds.get?, parent?_of_get? hu.holds.get?⟩,
    ⟨t, u, rfl, ht, hbranch.symm, rfl, hu.holds, hbranch'.symm, htree⟩, ?_, ?_, ?_, ?_,
    fun x n => hu.get?, ?_, hu.remove h.slotted, ?_⟩
  · obtain ⟨i, kind, span, cs⟩ := t
    obtain ⟨j, kind', span', bs⟩ := u
    rw [Placed.tree_node, Placed.tree_node, Tree.node.injEq] at htree
    obtain ⟨rfl, -, hchildren⟩ := htree
    rw [ht.innerMarkup hn, hu.holds.innerMarkup hu.nodup, holdsRawText, holdsRawText,
      ht.element?, hu.holds.element?, Placed.children_node, Placed.children_node, hchildren]
    rfl
  · rw [hbranch']
    exact fun x hx => contains_eq_false_iff.2 (hu.free x hx)
  · rw [hbranch']
    exact hu.nodup
  · rw [hbranch']
    exact hu.contains
  · have hlength : u.ids.length = t.ids.length := by
      simpa using Placed.length_ids_eq [t] [u] (by simp [htree])
    rw [hu.size h.slotted, hbranch, hlength]
  · intro hroot
    rw [Document.remove, if_neg (by simp [hroot])]

theorem clone_copied_nested :
    nested.Consistent ∧ nested.contains 1 = true ∧ nested.FiniteBelow 1 ∧
      Copied nested (nested.clone 1).1 1 (nested.clone 1).2 := by
  obtain ⟨hlinked, hforest⟩ := orderly_nested.linked_forest
  have hfinite := hforest.finiteBelow hlinked 1
  exact ⟨hlinked.consistent, rfl, hfinite, clone_copied hlinked.consistent rfl hfinite⟩

/-- The document node was put below an element and freed with it.  Another element is left. -/
def rootless : Document := ⟨#[none, none, some (Node.loose (.element ⟨"b", []⟩) none)], [0, 1]⟩

/-- **A copy may take the slot of the document node, and is not removed then.** -/
theorem reachable_rootless :
    Reachable rootless ∧ rootless.Consistent ∧ rootless.contains 2 = true ∧
      rootless.FiniteBelow 2 ∧ (rootless.clone 2).2 = root ∧
        ((rootless.clone 2).1.remove root).size = rootless.size + 1 := by
  have hnodes := (Reachable.start.step (.createElement ⟨"a", []⟩) trivial rfl).step
    (.createElement ⟨"b", []⟩) trivial rfl
  have hbelow := hnodes.step (.append 1 0) trivial rfl
  have hfreed : Reachable rootless := hbelow.step (.remove 1) trivial rfl
  exact ⟨hfreed, hfreed.linked.consistent, rfl, finiteBelow_of_childless rfl, rfl, rfl⟩

end Document

end PageTemplate
