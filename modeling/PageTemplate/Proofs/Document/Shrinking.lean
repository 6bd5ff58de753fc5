/-
**Documents that lose nodes.**

To remove nodes gives nothing to the others: what is left is what it was, with fewer children.  So
every way down that is left was there before, and so is everything that is reached through elements.

Main definitions:

* `PageTemplate.Document.Shrunk` — a document has lost nodes and links.

Main results:

* `PageTemplate.Document.shrunk_detach`, `PageTemplate.Document.shrunk_remove` — detaching and removing;
* `PageTemplate.Document.Shrunk.finiteBelow` — ways down still end;
* `PageTemplate.Document.Shrunk.exposed_subset` — what is still reached through elements.
-/

import PageTemplate.Proofs.Document.Exposure

set_option relaxedAutoImplicit false
set_option autoImplicit false

namespace PageTemplate.Document

/-- The live nodes of `e` are nodes of `d`, of the same kind, and have no children but those that they
had there. -/
def Shrunk (d e : Document) : Prop :=
  ∀ x n, e.get? x = some n →
    ∃ m, d.get? x = some m ∧ n.kind = m.kind ∧ n.children ⊆ m.children

variable {d e f : Document} {id : NodeId}

theorem Shrunk.refl (d : Document) : Shrunk d d := fun _ n hn => ⟨n, hn, rfl, List.Subset.refl _⟩

theorem Shrunk.trans (h : Shrunk d e) (k : Shrunk e f) : Shrunk d f := by
  intro x n hn
  obtain ⟨m, hm, hkind, hchildren⟩ := k x n hn
  obtain ⟨l, hl, hkind', hchildren'⟩ := h x m hm
  exact ⟨l, hl, hkind.trans hkind', List.Subset.trans hchildren hchildren'⟩

/-- A change of one node that gives it nothing. -/
theorem shrunk_update (d : Document) (id : NodeId) {f : Node → Node}
    (hf : ∀ n, (f n).kind = n.kind ∧ (f n).children ⊆ n.children) : Shrunk d (d.update id f) := by
  intro x n hn
  rw [get?_update] at hn
  split at hn
  · next hx =>
      obtain ⟨m, hm, rfl⟩ := Option.map_eq_some_iff.1 hn
      exact ⟨m, hx ▸ hm, hf m⟩
  · exact ⟨n, hn, rfl, List.Subset.refl _⟩

theorem shrunk_detach (d : Document) (id : NodeId) : Shrunk d (d.detach id) := by
  unfold Document.detach
  split
  · exact .refl d
  · next p hp =>
      have hparent := shrunk_update d p (f := fun n =>
        { n with children := n.children.filter (· != id) }) fun n => ⟨rfl, List.filter_subset_self _⟩
      have hself := shrunk_update (d.update p fun n =>
        { n with children := n.children.filter (· != id) }) id (f := fun n =>
        { n with parent := none }) fun n => ⟨rfl, List.Subset.refl _⟩
      exact hparent.trans hself

/-- Freeing changes no node that it leaves. -/
theorem get?_of_releaseAll (fuel : Nat) (stack : List NodeId) {x : NodeId} {n : Node}
    (h : (Document.releaseAll fuel stack d).get? x = some n) : d.get? x = some n := by
  induction fuel generalizing stack d with
  | zero => exact h
  | succ fuel ih =>
      cases stack with
      | nil => exact h
      | cons id stack =>
          rw [Document.releaseAll] at h
          split at h
          · exact ih stack h
          · have hreleased := ih _ h
            rw [get?_release] at hreleased
            split at hreleased
            · cases hreleased
            · exact hreleased

/-- **To remove a node gives nothing to the others.** -/
theorem shrunk_remove (d : Document) (id : NodeId) : Shrunk d (d.remove id) := by
  unfold Document.remove
  split
  · exact (shrunk_detach d id).trans fun x n hn =>
      ⟨n, get?_of_releaseAll _ _ hn, rfl, List.Subset.refl _⟩
  · exact .refl d

theorem shrunk_removeAll (d : Document) (ids : List NodeId) :
    Shrunk d (ids.foldl Document.remove d) := by
  induction ids generalizing d with
  | nil => exact .refl d
  | cons id ids ih => exact (shrunk_remove d id).trans (ih _)

theorem Shrunk.children_subset (h : Shrunk d e) (id : NodeId) : e.children id ⊆ d.children id := by
  intro c hc
  obtain ⟨n, hn⟩ := contains_iff.1 (contains_of_child hc)
  obtain ⟨m, hm, -, hchildren⟩ := h id n hn
  rw [children_of_get? hn] at hc
  rw [children_of_get? hm]
  exact hchildren hc

/-- What is live is what it was. -/
theorem Shrunk.kind? (h : Shrunk d e) (hlive : e.contains id = true) : e.kind? id = d.kind? id := by
  obtain ⟨n, hn⟩ := contains_iff.1 hlive
  obtain ⟨m, hm, hkind, -⟩ := h id n hn
  rw [Document.kind?, Document.kind?, hn, hm, Option.map_some, Option.map_some, hkind]

/-- Ways down still end. -/
theorem Shrunk.finiteBelow (h : Shrunk d e) (hfinite : d.FiniteBelow id) : e.FiniteBelow id :=
  Subrelation.accessible (fun {_ p} hc => h.children_subset p hc) hfinite

/-- What is reached through elements in a tree was reached through elements before. -/
theorem Shrunk.exposed_tree_subset (h : Shrunk d e) {p q : Option NodeId} {t u : Placed}
    (ht : d.Holds p t) (hu : e.Holds q u) (hid : u.id = t.id) : u.exposed ⊆ t.exposed := by
  induction hu generalizing p t with
  | @node q id kind span cs hget hcs ih =>
      obtain ⟨m, hm, hkind, hchildren⟩ := h id _ hget
      obtain ⟨i, kind', span', bs⟩ := t
      obtain rfl : id = i := hid
      have hheld : d.get? id = some ⟨kind', p, bs.map Placed.id, span'⟩ := ht.get?
      obtain rfl : m = ⟨kind', p, bs.map Placed.id, span'⟩ := Option.some.inj (hm.symm.trans hheld)
      obtain rfl : kind = kind' := hkind
      rw [Placed.exposed_node, Placed.exposed_node]
      refine List.cons_subset_cons _ ?_
      split
      · intro x hx
        obtain ⟨c, hc, hxc⟩ := List.mem_flatMap.1 hx
        obtain ⟨b, hb, hbc⟩ := List.mem_map.1 (hchildren (List.mem_map.2 ⟨c, hc, rfl⟩))
        exact List.mem_flatMap.2 ⟨b, hb, ih c hc (ht.child hb) hbc.symm hxc⟩
      · exact List.Subset.refl _

/-- **What is still reached through elements was reached through elements before.** -/
theorem Shrunk.exposed_subset (h : Shrunk d e) (hd : d.Linked []) (he : e.Linked [])
    (hfinite : d.FiniteBelow id) : e.exposed id ⊆ d.exposed id := by
  cases hlive : e.contains id with
  | false =>
      rw [exposed_of_dead (contains_eq_false_iff.1 hlive)]
      exact List.nil_subset _
  | true =>
      obtain ⟨u, rfl, hu, hun, -⟩ := he.exists_held (h.finiteBelow hfinite) hlive
      have hlive' : d.contains u.id = true := by
        obtain ⟨m, hm, -⟩ := h u.id _ hu.get?
        exact contains_of_get? hm
      obtain ⟨t, hid, ht, htn, -⟩ := hd.exists_held hfinite hlive'
      rw [hu.exposed hun, ← hid, ht.exposed htn]
      intro x hx
      obtain ⟨c, hc, hxc⟩ := List.mem_flatMap.1 hx
      have hchild : c.id ∈ d.children u.id := by
        refine h.children_subset u.id ?_
        rw [children_of_get? hu.get?]
        exact List.mem_map.2 ⟨c, hc, rfl⟩
      rw [← hid, children_of_get? ht.get?] at hchild
      obtain ⟨b, hb, hbc⟩ := List.mem_map.1 hchild
      exact List.mem_flatMap.2 ⟨b, hb, h.exposed_tree_subset (ht.child hb) (hu.child hc) hbc.symm hxc⟩

end PageTemplate.Document
