/-
**Documents as forests.**

In a forest no node is below itself.  Each node is then on top of a tree, which has it and the nodes
below it, each of them once.  As a tree has no more nodes than there are slots, every walk from
parents to children ends, and so does copying: more rounds, or more levels, would change nothing.

Main definitions:

* `PageTemplate.Document.Below` — a node is properly below another one;
* `PageTemplate.Document.Forest` — no node is below itself, and the document node is on top;
* `PageTemplate.Document.Traversable` — walks from a node end, and what they give.

Main results:

* `PageTemplate.Document.Below.self_of_above` — a way up that leads into a loop does not leave it;
* `PageTemplate.Document.Consistent.finiteBelow`, `PageTemplate.Document.Forest.wellFounded_up` — every
  way down ends, and every way up;
* `PageTemplate.Document.Consistent.exists_held` — each node without an endless way down is on top of a
  tree;
* `PageTemplate.Document.Forest.traversable` — walks through a forest end.
-/

import Mathlib.Data.Finset.Card
import Mathlib.Data.Finset.Filter
import Mathlib.Data.Finset.Range
import Mathlib.Logic.Relation
import PageTemplate.Proofs.Document.Links
import PageTemplate.Proofs.Document.Walking

set_option relaxedAutoImplicit false
set_option autoImplicit false

namespace PageTemplate.Document

open Relation

variable {d e : Document} {x y a : NodeId}

/-! ### Nodes below other nodes -/

/-- A node has the other one as its parent. -/
def ChildOf (d : Document) (c p : NodeId) : Prop := d.parent? c = some p

/-- A node is properly below another one: the way up from it leads there. -/
def Below (d : Document) : NodeId → NodeId → Prop := TransGen d.ChildOf

theorem Below.mono (hsub : ∀ c p, e.parent? c = some p → d.parent? c = some p)
    (h : e.Below x a) : d.Below x a :=
  TransGen.mono hsub x a h

theorem not_below_of_loose (hx : d.parent? x = none) : ¬d.Below x a := by
  intro h
  obtain ⟨p, hp, -⟩ := TransGen.head'_iff.1 h
  rw [ChildOf, hx] at hp
  cases hp

/-- There is only one way up from a node. -/
theorem rightUnique_childOf (d : Document) : Relator.RightUnique d.ChildOf := by
  intro c p q hp hq
  rw [ChildOf, hp] at hq
  exact Option.some.inj hq

/-- If a node is below itself, so is every node on the way up from it. -/
theorem Below.self_of_above (h : d.Below x x) (hxy : ReflTransGen d.ChildOf x y) : d.Below y y := by
  induction hxy with
  | refl => exact h
  | tail _ hstep ih =>
      obtain ⟨p, hp, hback⟩ := TransGen.head'_iff.1 ih
      rw [rightUnique_childOf d hp hstep] at hback
      exact TransGen.tail' hback hstep

/-- A node from which the way up ends is not below itself. -/
theorem not_below_self (hxy : ReflTransGen d.ChildOf x y) (hy : d.parent? y = none) :
    ¬d.Below x x :=
  fun h => not_below_of_loose hy (h.self_of_above hxy)

/-- No node is below one without children. -/
theorem Linked.not_below_of_childless (h : d.Linked []) (ha : d.children a = []) :
    ¬d.Below x a := by
  intro hx
  obtain ⟨c, -, hc⟩ := TransGen.tail'_iff.1 hx
  have := h.parent c a hc List.not_mem_nil
  rw [ha] at this
  cases this

/-! ### Forests -/

/-- No node is below itself.  The document node is live, it is one, and it has no parent. -/
structure Forest (d : Document) : Prop where
  acyclic : ∀ x, ¬d.Below x x
  live : d.contains root = true
  kind : d.kind? root = some .document
  top : d.parent? root = none

theorem contains_eq_isSome_kind? (d : Document) (id : NodeId) :
    d.contains id = (d.kind? id).isSome := by
  rw [contains, kind?, Option.isSome_map]

theorem forest_empty : Forest empty where
  acyclic x := by
    refine not_below_of_loose ?_
    cases x with
    | zero => rfl
    | succ x => simp [parent?, get?, empty]
  live := rfl
  kind := rfl
  top := rfl

/-- A forest that only loses links stays one. -/
theorem Forest.of_parents (h : d.Forest) (hkind : e.kind? root = d.kind? root)
    (hsub : ∀ c p, e.parent? c = some p → d.parent? c = some p) : e.Forest where
  acyclic x hx := h.acyclic x (hx.mono hsub)
  live := by rw [contains_eq_isSome_kind?, hkind, h.kind, Option.isSome_some]
  kind := by rw [hkind, h.kind]
  top := by
    cases hp : e.parent? root with
    | none => rfl
    | some p =>
        have := hsub root p hp
        rw [h.top] at this
        cases this

theorem Linked.sound {orphans : List NodeId} (h : d.Linked orphans) (hf : d.Forest) : d.Sound := by
  obtain ⟨n, hn⟩ := contains_iff.1 hf.live
  exact ⟨h.slots.nodup, h.slots.mem_free, n, hn, by rw [← parent?_of_get? hn, hf.top]⟩

/-- A relation without cycles that leads from slots to slots comes to an end, as each step leaves fewer
slots behind. -/
theorem wellFounded_of_acyclic {n : Nat} {r : NodeId → NodeId → Prop} (hlt : ∀ x y, r x y → x < n)
    (hr : ∀ x, ¬TransGen r x x) : WellFounded r := by
  classical
  let behind (x : NodeId) : Finset NodeId := (Finset.range n).filter fun y => TransGen r y x
  refine Subrelation.wf (fun {x y} hxy => ?_) (measure fun x => (behind x).card).wf
  refine Finset.card_lt_card (Finset.ssubset_iff_subset_ne.2 ⟨fun z hz => ?_, fun heq => ?_⟩)
  · rw [Finset.mem_filter] at hz ⊢
    exact ⟨hz.1, TransGen.tail hz.2 hxy⟩
  · have hmem : x ∈ behind y :=
      Finset.mem_filter.2 ⟨Finset.mem_range.2 (hlt x y hxy), TransGen.single hxy⟩
    rw [← heq] at hmem
    exact hr x (Finset.mem_filter.1 hmem).2

theorem lt_size_of_contains (hx : d.contains x = true) : x < d.nodes.size := by
  obtain ⟨n, hn⟩ := contains_iff.1 hx
  exact lt_size_of_get? hn

/-- Without nodes below themselves every way down ends. -/
theorem wellFounded_childOf (hacyclic : ∀ x, ¬d.Below x x) : WellFounded d.ChildOf :=
  wellFounded_of_acyclic (fun _ _ hc => lt_size_of_contains (contains_of_parent? hc)) hacyclic

theorem Consistent.finiteBelow (h : d.Consistent) (hacyclic : ∀ x, ¬d.Below x x) (id : NodeId) :
    d.FiniteBelow id :=
  Subrelation.accessible (fun {_ _} hc => h.mem_children_iff.1 hc)
    ((wellFounded_childOf hacyclic).apply id)

/-- Every way up in a forest ends. -/
theorem Forest.wellFounded_up (hf : d.Forest) (h : d.Linked []) :
    WellFounded (Function.swap d.ChildOf) := by
  refine wellFounded_of_acyclic (n := d.nodes.size) (fun p c hc => ?_)
    fun x hx => hf.acyclic x (transGen_swap.1 hx)
  exact lt_size_of_contains (contains_of_child (h.parent c p hc List.not_mem_nil))

/-- A node of a forest is at or below one that has no parent. -/
theorem Forest.exists_top (hf : d.Forest) (h : d.Linked []) (hx : d.contains x = true) :
    ∃ t, ReflTransGen d.ChildOf x t ∧ d.contains t = true ∧ d.parent? t = none := by
  induction x using (hf.wellFounded_up h).induction with
  | _ x ih =>
      cases hp : d.parent? x with
      | none => exact ⟨x, .refl, hx, hp⟩
      | some p =>
          have hlive : d.contains p = true :=
            contains_of_child (h.parent x p hp List.not_mem_nil)
          obtain ⟨t, hup, htop⟩ := ih p hp hlive
          exact ⟨t, .head hp hup, htop⟩

theorem finiteBelow_of_childless {id : NodeId} (h : d.children id = []) : d.FiniteBelow id := by
  refine .intro id fun c hc => ?_
  rw [h] at hc
  cases hc

theorem Forest.finiteBelow (hf : d.Forest) (h : d.Linked []) (id : NodeId) : d.FiniteBelow id :=
  h.consistent.finiteBelow hf.acyclic id

/-- From a node below itself there is an endless way down. -/
theorem Consistent.not_finiteBelow (h : d.Consistent) (hx : d.Below x x) : ¬d.FiniteBelow x := by
  intro hfinite
  induction hfinite with
  | intro x _ ih =>
      obtain ⟨c, hup, hc⟩ := TransGen.tail'_iff.1 hx
      exact ih c (h.mem_children_iff.2 hc) (hx.self_of_above hup)

theorem Linked.not_finiteBelow (h : d.Linked []) (hx : d.Below x x) : ¬d.FiniteBelow x :=
  h.consistent.not_finiteBelow hx

/-- Every way down a held tree ends. -/
theorem Holds.finiteBelow {p : Option NodeId} {t : Placed} (h : d.Holds p t) :
    d.FiniteBelow t.id := by
  induction h with
  | @node p id kind span cs hget hcs ih =>
      refine .intro id fun c hc => ?_
      rw [children_of_get? hget] at hc
      obtain ⟨u, hu, rfl⟩ := List.mem_map.1 hc
      exact ih u hu

/-- The children of a node that is not below itself are in none of each other. -/
theorem eq_of_sibling_above {c c' p : NodeId} (hp : ¬d.Below p p) (hc : d.ChildOf c p)
    (hc' : d.ChildOf c' p) (hup : ReflTransGen d.ChildOf c c') : c' = c := by
  rcases reflTransGen_iff_eq_or_transGen.1 hup with heq | hbelow
  · exact heq
  · obtain ⟨q, hq, hqc'⟩ := TransGen.head'_iff.1 hbelow
    rw [rightUnique_childOf d hq hc] at hqc'
    exact absurd (TransGen.tail' hqc' hc') hp

/-- So a node is below no more than one of them. -/
theorem eq_of_siblings {c c' p : NodeId} (hp : ¬d.Below p p) (hc : d.ChildOf c p)
    (hc' : d.ChildOf c' p) (hx : ReflTransGen d.ChildOf x c) (hx' : ReflTransGen d.ChildOf x c') :
    c = c' := by
  rcases ReflTransGen.total_of_right_unique (rightUnique_childOf d) hx hx' with hup | hup
  · exact (eq_of_sibling_above hp hc hc' hup).symm
  · exact eq_of_sibling_above hp hc' hc hup

/-- **A node from which every way down ends is on top of a tree**, which has it and the nodes below it,
each of them once. -/
theorem Consistent.exists_held (h : d.Consistent) {id : NodeId} (hfinite : d.FiniteBelow id)
    (hlive : d.contains id = true) :
    ∃ t : Placed, t.id = id ∧ d.Holds (d.parent? id) t ∧ t.ids.Nodup ∧
      ∀ x, x ∈ t.ids ↔ ReflTransGen d.ChildOf x id := by
  induction hfinite with
  | intro id hacc ih =>
      have hself : ¬d.Below id id := fun hbelow => h.not_finiteBelow hbelow (.intro id hacc)
      obtain ⟨n, hn⟩ := contains_iff.1 hlive
      have hchild : ∀ c, d.ChildOf c id ↔ c ∈ n.children := by
        intro c
        rw [← children_of_get? hn]
        exact h.mem_children_iff.symm
      have htree : ∀ c ∈ n.children, ∃ t : Placed, t.id = c ∧ d.Holds (some id) t ∧
          t.ids.Nodup ∧ ∀ x, x ∈ t.ids ↔ ReflTransGen d.ChildOf x c := by
        intro c hc
        have hp : d.parent? c = some id := (hchild c).2 hc
        have := ih c (by rwa [children_of_get? hn]) (contains_of_parent? hp)
        rwa [hp] at this
      have : Nonempty Placed := ⟨.node id .document none []⟩
      choose! tree hid hheld hnodup hmem using htree
      have hids : (n.children.map tree).map Placed.id = n.children := by
        rw [List.map_map]
        exact (List.map_congr_left hid).trans n.children.map_id
      have hbelow : ∀ x, x ∈ n.children.flatMap (fun c => (tree c).ids) ↔ d.Below x id := by
        intro x
        rw [List.mem_flatMap, Below, TransGen.tail'_iff]
        constructor
        · rintro ⟨c, hc, hx⟩
          exact ⟨c, (hmem c hc x).1 hx, (hchild c).2 hc⟩
        · rintro ⟨c, hx, hc⟩
          exact ⟨c, (hchild c).1 hc, (hmem c ((hchild c).1 hc) x).2 hx⟩
      refine ⟨.node id n.kind n.span (n.children.map tree), rfl, .node ?_ ?_, ?_, fun x => ?_⟩
      · rw [hids, hn, parent?_of_get? hn]
      · intro t ht
        obtain ⟨c, hc, rfl⟩ := List.mem_map.1 ht
        exact hheld c hc
      · rw [Placed.ids_node, List.flatMap_map, List.nodup_cons, hbelow]
        refine ⟨hself, List.nodup_flatMap.2 ⟨hnodup, ?_⟩⟩
        have hdistinct : n.children.Nodup := by
          rw [← children_of_get? hn]
          exact h.distinct id
        refine hdistinct.imp_of_mem fun {c c'} hc hc' hne x hx hx' => ?_
        exact hne (eq_of_siblings hself ((hchild c).2 hc) ((hchild c').2 hc') ((hmem c hc x).1 hx)
          ((hmem c' hc' x).1 hx'))
      · rw [Placed.ids_node, List.flatMap_map, List.mem_cons, hbelow,
          reflTransGen_iff_eq_or_transGen, eq_comm]
        rfl

/-- Which tree a node is on top of can be read off the slots. -/
theorem Holds.unique {p q : Option NodeId} {t u : Placed} (h : d.Holds p t) (hu : d.Holds q u)
    (hid : t.id = u.id) : t = u := by
  induction h generalizing q u with
  | @node p id kind span cs hget hcs ih =>
      obtain ⟨i, kind', span', bs⟩ := u
      obtain rfl : id = i := hid
      have hget' : d.get? id = some ⟨kind', q, bs.map Placed.id, span'⟩ := hu.get?
      rw [hget, Option.some.injEq, Node.mk.injEq] at hget'
      obtain ⟨rfl, -, hids, rfl⟩ := hget'
      have hsame : cs = bs := by
        refine List.ext_getElem (by simpa using congrArg List.length hids) fun n hn hn' => ?_
        refine ih cs[n] (List.getElem_mem hn) (hu.child (List.getElem_mem hn')) ?_
        have := congrArg (fun xs => xs[n]?) hids
        simpa [hn, hn'] using this
      rw [hsame]

/-- So each of its nodes is in a held tree once. -/
theorem Consistent.nodup_of_holds (h : d.Consistent) {p : Option NodeId} {t : Placed}
    (ht : d.Holds p t) : t.ids.Nodup := by
  obtain ⟨u, hid, hu, hn, -⟩ := h.exists_held ht.finiteBelow (contains_of_get? ht.get?)
  rwa [ht.unique hu hid.symm]

theorem Linked.exists_held (h : d.Linked []) {id : NodeId} (hfinite : d.FiniteBelow id)
    (hlive : d.contains id = true) :
    ∃ t : Placed, t.id = id ∧ d.Holds (d.parent? id) t ∧ t.ids.Nodup ∧
      ∀ x, x ∈ t.ids ↔ ReflTransGen d.ChildOf x id :=
  h.consistent.exists_held hfinite hlive

/-- Each node of a forest is on top of such a tree. -/
theorem Forest.exists_held (hf : d.Forest) (h : d.Linked []) {id : NodeId}
    (hlive : d.contains id = true) :
    ∃ t : Placed, t.id = id ∧ d.Holds (d.parent? id) t ∧ t.ids.Nodup ∧
      ∀ x, x ∈ t.ids ↔ ReflTransGen d.ChildOf x id :=
  h.exists_held (hf.finiteBelow h id) hlive

/-! ### Walks -/

/-- Walks from a node end: more rounds, or more levels, than there are slots change nothing.  The
nodes met below it are those that are below it, each once, and a copy of it is the same tree. -/
structure Traversable (d : Document) (id : NodeId) : Prop where
  finite : d.FiniteBelow id
  nodup : (d.descendants id).Nodup
  mem_descendants : ∀ x, x ∈ d.descendants id ↔ d.Below x id
  walk : ∀ fuel, d.nodes.size ≤ fuel → d.walk fuel (d.children id) = d.descendants id
  tree : ∀ fuel, d.nodes.size ≤ fuel → d.treeTo fuel id = d.tree? id
  copy : ∀ fuel, d.nodes.size < fuel → cloneTo fuel id d = d.clone id
  tree_copy : (d.clone id).1.tree? (d.clone id).2 = d.tree? id

/-- Nothing is below a slot without a node. -/
theorem descendants_of_dead {id : NodeId} (hdead : d.get? id = none) : d.descendants id = [] := by
  rw [descendants, children_eq_nil_of_dead hdead, walk_nil]

/-- A slot without a node is a walk's end. -/
theorem Forest.traversable_of_dead (hf : d.Forest) (h : d.Linked []) {id : NodeId}
    (hdead : d.get? id = none) : d.Traversable id := by
  have hnone : d.children id = [] := children_eq_nil_of_dead hdead
  have htree : ∀ fuel, d.treeTo fuel id = none := by
    intro fuel
    cases fuel with
    | zero => rfl
    | succ fuel => rw [treeTo, hdead, Option.map_none]
  have hcopy : ∀ fuel, Document.cloneTo fuel id d = (d, id) := by
    intro fuel
    cases fuel with
    | zero => rfl
    | succ fuel => rw [Document.cloneTo, hdead]
  refine ⟨hf.finiteBelow h id, ?nodup, ?mem_descendants, ?walk, ?tree, ?copy, ?tree_copy⟩
  case nodup =>
    rw [descendants_of_dead hdead]
    exact .nil
  case mem_descendants =>
    intro x
    rw [descendants_of_dead hdead]
    exact iff_of_false List.not_mem_nil (h.not_below_of_childless hnone)
  case walk =>
    intro fuel _
    rw [descendants_of_dead hdead, hnone, walk_nil]
  case tree =>
    intro fuel _
    rw [tree?, htree, htree]
  case copy =>
    intro fuel _
    rw [Document.clone, hcopy, hcopy]
  case tree_copy =>
    rw [Document.clone, hcopy]

/-- **Walks through a forest end.** -/
theorem Forest.traversable (hf : d.Forest) (h : d.Linked []) (id : NodeId) : d.Traversable id := by
  cases hlive : d.contains id with
  | false => exact hf.traversable_of_dead h (contains_eq_false_iff.1 hlive)
  | true =>
      obtain ⟨t, rfl, ht, hn, hmem⟩ := hf.exists_held h hlive
      have hsize : t.ids.length ≤ d.nodes.size := length_le_size hn fun _ hx => ht.live hx
      have hdepth : t.depth ≤ d.nodes.size := ht.depth_le hn
      have hheld : ∀ c ∈ t.children, ∃ p, d.Holds p c := fun c hc => ⟨_, ht.child hc⟩
      obtain ⟨i, k, s, cs⟩ := t
      rw [Placed.ids_node] at hn hmem hsize
      rw [List.length_cons] at hsize
      have hchildren : d.children i = cs.map Placed.id := children_of_get? ht.get?
      have hwalk : ∀ fuel, d.nodes.size ≤ fuel →
          d.walk fuel (d.children i) = cs.flatMap Placed.ids := by
        intro fuel hfuel
        rw [hchildren]
        exact walk_eq fuel cs hheld (by omega)
      have hdescendants : d.descendants i = cs.flatMap Placed.ids := hwalk _ le_rfl
      have hsound := h.sound hf
      rw [List.nodup_cons] at hn
      refine ⟨hf.finiteBelow h i, ?nodup, ?mem_descendants, ?walk, ?tree, ?copy, ?tree_copy⟩
      case nodup =>
        rw [Placed.id_node, hdescendants]
        exact hn.2
      case mem_descendants =>
        intro x
        rw [Placed.id_node, hdescendants]
        have hx := hmem x
        rw [List.mem_cons, Placed.id_node, reflTransGen_iff_eq_or_transGen, @eq_comm _ i] at hx
        by_cases hxi : x = i
        · rw [hxi]
          exact iff_of_false hn.1 (hf.acyclic i)
        · rwa [or_iff_right hxi, or_iff_right hxi] at hx
      case walk =>
        intro fuel hfuel
        rw [Placed.id_node, hwalk fuel hfuel, hdescendants]
      case tree =>
        intro fuel hfuel
        rw [tree?, ht.treeTo hdepth, ht.treeTo (hdepth.trans hfuel)]
      case copy =>
        intro fuel hfuel
        exact h.slots.cloneTo_eq ht (by omega) (by omega)
      case tree_copy =>
        have hn' : (Placed.node i k s cs).ids.Nodup := by
          rw [Placed.ids_node, List.nodup_cons]
          exact hn
        obtain ⟨u, hid, htree, hu⟩ := h.slots.clone ht hn'
        rw [← hid, hu.holds.tree? hu.nodup, htree, ht.tree? hn']

end PageTemplate.Document
