/-
**Renderings leave nothing behind.**

While a page is bound and nothing but its scope is used, each live node is the document node or below
it, or it is the retained pattern of a directive or below it, and of all these trees it is in one alone.
So the size of the document is that of the trees, however often the page has been rendered.

Main definitions:

* `PageTemplate.Binding.Stage.tops` — the topmost nodes of the document and of the patterns.

Main results:

* `PageTemplate.Document.Forest.nodup_trees` — trees in a forest share no node;
* `PageTemplate.Page.live_inventory` — the live nodes are those of the trees, each of them once.
-/

import Mathlib.Algebra.GroupWithZero.Nat
import PageTemplate.Proofs.Page.Installed

set_option relaxedAutoImplicit false
set_option autoImplicit false

namespace PageTemplate

open PageTemplate.Data Relation

/-! ### Trees side by side -/

namespace Document

variable {d : Document} {x t : NodeId} {tops : List NodeId}

/-- The nodes of the tree of a node: itself, and those below it. -/
theorem Forest.mem_tree_iff (hf : d.Forest) (h : d.Linked []) :
    x ∈ t :: d.descendants t ↔ ReflTransGen d.ChildOf x t := by
  rw [List.mem_cons, (hf.traversable h t).mem_descendants, reflTransGen_iff_eq_or_transGen, eq_comm]
  rfl

/-- **Trees in a forest share no node**, if none of them has a parent. -/
theorem Forest.nodup_trees (hf : d.Forest) (h : d.Linked []) (hn : tops.Nodup)
    (htops : ∀ t ∈ tops, d.parent? t = none) :
    (tops.flatMap fun t => t :: d.descendants t).Nodup := by
  have hloose : ∀ {t t' : NodeId}, t ∈ tops → ReflTransGen d.ChildOf t t' → t = t' := by
    intro t t' ht hup
    rcases reflTransGen_iff_eq_or_transGen.1 hup with heq | hbelow
    · exact heq.symm
    · exact absurd hbelow (not_below_of_loose (htops t ht))
  refine List.nodup_flatMap.2 ⟨fun t _ => List.nodup_cons.2 ⟨fun hmem => ?_, ?_⟩, ?_⟩
  · exact hf.acyclic t (((hf.traversable h t).mem_descendants t).1 hmem)
  · exact (hf.traversable h t).nodup
  · refine hn.imp_of_mem fun {t t'} ht ht' hne x hx hx' => hne ?_
    -- the ways up from a node of both trees meet
    rcases ReflTransGen.total_of_right_unique (rightUnique_childOf d)
      ((hf.mem_tree_iff h).1 hx) ((hf.mem_tree_iff h).1 hx') with hup | hup
    · exact hloose ht hup
    · exact (hloose ht' hup).symm

/-- **The live nodes of a forest are those of its trees**, each of them once. -/
theorem Forest.perm_live (hf : d.Forest) (h : d.Linked []) (hn : tops.Nodup)
    (htops : ∀ t, t ∈ tops ↔ d.contains t = true ∧ d.parent? t = none) :
    (tops.flatMap fun t => t :: d.descendants t).Perm d.live := by
  have hnodup := hf.nodup_trees h hn fun t ht => ((htops t).1 ht).2
  refine (List.perm_ext_iff_of_nodup hnodup (List.nodup_range.filter _)).2 fun x => ?_
  rw [List.mem_flatMap, List.mem_filter, List.mem_range]
  constructor
  · rintro ⟨t, ht, hx⟩
    have hlive : d.contains x = true := by
      rcases reflTransGen_iff_eq_or_transGen.1 ((hf.mem_tree_iff h).1 hx) with rfl | hbelow
      · exact ((htops t).1 ht).1
      · obtain ⟨p, hp, -⟩ := TransGen.head'_iff.1 hbelow
        exact contains_of_parent? hp
    exact ⟨lt_size_of_contains hlive, hlive⟩
  · rintro ⟨-, hlive⟩
    obtain ⟨t, hup, htop⟩ := hf.exists_top h hlive
    exact ⟨t, (htops t).2 htop, (hf.mem_tree_iff h).2 hup⟩

end Document

namespace Binding

/-! ### The trees of a bound page -/

/-- The topmost nodes of the document, and of the patterns of the directives of a scope and of those
below it. -/
def Stage.tops (st : Stage) (s : ScopeId) : List NodeId :=
  Document.root :: (st.scopes.directives s).map (·.pattern)

variable {st : Stage} {s : ScopeId} {items : List Mold}

/-- The topmost nodes are different nodes. -/
theorem Installed.nodup_tops (h : Installed st s items) : (st.tops s).Nodup := by
  obtain ⟨xs, hsettled, -⟩ := h.settled
  obtain ⟨l, hperm, hsub⟩ := hsettled.subperm_patterns
  exact hperm.nodup_iff.1 (hsettled.nodup.sublist hsub)

/-- They are the nodes that have no parent. -/
theorem Installed.mem_tops_iff (h : Installed st s items) (t : NodeId) :
    t ∈ st.tops s ↔ st.document.contains t = true ∧ st.document.parent? t = none := by
  obtain ⟨xs, hsettled, hall⟩ := h.settled
  constructor
  · intro ht
    rcases List.mem_cons.1 ht with rfl | ht
    · exact ⟨h.forest.live, h.forest.top⟩
    · obtain ⟨r, hr, rfl⟩ := List.mem_map.1 ht
      exact ⟨(hsettled.sited hr).pattern, (hsettled.sited hr).loose⟩
  · rintro ⟨hlive, hloose⟩
    rcases hsettled.loose (hall t hlive) hloose with rfl | ⟨r, hr, rfl⟩
    · exact List.mem_cons_self ..
    · exact List.mem_cons_of_mem _ (List.mem_map.2 ⟨r, hr, rfl⟩)

end Binding

namespace Page

open PageTemplate.Binding

/-- **Renderings leave nothing behind.**  A page has been compiled to a scope that nothing was bound to.
Whatever has been done with the scope, the live nodes are those of the trees below the document node
and below the patterns, each of them once: a live node is in one of these trees and in no other, and
the size of the document is that of the trees. -/
theorem live_inventory {source mark : String} {f : Scopes} {d : Document} {s : ScopeId}
    {sc : Scope} {st : Stage} (hparse : Document.parse source = .ok d) (hf : f.ParentsFirst)
    (hs : f.get? s = some sc) (hfresh : sc.repeats = [])
    (hcompile : (⟨d, f⟩ : Stage).compile mark s Document.root = .ok st) (changes : List Change) :
    let live := Change.runAll s st changes
    ((live.tops s).flatMap fun t => t :: live.document.descendants t).Perm live.document.live ∧
      (∀ x, live.document.contains x = true →
        ∃! t, t ∈ live.tops s ∧ (x = t ∨ x ∈ live.document.descendants t)) ∧
      live.document.size =
        ((live.tops s).map fun t => (live.document.descendants t).length + 1).sum := by
  obtain ⟨_, _, _, -, -, hinstalled⟩ := installed_compile hparse hf hs hfresh hcompile
  have hrun := hinstalled.run changes
  intro live
  have hperm := hrun.forest.perm_live hrun.linked hrun.nodup_tops hrun.mem_tops_iff
  have hnodup := hrun.forest.nodup_trees hrun.linked hrun.nodup_tops
    fun t ht => ((hrun.mem_tops_iff t).1 ht).2
  refine ⟨hperm, fun x hx => ?_, ?_⟩
  · have hmem : x ∈ live.document.live :=
      List.mem_filter.2 ⟨List.mem_range.2 (Document.lt_size_of_contains hx), hx⟩
    obtain ⟨t, ht, hxt⟩ := List.mem_flatMap.1 (hperm.mem_iff.2 hmem)
    refine ⟨t, ⟨ht, List.mem_cons.1 hxt⟩, ?_⟩
    rintro t' ⟨ht', hxt'⟩
    exact eq_of_nodup_flatMap hnodup ht' ht (List.mem_cons.2 hxt') hxt
  · rw [hrun.linked.slots.size_eq, ← hperm.length_eq, List.length_flatMap]
    rfl

theorem live_inventory_two_items : ∃ st,
    let scopes := Scopes.empty.newRoot (.object [("xs", .array [.string "a", .string "b"])])
    let live := Change.runAll scopes.2 st [.render, .set "xs" (.array [.string "c"]), .render]
    (⟨sampleDocument, scopes.1⟩ : Stage).compile "hb-repeat" scopes.2 Document.root = .ok st ∧
      ((live.tops scopes.2).flatMap fun t => t :: live.document.descendants t).Perm
        live.document.live ∧
      (∀ x, live.document.contains x = true →
        ∃! t, t ∈ live.tops scopes.2 ∧ (x = t ∨ x ∈ live.document.descendants t)) ∧
      live.document.size =
        ((live.tops scopes.2).map fun t => (live.document.descendants t).length + 1).sum := by
  obtain ⟨st, hcompile⟩ :=
    exists_compile_sample (.object [("xs", .array [.string "a", .string "b"])])
  exact ⟨st, hcompile, live_inventory parse_sampleSource (Scopes.parentsFirst_empty.newRoot _)
    (Scopes.empty.get?_newRoot _) rfl hcompile
    [.render, .set "xs" (.array [.string "c"]), .render]⟩

end Page

end PageTemplate
