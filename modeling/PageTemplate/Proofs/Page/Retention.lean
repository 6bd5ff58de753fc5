/-
**What scopes remember stays what it is.**

Between two renderings scopes remember slots, patterns, containers and anchors by their numbers.  While
a page is bound and nothing but its scope is used, each of these numbers stands for the node that it
stood for when the page was compiled.  The nodes are apart from all copies, so a rendering never frees
one of them, and their slots are not used for others, not even for a while.

Main definitions:

* `PageTemplate.Binding.Retained` — what scopes remember is there, and apart from the copies.

Main results:

* `PageTemplate.Page.handles_retained` — so it is after whatever has been done with the scope, and no
  rendering touches it.
-/

import PageTemplate.Proofs.Page.Installed

set_option relaxedAutoImplicit false
set_option autoImplicit false

namespace PageTemplate

open PageTemplate.Data PageTemplate.Document

namespace Binding

/-- The slots of a scope and of those below it are different text nodes, their directives are where
they should be, and none of what they remember is at or below a copy. -/
structure Retained (st : Stage) (s : ScopeId) : Prop where
  distinct : (st.scopes.slotNodes s).Nodup
  slots : ∀ i ∈ st.scopes.slotNodes s, ∃ t, st.document.text? i = some t
  sited : ∀ r ∈ st.scopes.directives s, r.Sited st.document
  apart : ∀ i ∈ st.scopes.handles s, ∀ c ∈ st.scopes.fragments s,
    ¬Relation.ReflTransGen st.document.ChildOf i c

/-- What a bound document's scopes remember is there. -/
theorem Installed.retained {st : Stage} {s : ScopeId} {items : List Mold}
    (h : Installed st s items) : Retained st s := by
  obtain ⟨xs, hsettled, -⟩ := h.settled
  refine ⟨hsettled.nodup_slotNodes, fun i hi => ?_, fun r hr => hsettled.sited hr,
    fun i hi c hc => h.apart (h.bone_of_handle hi) hc⟩
  obtain ⟨t, q, sp, hget⟩ := hsettled.get?_slot hi
  refine ⟨t, ?_⟩
  rw [Document.text?, Document.kind?, hget]
  rfl

end Binding

namespace Page

open PageTemplate.Binding

/-- **What scopes remember stays what it is.**  A page has been compiled to a scope that nothing was
bound to.  Whatever is done with the scope, the scope and those below it remember the same numbers, and
what these stand for is there, and apart from the copies.  When the page is rendered next, all
documents on the way have the same nodes in these slots, with the same parents, and with the same text
if they are no slots to be filled. -/
theorem handles_retained {source mark : String} {f : Scopes} {d : Document} {s : ScopeId}
    {sc : Scope} {st : Stage} (hparse : Document.parse source = .ok d) (hf : f.ParentsFirst)
    (hs : f.get? s = some sc) (hfresh : sc.repeats = [])
    (hcompile : (⟨d, f⟩ : Stage).compile mark s Document.root = .ok st) (changes : List Change) :
    let live := Change.runAll s st changes
    Retained live s ∧ live.scopes.handles s = st.scopes.handles s ∧
      live.document.performAll (live.steps s) = (live.render s).document ∧
      ∀ e ∈ live.document.passes (live.steps s), ∀ i ∈ live.scopes.handles s,
        Spared (live.scopes.slotNodes s) live.document e i := by
  obtain ⟨_, items, ys, -, hcompiled, hinstalled⟩ :=
    installed_compile hparse hf hs hfresh hcompile
  have hrun := hinstalled.run changes
  obtain ⟨xs, hsettled, -⟩ := hrun.settled
  obtain ⟨-, hperform, -, -, hspared⟩ := hrun.moves
  exact ⟨hrun.retained, hcompiled.settled.same_handles hsettled, hperform,
    fun e he i hi => hspared e he i (hrun.bone_of_handle hi)⟩

theorem handles_retained_two_items : ∃ st,
    let scopes := Scopes.empty.newRoot (.object [("xs", .array [.string "a", .string "b"])])
    let live := Change.runAll scopes.2 st [.render, .set "y" (.bool true), .render]
    (⟨sampleDocument, scopes.1⟩ : Stage).compile "hb-repeat" scopes.2 Document.root = .ok st ∧
      Retained live scopes.2 ∧ live.scopes.handles scopes.2 = st.scopes.handles scopes.2 ∧
      live.document.performAll (live.steps scopes.2) = (live.render scopes.2).document ∧
      ∀ e ∈ live.document.passes (live.steps scopes.2), ∀ i ∈ live.scopes.handles scopes.2,
        Spared (live.scopes.slotNodes scopes.2) live.document e i := by
  obtain ⟨st, hcompile⟩ :=
    exists_compile_sample (.object [("xs", .array [.string "a", .string "b"])])
  exact ⟨st, hcompile, handles_retained parse_sampleSource (Scopes.parentsFirst_empty.newRoot _)
    (Scopes.empty.get?_newRoot _) rfl hcompile [.render, .set "y" (.bool true), .render]⟩

end Page

end PageTemplate
