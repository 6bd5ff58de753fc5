/-
**Where copies are put there may be children.**

A repeated element of a tidy document is a child, so the node that it is taken from may have children.
It stays such a node while the rest is compiled.  Compiling and rendering thus keep a document tidy,
whatever else other scopes have bound in it.

Main definitions:

* `PageTemplate.Binding.Repeat.Roomy` — the copies of a directive are put below an element, or on top;
* `PageTemplate.Binding.Roomy` — all directives of new scopes are like this.

Main results:

* `PageTemplate.Binding.stable_sturdy` — compiling keeps a sturdy document sturdy;
* `PageTemplate.Binding.roomy_compileTo` — the directives that compiling makes;
* `PageTemplate.Binding.Settled.sturdy_render` — rendering keeps a sturdy document sturdy.
-/

import PageTemplate.Proofs.Binding.Enclosure
import PageTemplate.Proofs.Binding.Separate
import PageTemplate.Proofs.Document.Tidy

set_option relaxedAutoImplicit false
set_option autoImplicit false

namespace PageTemplate.Binding

open PageTemplate.Data PageTemplate.Document

/-! ### What the operations of compiling keep -/

/-- **Compiling keeps a sturdy document sturdy.** -/
theorem stable_sturdy : Stable Sturdy where
  setText _ id text h := ⟨h.linked.setText id text, h.forest.setText id text, h.tidy.setText id text⟩
  divide _ id head tail h := ⟨h.linked.divide id head tail, h.forest.divide h.linked id head tail,
    h.tidy.divide h.linked id head tail⟩
  eraseAttribute _ id name h := ⟨stable_linked.eraseAttribute _ id name h.linked,
    h.forest.eraseAttribute id name, h.tidy.eraseAttribute id name⟩
  detach d id h := ⟨h.linked.detach id, h.forest.detach id, h.tidy.shrunk (shrunk_detach d id)⟩
  remove d id h := ⟨h.linked.remove id, h.forest.remove h.linked id,
    h.tidy.shrunk (shrunk_remove d id)⟩

/-! ### Directives -/

/-- The copies of a directive are put below a node that may have children, and are not copies of the
document node. -/
structure Repeat.Roomy (d : Document) (r : Repeat) : Prop where
  container : d.Holder r.container
  pattern : r.pattern ≠ root

/-- So are those of all directives of the scopes from `n` on. -/
def Roomy (n : Nat) (d : Document) (f : Scopes) : Prop :=
  ∀ x, n ≤ x → ∀ r ∈ f.repeats x, r.Roomy d

variable {d : Document} {f : Scopes} {n : Nat}

/-- New data leave the directives what they are. -/
theorem Roomy.update (h : Roomy n d f) (s : ScopeId) {k : Scope → Scope}
    (hk : ∀ sc, (k sc).repeats = sc.repeats) : Roomy n d (f.update s k) := by
  intro x hx r hr
  rw [Scopes.repeats_update_of_same hk] at hr
  exact h x hx r hr

/-- Where a repeated element is taken from, its copies have room. -/
theorem inborn_roomy : Inborn Sturdy fun d r => r.Roomy d where
  document := stable_sturdy.toLasting
  directive r :=
    { setText := fun d id text h =>
        ⟨stable_sturdy.setText d id text h.1, h.2.container.setText id text, h.2.pattern⟩
      divide := fun d id head tail h => ⟨stable_sturdy.divide d id head tail h.1,
        h.2.container.divide h.1.linked.slots id head tail, h.2.pattern⟩
      eraseAttribute := fun d id name h =>
        ⟨stable_sturdy.eraseAttribute d id name h.1, h.2.container.eraseAttribute id name, h.2.pattern⟩
      detach := fun d id h =>
        ⟨stable_sturdy.detach d id h.1, h.2.container.detach id, h.2.pattern⟩ }
  anchored _ _ _ h := ⟨h.container, h.pattern⟩
  made d _ _ element container _ hd hcontainer := by
    have hchild := hd.linked.parent element container hcontainer List.not_mem_nil
    refine ⟨hd.tidy.holder container (List.ne_nil_of_mem hchild), ?_⟩
    rintro rfl
    rw [hd.forest.top] at hcontainer
    cases hcontainer

/-- **The directives that compiling makes have room for their copies.** -/
theorem roomy_compileTo (mark : String) (fuel : Nat) (st : Stage) (s : ScopeId) (node : NodeId)
    (hsturdy : st.document.Sturdy) (hroomy : Roomy n st.document st.scopes) :
    Roomy n (st.compileTo mark fuel s node).document (st.compileTo mark fuel s node).scopes :=
  inborn_roomy.compileTo mark fuel st s node hsturdy hroomy

/-! ### Rendering -/

/-- **Rendering keeps a sturdy document sturdy**, if the directives below the scope have room for their
copies. -/
theorem Settled.sturdy_render {st : Stage} {p : Option NodeId} {s : ScopeId} {m : Mold}
    {xs : List NodeId} (h : Settled st.scopes st.document p s m xs) (hsturdy : st.document.Sturdy)
    (hroomy : Roomy s st.document st.scopes) : (st.render s).document.Sturdy := by
  obtain ⟨listed, hmoves, -⟩ := h.ranked.render
  have hshelter := hsturdy.linked.shelter (st.scopes.fragments s)
  have hsites : ∀ k ∈ st.scopes.sites s, (st.document.contains k.container = true ∧
      ∀ c ∈ st.scopes.fragments s, ¬Relation.ReflTransGen st.document.ChildOf k.container c) ∧
      st.document.Holder k.container ∧ k.pattern ≠ root := by
    intro k hk
    obtain ⟨r, hr, rfl⟩ := List.mem_map.1 hk
    have hbone : r.container ∈ m.bones := h.bone_of_handle
      (List.mem_append_right _ (List.mem_flatMap.2 ⟨r, hr, by simp⟩))
    obtain ⟨x, hx, hrx⟩ := Scopes.mem_directives.1 hr
    have hle : s ≤ x := by
      rw [h.within_eq] at hx
      rcases List.mem_cons.1 hx with rfl | hx
      · exact Nat.le_refl _
      · exact Nat.le_of_lt (h.lt hx)
    have hroom := hroomy x hle r hrx
    exact ⟨⟨contains_iff.2 (h.live (h.mem_of_bone hbone)),
      fun c hc => h.apart hsturdy.linked hbone hc⟩, hroom.container, hroom.pattern⟩
  obtain ⟨hends, hforest⟩ := hmoves.forest hsturdy.linked hsturdy.forest hshelter
    fun k hk => (hsites k hk).1
  exact ⟨(hmoves.spares hsturdy.linked hends hshelter).2.1, hforest,
    hmoves.tidy hsturdy.linked hsturdy.forest hsturdy.tidy hshelter hsites⟩

end PageTemplate.Binding
