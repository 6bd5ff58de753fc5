/-
**Compiling stays in the part of the document that it is about.**

A part of a document that has all nodes below a node, and all free slots, is closed under what
compiling does: what is cut, taken out or made belongs to it.  Nothing is asked of the nodes, so this
holds even where other nodes than elements have children.

Main definitions:

* `PageTemplate.Document.Enclosed` — what has happened to a document has happened in a part of it.

Main results:

* `PageTemplate.Document.Enclosed.divide`, `PageTemplate.Document.Enclosed.detach` — single operations;
* `PageTemplate.Binding.Enclosed.compileTo` — compiling.
-/

import PageTemplate.Proofs.Binding.Compiling
import PageTemplate.Proofs.Document.Orderly

set_option relaxedAutoImplicit false
set_option autoImplicit false

namespace PageTemplate

namespace Document

/-- What has made the document `e` from `d` has happened in the slots `A`.  These are the free slots
and those of a part of the document: below a node of the part there are only nodes of the part, and
also above it, but for the node `top`. -/
structure Enclosed (A : NodeId → Prop) (top : NodeId) (d e : Document) : Prop where
  linked : e.Linked []
  live : e.contains top = true
  free : ∀ x, e.contains x = false → A x
  down : ∀ x c, A x → c ∈ e.children x → A c ∧ c ≠ top
  up : ∀ x p, A x → x ≠ top → e.parent? x = some p → A p
  above : e.parent? top = d.parent? top
  keeps : ∀ x, ¬A x → e.get? x = d.get? x

variable {A : NodeId → Prop} {top id : NodeId} {d e : Document}

/-- The nodes of a held tree are such a part. -/
theorem Holds.enclosed {p : Option NodeId} {t : Placed} (h : d.Holds p t) (hd : d.Linked []) :
    Enclosed (fun x => x ∈ t.ids ∨ d.contains x = false) t.id d d where
  linked := hd
  live := contains_of_get? h.get?
  free x hx := .inr hx
  down x c hx hc := by
    rcases hx with hx | hx
    · refine ⟨.inl (h.mem_of_child hx hc), ?_⟩
      rintro rfl
      -- the topmost node would be below itself
      have hparent : d.ChildOf t.id x := hd.child x _ hc
      exact hd.not_finiteBelow (.head' hparent (h.up hx)) h.finiteBelow
    · rw [contains_eq_false_iff] at hx
      rw [children_eq_nil_of_dead hx] at hc
      cases hc
  up x q hx hne hq := by
    rcases hx with hx | hx
    · rcases Relation.ReflTransGen.cases_head (h.up hx) with heq | ⟨q', hq', hup⟩
      · exact absurd heq hne
      · rw [rightUnique_childOf d hq' hq] at hup
        exact .inl (h.mem_of_up hd hup)
    · rw [contains_eq_false_iff] at hx
      rw [parent?_eq_none_of_dead hx] at hq
      cases hq
  above := rfl
  keeps _ _ := rfl

/-! ### Single operations -/

/-- A change of what a node of the part is. -/
theorem Enclosed.update (h : Enclosed A top d e) (hid : A id) {f : Node → Node}
    (hf : ∀ n, (f n).parent = n.parent ∧ (f n).children = n.children) :
    Enclosed A top d (e.update id f) := by
  have hlinks := sameLinks_update e id hf
  refine ⟨h.linked.congr hlinks (h.linked.slots.update id f), ?live, ?free, ?down,
    ?up, ?above, ?keeps⟩
  case live =>
    rw [contains_update, h.live]
  case free =>
    intro x hx
    refine h.free x ?_
    rwa [contains_update] at hx
  case down =>
    intro x c hx hc
    rw [hlinks.children] at hc
    exact h.down x c hx hc
  case up =>
    intro x p hx hne hp
    rw [hlinks.parent?] at hp
    exact h.up x p hx hne hp
  case above =>
    rw [hlinks.parent?, h.above]
  case keeps =>
    intro x hx
    have hne : x ≠ id := fun heq => hx (heq ▸ hid)
    rw [get?_update_of_ne hne, h.keeps x hx]

theorem Enclosed.setText (h : Enclosed A top d e) (hid : A id) (text : String) :
    Enclosed A top d (e.setText id text) := by
  refine h.update hid fun n => ?_
  split <;> exact ⟨rfl, rfl⟩

theorem Enclosed.eraseAttribute (h : Enclosed A top d e) (hid : A id) (name : String) :
    Enclosed A top d (e.eraseAttribute id name) := by
  refine h.update hid fun n => ?_
  split <;> exact ⟨rfl, rfl⟩

/-- A node of the part that is detached was below one of the part. -/
theorem Enclosed.detach (h : Enclosed A top d e) (hid : A id) (hne : id ≠ top) :
    Enclosed A top d (e.detach id) := by
  refine ⟨h.linked.detach id, ?live, ?free, ?down, ?up, ?above, ?keeps⟩
  case live =>
    rw [contains_detach, h.live]
  case free =>
    intro x hx
    refine h.free x ?_
    rwa [contains_detach] at hx
  case down =>
    intro x c hx hc
    rw [children_detach] at hc
    split at hc
    · exact h.down x c hx (List.mem_filter.1 hc).1
    · exact h.down x c hx hc
  case up =>
    intro x p hx htop hp
    rw [parent?_detach] at hp
    split at hp
    · cases hp
    · exact h.up x p hx htop hp
  case above =>
    rw [parent?_detach, if_neg hne.symm, h.above]
  case keeps =>
    intro x hx
    rw [← h.keeps x hx, Document.detach]
    split
    · rfl
    · next p hp =>
        have hxid : x ≠ id := fun heq => hx (heq ▸ hid)
        have hxp : x ≠ p := fun heq => hx (heq ▸ h.up id p hid hne hp)
        rw [get?_update_of_ne hxid, get?_update_of_ne hxp]

/-- A new node is in the part. -/
theorem Enclosed.alloc (h : Enclosed A top d e) (kind : NodeKind) (span : Option Text.Span) :
    Enclosed A top d (e.alloc kind span).1 ∧ A (e.alloc kind span).2 ∧
      (e.alloc kind span).2 ≠ top := by
  obtain ⟨hdead, hnew, -⟩ := h.linked.slots.get?_alloc kind span
  have hlinks := h.linked.slots.sameLinks_alloc kind span
  rw [← contains_eq_false_iff] at hdead
  have hfree := h.free _ hdead
  have htop : (e.alloc kind span).2 ≠ top := by
    intro heq
    rw [heq, h.live] at hdead
    cases hdead
  refine ⟨⟨h.linked.alloc kind span, ?live, ?free, ?down, ?up, ?above, ?keeps⟩, hfree, htop⟩
  case live =>
    rw [contains, get?_alloc_of_ne e kind span htop.symm]
    exact h.live
  case free =>
    intro x hx
    by_cases hxnew : x = (e.alloc kind span).2
    · rwa [hxnew]
    · rw [contains, get?_alloc_of_ne e kind span hxnew] at hx
      exact h.free x hx
  case down =>
    intro x c hx hc
    rw [hlinks.children] at hc
    exact h.down x c hx hc
  case up =>
    intro x p hx hne hp
    rw [hlinks.parent?] at hp
    exact h.up x p hx hne hp
  case above =>
    rw [hlinks.parent?, h.above]
  case keeps =>
    intro x hx
    have hxnew : x ≠ (e.alloc kind span).2 := fun heq => hx (heq ▸ hfree)
    rw [get?_alloc_of_ne e kind span hxnew, h.keeps x hx]

/-- A node of the part, but for the top, is put below another one. -/
theorem Enclosed.insertBefore (h : Enclosed A top d e) {p c : NodeId} (hp : A p) (hc : A c)
    (hne : c ≠ top) (a : Option NodeId) : Enclosed A top d (e.insertBefore p c a) := by
  by_cases hlive : e.contains p = true ∧ e.contains c = true ∧ p ≠ c
  · obtain ⟨hplive, hclive, hpc⟩ := hlive
    have hdetach := h.detach hc hne
    refine ⟨h.linked.insertBefore p c a, ?live, ?free, ?down, ?up, ?above, ?keeps⟩
    case live =>
      rw [contains_insertBefore, h.live]
    case free =>
      intro x hx
      refine h.free x ?_
      rwa [contains_insertBefore] at hx
    case down =>
      intro x y hx hy
      rw [children_insertBefore hplive hclive hpc] at hy
      split at hy
      · rcases mem_place.1 hy with rfl | hy
        · exact ⟨hc, hne⟩
        · exact hdetach.down p y hp hy
      · exact hdetach.down x y hx hy
    case up =>
      intro x q hx htop hq
      rw [parent?_insertBefore hplive hclive hpc] at hq
      split at hq
      · rwa [← Option.some.inj hq]
      · exact h.up x q hx htop hq
    case above =>
      rw [parent?_insertBefore hplive hclive hpc, if_neg hne.symm, h.above]
    case keeps =>
      intro x hx
      have hxc : x ≠ c := fun heq => hx (heq ▸ hc)
      have hxp : x ≠ p := fun heq => hx (heq ▸ hp)
      rw [insertBefore_of_live hplive hclive hpc, get?_update_of_ne hxc, get?_update_of_ne hxp,
        hdetach.keeps x hx]
  · have hcond : ¬(e.contains p && e.contains c && p != c) = true := by
      simpa [and_assoc] using hlive
    rwa [Document.insertBefore, if_neg hcond]

/-- A node of the part, but for the top, is divided. -/
theorem Enclosed.divide (h : Enclosed A top d e) (hid : A id) (hne : id ≠ top)
    (head tail : String) :
    Enclosed A top d (e.divide id head tail).1 ∧ A (e.divide id head tail).2 ∧
      (e.divide id head tail).2 ≠ top := by
  obtain ⟨hnew, hA, htop⟩ := (h.setText hid head).alloc (.text tail) (e.span? id)
  unfold Document.divide
  simp only
  split
  · exact ⟨hnew, hA, htop⟩
  · next p hp => exact ⟨hnew.insertBefore (hnew.up id p hid hne hp) hA htop _, hA, htop⟩

end Document

namespace Binding

open PageTemplate.Data PageTemplate.Document

variable {A : NodeId → Prop} {top node : NodeId} {d e : Document}

/-! ### Cutting -/

theorem Enclosed.layOut (h : Enclosed A top d e) (hnode : A node) (hne : node ≠ top) (slots : Slots)
    (ps : List Piece) : Enclosed A top d (layOut e slots node ps).1 := by
  induction ps generalizing e slots node with
  | nil => exact h
  | cons p ps ih =>
      cases ps with
      | nil => exact h.setText hnode _
      | cons q ps =>
          obtain ⟨hdivide, hnew, htop⟩ := h.divide hnode hne (String.ofList p.text) ""
          exact ih hdivide hnew htop _

theorem Enclosed.cutText (h : Enclosed A top d e) (hnode : A node) (hne : node ≠ top)
    (slots : Slots) : Enclosed A top d (cutText e slots node).1 := by
  rw [Binding.cutText]
  split
  · exact Enclosed.layOut h hnode hne slots _
  · exact h

theorem Enclosed.cutRound {fuel : Nat}
    (hinner : ∀ {e : Document} {node : NodeId}, Enclosed A top d e → A node → ∀ slots : Slots,
      Enclosed A top d (extractTo fuel e slots node).1)
    {out : Document × Slots} (h : Enclosed A top d out.1) (hnode : A node) (hne : node ≠ top) :
    Enclosed A top d (cutRound fuel out node).1 := by
  simp only [Binding.cutRound]
  split
  · exact Enclosed.cutText h hnode hne _
  · exact hinner h hnode _
  · exact h

theorem Enclosed.extractTo (fuel : Nat) (h : Enclosed A top d e) (hnode : A node) (slots : Slots) :
    Enclosed A top d (extractTo fuel e slots node).1 := by
  induction fuel generalizing e slots node with
  | zero => exact h
  | succ fuel ih =>
      rw [extractTo_succ]
      refine List.foldlRecOn (e.children node) (Binding.cutRound fuel)
        (motive := fun out : Document × Slots => Enclosed A top d out.1) h
        fun _ hout child hchild => ?_
      obtain ⟨hA, hne⟩ := h.down node child hnode hchild
      exact Enclosed.cutRound ih hout hA hne

/-! ### Compiling -/

/-- The search for repeated elements stays in the part. -/
theorem Enclosed.of_mem_repeatedFrom (h : Enclosed A top d e) {mark : String} {fuel : Nat}
    {stack : List NodeId} (hstack : ∀ x ∈ stack, A x ∧ x ≠ top) {x : NodeId}
    (hx : x ∈ repeatedFrom e mark fuel stack) : A x ∧ x ≠ top := by
  induction fuel generalizing stack with
  | zero => cases hx
  | succ fuel ih =>
      cases stack with
      | nil => cases hx
      | cons y stack =>
          have hrest : ∀ x ∈ stack, A x ∧ x ≠ top := fun x hx => hstack x (List.mem_cons_of_mem _ hx)
          have hy := hstack y (List.mem_cons_self ..)
          rw [repeatedFrom] at hx
          split at hx
          · split at hx
            · rcases List.mem_cons.1 hx with rfl | hx
              · exact hy
              · exact ih hrest hx
            · refine ih (fun z hz => ?_) hx
              rcases List.mem_append.1 hz with hz | hz
              · exact h.down y z hy.1 hz
              · exact hrest z hz
          · exact ih hrest hx

theorem Enclosed.takeRound {mark : String} {fuel : Nat}
    (hinner : ∀ {e : Document} {node : NodeId}, Enclosed A top d e → A node →
      ∀ (f : Scopes) (s : ScopeId),
        Enclosed A top d (Stage.compileTo mark fuel ⟨e, f⟩ s node).document)
    (s : ScopeId) {out : Stage × List Repeat} (h : Enclosed A top d out.1.document)
    (hnode : A node) (hne : node ≠ top) :
    Enclosed A top d (takeRound mark fuel s out node).1.document := by
  simp only [Binding.takeRound]
  split
  · exact ((hinner h hnode _ _).eraseAttribute hnode mark).detach hnode hne
  · exact h

/-- **Compiling stays in the part.** -/
theorem Enclosed.compileTo (mark : String) (fuel : Nat) {st : Stage}
    (h : Enclosed A top d st.document) (hnode : A node) (s : ScopeId) :
    Enclosed A top d (st.compileTo mark fuel s node).document := by
  induction fuel generalizing st s node with
  | zero => exact h
  | succ fuel ih =>
      have htaken := List.foldlRecOn (repeated st.document mark node) (Binding.takeRound mark fuel s)
        (motive := fun out : Stage × List Repeat => Enclosed A top d out.1.document) (b := (st, [])) h
        fun _ hout element helement => by
          obtain ⟨hA, hne⟩ :=
            Enclosed.of_mem_repeatedFrom h (fun c hc => h.down node c hnode hc) helement
          exact Enclosed.takeRound (fun he hnode _ => ih he hnode) s hout hA hne
      rw [compileTo_succ]
      exact Enclosed.extractTo _ htaken hnode _

/-- Compiling keeps each link on both of its sides. -/
theorem stable_linked : Stable fun d => d.Linked [] where
  setText _ id text h := h.setText id text
  divide _ id head tail h := h.divide id head tail
  eraseAttribute d id name h := h.congr (sameLinks_eraseAttribute d id name) (h.slots.update _ _)
  detach _ id h := h.detach id
  remove _ id h := h.remove id

end Binding

end PageTemplate
