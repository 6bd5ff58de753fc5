/-
**The document node stays on top.**

A document that has been read has the document node on top.  It stays there, and stays live, as long as
it is not put below another node, which neither binding nor rendering do: only copies are put somewhere,
and the document node is not a copy.  For this nothing has to be known about what else has been linked
below what, so it holds even where copying does not come to all nodes below a pattern.

What is removed with a node then is all that is below it, whatever is removed before and after.  When
texts are cut, new texts may use the slots that have become free, and nothing else does.

Main definitions:

* `PageTemplate.Document.Rooted` — the document node is live and has no parent;
* `PageTemplate.Document.TextOnly` — a slot holds a text, or nothing.

Main results:

* `PageTemplate.Document.Rooted.insertBefore`, `PageTemplate.Document.Rooted.clone`,
  `PageTemplate.Document.Rooted.remove` — what keeps the document node on top;
* `PageTemplate.Document.Moves.rooted` — moves keep it there;
* `PageTemplate.Document.Linked.removeAll_frees` — removing nodes frees all that is below them.
-/

import PageTemplate.Proofs.Document.Passing
import PageTemplate.Proofs.Document.Shrinking

set_option relaxedAutoImplicit false
set_option autoImplicit false

namespace PageTemplate.Document

open PageTemplate.Text Relation

/-- Each link is on both of its sides, and the document node is live and has no parent. -/
structure Rooted (d : Document) : Prop where
  linked : d.Linked []
  live : d.contains root = true
  top : d.parent? root = none

variable {d e : Document} {x c p id : NodeId}

/-! ### What keeps the document node on top -/

/-- The document node has not been changed. -/
theorem Rooted.of_same (h : d.Rooted) (he : e.Linked []) (hlive : e.contains root = d.contains root)
    (htop : e.parent? root = d.parent? root) : e.Rooted :=
  ⟨he, hlive.trans h.live, htop.trans h.top⟩

/-- The document node is no child. -/
theorem Rooted.ne_of_child (h : d.Rooted) (hc : c ∈ d.children p) : c ≠ root := by
  rintro rfl
  have hparent := h.linked.child p root hc
  rw [h.top] at hparent
  cases hparent

/-- A new node is another one. -/
theorem Rooted.alloc (h : d.Rooted) (kind : NodeKind) (span : Option Span) :
    (d.alloc kind span).1.Rooted ∧ (d.alloc kind span).2 ≠ root := by
  have hne : root ≠ (d.alloc kind span).2 := by
    intro heq
    have hdead := contains_eq_false_iff.2 (h.linked.slots.get?_alloc kind span).1
    rw [← heq, h.live] at hdead
    cases hdead
  refine ⟨h.of_same (h.linked.alloc kind span) ?_ ?_, hne.symm⟩
  · rw [contains, get?_alloc_of_ne d kind span hne, contains]
  · exact (h.linked.slots.sameLinks_alloc kind span).parent? root

theorem Rooted.insertBefore (h : d.Rooted) (hc : c ≠ root) (p : NodeId) (a : Option NodeId) :
    (d.insertBefore p c a).Rooted := by
  have hspared : Spared [] d (d.insertBefore p c a) root := spared_insertBefore hc.symm a
  exact h.of_same (h.linked.insertBefore p c a) hspared.contains hspared.parent?

theorem Rooted.setText (h : d.Rooted) (id : NodeId) (text : String) : (d.setText id text).Rooted :=
  h.of_same (h.linked.setText id text) (contains_update d id root _)
    ((sameLinks_setText d id text).parent? root)

theorem Rooted.divide (h : d.Rooted) (id : NodeId) (head tail : String) :
    (d.divide id head tail).1.Rooted := by
  obtain ⟨hnew, hne⟩ := (h.setText id head).alloc (.text tail) (d.span? id)
  unfold Document.divide
  simp only
  split
  · exact hnew
  · exact hnew.insertBefore hne _ _

theorem Rooted.eraseAttribute (h : d.Rooted) (id : NodeId) (name : String) :
    (d.eraseAttribute id name).Rooted :=
  h.of_same
    (h.linked.congr (sameLinks_eraseAttribute d id name) (h.linked.slots.update _ _))
    (contains_update d id root _) ((sameLinks_eraseAttribute d id name).parent? root)

theorem Rooted.detach (h : d.Rooted) (id : NodeId) : (d.detach id).Rooted := by
  refine h.of_same (h.linked.detach id) (contains_detach d id root) ?_
  rw [parent?_detach, h.top, ite_self]

theorem Rooted.remove (h : d.Rooted) (id : NodeId) : (d.remove id).Rooted := by
  by_cases hid : id = root
  · rw [Document.remove, hid]
    exact h
  · have hbelow : ¬ReflTransGen d.ChildOf root id := by
      intro hup
      rcases ReflTransGen.cases_head hup with heq | ⟨p, hp, -⟩
      · exact hid heq.symm
      · rw [ChildOf, h.top] at hp
        cases hp
    have hspared : Spared [] d (d.remove id) root := h.linked.spared_remove hbelow
    exact h.of_same (h.linked.remove id) hspared.contains hspared.parent?

/-- The children of a copy are copies of children, and so none is the document node. -/
theorem Rooted.cloneTo (fuel : Nat) (h : d.Rooted) (id : NodeId) :
    (Document.cloneTo fuel id d).1.Rooted ∧
      (id ≠ root → (Document.cloneTo fuel id d).2 ≠ root) := by
  induction fuel generalizing id d with
  | zero => exact ⟨h, fun hid => hid⟩
  | succ fuel ih =>
      rw [Document.cloneTo]
      split
      · exact ⟨h, fun hid => hid⟩
      · next n hn =>
          obtain ⟨hnew, hne⟩ := h.alloc n.kind n.span
          refine ⟨?_, fun _ => hne⟩
          refine List.foldlRecOn n.children _ (motive := Document.Rooted) hnew fun e he child hchild => ?_
          obtain ⟨hcopied, hcopy⟩ := ih he child
          have hroot : child ≠ root := h.ne_of_child (by rwa [children_of_get? hn])
          exact hcopied.insertBefore (hcopy hroot) _ none

theorem Rooted.clone (h : d.Rooted) (hid : id ≠ root) :
    (d.clone id).1.Rooted ∧ (d.clone id).2 ≠ root :=
  ⟨(h.cloneTo _ id).1, (h.cloneTo _ id).2 hid⟩

/-- **Moves keep the document node on top**, and never list it. -/
theorem Moves.rooted {sites : List Site} {writes listed listed' : List NodeId}
    {ops : List Operation} (h : Moves sites writes d listed ops e listed') (hd : d.Rooted)
    (hsites : ∀ k ∈ sites, k.pattern ≠ root) (hlisted : root ∉ listed) :
    e.Rooted ∧ root ∉ listed' := by
  induction h with
  | nil => exact ⟨hd, hlisted⟩
  | remove _ _ ih => exact ih (hd.remove _) hlisted
  | copy hk _ ih =>
      obtain ⟨hcopied, hcopy⟩ := hd.clone (hsites _ hk)
      refine ih (hcopied.insertBefore hcopy _ _) ?_
      rw [List.mem_append, List.mem_singleton, not_or]
      exact ⟨hlisted, hcopy.symm⟩
  | write _ _ ih => exact ih (hd.setText _ _) hlisted

/-! ### What is freed -/

/-- What a removal leaves has the parent that it had. -/
theorem parent?_remove_of_live (hx : (d.remove c).contains x = true) :
    (d.remove c).parent? x = d.parent? x := by
  by_cases hc : c = root
  · rw [Document.remove, hc]
    rfl
  · have hxc : x ≠ c := by
      rintro rfl
      rw [contains_remove_self hc] at hx
      cases hx
    unfold Document.remove at hx ⊢
    split
    · next hcond =>
        rw [if_pos hcond] at hx
        obtain ⟨n, hn⟩ := contains_iff.1 hx
        rw [parent?_of_get? hn, ← parent?_of_get? (get?_of_releaseAll _ _ hn), parent?_detach,
          if_neg hxc]
    · rfl

theorem parent?_removeAll_of_live (cs : List NodeId)
    (hx : (cs.foldl Document.remove d).contains x = true) :
    (cs.foldl Document.remove d).parent? x = d.parent? x := by
  induction cs generalizing d with
  | nil => rfl
  | cons c cs ih =>
      obtain ⟨n, hn⟩ := contains_iff.1 hx
      obtain ⟨m, hm, -⟩ := shrunk_removeAll (d.remove c) cs x n hn
      exact (ih hx).trans (parent?_remove_of_live (contains_of_get? hm))

/-- What is removed is gone, and does not come back with the next removals. -/
theorem contains_removeAll_of_mem {cs : List NodeId} (hroot : root ∉ cs) (hc : c ∈ cs) :
    (cs.foldl Document.remove d).contains c = false := by
  induction cs generalizing d with
  | nil => cases hc
  | cons b cs ih =>
      rw [List.mem_cons, not_or] at hroot
      rcases List.mem_cons.1 hc with rfl | hc
      · rw [Bool.eq_false_iff]
        intro hlive
        obtain ⟨n, hn⟩ := contains_iff.1 hlive
        obtain ⟨m, hm, -⟩ := shrunk_removeAll (d.remove c) cs c n hn
        have hdead : (d.remove c).contains c = false := contains_remove_self (Ne.symm hroot.1)
        rw [contains_of_get? hm] at hdead
        cases hdead
      · exact ih hroot.2 hc

/-- **Removing nodes frees all that is below them.**  What is left has the parent that it had, which is
left too, up to a node that has been removed. -/
theorem Linked.removeAll_frees (h : d.Linked []) {cs : List NodeId} (hroot : root ∉ cs) (hc : c ∈ cs)
    (hx : ReflTransGen d.ChildOf x c) : (cs.foldl Document.remove d).contains x = false := by
  have hlinked : (cs.foldl Document.remove d).Linked [] :=
    List.foldlRecOn cs _ (motive := fun d : Document => d.Linked []) h fun _ he id _ => he.remove id
  induction hx using ReflTransGen.head_induction_on with
  | refl => exact contains_removeAll_of_mem hroot hc
  | @head x p hxp _ ih =>
      rw [Bool.eq_false_iff]
      intro hlive
      have hparent : (cs.foldl Document.remove d).parent? x = some p :=
        (parent?_removeAll_of_live cs hlive).trans hxp
      rw [contains_of_child (hlinked.parent x p hparent List.not_mem_nil)] at ih
      cases ih

/-! ### Slots that are used again for text -/

/-- A slot holds a text, or nothing. -/
def TextOnly (d : Document) (x : NodeId) : Prop :=
  ∀ k, d.kind? x = some k → ∃ t, k = .text t

theorem TextOnly.of_dead (h : d.contains x = false) : d.TextOnly x := by
  intro k hk
  rw [kind?, contains_eq_false_iff.1 h] at hk
  cases hk

theorem TextOnly.congr (h : d.TextOnly x) (hkind : e.kind? x = d.kind? x) : e.TextOnly x :=
  fun k hk => h k (hkind ▸ hk)

/-- A change of one node that leaves a text a text. -/
theorem TextOnly.update (h : d.TextOnly x) (id : NodeId) {f : Node → Node}
    (hf : ∀ n t, n.kind = .text t → ∃ t', (f n).kind = .text t') : (d.update id f).TextOnly x := by
  intro k hk
  obtain ⟨n, hn, rfl⟩ := Option.map_eq_some_iff.1 hk
  rw [get?_update] at hn
  split at hn
  · next hx =>
      obtain ⟨m, hm, rfl⟩ := Option.map_eq_some_iff.1 hn
      obtain ⟨t, ht⟩ := h m.kind (by rw [kind?, hx, hm, Option.map_some])
      exact hf m t ht
  · exact h n.kind (by rw [kind?, hn, Option.map_some])

theorem TextOnly.setText (h : d.TextOnly x) (id : NodeId) (text : String) :
    (d.setText id text).TextOnly x :=
  h.update id fun n t ht => ⟨text, by rw [ht]⟩

theorem TextOnly.eraseAttribute (h : d.TextOnly x) (id : NodeId) (name : String) :
    (d.eraseAttribute id name).TextOnly x :=
  h.update id fun n t ht => ⟨t, by simp only [ht]⟩

theorem TextOnly.divide (h : d.TextOnly x) (hd : d.Slotted) (id : NodeId) (head tail : String) :
    (d.divide id head tail).1.TextOnly x := by
  have hslots : (d.setText id head).Slotted := hd.update id _
  have hnew : ((d.setText id head).alloc (.text tail) (d.span? id)).1.TextOnly x := by
    by_cases hx : x = ((d.setText id head).alloc (.text tail) (d.span? id)).2
    · intro k hk
      rw [hx, kind?, (hslots.get?_alloc _ _).2.1, Option.map_some, Option.some.injEq] at hk
      exact ⟨tail, hk.symm⟩
    · exact (h.setText id head).congr (by rw [kind?, get?_alloc_of_ne _ _ _ hx, kind?])
  unfold Document.divide
  simp only
  split
  · exact hnew
  · exact hnew.congr (kind?_insertBefore _ _ _ _ x)

end PageTemplate.Document
