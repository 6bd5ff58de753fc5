/-
**Documents in which only elements have children.**

In a document that has been read, nothing but elements and the document node has children, and there is
one document node.  The operations keep it so, as long as nodes are put below elements only, and the
document node is not copied.  A text that is divided is below an element already.

Main definitions:

* `PageTemplate.Document.Holder` — a node that may have children;
* `PageTemplate.Document.Tidy` — only such nodes have children, and there is one document node;
* `PageTemplate.Document.Sturdy` — a tidy forest with each link on both of its sides.

Main results:

* `PageTemplate.Document.Tidy.divide`, `PageTemplate.Document.Tidy.clone`,
  `PageTemplate.Document.Tidy.insertBefore` — single operations;
* `PageTemplate.Document.Moves.tidy` — moves that put copies below such nodes;
* `PageTemplate.Document.sturdy_of_parse` — a document that has been read is like this;
* `PageTemplate.Document.Sturdy.exists_held` — each node but the document node is on top of a proper
  tree.
-/

import PageTemplate.Proofs.Document.Growth
import PageTemplate.Proofs.Document.Passing
import PageTemplate.Proofs.Document.Shrinking

set_option relaxedAutoImplicit false
set_option autoImplicit false

namespace PageTemplate.Document

open Relation

/-- The node may have children: it is the document node or an element. -/
def Holder (d : Document) (id : NodeId) : Prop :=
  id = root ∨ (d.element? id).isSome

/-- Only the document node and elements have children, and no other node is a document node. -/
structure Tidy (d : Document) : Prop where
  kind : ∀ x, d.kind? x = some .document → x = root
  holder : ∀ x, d.children x ≠ [] → d.Holder x

variable {d e : Document} {id x p c : NodeId}

/-! ### Nodes that may have children -/

theorem isSome_element?_update (d : Document) (id : NodeId) {f : Node → Node}
    (hf : ∀ n, (f n).kind.element?.isSome = n.kind.element?.isSome) (x : NodeId) :
    ((d.update id f).element? x).isSome = (d.element? x).isSome := by
  rw [element?, element?, kind?, kind?, get?_update]
  split
  · next hx =>
      rw [hx]
      cases d.get? id with
      | none => rfl
      | some n => exact hf n
  · rfl

theorem Holder.setText (h : d.Holder x) (id : NodeId) (text : String) :
    (d.setText id text).Holder x := by
  refine h.imp_right fun h => ?_
  rw [Document.setText, isSome_element?_update d id fun n => ?_, h]
  split
  · next hkind => rw [hkind]; rfl
  · rfl

theorem Holder.eraseAttribute (h : d.Holder x) (id : NodeId) (name : String) :
    (d.eraseAttribute id name).Holder x := by
  refine h.imp_right fun h => ?_
  rw [Document.eraseAttribute, isSome_element?_update d id fun n => ?_, h]
  split
  · next hkind => rw [hkind]; rfl
  · rfl

theorem Holder.detach (h : d.Holder x) (id : NodeId) : (d.detach id).Holder x := by
  rwa [Holder, element?, kind?_detach]

theorem Holder.insertBefore (h : d.Holder x) (p c : NodeId) (a : Option NodeId) :
    (d.insertBefore p c a).Holder x := by
  rwa [Holder, element?, kind?_insertBefore]

theorem Holder.alloc (h : d.Holder x) (hd : d.Slotted) (kind : NodeKind)
    (span : Option Text.Span) : (d.alloc kind span).1.Holder x := by
  obtain ⟨hdead, -, -⟩ := hd.get?_alloc kind span
  refine h.imp_right fun h => ?_
  by_cases hxnew : x = (d.alloc kind span).2
  · rw [hxnew, element?, kind?, hdead] at h
    cases h
  · rwa [element?, kind?, get?_alloc_of_ne d kind span hxnew]

theorem Holder.divide (h : d.Holder x) (hd : d.Slotted) (id : NodeId) (head tail : String) :
    (d.divide id head tail).1.Holder x := by
  have hset : (d.setText id head).Slotted := hd.update id _
  have hnew := (h.setText id head).alloc hset (.text tail) (d.span? id)
  unfold Document.divide
  simp only
  split
  · exact hnew
  · exact hnew.insertBefore _ _ _

/-! ### Tidy documents -/

/-- What is no new document node, stays an element, and gets no first child, stays tidy. -/
theorem Tidy.of_kinds (h : d.Tidy) (hkind : ∀ x, e.kind? x = some .document → d.kind? x = some .document)
    (hholder : ∀ x, e.children x ≠ [] → d.Holder x → e.Holder x)
    (hchildren : ∀ x, e.children x ≠ [] → d.children x ≠ []) : e.Tidy where
  kind x hx := h.kind x (hkind x hx)
  holder x hx := hholder x hx (h.holder x (hchildren x hx))

theorem contains_of_children_ne_nil (hx : d.children x ≠ []) : d.contains x = true := by
  obtain ⟨c, hc⟩ := List.exists_mem_of_ne_nil _ hx
  exact contains_of_child hc

theorem Tidy.shrunk (h : d.Tidy) (hshrunk : Shrunk d e) : e.Tidy := by
  refine h.of_kinds (fun x hx => ?_) (fun x hx => ?_) fun x hx hnil => ?_
  · have hlive : e.contains x = true := by rw [contains_eq_isSome_kind?, hx, Option.isSome_some]
    rw [← hshrunk.kind? hlive, hx]
  · rw [Holder, Holder, element?, element?, hshrunk.kind? (contains_of_children_ne_nil hx)]
    exact fun h => h
  · have hsub := hshrunk.children_subset x
    rw [hnil] at hsub
    exact hx (List.subset_nil.1 hsub)

/-- A change that leaves elements elements and makes no document node. -/
theorem Tidy.update (h : d.Tidy) (id : NodeId) {f : Node → Node}
    (hf : ∀ n, (f n).children = n.children ∧
      (f n).kind.element?.isSome = n.kind.element?.isSome ∧
      ((f n).kind = .document → n.kind = .document)) : (d.update id f).Tidy := by
  refine h.of_kinds (fun x hx => ?_) (fun x _ hx => ?_) fun x hx => ?_
  · rw [kind?, get?_update] at hx
    split at hx
    · next heq =>
        rw [Option.map_map, Option.map_eq_some_iff] at hx
        obtain ⟨n, hn, hkind⟩ := hx
        rw [heq, kind?, hn, Option.map_some, (hf n).2.2 hkind]
    · rwa [kind?]
  · exact hx.imp_right fun hx => by rwa [isSome_element?_update d id fun n => (hf n).2.1]
  · rw [children_update] at hx
    split at hx
    · next heq =>
        rw [heq, children]
        cases hn : d.get? id with
        | none => simp [hn] at hx
        | some n =>
            rw [hn, Option.map_some, Option.getD_some, (hf n).1] at hx
            exact hx
    · exact hx

theorem Tidy.setText (h : d.Tidy) (id : NodeId) (text : String) : (d.setText id text).Tidy := by
  refine h.update id fun n => ?_
  split
  · next hkind => exact ⟨rfl, by rw [hkind]; rfl, fun h => by cases h⟩
  · exact ⟨rfl, rfl, fun h => h⟩

theorem Tidy.eraseAttribute (h : d.Tidy) (id : NodeId) (name : String) :
    (d.eraseAttribute id name).Tidy := by
  refine h.update id fun n => ?_
  split
  · next hkind => exact ⟨rfl, by rw [hkind]; rfl, fun h => by cases h⟩
  · exact ⟨rfl, rfl, fun h => h⟩

theorem Tidy.alloc (h : d.Tidy) (hd : d.Slotted) {kind : NodeKind} (hkind : kind ≠ .document)
    (span : Option Text.Span) : (d.alloc kind span).1.Tidy := by
  obtain ⟨-, hnew, -⟩ := hd.get?_alloc kind span
  refine h.of_kinds (fun x hx => ?_) (fun x _ hx => hx.alloc hd kind span) fun x hx => ?_
  · by_cases hxnew : x = (d.alloc kind span).2
    · rw [hxnew, kind?, hnew] at hx
      exact absurd (Option.some.inj hx) hkind
    · rwa [kind?, get?_alloc_of_ne d kind span hxnew] at hx
  · rwa [(hd.sameLinks_alloc kind span).children] at hx

/-- A node is put below a node that may have children. -/
theorem Tidy.insertBefore (h : d.Tidy) (hp : d.Holder p) (c : NodeId) (a : Option NodeId) :
    (d.insertBefore p c a).Tidy where
  kind x hx := h.kind x (by rwa [kind?_insertBefore] at hx)
  holder x hx := by
    refine Holder.insertBefore ?_ p c a
    by_cases hlive : d.contains p = true ∧ d.contains c = true ∧ p ≠ c
    · obtain ⟨hplive, hclive, hne⟩ := hlive
      rw [children_insertBefore hplive hclive hne] at hx
      split at hx
      · next heq => exact heq ▸ hp
      · refine h.holder x fun hnil => hx ?_
        rw [children_detach, hnil]
        exact ite_self _
    · have hcond : ¬(d.contains p && d.contains c && p != c) = true := by
        simpa [and_assoc] using hlive
      rw [Document.insertBefore, if_neg hcond] at hx
      exact h.holder x hx

/-- A node that is divided is a child, so its parent may have children. -/
theorem Tidy.divide (h : d.Tidy) (hd : d.Linked []) (id : NodeId) (head tail : String) :
    (d.divide id head tail).1.Tidy := by
  have hset := hd.setText id head
  have hnew := (h.setText id head).alloc hset.slots (by simp : NodeKind.text tail ≠ .document)
    (d.span? id)
  have hlinked := hset.alloc (.text tail) (d.span? id)
  unfold Document.divide
  simp only
  split
  · exact hnew
  · next p hp =>
      refine hnew.insertBefore (hnew.holder p fun hnil => ?_) _ _
      have hchild := hlinked.parent id p hp List.not_mem_nil
      rw [hnil] at hchild
      cases hchild

/-- Two held trees that are the same but for their slots: each node of one is what a node of the other
is, and has children if that one has. -/
theorem Holds.twin {p q : Option NodeId} {t u : Placed} (hu : e.Holds q u) (ht : d.Holds p t)
    (htree : u.tree = t.tree) (hx : x ∈ u.ids) :
    ∃ y ∈ t.ids, e.kind? x = d.kind? y ∧ (e.children x ≠ [] → d.children y ≠ []) := by
  induction hu generalizing p t with
  | @node q id kind span cs hget hcs ih =>
      obtain ⟨i, kind', span', bs⟩ := t
      rw [Placed.tree_node, Placed.tree_node, Tree.node.injEq] at htree
      obtain ⟨rfl, -, hchildren⟩ := htree
      have hheld : d.get? i = some ⟨kind, p, bs.map Placed.id, span'⟩ := ht.get?
      rw [Placed.ids_node] at hx
      rcases List.mem_cons.1 hx with rfl | hx
      · refine ⟨i, by simp, by rw [kind?, kind?, hget, hheld]; rfl, ?_⟩
        rw [children_of_get? hget, children_of_get? hheld]
        intro hne hnil
        rw [List.map_eq_nil_iff.1 hnil, List.map_nil, List.map_eq_nil_iff] at hchildren
        exact hne (by rw [hchildren, List.map_nil])
      · obtain ⟨c, hc, hxc⟩ := List.mem_flatMap.1 hx
        obtain ⟨b, hb, hbc⟩ := List.mem_map.1 (hchildren ▸ List.mem_map.2 ⟨c, hc, rfl⟩)
        obtain ⟨y, hy, htwin⟩ := ih c hc (ht.child hb) hbc.symm hxc
        exact ⟨y, Placed.mem_ids_of_child hb hy, htwin⟩

/-- The document node is in no tree but on its top. -/
theorem Holds.eq_root {q : Option NodeId} {t : Placed} (ht : d.Holds q t) (hf : d.Forest)
    (hroot : root ∈ t.ids) : t.id = root := by
  rcases ReflTransGen.cases_head (ht.up hroot) with heq | ⟨p, hp, -⟩
  · exact heq.symm
  · rw [ChildOf, hf.top] at hp
    cases hp

/-- Any node but the document node is copied. -/
theorem Tidy.clone (h : d.Tidy) (hd : d.Linked []) (hf : d.Forest) (hid : id ≠ root) :
    (d.clone id).1.Tidy := by
  cases hlive : d.contains id with
  | false => rwa [Document.clone, Document.cloneTo, contains_eq_false_iff.1 hlive]
  | true =>
      obtain ⟨t, rfl, ht, hn, -⟩ := hf.exists_held hd hlive
      obtain ⟨u, -, htree, hu⟩ := hd.slots.clone ht hn
      have hroot : root ∉ t.ids := fun hmem => hid (ht.eq_root hf hmem)
      have hkeep : ∀ x, x ∉ u.ids → (d.clone t.id).1.kind? x = d.kind? x ∧
          (d.clone t.id).1.children x = d.children x := fun x hx => by
        rw [kind?, kind?, children, children, hu.keeps x hx]
        exact ⟨rfl, rfl⟩
      refine ⟨fun x hx => ?_, fun x hx => ?_⟩
      · by_cases hxu : x ∈ u.ids
        · obtain ⟨y, hy, hkind, -⟩ := hu.holds.twin ht htree hxu
          exact absurd (h.kind y (hkind ▸ hx) ▸ hy) hroot
        · exact h.kind x ((hkeep x hxu).1 ▸ hx)
      · by_cases hxu : x ∈ u.ids
        · obtain ⟨y, hy, hkind, hchildren⟩ := hu.holds.twin ht htree hxu
          refine .inr ?_
          rw [element?, hkind]
          refine (h.holder y (hchildren hx)).resolve_left fun heq => hroot (heq ▸ hy)
        · obtain ⟨hkind, hchildren⟩ := hkeep x hxu
          rw [Holder, element?, hkind, ← element?]
          exact h.holder x (hchildren ▸ hx)

/-! ### Moves -/

/-- What is spared may have children if it could. -/
theorem Spared.holder {writes : List NodeId} (h : Spared writes d e x) (hx : d.Holder x) :
    e.Holder x := by
  refine hx.imp_right fun helement => ?_
  have hkinds := congrArg (Option.map fun o => o.1.element?.isSome) h.outline
  have hblank : ∀ f : Document, (f.outline? x).map (fun o => o.1.element?.isSome) =
      (f.kind? x).map fun k => k.element?.isSome := by
    intro f
    rw [outline?, kind?, Option.map_map, Option.map_map]
    refine congrArg (Option.map · _) (funext fun n => ?_)
    obtain ⟨kind, _, _, _⟩ := n
    cases kind <;> rfl
  rw [hblank, hblank] at hkinds
  rw [element?] at helement ⊢
  cases hd : d.kind? x with
  | none =>
      rw [hd] at helement
      cases helement
  | some k =>
      rw [hd, Option.bind_some] at helement
      rw [hd, Option.map_some] at hkinds
      obtain ⟨k', hk', hsame⟩ := Option.map_eq_some_iff.1 hkinds
      rw [hk', Option.bind_some, hsame, helement]

/-- **Moves that put copies below nodes of a shelter that may have children keep a document tidy.** -/
theorem Moves.tidy {sites : List Site} {writes listed listed' : List NodeId}
    {ops : List Operation} {A : NodeId → Prop} (h : Moves sites writes d listed ops e listed')
    (hd : d.Linked []) (hf : d.Forest) (ht : d.Tidy) (hA : d.Shelter listed A)
    (hsites : ∀ k ∈ sites, A k.container ∧ d.Holder k.container ∧ k.pattern ≠ root) : e.Tidy := by
  induction h with
  | nil => exact ht
  | @remove d e listed listed' ops c hc _ ih =>
      have hspared : ∀ x, A x → Spared writes d (d.remove c) x := fun x hx => hA.remove hd hc hx
      exact ih (hd.remove c) (hf.remove hd c) (ht.shrunk (shrunk_remove d c))
        (hA.of_spared hspared hA.apart) fun k hk =>
          (hsites k hk).imp_right fun h => h.imp_left (hspared _ (hsites k hk).1).holder
  | @copy d e listed listed' ops k hk _ ih =>
      obtain ⟨hcontainer, hholder, hpattern⟩ := hsites k hk
      have hfinite : d.FiniteBelow k.pattern := hf.finiteBelow hd k.pattern
      have hlinked : (d.clone k.pattern).1.Linked [] := hd.cloneTo _ _
      have hspared := fun x (hx : A x) => hA.copy hd writes hfinite k.container k.anchor hx
      exact ih (hlinked.insertBefore _ _ _) (hA.forest_copy hd hf hcontainer k.pattern k.anchor)
        ((ht.clone hd hf hpattern).insertBefore ((hspared _ hcontainer).1.holder hholder) _ _)
        (hA.of_spared (fun x hx => (hspared x hx).2) fun x hx => hA.list_copy hd k.pattern hx)
        fun k' hk' => (hsites k' hk').imp_right fun h =>
          h.imp_left (hspared _ (hsites k' hk').1).2.holder
  | @write d e listed listed' ops i text hi _ ih =>
      have hspared : ∀ x, A x → Spared writes d (d.setText i text) x :=
        fun x _ => spared_setText hi text
      exact ih (hd.setText i text) (hf.setText i text) (ht.setText i text)
        (hA.of_spared hspared hA.apart) fun k hk =>
          (hsites k hk).imp_right fun h => h.imp_left (hspared _ (hsites k hk).1).holder

/-! ### Documents that hold proper trees -/

/-- A tidy forest, with each link on both of its sides. -/
structure Sturdy (d : Document) : Prop where
  linked : d.Linked []
  forest : d.Forest
  tidy : d.Tidy

theorem Sturdy.sound (h : d.Sturdy) : d.Sound := h.linked.sound h.forest

/-- In a proper tree nothing is a document node, and only elements have children. -/
theorem Holds.tidy_of_proper {p : Option NodeId} {t : Placed} (ht : d.Holds p t) (hproper : t.Proper)
    (hx : x ∈ t.ids) : d.kind? x ≠ some .document ∧ (d.children x ≠ [] → d.Holder x) := by
  induction ht with
  | @node p id kind span cs hget hcs ih =>
      have hkind : d.kind? id = some kind := by rw [kind?, hget]; rfl
      rw [Placed.ids_node, List.mem_cons] at hx
      rcases hx with rfl | hx
      · rw [hkind, children_of_get? hget]
        cases hproper with
        | element _ e _ _ => exact ⟨by simp, fun _ => .inr (by rw [Document.element?, hkind]; rfl)⟩
        | text | comment | doctype => exact ⟨by simp, fun h => absurd rfl h⟩
      · obtain ⟨c, hc, hxc⟩ := List.mem_flatMap.1 hx
        cases hproper with
        | element _ _ _ h => exact ih c hc (h c hc) hxc
        | text | comment | doctype => cases hc

/-- **A document that has been read is sturdy.** -/
theorem sturdy_of_parse {source : String} (h : parse source = .ok d) : d.Sturdy := by
  obtain ⟨cs, hsound, hholds, hproper, hnodup, hall⟩ := parse_covers h
  obtain ⟨hlinked, hforest⟩ := hsound.linked_forest hholds hnodup hall
  have hother : ∀ x, d.contains x = true → x ≠ root →
      d.kind? x ≠ some .document ∧ (d.children x ≠ [] → d.Holder x) := by
    intro x hlive hne
    have hx := hall x hlive
    rw [Placed.ids_node, List.mem_cons, or_iff_right hne] at hx
    obtain ⟨c, hc, hxc⟩ := List.mem_flatMap.1 hx
    exact (hholds.child hc).tidy_of_proper (hproper c hc) hxc
  refine ⟨hlinked, hforest, fun x hx => ?_, fun x hx => ?_⟩
  · by_contra hne
    have hlive : d.contains x = true := by rw [contains_eq_isSome_kind?, hx, Option.isSome_some]
    exact (hother x hlive hne).1 hx
  · by_cases hne : x = root
    · exact .inl hne
    · exact (hother x (contains_of_children_ne_nil hx) hne).2 hx

/-- A tree without the document node is proper. -/
theorem Tidy.proper (h : d.Tidy) {p : Option NodeId} {t : Placed} (ht : d.Holds p t)
    (hroot : root ∉ t.ids) : t.Proper := by
  induction ht with
  | @node p id kind span cs hget hcs ih =>
      have hne : id ≠ root := fun heq => hroot (by simp [heq])
      have hchildren : ∀ c ∈ cs, c.Proper := fun c hc =>
        ih c hc fun hmem => hroot (Placed.mem_ids_of_child hc hmem)
      have hkind : d.kind? id = some kind := by rw [kind?, hget]; rfl
      have hleaf : kind.element? = none → cs = [] := by
        intro hnone
        by_contra hcs
        rcases h.holder id (by simp [children_of_get? hget, hcs]) with heq | hsome
        · exact hne heq
        · rw [element?, hkind, Option.bind_some, hnone] at hsome
          cases hsome
      cases kind with
      | element e => exact .element id e span hchildren
      | document => exact absurd (h.kind id hkind) hne
      | text t =>
          obtain rfl := hleaf rfl
          exact .text id t span
      | comment t =>
          obtain rfl := hleaf rfl
          exact .comment id t span
      | doctype t =>
          obtain rfl := hleaf rfl
          exact .doctype id t span

/-- **Each node is on top of a tree**, in which what is below the topmost node is proper. -/
theorem Sturdy.exists_held (h : d.Sturdy) (hlive : d.contains id = true) :
    ∃ kind span cs, d.Holds (d.parent? id) (.node id kind span cs) ∧
      (Placed.node id kind span cs).ids.Nodup ∧ (∀ c ∈ cs, c.Proper) ∧
      ∀ x, x ∈ (Placed.node id kind span cs).ids ↔ ReflTransGen d.ChildOf x id := by
  obtain ⟨⟨i, kind, span, cs⟩, rfl, ht, hn, hmem⟩ := h.forest.exists_held h.linked hlive
  refine ⟨kind, span, cs, ht, hn, fun c hc => h.tidy.proper (ht.child hc) fun hroot => ?_, hmem⟩
  -- a child is not the document node
  have hid := (ht.child hc).eq_root h.forest hroot
  have hparent := parent?_of_get? (ht.child hc).get?
  rw [hid, h.forest.top] at hparent
  cases hparent

end PageTemplate.Document
