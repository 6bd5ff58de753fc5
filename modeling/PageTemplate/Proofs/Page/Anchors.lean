/-
**Anchors skip repeated elements.**

When a part of a page has been compiled, its repeated elements have been taken out, and each directive
knows the node before which its copies will stand.  This is the first sibling behind the element that is
not repeated itself, however many repeated elements stand between the two, and it has not moved.  If it is
a text, which has been cut into pieces, the first piece is in its slot.  All this holds at every depth, as
patterns are compiled in the same way.

Main definitions:

* `PageTemplate.Binding.Leaves` — what compiling leaves of a child of a container;
* `PageTemplate.Binding.Anchored` — a directive is anchored where its element was.

Main results:

* `PageTemplate.Binding.Ground.find?_later` — the first sibling that stays is the first one that is not
  repeated;
* `PageTemplate.Binding.Laid.leaves` — what is left of trees that are laid out side by side;
* `PageTemplate.Binding.Level.anchored`, `PageTemplate.Binding.Mark.Fits.anchored` — the directives of one
  level, and those at every depth;
* `PageTemplate.Page.anchors_skip` — **anchors skip repeated elements**.
-/

import Mathlib.Data.List.Find
import PageTemplate.Proofs.Binding.Unskipped
import PageTemplate.Proofs.Page.Placement
import PageTemplate.Proofs.Page.Summaries

set_option relaxedAutoImplicit false
set_option autoImplicit false

namespace PageTemplate

open PageTemplate.Data PageTemplate.Markup PageTemplate.Text

namespace Binding

variable {mark : String} {d e : Document} {f : Scopes} {p q : Option NodeId} {c id : NodeId}
  {kind kind' : NodeKind} {span span' : Option Span} {ts : List Placed} {items ms : List Mold}
  {s : ScopeId} {scope : NodeId → ScopeId} {pattern : NodeId → Mold}
  {copies : ScopeId → List Placed} {inner : ScopeId → List NodeId} {xs : List NodeId} {m : Mark}

/-! ### The siblings that stay -/

/-- No node is repeated that is left when the repeated elements are taken out. -/
theorem not_hasAttribute_of_pruned (h : Bindable mark ts) (hts : ∀ t ∈ ts, d.Holds (some c) t)
    {i : NodeId} (hi : i ∈ (pruneAll mark ts).flatMap Placed.ids) : d.hasAttribute i mark = false := by
  induction h generalizing c with
  | nil => cases hi
  | @leaf id kind span rest he _ ih =>
      rw [pruneAll_leaf _ _ _ _ he, List.flatMap_cons] at hi
      rcases List.mem_append.1 hi with hi | hi
      · obtain rfl : i = id := by simpa using hi
        have hself := (hts _ (List.mem_cons_self ..)).hasAttribute mark
        rw [Placed.id_node] at hself
        rw [hself]
        simp [NodeKind.carries, he]
      · exact ih (fun t ht => hts t (List.mem_cons_of_mem _ ht)) hi
  | @plain id a span cs rest ha _ _ ihcs ih =>
      rw [pruneAll_plain _ _ _ _ ha, List.flatMap_cons, Placed.ids_node] at hi
      have hheld := hts _ (List.mem_cons_self ..)
      rcases List.mem_append.1 hi with hi | hi
      · rcases List.mem_cons.1 hi with rfl | hi
        · have hself := hheld.hasAttribute mark
          rw [Placed.id_node] at hself
          rw [hself]
          simpa [NodeKind.carries, NodeKind.element?] using ha
        · exact ihcs (fun t ht => hheld.child ht) hi
      · exact ih (fun t ht => hts t (List.mem_cons_of_mem _ ht)) hi
  | marked id span he _ _ _ ih =>
      rw [pruneAll_marked _ _ _ _ (hasAttribute_of_repeat? he)] at hi
      exact ih (fun t ht => hts t (List.mem_cons_of_mem _ ht)) hi

/-- The nodes of a part of a document that are repeated. -/
def repeatedIds (d : Document) (mark : String) (id : NodeId) (ts : List Placed) : List NodeId :=
  (id :: ts.flatMap Placed.ids).filter (d.hasAttribute · mark)

theorem Ground.hasAttribute_mark (h : Ground mark d p id kind span ts)
    (hm : m ∈ marksAll mark id ts) : d.hasAttribute m.id mark = true := by
  have hself := (h.of_mark hm).holds.hasAttribute mark
  rw [Placed.id_node] at hself
  rw [hself]
  simpa [NodeKind.carries, NodeKind.element?] using hasAttribute_of_mem_marks hm

/-- The places among trees that have been laid out are those of the repeated elements. -/
theorem Ground.spots (h : Ground mark d p id kind span ts) (hlaid : Laid mark scope pattern ts items) :
    List.Forall₂ (Mark.At mark scope pattern (repeatedIds d mark id ts)) (marksAll mark id ts)
      (Mold.spots (Mold.partsAll id items)) := by
  refine hlaid.spots (fun m hm => List.mem_filter.2 ⟨?_, h.hasAttribute_mark hm⟩) fun i hi hout => ?_
  · rw [← Placed.ids_node id kind span ts]
    exact h.mem_ids.2 (.inr ⟨m, hm, m.id_mem_ids⟩)
  · have hplain := not_hasAttribute_of_pruned h.bindable (fun t ht => h.holds.child ht) hi
    rw [(List.mem_filter.1 hout).2] at hplain
    cases hplain

/-- **The first sibling that stays** behind a repeated element is the first one that is not
repeated. -/
theorem Ground.find?_later (h : Ground mark d p id kind span ts) (hm : m ∈ marksAll mark id ts) :
    ∃ before, d.children m.container = before ++ m.id :: m.later ∧
      m.later.find? (· ∉ repeatedIds d mark id ts) =
        m.later.find? fun y => !d.hasAttribute y mark := by
  obtain ⟨hcontainer, n, before, hget, hchildren, -⟩ := h.container hm
  have hsiblings : d.children m.container = before ++ m.id :: m.later := by
    rw [Document.children_of_get? hget, hchildren]
  refine ⟨before, hsiblings, List.find?_congr fun y hy => ?_⟩
  have hmem : y ∈ id :: ts.flatMap Placed.ids := by
    rw [← Placed.ids_node id kind span ts]
    refine h.holds.mem_of_child (h.mem_ids.2 (.inl hcontainer)) ?_
    rw [hsiblings]
    exact List.mem_append_right _ (List.mem_cons_of_mem _ hy)
  simp only [repeatedIds, List.mem_filter, hmem, true_and]
  cases d.hasAttribute y mark <;> rfl

/-! ### What is left of children -/

/-- What the node `i` of a piece of a text is: it has the text of the piece, or it is a slot of the
scope for the path of the piece. -/
def Piece.Left (e : Document) (f : Scopes) (s : ScopeId) (i : NodeId) : Piece → Prop
  | .literal cs => e.text? i = some (String.ofList cs)
  | .slot path => (e.text? i).isSome ∧
      ∃ scope, f.get? s = some scope ∧ (String.ofList path, i) ∈ scope.slots.pairs

/-- What compiling leaves in the document `e` of the child `x` of a container in the document `d`.  A
text has become its pieces, of which the first one has its slot, nothing is left of a repeated element,
and any other node is still there. -/
inductive Leaves (mark : String) (d e : Document) (f : Scopes) (s : ScopeId) (x : NodeId) :
    List NodeId → Prop
  | text {t : String} {row : List NodeId} (h : d.text? x = some t) (hhead : row.head? = some x)
      (hrow : List.Forall₂ (Piece.Left e f s) row (textPieces t)) : Leaves mark d e f s x row
  | repeated (h : d.hasAttribute x mark = true) : Leaves mark d e f s x []
  | kept (ht : d.text? x = none) (h : d.hasAttribute x mark = false) (he : e.kind? x = d.kind? x) :
      Leaves mark d e f s x [x]

/-- A node that stays is still what its mold says. -/
theorem kind?_of_still {i : NodeId} (h : ∀ x ∈ Mold.partsAll c ms, x.Holds e (fun _ => []) copies)
    (hm : Mold.still i kind span items ∈ ms) : e.kind? i = some kind := by
  have hget := Part.holds_still_iff.1 (h _ (mem_partsAll_of_still hm c))
  rw [Document.kind?, hget, Option.map_some]

/-- The pieces of a text are in their slots. -/
theorem forall₂_left {ids : List NodeId} {ps : List Piece}
    (hpieces : List.Forall₂ (fun i p => p.mold span i ∈ ms) ids ps)
    (hheld : ∀ x ∈ Mold.partsAll c ms, x.Holds e (fun _ => []) copies)
    (hslots : ∀ pair ∈ slotList (Mold.partsAll c ms),
      ∃ scope, f.get? s = some scope ∧ pair ∈ scope.slots.pairs) :
    List.Forall₂ (Piece.Left e f s) ids ps := by
  refine hpieces.imp fun i p hm => ?_
  cases p with
  | literal cs =>
      rw [Piece.Left, Document.text?, kind?_of_still hheld hm]
      rfl
  | slot path =>
      obtain ⟨t, hget⟩ := hheld _ (mem_partsAll_of_slot hm c)
      refine ⟨?_, hslots _ (mem_slotList.2 ⟨c, span, mem_partsAll_of_slot hm c⟩)⟩
      rw [Document.text?, Document.kind?, hget]
      rfl

/-- **What is left of trees that are laid out side by side**, tree by tree. -/
theorem Laid.leaves (h : Laid mark scope pattern ts ms) (hts : ∀ t ∈ ts, d.Holds (some c) t)
    (hheld : ∀ x ∈ Mold.partsAll c ms, x.Holds e (fun _ => []) copies)
    (hslots : ∀ pair ∈ slotList (Mold.partsAll c ms),
      ∃ scope, f.get? s = some scope ∧ pair ∈ scope.slots.pairs)
    (hnone : ∀ m ∈ marksAll mark c ts, copies (scope m.id) = []) :
    ∃ rows, List.Forall₂ (Leaves mark d e f s) (ts.map Placed.id) rows ∧
      ms.flatMap (Mold.heads copies) = rows.flatten := by
  obtain ⟨rows, hrows, hheads⟩ := h.exists_rows copies
  refine ⟨rows, hrows.imp fun i row hrow => ?_, hheads⟩
  cases hrow with
  | text ht hpieces =>
      exact .text (text?_of_holds (hts _ ht)) rfl (forall₂_left hpieces hheld hslots)
  | still ht htext hmark hm =>
      exact .kept ((text?_of_holds (hts _ ht)).trans htext)
        (((hts _ ht).hasAttribute mark).trans hmark)
        ((kind?_of_still hheld hm).trans (kind?_of_holds (hts _ ht)).symm)
  | repeated ht he =>
      obtain ⟨m, hm, rfl⟩ := exists_mem_marksAll ht he c
      rw [hnone m hm]
      exact .repeated (((hts _ ht).hasAttribute mark).trans he)

/-! ### The directives of one level -/

/-- A directive of the scope `s`, whose element is in the document `d`, is anchored before the first
sibling behind its element that is not repeated, or nowhere if there is none, and this sibling is where it
was.  The children of the container are what is left of its children in `d`, one after the other. -/
structure Anchored (mark : String) (d e : Document) (f : Scopes) (s : ScopeId) (r : Repeat) : Prop where
  place : d.parent? r.pattern = some r.container
  repeated : d.hasAttribute r.pattern mark = true
  first : ∃ before later, d.children r.container = before ++ r.pattern :: later ∧
    r.anchor = later.find? fun y => !d.hasAttribute y mark
  stays : ∀ a, r.anchor = some a → a ∈ e.children r.container
  rows : ∃ rows, List.Forall₂ (Leaves mark d e f s) (d.children r.container) rows ∧
    e.children r.container = rows.flatten

/-- **Where a repeated element is, it is laid out with its siblings.** -/
theorem Ground.exists_laid (h : Ground mark d p id kind span ts)
    (hlaid : Laid mark scope pattern ts items) (hm : m ∈ marksAll mark id ts) (q : Option NodeId)
    (kind' : NodeKind) (span' : Option Span) :
    ∃ p₀ k₀ sp₀ us q₁ k₁ sp₁ ms, d.Holds p₀ (.node m.container k₀ sp₀ us) ∧
      Laid mark scope pattern us ms ∧
      Part.still q₁ m.container k₁ sp₁ ms ∈ Mold.level q id kind' span' items ∧
      ∀ m' ∈ marksAll mark m.container us, m' ∈ marksAll mark id ts := by
  rcases h.bindable.container_inside hm with hc | ⟨around, a, sp, us, hin⟩
  · rw [hc]
    exact ⟨p, kind, span, ts, q, kind', span', items, h.holds, hlaid, List.mem_cons_self ..,
      fun _ hm' => hm'⟩
  · obtain ⟨ms, hms, -, hpart⟩ := hlaid.inside hin
    obtain ⟨q₁, hq₁⟩ := hpart id
    obtain ⟨p₀, hp₀⟩ := hin.holds fun t ht => h.holds.child ht
    exact ⟨p₀, _, _, us, q₁, _, _, ms, hp₀, hms, List.mem_cons_of_mem _ hq₁,
      fun m' hm' => hin.mem_marksAll hm' id⟩

/-- **The directives of one level are anchored**, where they have no copies. -/
theorem Ground.anchored (h : Ground mark d p id kind span ts)
    (hlaid : Laid mark scope pattern ts items)
    (hids : ∀ m ∈ marksAll mark id ts, (pattern m.id).id = m.id)
    (hsettled : Settled f e q s (.still id kind' span' items) xs)
    (hnone : ∀ r ∈ f.repeats s, r.copies = []) {r : Repeat} (hr : r ∈ f.repeats s) :
    Anchored mark d e f s r := by
  have hsited := hsettled.sited (Scopes.mem_directives.2 ⟨s, hsettled.ranked.self, hr⟩)
  cases hsettled with
  | @intro _ _ _ _ _ _ sc copies inner hscope hslots hrepeats level _ _ _ _ =>
      have hspots := h.spots hlaid
      rw [repeats_of_scope hscope hrepeats] at hr hnone
      obtain ⟨a, ha, rfl⟩ := List.mem_map.1 hr
      obtain ⟨m, hm, hat⟩ := exists_of_mem_forall₂ hspots ha
      have hcopies : ∀ m' ∈ marksAll mark id ts, copies (scope m'.id) = [] := by
        intro m' hm'
        obtain ⟨b, hb, hbat⟩ := exists_of_mem_forall₂ hspots.flip hm'
        have hnil := hnone _ (List.mem_map.2 ⟨b, hb, rfl⟩)
        rw [← hbat.scope]
        exact List.map_eq_nil_iff.1 hnil
      have hpattern : (a.toRepeat copies).pattern = m.id := by
        rw [Spot.toRepeat, hat.pattern, hids m hm]
      have hcontainer : (a.toRepeat copies).container = m.container := hat.container
      obtain ⟨before, hchildren, hfirst⟩ := h.find?_later hm
      obtain ⟨p₀, k₀, sp₀, us, q₁, k₁, sp₁, ms, hheld, hms, hpart, hmarks⟩ :=
        h.exists_laid hlaid hm q kind' span'
      have hparts := Mold.level_sublist hpart
      refine ⟨?_, ?_, ⟨before, m.later, ?_, ?_⟩, hsited.anchor, ?_⟩
      · rw [hpattern, hcontainer]
        exact Document.parent?_of_get? (h.of_mark hm).holds.get?
      · rw [hpattern]
        exact h.hasAttribute_mark hm
      · rw [hpattern, hcontainer, hchildren]
      · rw [← hfirst]
        exact hat.anchor
      · have hbefore : d.children m.container = us.map Placed.id :=
          Document.children_of_get? hheld.get?
        rw [hcontainer, hbefore, Document.children_of_get? (level.get?_still hpart)]
        refine hms.leaves (fun t ht => hheld.child ht)
          (fun x hx => level.holds x (hparts.subset hx)) (fun pair hpair => ?_)
          fun m' hm' => hcopies m' (hmarks m' hm')
        obtain ⟨p', sp', hx⟩ := mem_slotList.1 hpair
        refine ⟨sc, hscope, ?_⟩
        rw [hslots]
        exact Slots.mem_pairs_ofList.2 (mem_slotList.2 ⟨p', sp', hparts.subset hx⟩)

/-! ### The directives at every depth -/

/-- What holds of the directives of each pattern that fits holds of all directives of a level. -/
theorem Ground.anchored_within (h : Ground mark d p id kind span ts)
    (hlaid : Laid mark scope pattern ts items)
    (hids : ∀ m ∈ marksAll mark id ts, (pattern m.id).id = m.id)
    (hpatterns : ∀ m ∈ marksAll mark id ts, ∀ s ys, Settled f e none s (pattern m.id) ys →
      (∀ x ∈ f.within s, ∀ r ∈ f.repeats x, r.copies = []) →
      ∀ x ∈ f.within s, ∀ r ∈ f.repeats x, Anchored mark d e f x r)
    (hsettled : Settled f e q s (.still id kind' span' items) xs)
    (hnone : ∀ x ∈ f.within s, ∀ r ∈ f.repeats x, r.copies = []) {x : ScopeId}
    (hx : x ∈ f.within s) {r : Repeat} (hr : r ∈ f.repeats x) : Anchored mark d e f x r := by
  have hself := hsettled.ranked.self
  rw [hsettled.within_cons] at hx hnone
  rcases List.mem_cons.1 hx with rfl | hx
  · exact h.anchored hlaid hids hsettled (hnone x (List.mem_cons_self ..)) hr
  · obtain ⟨a, ha, hx⟩ := List.mem_flatMap.1 hx
    obtain ⟨m, hm, hat⟩ := exists_of_mem_forall₂ (h.spots hlaid) ha
    cases hsettled with
    | intro _ _ _ _ _ _ _ settled =>
        have hpattern := settled a (Mold.mem_spots.1 ha)
        rw [hat.pattern] at hpattern
        exact hpatterns m hm a.scope _ hpattern (fun y hy => hnone y (List.mem_cons_of_mem _
          (List.mem_flatMap.2 ⟨a, ha, hy⟩))) x hx r hr

theorem Mark.Fits.id_eq {P : Mold} (h : m.Fits mark P) : P.id = m.id := by
  cases h
  rfl

/-- **The directives of a pattern are anchored**, at every depth. -/
theorem Mark.Fits.anchored {P : Mold} (h : m.Fits mark P)
    (hground : Ground mark d p m.id (.element m.element) m.span m.children)
    (hsettled : Settled f e q s P xs)
    (hnone : ∀ x ∈ f.within s, ∀ r ∈ f.repeats x, r.copies = []) :
    ∀ x ∈ f.within s, ∀ r ∈ f.repeats x, Anchored mark d e f x r := by
  induction h generalizing p q s xs with
  | intro hlaid hfits ih =>
      intro x hx r hr
      exact hground.anchored_within hlaid (fun m' hm' => (hfits m' hm').id_eq)
        (fun m' hm' s ys hs hn => ih m' hm' (hground.of_mark hm') hs hn) hsettled hnone hx hr

/-! ### No copies -/

/-- A repeated element that is taken out has no copies yet. -/
theorem copies_takeRound {fuel : Nat} {out : Stage × List Repeat} (hout : ∀ r ∈ out.2, r.copies = [])
    (element : NodeId) : ∀ r ∈ (takeRound mark fuel s out element).2, r.copies = [] := by
  simp only [takeRound]
  split
  · intro r hr
    rcases List.mem_append.1 hr with hr | hr
    · obtain ⟨r', hr', rfl⟩ := List.mem_map.1 hr
      split <;> exact hout r' hr'
    · rw [List.mem_singleton.1 hr]
  · exact hout

/-- That a directive has no copies does not depend on the document. -/
theorem inborn_copyless : Inborn (fun _ => True) fun _ r => r.copies = [] where
  document := ⟨fun _ _ _ => id, fun _ _ _ _ => id, fun _ _ _ => id, fun _ _ => id⟩
  directive _ := ⟨fun _ _ _ => id, fun _ _ _ _ => id, fun _ _ _ => id, fun _ _ => id⟩
  anchored _ _ _ := id
  made _ _ _ _ _ _ _ _ := rfl

/-- **Compiling makes no copies**: neither the directives of the scope have any, nor those of new
scopes. -/
theorem copies_of_compileTo (mark : String) (fuel : Nat) (st : Stage) (s : ScopeId) (node : NodeId)
    {x : ScopeId} (hx : x = s ∨ st.scopes.entries.size ≤ x) {r : Repeat}
    (hr : r ∈ (st.compileTo mark (fuel + 1) s node).scopes.repeats x) : r.copies = [] := by
  rcases hx with rfl | hx
  · have htaken := List.foldlRecOn (repeated st.document mark node) (takeRound mark fuel x)
      (b := (st, [])) (motive := fun out : Stage × List Repeat => ∀ r ∈ out.2, r.copies = [])
      nofun fun _ hout element _ => copies_takeRound hout element
    rw [compileTo_succ] at hr
    rcases Scopes.mem_repeats_update hr with ⟨-, _, -, hr⟩ | ⟨hne, -⟩
    · exact htaken r hr
    · exact absurd rfl hne
  · refine inborn_copyless.compileTo mark (fuel + 1) st s node trivial (fun y hy r hr => ?_) x hx r hr
    rw [Scopes.repeats_of_size_le hy] at hr
    cases hr

/-- At a slot without a node there are no directives. -/
theorem repeats_compileTo_of_dead {st : Stage} {node : NodeId} (hdead : st.document.get? node = none)
    (mark : String) (fuel : Nat) (s : ScopeId) :
    (st.compileTo mark (fuel + 1) s node).scopes.repeats s = [] := by
  have hnone : repeated st.document mark node = [] := by
    rw [repeated, Document.children_eq_nil_of_dead hdead]
    cases st.document.nodes.size <;> rfl
  rw [compileTo_succ, hnone]
  simp only [List.foldl_nil]
  rw [Scopes.repeats_update, if_pos rfl]
  cases st.scopes.get? s <;> rfl

end Binding

namespace Page

open PageTemplate.Binding

/-- **Anchors skip repeated elements.**  A node of a page that has been read has been compiled to a scope
that nothing was bound to.  At every depth, the directives have no copies, and each is anchored before the
first sibling behind its element that is not repeated, as far as there is one.  This sibling is still a
child of the container, whose children are what is left of those that it had: the pieces of a text, of
which the first one has the slot of the text, nothing of repeated elements, and all other nodes. -/
theorem anchors_skip {source mark : String} {f : Scopes} {d : Document} {s x : ScopeId} {sc : Scope}
    {node : NodeId} {st : Stage} {r : Repeat} (hparse : Document.parse source = .ok d)
    (hs : f.get? s = some sc) (hfresh : sc.repeats = [])
    (hcompile : (⟨d, f⟩ : Stage).compile mark s node = .ok st) (hx : x ∈ st.scopes.within s)
    (hr : r ∈ st.scopes.repeats x) :
    r.copies = [] ∧ Anchored mark d st.document st.scopes x r := by
  have hnothing : (⟨d, f⟩ : Stage).dismantle s = ⟨d, f⟩ := dismantle_of_nil hs hfresh
  have hst := Stage.eq_of_compile hcompile
  rw [hnothing] at hst
  cases hnode : d.contains node with
  | false =>
      rw [Document.contains_eq_false_iff] at hnode
      have hnone : st.scopes.repeats s = [] := by
        rw [hst]
        exact repeats_compileTo_of_dead hnode mark _ s
      have honly : ∀ fuel, x ∈ st.scopes.withinTo fuel s → x = s := by
        intro fuel hx
        cases fuel with
        | zero => cases hx
        | succ fuel => simpa [Scopes.withinTo, hnone] using hx
      rw [honly _ hx, hnone] at hr
      cases hr
  | true =>
      obtain ⟨p, kind, span, ts, items, ys, hground, -, hcompiled⟩ :=
        exists_ground hparse hnode hs hfresh hcompile
      obtain ⟨scope, pattern, hlaid, hfits, hids⟩ := hcompiled.laid
      have hnone : ∀ y ∈ st.scopes.within s, ∀ r ∈ st.scopes.repeats y, r.copies = [] := by
        intro y hy r hr
        rw [hcompiled.settled.within_eq] at hy
        rw [hst] at hr
        exact copies_of_compileTo mark _ _ s node
          ((List.mem_cons.1 hy).imp_right fun hy => (hcompiled.fresh y hy).1) hr
      exact ⟨hnone x hx r hr, hground.anchored_within hlaid hids
        (fun m hm _ _ hpattern hn => (hfits m hm).anchored (hground.of_mark hm) hpattern hn)
        hcompiled.settled hnone hx hr⟩

/-- Repeated elements next to each other, at two depths, before texts that are cut. -/
def runsSource : String :=
  "<p hb-repeat='x in xs'><b hb-repeat='y in x'></b><i hb-repeat='z in x'></i>\x7b\x7b x \x7d\x7d!</p>" ++
    "<p hb-repeat='w in ws'></p>a\x7b\x7b z \x7d\x7d<u hb-repeat='v in vs'></u>"

/-- Each run of repeated elements is anchored before the text behind it, or at the end. -/
theorem anchors_skip_runs : ∃ d st, Document.parse runsSource = .ok d ∧
    (⟨d, (Scopes.empty.newRoot .emptyObject).1⟩ : Stage).compile "hb-repeat"
      (Scopes.empty.newRoot .emptyObject).2 Document.root = .ok st ∧
    (st.scopes.within (Scopes.empty.newRoot .emptyObject).2).map
      (fun x => (st.scopes.repeats x).map (·.anchor)) =
        [[some 6, some 6, none], [some 4, some 4], [], [], [], []] ∧
    ∀ x ∈ st.scopes.within (Scopes.empty.newRoot .emptyObject).2, ∀ r ∈ st.scopes.repeats x,
      r.copies = [] ∧ Anchored "hb-repeat" d st.document st.scopes x r := by
  have hpage : ((Document.parse runsSource).toOption.bind fun d =>
      ((⟨d, (Scopes.empty.newRoot .emptyObject).1⟩ : Stage).compile "hb-repeat"
        (Scopes.empty.newRoot .emptyObject).2 Document.root).toOption.map fun st =>
          (st.scopes.within (Scopes.empty.newRoot .emptyObject).2).map
            (fun x => (st.scopes.repeats x).map (·.anchor))) =
      some [[some 6, some 6, none], [some 4, some 4], [], [], [], []] := by
    decide +kernel
  obtain ⟨d, hd, hpage⟩ := Option.bind_eq_some_iff.1 hpage
  obtain ⟨st, hst, hanchors⟩ := Option.map_eq_some_iff.1 hpage
  have hparse := eq_ok_of_toOption hd
  have hcompile := eq_ok_of_toOption hst
  exact ⟨d, st, hparse, hcompile, hanchors, fun x hx r hr =>
    anchors_skip hparse (Scopes.empty.get?_newRoot .emptyObject) rfl hcompile hx hr⟩

end Page

end PageTemplate
