/-
**Copies stand where their element stood.**

A rendered page has, for each directive, one copy of its element for each current item, in the order of
the items.  In the container the copies stand side by side where the repeated element stood, between
what stands for its siblings: a text is cut into its pieces, another repeated element has become copies
of its own, and any other node is the one that was there.  It does not matter whether repeated elements
are next to each other, nor whether something stands behind them.

Main definitions:

* `PageTemplate.Binding.StandsFor` — what stands for a child of a container;
* `PageTemplate.Binding.Copied` — a directive has a copy of its element for each item.

Main results:

* `PageTemplate.Binding.Laid.rows` — what is laid out side by side stands for the trees, one by one;
* `PageTemplate.Binding.Displayed.exists_container` — where repeated elements are laid out;
* `PageTemplate.Page.render_places` — copies stand where their element stood, after every rendering.
-/

import PageTemplate.Proofs.Binding.Inside
import PageTemplate.Proofs.Page.Installed

set_option relaxedAutoImplicit false
set_option autoImplicit false

namespace PageTemplate

open PageTemplate.Data PageTemplate.Markup PageTemplate.Text

namespace Binding

variable {mark : String} {d e : Document} {rs : List Repeat} {env : Env} {c : NodeId}
  {scope : NodeId → ScopeId} {pattern : NodeId → Mold} {text : NodeId → String}
  {copies : ScopeId → List Placed} {ts us : List Placed} {ms ns : List Mold}

/-! ### Rows -/

/-- The mold of each piece of a text is among those of all. -/
theorem forall₂_mem_pieces (span : Option Span) {ids : List NodeId} {ps : List Piece}
    (h : ids.length = ps.length) :
    List.Forall₂ (fun i p => p.mold span i ∈ ids.zipWith (Piece.mold span) ps) ids ps := by
  induction ps generalizing ids with
  | nil =>
      rw [List.length_eq_zero_iff.1 h]
      exact .nil
  | cons p ps ih =>
      cases ids with
      | nil => cases h
      | cons i ids =>
          rw [List.zipWith_cons_cons]
          exact .cons (List.mem_cons_self ..)
            ((ih (Nat.succ.inj h)).imp fun _ _ hmem => List.mem_cons_of_mem _ hmem)

/-- The pieces of a text are topmost nodes. -/
theorem heads_pieces (copies : ScopeId → List Placed) (span : Option Span) {ids : List NodeId}
    {ps : List Piece} (h : ids.length = ps.length) :
    (ids.zipWith (Piece.mold span) ps).flatMap (Mold.heads copies) = ids := by
  induction ps generalizing ids with
  | nil =>
      rw [List.length_eq_zero_iff.1 h]
      rfl
  | cons p ps ih =>
      cases ids with
      | nil => cases h
      | cons i ids =>
          rw [List.zipWith_cons_cons, List.flatMap_cons, ih (Nat.succ.inj h)]
          cases p <;> rfl

/-- The topmost nodes that one of the trees `ts` has become among the molds `ms`: the pieces of a
text, the copies of a repeated element, and the node itself otherwise. -/
inductive RowOf (mark : String) (scope : NodeId → ScopeId) (copies : ScopeId → List Placed)
    (ts : List Placed) (ms : List Mold) : NodeId → List NodeId → Prop
  | text {id : NodeId} {t : String} {span : Option Span} {ids : List NodeId}
      (ht : .node id (.text t) span [] ∈ ts)
      (hpieces : List.Forall₂ (fun i p => p.mold span i ∈ ms) (id :: ids) (textPieces t)) :
      RowOf mark scope copies ts ms id (id :: ids)
  | still {id : NodeId} {kind : NodeKind} {span : Option Span} {cs : List Placed}
      {items : List Mold} (ht : .node id kind span cs ∈ ts) (htext : kind.text? = none)
      (hmark : kind.carries mark = false) (hm : .still id kind span items ∈ ms) :
      RowOf mark scope copies ts ms id [id]
  | repeated {id : NodeId} {e : Element} {span : Option Span} {cs : List Placed}
      (ht : .node id (.element e) span cs ∈ ts) (he : e.hasAttribute mark = true) :
      RowOf mark scope copies ts ms id ((copies (scope id)).map Placed.id)

theorem RowOf.mono {id : NodeId} {row : List NodeId} (h : RowOf mark scope copies ts ms id row)
    (hts : ∀ t ∈ ts, t ∈ us) (hms : ∀ m ∈ ms, m ∈ ns) : RowOf mark scope copies us ns id row := by
  cases h with
  | text ht hpieces => exact .text (hts _ ht) (hpieces.imp fun _ _ hm => hms _ hm)
  | still ht htext hmark hm => exact .still (hts _ ht) htext hmark (hms _ hm)
  | repeated ht he => exact .repeated (hts _ ht) he

/-- One row stands before those of the other trees. -/
theorem exists_rows_cons {t : Placed} {row : List NodeId} (ns : List Mold)
    (hrow : RowOf mark scope copies (t :: ts) (ns ++ ms) t.id row)
    (hns : ns.flatMap (Mold.heads copies) = row)
    (h : ∃ rows, List.Forall₂ (RowOf mark scope copies ts ms) (ts.map Placed.id) rows ∧
      ms.flatMap (Mold.heads copies) = rows.flatten) :
    ∃ rows, List.Forall₂ (RowOf mark scope copies (t :: ts) (ns ++ ms))
        ((t :: ts).map Placed.id) rows ∧
      (ns ++ ms).flatMap (Mold.heads copies) = rows.flatten := by
  obtain ⟨rows, hrows, hms⟩ := h
  refine ⟨row :: rows, .cons hrow (hrows.imp fun _ _ h => h.mono
    (fun _ ht => List.mem_cons_of_mem _ ht) fun _ hm => List.mem_append_right _ hm), ?_⟩
  rw [List.flatMap_append, hns, hms, List.flatten_cons]

/-- **The topmost nodes of what is laid out are rows**, one for each tree. -/
theorem Laid.exists_rows (h : Laid mark scope pattern ts ms) (copies : ScopeId → List Placed) :
    ∃ rows, List.Forall₂ (RowOf mark scope copies ts ms) (ts.map Placed.id) rows ∧
      ms.flatMap (Mold.heads copies) = rows.flatten := by
  induction h with
  | nil => exact ⟨[], .nil, rfl⟩
  | @text id t span ids rest ms hids _ ih =>
      have hlength : (id :: ids).length = (textPieces t).length := hids
      refine exists_rows_cons _ (.text (List.mem_cons_self ..) ?_)
        (heads_pieces copies span hlength) ih
      exact (forall₂_mem_pieces span hlength).imp fun _ _ hm => List.mem_append_left _ hm
  | @leaf id kind span rest ms ht he _ ih =>
      have hmark : kind.carries mark = false := by simp [NodeKind.carries, he]
      exact exists_rows_cons [.still id kind span []]
        (.still (List.mem_cons_self ..) ht hmark (List.mem_cons_self ..)) rfl ih
  | @plain id e span cs rest items ms he _ _ _ ih =>
      exact exists_rows_cons [.still id (.element e) span items]
        (.still (List.mem_cons_self ..) rfl he (List.mem_cons_self ..)) rfl ih
  | @marked id e x span cs rest ms he _ ih =>
      exact exists_rows_cons [.each x (scope id) (pattern id)]
        (.repeated (List.mem_cons_self ..) (hasAttribute_of_repeat? he))
        (List.flatMap_singleton ..) ih

/-! ### What stands for a child -/

/-- What stands in the document `e` for the child `x` of a container in the document `d`, where the
directives are `rs`.  A text has become its pieces, of which the first one has its slot, a repeated
element has become the copies of its directive, and any other node is still there. -/
inductive StandsFor (mark : String) (d e : Document) (rs : List Repeat) (env : Env) (x : NodeId) :
    List NodeId → Prop
  | text {t : String} {row : List NodeId} (h : d.text? x = some t) (hhead : row.head? = some x)
      (hrow : List.Forall₂ (fun i u => e.text? i = some u) row (splitText env t)) :
      StandsFor mark d e rs env x row
  | repeated {r : Repeat} (h : d.hasAttribute x mark = true) (hr : r ∈ rs) (hx : r.pattern = x) :
      StandsFor mark d e rs env x r.copies
  | kept (ht : d.text? x = none) (h : d.hasAttribute x mark = false) (he : e.kind? x = d.kind? x) :
      StandsFor mark d e rs env x [x]

theorem kind?_of_holds {p : Option NodeId} {t : Placed} (h : d.Holds p t) :
    d.kind? t.id = some t.kind := by
  rw [Document.kind?, h.get?, Option.map_some]

theorem text?_of_holds {p : Option NodeId} {t : Placed} (h : d.Holds p t) :
    d.text? t.id = t.kind.text? := by
  rw [Document.text?, kind?_of_holds h, Option.bind_some]

/-- The pieces of a text hold what they show. -/
theorem forall₂_text? {t : String} {span : Option Span} {ids : List NodeId}
    (hpieces : List.Forall₂ (fun i p => p.mold span i ∈ ms) ids (textPieces t))
    (hms : ∀ u ∈ Mold.placedAll text copies ms, e.Holds (some c) u)
    (htext : ∀ path i, (path, i) ∈ slotList (Mold.partsAll c ms) →
      text i = display (env.get? path)) :
    List.Forall₂ (fun i u => e.text? i = some u) ids (splitText env t) := by
  rw [splitText_eq, List.forall₂_map_right_iff]
  refine hpieces.imp fun i p hm => ?_
  cases p with
  | literal cs => exact text?_of_holds (hms _ (mem_placedAll_of_still hm text copies))
  | slot path =>
      have hshown := htext (String.ofList path) i
        (mem_slotList.2 ⟨c, span, mem_partsAll_of_slot hm c⟩)
      rw [Piece.shown, String.ofList_toList, ← hshown]
      exact text?_of_holds (hms _ (mem_placedAll_of_slot hm text copies))

/-- A repeated element among trees is a repeated element of them. -/
theorem exists_mem_marksAll {i : NodeId} {a : Element} {span : Option Span} {cs : List Placed}
    (ht : .node i (.element a) span cs ∈ ts) (ha : a.hasAttribute mark = true) (c : NodeId) :
    ∃ m ∈ marksAll mark c ts, m.id = i := by
  induction ts with
  | nil => cases ht
  | cons t ts ih =>
      rcases List.mem_cons.1 ht with rfl | ht
      · rw [marksAll_marked _ _ _ _ _ ha]
        exact ⟨_, List.mem_cons_self .., rfl⟩
      · obtain ⟨m, hm, hid⟩ := ih ht
        rw [marksAll]
        exact ⟨m, List.mem_append_right _ hm, hid⟩

/-- **What is laid out side by side stands for the trees**, one after the other. -/
theorem Laid.rows (h : Laid mark scope pattern ts ms) (hts : ∀ t ∈ ts, d.Holds (some c) t)
    (hms : ∀ u ∈ Mold.placedAll text copies ms, e.Holds (some c) u)
    (htext : ∀ path i, (path, i) ∈ slotList (Mold.partsAll c ms) → text i = display (env.get? path))
    (hcopies : ∀ m ∈ marksAll mark c ts, ∃ r ∈ rs, r.pattern = m.id ∧
      r.copies = (copies (scope m.id)).map Placed.id) :
    ∃ rows, List.Forall₂ (StandsFor mark d e rs env) (ts.map Placed.id) rows ∧
      ms.flatMap (Mold.heads copies) = rows.flatten := by
  obtain ⟨rows, hrows, hheads⟩ := h.exists_rows copies
  refine ⟨rows, hrows.imp fun i row hrow => ?_, hheads⟩
  cases hrow with
  | text ht hpieces =>
      exact .text (text?_of_holds (hts _ ht)) rfl (forall₂_text? hpieces hms htext)
  | still ht hnone hmark hm =>
      refine .kept ((text?_of_holds (hts _ ht)).trans hnone)
        (((hts _ ht).hasAttribute mark).trans hmark) ?_
      exact (kind?_of_holds (hms _ (mem_placedAll_of_still hm text copies))).trans
        (kind?_of_holds (hts _ ht)).symm
  | repeated ht he =>
      obtain ⟨m, hm, rfl⟩ := exists_mem_marksAll ht he c
      obtain ⟨r, hr, hpattern, hrow⟩ := hcopies m hm
      rw [← hrow]
      exact .repeated (((hts _ ht).hasAttribute mark).trans he) hr hpattern

/-! ### Where copies are -/

/-- What holds of the nodes that show molds and goes down to children holds of the copies among
them. -/
theorem copy_of_placedAll (text : NodeId → String) {Q : NodeId → Placed → Prop}
    (hQ : ∀ c id kind span cs, Q c (.node id kind span cs) → ∀ t ∈ cs, Q id t)
    (hms : ∀ u ∈ Mold.placedAll text copies ms, Q c u) {a : Spot}
    (ha : Part.each a ∈ Mold.partsAll c ms) {t : Placed} (ht : t ∈ copies a.scope) :
    Q a.container t := by
  induction ms using Mold.forest_induction generalizing c with
  | nil => cases ha
  | still id kind span items rest ihitems ihrest =>
      rw [Mold.placedAll, Mold.placed] at hms
      rw [Mold.partsAll_still] at ha
      rcases List.mem_cons.1 ha with ha | ha
      · cases ha
      · rcases List.mem_append.1 ha with ha | ha
        · exact ihitems (hQ _ _ _ _ _ (hms _ (List.mem_cons_self ..))) ha
        · exact ihrest (fun u hu => hms u (List.mem_append_right _ hu)) ha
  | slot id span path rest ih =>
      rw [Mold.placedAll, Mold.placed] at hms
      rw [Mold.partsAll_slot] at ha
      rcases List.mem_cons.1 ha with ha | ha
      · cases ha
      · exact ih (fun u hu => hms u (List.mem_append_right _ hu)) ha
  | each x s pattern rest _ ih =>
      rw [Mold.placedAll, Mold.placed] at hms
      rw [Mold.partsAll_each] at ha
      rcases List.mem_cons.1 ha with ha | ha
      · cases ha
        exact hms t (List.mem_append_left _ ht)
      · exact ih (fun u hu => hms u (List.mem_append_right _ hu)) ha

/-- The current items of the collection of a directive, and none if there is no collection. -/
def Stage.items (st : Stage) (s : ScopeId) (r : Repeat) : List Value :=
  (items? (st.scopes.lookup? s r.expression.collection)).getD []

/-- A directive of the scope `s`, whose element is in the document `d`, has a copy of the element for
each current item, which shows the item, in the container where the element was. -/
structure Copied (mark : String) (d : Document) (st : Stage) (s : ScopeId) (r : Repeat) : Prop where
  place : d.parent? r.pattern = some r.container
  count : r.copies.length = (st.items s r).length
  shows : ∃ e span ts, d.tree? r.pattern = some (.node (.element e) span ts) ∧
    e.repeat? mark = some r.expression ∧
    r.copies.map st.document.tree? = (st.items s r).map fun v =>
      some (.node (.element (e.eraseAttribute mark)) span (Tree.expandAll splitText mark
        (Env.frame r.expression.item v :: st.scopes.environment s) ts))
  inside : ∀ c ∈ r.copies, st.document.contains c = true ∧
    st.document.parent? c = some r.container

/-- A page, and what it is when it has been compiled and rendered. -/
structure Displayed (mark : String) (d : Document) (cs : List Placed) (st : Stage) (s : ScopeId)
    (items : List Mold) (env : Env) (scope : NodeId → ScopeId) (pattern : NodeId → Mold)
    (text : NodeId → String) (copies : ScopeId → List Placed) (ys : List NodeId) : Prop where
  ground : Ground mark d none Document.root .document none cs
  laid : Laid mark scope pattern cs items
  means : ∀ m ∈ marksAll mark Document.root cs, m.Means mark (pattern m.id)
  ids : ∀ m ∈ marksAll mark Document.root cs, (pattern m.id).id = m.id
  filled : Filled st.scopes st.document none s Document.root .document none items env text copies ys
  sees : st.scopes.Sees s env

section Displayed

variable {cs : List Placed} {st : Stage} {s : ScopeId} {items : List Mold} {ys : List NodeId}

/-- The places are those of the repeated elements, in document order. -/
theorem Displayed.spots
    (h : Displayed mark d cs st s items env scope pattern text copies ys) :
    List.Forall₂ (Mark.At mark scope pattern ((marksAll mark Document.root cs).map Mark.id))
      (marksAll mark Document.root cs)
      (Mold.spots (Mold.level none Document.root .document none items)) := by
  have hground : Ground mark (⟨d, st.scopes⟩ : Stage).document none Document.root .document none cs :=
    h.ground
  exact h.laid.spots (fun _ => mem_out)
    fun _ hi => hground.notMem_out (List.mem_cons_of_mem _ hi)

/-- The directives are those of the repeated elements, in document order. -/
theorem Displayed.patterns
    (h : Displayed mark d cs st s items env scope pattern text copies ys) :
    (st.scopes.repeats s).map (·.pattern) = repeated d mark Document.root := by
  have hrepeated : repeated d mark Document.root = (marksAll mark Document.root cs).map Mark.id :=
    repeated_eq h.ground.holds h.ground.nodup
  rw [hrepeated, h.filled.repeats, List.map_map]
  refine map_eq_of_forall₂ h.spots fun m hm a ha => ?_
  rw [Function.comp_apply, Spot.toRepeat, ha.pattern, h.ids m hm]

/-- Each directive is that of a repeated element, at a place of the mold. -/
theorem Displayed.exists_mark
    (h : Displayed mark d cs st s items env scope pattern text copies ys) {r : Repeat}
    (hr : r ∈ st.scopes.repeats s) : ∃ m ∈ marksAll mark Document.root cs, ∃ a,
      Part.each a ∈ Mold.level none Document.root .document none items ∧
      m.At mark scope pattern ((marksAll mark Document.root cs).map Mark.id) a ∧
      r = a.toRepeat copies := by
  rw [h.filled.repeats] at hr
  obtain ⟨a, ha, rfl⟩ := List.mem_map.1 hr
  obtain ⟨m, hm, hat⟩ := exists_of_mem_forall₂ h.spots ha
  exact ⟨m, hm, a, Mold.mem_spots.1 ha, hat, rfl⟩

/-- Each repeated element has a directive, with its copies. -/
theorem Displayed.exists_repeat
    (h : Displayed mark d cs st s items env scope pattern text copies ys) {m : Mark}
    (hm : m ∈ marksAll mark Document.root cs) : ∃ r ∈ st.scopes.repeats s,
      r.pattern = m.id ∧ r.copies = (copies (scope m.id)).map Placed.id := by
  obtain ⟨a, ha, hat⟩ := exists_of_mem_forall₂ h.spots.flip hm
  refine ⟨a.toRepeat copies, ?_, ?_, ?_⟩
  · rw [h.filled.repeats]
    exact List.mem_map.2 ⟨a, ha, rfl⟩
  · rw [Spot.toRepeat, hat.pattern, h.ids m hm]
  · rw [Spot.toRepeat, hat.scope]

/-- **Each directive has a copy of its element for each current item.** -/
theorem Displayed.copied
    (h : Displayed mark d cs st s items env scope pattern text copies ys) {r : Repeat}
    (hr : r ∈ st.scopes.repeats s) : Copied mark d st s r := by
  obtain ⟨m, hm, a, ha, hat, rfl⟩ := h.exists_mark hr
  have hmark := h.ground.of_mark hm
  have hpattern : (a.toRepeat copies).pattern = m.id := by
    rw [Spot.toRepeat, hat.pattern, h.ids m hm]
  have hread : RepeatExpression.parse? ((m.element.attribute? mark).getD "") =
      some a.expression := parse?_of_repeat? hat.expression
  have hitems : st.items s (a.toRepeat copies) = env.items a.expression.collection := by
    rw [Stage.items, Spot.toRepeat, h.sees.lookup? (collection_ne_empty hread), Env.items]
  -- the copies are where the rendered document has them
  have hcopies : ∀ t ∈ copies a.scope, st.document.Holds (some a.container) t ∧ t.ids.Nodup := by
    have hparts : Part.each a ∈ Mold.partsAll Document.root items := by
      rcases List.mem_cons.1 ha with ha | ha
      · cases ha
      · exact ha
    intro t ht
    refine copy_of_placedAll text
      (Q := fun c t => st.document.Holds (some c) t ∧ t.ids.Nodup)
      (fun c id kind span us hu t ht => ⟨hu.1.child ht, Placed.nodup_child hu.2 ht⟩)
      (fun u hu => ⟨h.filled.holds.child hu, Placed.nodup_child h.filled.nodup hu⟩) hparts ht
  have hshown : (copies a.scope).map Placed.tree = (env.items a.expression.collection).map fun v =>
      .node (.element (m.element.eraseAttribute mark)) m.span (Tree.expandAll splitText mark
        (Env.frame a.expression.item v :: env) (m.children.map Placed.tree)) := by
    rw [h.filled.places a ha, List.map_eq_flatMap, hat.pattern]
    exact List.flatMap_congr fun v _ => h.means m hm _
  refine ⟨?_, ?_, ⟨m.element, m.span, m.children.map Placed.tree, ?_, hat.expression, ?_⟩, ?_⟩
  · rw [hpattern, Spot.toRepeat, hat.container]
    exact Document.parent?_of_get? hmark.holds.get?
  · rw [hitems, Spot.toRepeat, List.length_map, ← List.length_map (f := Placed.tree), hshown,
      List.length_map]
  · rw [hpattern, ← Placed.tree_node m.id]
    exact hmark.holds.tree? hmark.nodup
  · have htrees : (a.toRepeat copies).copies.map st.document.tree? =
        ((copies a.scope).map Placed.tree).map some := by
      rw [Spot.toRepeat, List.map_map, List.map_map]
      exact List.map_congr_left fun t ht => (hcopies t ht).1.tree? (hcopies t ht).2
    rw [htrees, hshown, hitems, List.map_map, h.sees.environment_eq]
    rfl
  · intro c hc
    obtain ⟨t, ht, rfl⟩ := List.mem_map.1 hc
    have hparent := Document.parent?_of_get? (hcopies t ht).1.get?
    exact ⟨Document.contains_of_parent? hparent, hparent⟩

/-- **Where a repeated element is, it is laid out with its siblings.** -/
theorem Displayed.exists_container
    (h : Displayed mark d cs st s items env scope pattern text copies ys) {m : Mark}
    (hm : m ∈ marksAll mark Document.root cs) :
    ∃ p q kind span ts ms, Laid mark scope pattern ts ms ∧
      d.Holds p (.node m.container kind span ts) ∧
      st.document.Holds q (.node m.container kind span (Mold.placedAll text copies ms)) ∧
      (∀ x ∈ Mold.partsAll m.container ms,
        x ∈ Mold.level none Document.root .document none items) ∧
      ∀ m' ∈ marksAll mark m.container ts, m' ∈ marksAll mark Document.root cs := by
  rcases h.ground.bindable.container_inside hm with hc | ⟨around, e, span, us, hin⟩
  · rw [hc]
    exact ⟨none, none, _, _, cs, items, h.laid, h.ground.holds, h.filled.holds,
      fun x hx => List.mem_cons_of_mem _ hx, fun _ hm' => hm'⟩
  · obtain ⟨items', hitems', hinside, hpart⟩ := h.laid.inside hin
    obtain ⟨q, hq⟩ := hpart Document.root
    obtain ⟨p, hp⟩ := hin.holds fun t ht => h.ground.holds.child ht
    obtain ⟨q', hq'⟩ := (hinside text copies).holds fun t ht => h.filled.holds.child ht
    exact ⟨p, q', _, _, us, items', hitems', hp, hq',
      fun x hx => List.mem_cons_of_mem _ ((Mold.partsAll_sublist hq).subset hx),
      fun m' hm' => hin.mem_marksAll hm' _⟩

/-- **The children of a container are what stands for its children in the page**, in their order. -/
theorem Displayed.rows
    (h : Displayed mark d cs st s items env scope pattern text copies ys) {r : Repeat}
    (hr : r ∈ st.scopes.repeats s) :
    ∃ rows, List.Forall₂ (StandsFor mark d st.document (st.scopes.repeats s) env)
        (d.children r.container) rows ∧ st.document.children r.container = rows.flatten := by
  obtain ⟨m, hm, a, ha, hat, rfl⟩ := h.exists_mark hr
  have hcontainer : (a.toRepeat copies).container = m.container := by
    rw [Spot.toRepeat, hat.container]
  obtain ⟨p, q, kind, span, ts, ms, hlaid, hd, hst, hparts, hmarks⟩ := h.exists_container hm
  have htext : ∀ path i, (path, i) ∈ slotList (Mold.partsAll m.container ms) →
      text i = display (env.get? path) := by
    intro path i hi
    obtain ⟨c, sp, hpart⟩ := mem_slotList.1 hi
    exact h.filled.slots c i sp path (hparts _ hpart)
  obtain ⟨rows, hrows, hheads⟩ := hlaid.rows (fun t ht => hd.child ht) (fun u hu => hst.child hu)
    htext fun m' hm' => h.exists_repeat (hmarks m' hm')
  have hbefore : d.children m.container = ts.map Placed.id := Document.children_of_get? hd.get?
  have hafter : st.document.children m.container =
      (Mold.placedAll text copies ms).map Placed.id := Document.children_of_get? hst.get?
  refine ⟨rows, ?_, ?_⟩
  · rw [hcontainer, hbefore]
    exact hrows
  · rw [hcontainer, hafter, Mold.map_id_placedAll, hheads]

end Displayed

end Binding

namespace Page

open PageTemplate.Binding

/-- **Copies stand where their element stood.**  A page has been compiled to a scope that nothing was
bound to, and whatever has been done with the scope, it has been rendered last.  The directives of the
scope are those of the outermost repeated elements of the page, and each has one copy of its element
for each current item, in the order of the items.  No two copies are the same node.  The children of
each container are what stands for its children in the page, one after the other: the copies for a
repeated element, its pieces for a text, and the node itself otherwise. -/
theorem render_places {source mark : String} {f : Scopes} {d : Document} {s : ScopeId} {sc : Scope}
    {st : Stage} (hparse : Document.parse source = .ok d) (hf : f.ParentsFirst)
    (hs : f.get? s = some sc) (hfresh : sc.repeats = [])
    (hcompile : (⟨d, f⟩ : Stage).compile mark s Document.root = .ok st) (changes : List Change) :
    let live := Change.runAll s st (changes ++ [.render])
    let rs := live.scopes.repeats s
    rs.map (·.pattern) = repeated d mark Document.root ∧
      (∀ r ∈ rs, Copied mark d live s r) ∧ (rs.flatMap (·.copies)).Nodup ∧
      ∀ r ∈ rs, ∃ rows,
        List.Forall₂ (StandsFor mark d live.document rs (live.scopes.environment s))
          (d.children r.container) rows ∧
        live.document.children r.container = rows.flatten := by
  obtain ⟨cs, items, ys, hground, hcompiled, hinstalled⟩ :=
    installed_compile hparse hf hs hfresh hcompile
  obtain ⟨scope, pattern, hlaid, hfits, hids⟩ := hcompiled.laid
  obtain ⟨env, xs, zs, _, hsees, hredone, hrendered⟩ := (hinstalled.run changes).render
  obtain ⟨text, copies, hfilled⟩ := hredone.filled _ _ _ _ rfl
  rw [Change.runAll_append_render]
  intro live rs
  have hdisplayed : Displayed mark d cs live s items env scope pattern text copies zs :=
    ⟨hground, hlaid, fun m hm => (hfits m hm).means, hids, hfilled, hsees⟩
  refine ⟨hdisplayed.patterns, fun r hr => hdisplayed.copied hr, ?_, fun r hr => ?_⟩
  · obtain ⟨_, hsettled, -⟩ := hrendered.settled
    exact hsettled.nodup_copies
  · rw [hsees.environment_eq]
    exact hdisplayed.rows hr

/-- Two repeated elements next to each other, before a text that is cut. -/
def adjacentSource : String :=
  "<p hb-repeat='x in xs'></p><p hb-repeat='y in ys'></p>a\x7b\x7b z \x7d\x7d"

/-- The same page as a document. -/
def adjacentDocument : Document :=
  ⟨#[some ⟨.document, none, [1, 2, 3], none⟩,
    some ⟨.element ⟨"p", [⟨"hb-repeat", some "x in xs"⟩]⟩, some 0, [],
      some ⟨⟨0, 0, 0⟩, ⟨23, 0, 23⟩⟩⟩,
    some ⟨.element ⟨"p", [⟨"hb-repeat", some "y in ys"⟩]⟩, some 0, [],
      some ⟨⟨27, 0, 27⟩, ⟨50, 0, 50⟩⟩⟩,
    some ⟨.text "a\x7b\x7b z \x7d\x7d", some 0, [], some ⟨⟨54, 0, 54⟩, ⟨62, 0, 62⟩⟩⟩], []⟩

theorem parse_adjacentSource : Document.parse adjacentSource = .ok adjacentDocument :=
  eq_ok_of_toOption (by decide +kernel)

theorem render_places_adjacent : ∃ st,
    let scopes := Scopes.empty.newRoot (.object [("xs", .array [.string "a", .string "b"])])
    let live := Change.runAll scopes.2 st
      ([.render, .set "ys" (.array [.string "c"])] ++ [Change.render])
    let rs := live.scopes.repeats scopes.2
    (⟨adjacentDocument, scopes.1⟩ : Stage).compile "hb-repeat" scopes.2 Document.root = .ok st ∧
      rs.map (·.pattern) = [1, 2] ∧
      (∀ r ∈ rs, Copied "hb-repeat" adjacentDocument live scopes.2 r) ∧
      (rs.flatMap (·.copies)).Nodup ∧
      ∀ r ∈ rs, ∃ rows,
        List.Forall₂ (StandsFor "hb-repeat" adjacentDocument live.document rs
          (live.scopes.environment scopes.2)) (adjacentDocument.children r.container) rows ∧
        live.document.children r.container = rows.flatten := by
  have hvalid : invalidRepeat? adjacentDocument "hb-repeat" Document.root = none := by
    decide +kernel
  have hrepeated : repeated adjacentDocument "hb-repeat" Document.root = [1, 2] := by
    decide +kernel
  obtain ⟨st, hcompile⟩ : ∃ st, (⟨adjacentDocument, (Scopes.empty.newRoot
      (.object [("xs", .array [.string "a", .string "b"])])).1⟩ : Stage).compile "hb-repeat"
        (Scopes.empty.newRoot (.object [("xs", .array [.string "a", .string "b"])])).2
        Document.root = .ok st := by
    rw [Stage.compile, hvalid]
    exact ⟨_, rfl⟩
  obtain ⟨hpatterns, hplaces⟩ := render_places parse_adjacentSource
    (Scopes.parentsFirst_empty.newRoot _) (Scopes.empty.get?_newRoot _) rfl hcompile
    [.render, .set "ys" (.array [.string "c"])]
  exact ⟨st, hcompile, hpatterns.trans hrepeated, hplaces⟩

end Page

end PageTemplate
