/-
**Data cannot become markup.**

What is read can be written, as far as it has no scripts and styles, and binding a page to data changes
only texts and the number of copies.  So the page that is written down is read back as it is, whatever
the texts are that the data have put into it.  As the strings in the data make no difference to the
skeleton of a page, they make none to that of the page that is read back.

Main definitions:

* `PageTemplate.Tree.PlainAll` — there are no script and style elements in the trees;
* `PageTemplate.Page.renderDocument` — the document that a rendered page is the markup of;
* `PageTemplate.Tree.shownAll` — its trees.

Main results:

* `PageTemplate.Document.parse_writable` — what is read can be written;
* `PageTemplate.Tree.WritableAll.shownAll` — and so can what is shown of it;
* `PageTemplate.Page.renderDocument_trees` — the trees of the document that is written down;
* `PageTemplate.Page.parse_render` — a rendered page is read back.
-/

import PageTemplate.Proofs.Document.RoundTrip
import PageTemplate.Proofs.Markup.Tokens
import PageTemplate.Proofs.Page.Mounting
import PageTemplate.Proofs.Page.Nesting
import PageTemplate.Proofs.Page.Skeleton

set_option relaxedAutoImplicit false
set_option autoImplicit false

namespace PageTemplate

open PageTemplate.Binding PageTemplate.Data PageTemplate.Markup PageTemplate.Text

/-! ### What is read can be written -/

namespace Tree

/-- There are no script and style elements in the trees. -/
abbrev PlainAll (ts : List Tree) : Prop := EachAll (fun e _ => isRawText e.tag = false) ts

theorem writableAll_iff {ts : List Tree} : WritableAll ts ↔ ∀ t ∈ ts, t.Writable := by
  induction ts with
  | nil => simp [WritableAll]
  | cons t ts ih => rw [WritableAll, ih, List.forall_mem_cons]

end Tree

namespace Document

/-- The attributes of an opening tag have different names if none is repeated. -/
theorem nodup_of_repeated? {seen attributes : List SourceAttribute}
    (h : repeated? seen attributes = none) (hseen : (seen.map (·.name)).Nodup) :
    ((seen ++ attributes).map (·.name)).Nodup := by
  induction attributes generalizing seen with
  | nil => rwa [List.append_nil]
  | cons a attributes ih =>
      rw [repeated?] at h
      split at h
      · cases h
      · rename_i hfind
        have hnew : ((seen ++ [a]).map (·.name)).Nodup := by
          rw [List.map_append, List.nodup_append]
          refine ⟨hseen, by simp, ?_⟩
          rintro name hname other hother rfl
          obtain ⟨b, hb, rfl⟩ := List.mem_map.1 hname
          have := List.find?_eq_none.1 hfind b hb
          simp at hother
          simp [hother] at this
        have := ih h hnew
        rwa [List.append_assoc] at this

/-- What a token makes can be written. -/
theorem ReadFrom.writable {token : Token} {kind : NodeKind} (h : ReadFrom token kind)
    (htoken : token.content.Writable) (span : Option Span)
    (hplain : Tree.Each (fun e _ => isRawText e.tag = false) (.node kind span [])) :
    Tree.Writable (.node kind span []) := by
  cases h with
  | text h => rw [Tree.Writable]
  | comment h =>
      rw [h] at htoken
      exact ⟨htoken, rfl⟩
  | doctype h =>
      rw [h] at htoken
      exact ⟨htoken.1, htoken.2, rfl⟩
  | @element tag tagSpan attributes selfClosing h hr =>
      rw [h] at htoken
      refine ⟨⟨htoken.1, fun a ha => ?_, ?_⟩, fun _ => rfl, fun hraw => ?_, fun _ => trivial⟩
      · obtain ⟨b, hb, rfl⟩ := List.mem_map.1 ha
        exact htoken.2 b hb
      · have := nodup_of_repeated? hr (by simp)
        rw [List.nil_append] at this
        rwa [List.map_map]
      · rw [hplain.1] at hraw
        cases hraw

/-- Reading keeps that what has no scripts and styles can be written. -/
theorem kept_writable {tokens : List Token} (h : ∀ token ∈ tokens, token.content.Writable) :
    Kept (fun t => Tree.Each (fun e _ => isRawText e.tag = false) t.tree → t.tree.Writable)
      tokens where
  leaf token htoken kind hk id hplain := by
    rw [Placed.tree_node] at hplain ⊢
    exact hk.writable (h token htoken) _ hplain
  nest token behind _ tag tagSpan attributes _ hvoid id cs hleaf _ hcs hplain := by
    rw [Placed.tree_node] at hplain hleaf ⊢
    obtain ⟨hraw, hbelow⟩ := hplain
    obtain ⟨he, -⟩ := hleaf ⟨hraw, trivial⟩
    refine ⟨he, fun hv => ?_, fun hr => ?_, fun _ => ?_⟩
    · rw [hvoid] at hv
      cases hv
    · rw [hraw] at hr
      cases hr
    · have hall := List.forall_mem_map.1 (Tree.eachAll_iff.1 hbelow)
      exact Tree.writableAll_iff.2 (List.forall_mem_map.2 fun c hc => hcs c hc (hall c hc))

/-- Trees that a document holds have what its elements have. -/
theorem eachAll_of_holds {P : Element → Prop} {d : Document} {p : Option NodeId} {ts : List Placed}
    (hts : ∀ t ∈ ts, t.Proper ∧ d.Holds p t) (h : ∀ i e, d.element? i = some e → P e) :
    Tree.EachAll (fun e _ => P e) (ts.map Placed.tree) := by
  induction ts using Placed.forest_induction generalizing p with
  | nil => trivial
  | cons id kind span cs ts ihcs ihts =>
      rw [List.map_cons, Placed.tree_node]
      refine ⟨?_, ihts fun t ht => hts t (List.mem_cons_of_mem _ ht)⟩
      obtain ⟨hproper, hheld⟩ := hts _ (List.mem_cons_self ..)
      cases hproper with
      | element _ e _ hcs =>
          have helement : d.element? id = some e := hheld.element?
          exact ⟨h id e helement, ihcs fun c hc => ⟨hcs c hc, hheld.child hc⟩⟩
      | text | comment | doctype => rfl

variable {source : String} {d : Document}

/-- The trees of a document that is read, if no element of it is a script or style. -/
theorem parse_plain (h : parse source = .ok d)
    (hraw : ∀ i e, d.element? i = some e → isRawText e.tag = false) :
    Tree.PlainAll (d.subtrees root) := by
  obtain ⟨cs, -, hholds, hproper, hnodup⟩ := parse_holds h
  have hsubtrees : d.subtrees root = cs.map Placed.tree := hholds.subtrees hnodup
  rw [hsubtrees]
  exact eachAll_of_holds (fun c hc => ⟨hproper c hc, hholds.child hc⟩) hraw

/-- **What is read can be written**, if there are no scripts and styles in it. -/
theorem parse_writable (h : parse source = .ok d) (hplain : Tree.PlainAll (d.subtrees root)) :
    Tree.WritableAll (d.subtrees root) := by
  obtain ⟨cs, -, hholds, hcs, hnodup⟩ :=
    parse_holds_kept (kept_writable (tokenize_writable source)) h
  have hsubtrees : d.subtrees root = cs.map Placed.tree := hholds.subtrees hnodup
  rw [hsubtrees] at hplain ⊢
  have hall := List.forall_mem_map.1 (Tree.eachAll_iff.1 hplain)
  exact Tree.writableAll_iff.2 (List.forall_mem_map.2 fun c hc => hcs c hc (hall c hc))

end Document

/-! ### What is shown can be written -/

theorem Markup.Element.Writable.eraseAttribute {e : Element} (h : e.Writable) (name : String) :
    (e.eraseAttribute name).Writable where
  tag := h.tag
  names a ha := h.names a (List.mem_of_mem_filter ha)
  distinct := h.distinct.sublist (List.filter_sublist.map _)

namespace Tree

/-- The trees that a page shows: what it means to the data, or what its controllers make of it if it
has some. -/
def shownAll (o : Options) (data : Value) (ts : List Tree) : List Tree :=
  if controllersAll o ts = [] then expandAll splitText o.repeatAttribute [data.objectOrEmpty] ts
  else mountedAll o (Page.controllerData (data.fields?.getD [])) ts

variable {o : Options} {ts : List Tree} {text : Env → String → List String} {mark : String}
  {data : String → Value}

theorem PlainAll.expandAll (h : PlainAll ts) (env : Env) :
    PlainAll (expandAll text mark env ts) :=
  EachAll.expandAll h (fun _ _ _ he _ => he) (fun _ _ _ _ he _ => he) env

theorem plainAll_remade (h : PlainAll ts) (e : Element) : PlainAll (remade o data e ts) := by
  unfold remade
  split
  · exact h.expandAll _
  · exact h

theorem PlainAll.mountedAll (h : PlainAll ts) : PlainAll (mountedAll o data ts) := by
  induction ts using forest_induction with
  | nil =>
      rw [Tree.mountedAll]
      trivial
  | cons k span cs ts ihcs ihts =>
      rw [Tree.mountedAll]
      refine ⟨?_, ihts h.2⟩
      have ht := h.1
      cases k with
      | element e =>
          rw [mounted_element]
          exact ⟨ht.1, plainAll_remade (ihcs ht.2) e⟩
      | document => exact ht.elim
      | text | comment | doctype => rwa [mounted_leaf _ _ rfl]

/-- An element with other content can be written if the content can, and if it has none where it had
none. -/
theorem Writable.change {e e' : Element} {span : Option Span} {us vs : List Tree}
    (h : Writable (node (.element e) span us)) (he : e'.Writable) (htag : e'.tag = e.tag)
    (hraw : isRawText e.tag = false) (hnil : us = [] → vs = []) (hvs : WritableAll vs) :
    Writable (node (.element e') span vs) := by
  refine ⟨he, fun hv => hnil (h.2.1 (htag ▸ hv)), fun hr => ?_, fun _ => hvs⟩
  rw [htag, hraw] at hr
  cases hr

/-- **What trees mean can be written if they can**, since a text is written whatever it is. -/
theorem WritableAll.expandAll (h : WritableAll ts) (hplain : PlainAll ts) (env : Env) :
    WritableAll (expandAll text mark env ts) := by
  induction ts using forest_induction generalizing env with
  | nil => trivial
  | cons k span cs ts ihcs ihts =>
      rw [Tree.expandAll, writableAll_iff, List.forall_mem_append, ← writableAll_iff,
        ← writableAll_iff]
      refine ⟨?_, ihts h.2 hplain.2 env⟩
      obtain ⟨ht, -⟩ := h
      obtain ⟨hp, -⟩ := hplain
      cases k with
      | element e =>
          have hbelow := fun env => ihcs (ht.2.2.2 hp.1) hp.2 env
          have hnil : ∀ env, cs = [] → Tree.expandAll text mark env cs = [] := by
            rintro env rfl
            rfl
          cases hx : e.repeat? mark with
          | none =>
              rw [expand_element_of_none _ _ hx]
              exact ⟨ht.change ht.1 rfl hp.1 (hnil _) (hbelow _), trivial⟩
          | some x =>
              rw [expand_element_of_some _ _ hx, writableAll_iff, List.forall_mem_map]
              exact fun v _ => ht.change (ht.1.eraseAttribute mark) rfl hp.1 (hnil _) (hbelow _)
      | text t =>
          rw [expand_text, writableAll_iff, List.forall_mem_map]
          exact fun u _ => rfl
      | document => exact hp.elim
      | comment t | doctype t =>
          rw [expand]
          · exact ⟨ht, trivial⟩
          all_goals simp

theorem writableAll_remade (h : WritableAll ts) (hplain : PlainAll ts) (e : Element) :
    WritableAll (remade o data e ts) := by
  unfold remade
  split
  · exact h.expandAll hplain _
  · exact h

theorem remade_nil (e : Element) : remade o data e [] = [] := by
  unfold remade
  split <;> rfl

/-- **What controllers make of trees can be written if the trees can.** -/
theorem WritableAll.mountedAll (h : WritableAll ts) (hplain : PlainAll ts) :
    WritableAll (mountedAll o data ts) := by
  induction ts using forest_induction with
  | nil =>
      rw [Tree.mountedAll]
      trivial
  | cons k span cs ts ihcs ihts =>
      rw [Tree.mountedAll]
      refine ⟨?_, ihts h.2 hplain.2⟩
      obtain ⟨ht, -⟩ := h
      obtain ⟨hp, -⟩ := hplain
      cases k with
      | element e =>
          rw [mounted_element]
          refine ht.change ht.1 rfl hp.1 ?_
            (writableAll_remade (ihcs (ht.2.2.2 hp.1) hp.2) (PlainAll.mountedAll hp.2) e)
          rintro rfl
          rw [Tree.mountedAll, remade_nil]
      | document => exact hp.elim
      | text | comment | doctype => rwa [mounted_leaf _ _ rfl]

/-- **What a page shows can be written if the page can.** -/
theorem WritableAll.shownAll (h : WritableAll ts) (hplain : PlainAll ts) (data : Value) :
    WritableAll (shownAll o data ts) := by
  unfold Tree.shownAll
  split
  · exact h.expandAll hplain _
  · exact h.mountedAll hplain

/-- **Strings make no difference to the skeleton of what a page shows.** -/
theorem skeletonAll_shownAll (data : Value) (ts : List Tree) :
    skeletonAll (shownAll o data ts) =
      if controllersAll o ts = [] then
        expandAll splitText o.repeatAttribute [data.blank.objectOrEmpty] (skeletonAll ts)
      else mountedAll o (Page.controllerData (data.blank.fields?.getD [])) (skeletonAll ts) := by
  unfold Tree.shownAll
  split
  · rw [skeletonAll_expandAll, List.map_singleton, Value.objectOrEmpty_blank]
  · rw [skeletonAll_mountedAll]
    congr 1
    funext name
    rw [Page.controllerData, Page.controllerData, Value.objectOrEmpty_blank, Value.fields?_blank,
      Value.get?_map_blank]
    cases (data.fields?.getD []).get? name <;> rfl

end Tree

/-! ### Pages that can be rendered -/

namespace Page

/-- The document that a rendered page is the markup of, and what is bound in it. -/
def renderDocument (options : Options) (data : Value) (d : Document) :
    Except Diagnostic.BindError (Stage × List Summary) :=
  if d.elementsWithAttribute Document.root options.controllerAttribute = [] then
    renderWhole options data d
  else renderControllers options data d

/-- A rendered page is the markup of this document. -/
theorem render_eq_ok_iff {source : String} {data : Value} {o : Options} {r : Rendered}
    {d : Document} (hparse : Document.parse source = .ok d) :
    render source data o = .ok r ↔
      ∃ st, renderDocument o data d = .ok (st, r.summaries) ∧ r.markup = st.document.markup := by
  unfold render
  simp only [hparse]
  rw [← renderDocument]
  cases h : renderDocument o data d with
  | error e => simp
  | ok p =>
      obtain ⟨st, summaries⟩ := p
      obtain ⟨markup, summaries'⟩ := r
      simp only [Except.ok.injEq, Rendered.mk.injEq, Prod.mk.injEq]
      constructor
      · rintro ⟨rfl, rfl⟩
        exact ⟨st, ⟨rfl, rfl⟩, rfl⟩
      · rintro ⟨_, ⟨rfl, rfl⟩, rfl⟩
        exact ⟨rfl, rfl⟩

/-- The trees of a stage at its document node. -/
def Shows (st : Stage) (ts : List Tree) : Prop :=
  st.document.kind? Document.root = some .document ∧ st.document.subtrees Document.root = ts

/-- A page has all that is asked of its directives and controllers, where the data have these
fields. -/
def Showable (o : Options) (fields : Fields) (ts : List Tree) : Prop :=
  if Tree.controllersAll o ts = [] then Tree.ReadableAll o.repeatAttribute ts
  else Tree.ReadyAll o (fun name => fields.get? name ≠ none) ts

theorem shows_of_holds {st : Stage} {p : Option NodeId} {span : Option Span} {cs : List Placed}
    {ts : List Tree} (h : st.document.Holds p (.node Document.root .document span cs))
    (hn : (Placed.node Document.root .document span cs).ids.Nodup)
    (hts : cs.map Placed.tree = ts) : Shows st ts := by
  have hget := h.get?
  have hsubtrees := h.subtrees hn
  rw [Placed.id_node] at hget hsubtrees
  refine ⟨?_, hsubtrees.trans hts⟩
  rw [Document.kind?, hget]
  rfl

theorem registryOf_eq (o : Options) (data : Value) :
    registryOf o data = registryOf o (.object (data.fields?.getD [])) := by
  cases data <;> rfl

section Held

variable {o : Options} {d : Document} {cs : List Placed} {span : Option Span} {p : Option NodeId}
  {data : Value} {st : Stage} {summaries : List Summary}

theorem renderWhole_shows
    (h : Ground o.repeatAttribute d p Document.root .document span cs) (data : Value) :
    ∃ result, renderWhole o data d = .ok result ∧
      Shows result.1 (Tree.expandAll splitText o.repeatAttribute [data.objectOrEmpty]
        (cs.map Placed.tree)) := by
  obtain ⟨st, items, ys, hok, hcompiled, hsees⟩ := h.compile_newRoot .empty data
  obtain ⟨zs, hredone⟩ := hcompiled.settled.render hcompiled.sound hsees
  obtain ⟨text, copies, hfilled⟩ := hredone.filled _ _ _ _ rfl
  have hwhole : renderWhole o data d = .ok (st.render (Scopes.empty.newRoot data).2,
      [(st.render (Scopes.empty.newRoot data).2).scopes.summary (Scopes.empty.newRoot data).2]) := by
    simp only [renderWhole, hok]
  refine ⟨_, hwhole, shows_of_holds hfilled.holds hfilled.nodup ?_⟩
  rw [hfilled.map_tree (List.mem_cons_self ..), hcompiled.shownAll]

theorem renderControllers_shows (hsound : d.Sound)
    (hheld : d.Holds p (.node Document.root .document span cs))
    (hn : (Placed.node Document.root .document span cs).ids.Nodup) (hcs : ∀ c ∈ cs, c.Proper)
    (hready : Tree.ReadyAll o (fun name => (data.fields?.getD []).get? name ≠ none)
      (cs.map Placed.tree)) :
    ∃ result, renderControllers o data d = .ok result ∧
      Shows result.1 (Tree.mountedAll o (controllerData (data.fields?.getD [])) (cs.map Placed.tree)) := by
  obtain ⟨mounts, cs', hok, hremade, -⟩ := bootstrap_ready .empty [] hsound hheld hn hcs hready
  obtain ⟨hholds, hnodup⟩ := hremade.holds_node hheld hn
  have hcontrollers : ∃ summaries, renderControllers o data d =
      .ok (((registryOf o (.object (data.fields?.getD []))).bootstrap ⟨d, .empty⟩ []).stage,
        summaries) := by
    unfold renderControllers
    simp only [registryOf_eq o data, hok]
    exact ⟨_, rfl⟩
  obtain ⟨summaries, hcontrollers⟩ := hcontrollers
  exact ⟨_, hcontrollers, shows_of_holds hholds hnodup hremade.trees⟩

/-- **A page is rendered exactly if its directives can be read and its controllers are known**, and
this gives what it shows. -/
theorem renderDocument_of_holds (o : Options) (data : Value) (hsound : d.Sound)
    (hheld : d.Holds p (.node Document.root .document span cs))
    (hn : (Placed.node Document.root .document span cs).ids.Nodup) (hcs : ∀ c ∈ cs, c.Proper) :
    (Showable o (data.fields?.getD []) (cs.map Placed.tree) → ∃ result,
      renderDocument o data d = .ok result ∧
        Shows result.1 (Tree.shownAll o data (cs.map Placed.tree))) ∧
    ∀ result, renderDocument o data d = .ok result →
      Showable o (data.fields?.getD []) (cs.map Placed.tree) := by
  have hnames : d.elementsWithAttribute Document.root o.controllerAttribute = [] ↔
      Tree.controllersAll o (cs.map Placed.tree) = [] := by
    have hcarriers : d.elementsWithAttribute Document.root o.controllerAttribute =
        cs.flatMap (Placed.carriers o.controllerAttribute) := hheld.elementsWithAttribute hn _
    rw [hcarriers, ← map_carriers fun c hc => ⟨hcs c hc, hheld.child hc⟩, List.map_eq_nil_iff]
  unfold renderDocument Showable Tree.shownAll
  simp only [hnames]
  split
  · refine ⟨fun hread => ?_, fun result h => ?_⟩
    · exact renderWhole_shows ⟨hsound, hheld, hn, (bindable_iff hcs).2 hread⟩ data
    · unfold renderWhole at h
      simp only at h
      split at h
      · cases h
      · rename_i st hcompile
        exact (bindable_iff hcs).1 (bindable_of_compile hcs (by exact hheld) hn hcompile)
  · refine ⟨renderControllers_shows hsound hheld hn hcs, fun result h => ?_⟩
    unfold renderControllers at h
    simp only [registryOf_eq o data] at h
    split at h
    · cases h
    · rename_i mounts hmounts
      exact ready_of_bootstrap .empty [] hsound hheld hn hcs hmounts

end Held

/-- **The trees of the document that is written down.** -/
theorem renderDocument_trees {source : String} {o : Options} {data : Value} {d : Document}
    (hparse : Document.parse source = .ok d) {st : Stage} {summaries : List Summary}
    (h : renderDocument o data d = .ok (st, summaries)) :
    Shows st (Tree.shownAll o data (d.subtrees Document.root)) := by
  obtain ⟨cs, hsound, hholds, hproper, hnodup⟩ := Document.parse_holds hparse
  have hsubtrees : d.subtrees Document.root = cs.map Placed.tree := hholds.subtrees hnodup
  obtain ⟨hshown, hshowable⟩ :=
    renderDocument_of_holds o data hsound hholds hnodup hproper
  obtain ⟨result, h', hshows⟩ := hshown (hshowable _ h)
  rw [h] at h'
  cases h'
  rwa [hsubtrees]

/-- **Strings in the data do not decide whether a page can be rendered.** -/
theorem exists_renderDocument {source : String} {o : Options} {data data' : Value} {d : Document}
    (hparse : Document.parse source = .ok d) {result : Stage × List Summary}
    (h : renderDocument o data d = .ok result) (hblank : data'.blank = data.blank) :
    ∃ result', renderDocument o data' d = .ok result' := by
  obtain ⟨cs, hsound, hholds, hproper, hnodup⟩ := Document.parse_holds hparse
  obtain ⟨-, hshowable⟩ :=
    renderDocument_of_holds o data hsound hholds hnodup hproper
  obtain ⟨hshown, -⟩ :=
    renderDocument_of_holds o data' hsound hholds hnodup hproper
  have hknown : ∀ name, (data'.fields?.getD []).get? name ≠ none ↔
      (data.fields?.getD []).get? name ≠ none := by
    intro name
    have := congrArg (fun v => Fields.get? (v.fields?.getD []) name) hblank
    simp only [Value.fields?_blank, Value.get?_map_blank] at this
    rw [← Option.isSome_iff_ne_none, ← Option.isSome_iff_ne_none, ← Option.isSome_map, this,
      Option.isSome_map]
  have hready : Showable o (data'.fields?.getD []) (cs.map Placed.tree) := by
    have hold := hshowable _ h
    unfold Showable at hold ⊢
    simpa only [hknown] using hold
  obtain ⟨result', hok, -⟩ := hshown hready
  exact ⟨result', hok⟩

/-- A page without scripts and styles that is rendered is read back as it was written. -/
theorem parse_shown {source : String} {o : Options} {data : Value} {d : Document}
    (hparse : Document.parse source = .ok d)
    (hraw : ∀ i e, d.element? i = some e → isRawText e.tag = false)
    {st : Stage} {summaries : List Summary}
    (h : renderDocument o data d = .ok (st, summaries)) :
    ∃ e, Document.parse st.document.markup = .ok e ∧
      e.kind? Document.root = some .document ∧
      Tree.bareAll (e.subtrees Document.root) =
        Tree.normalAll (st.document.subtrees Document.root) := by
  have hplain := Document.parse_plain hparse hraw
  have hwritable := Document.parse_writable hparse hplain
  obtain ⟨hkind, hshown⟩ := renderDocument_trees hparse h
  have hwritten : st.document.Writable := ⟨hkind, by
    rw [hshown]
    exact hwritable.shownAll hplain data⟩
  rw [Document.markup_of_writable hwritten]
  exact Document.parse_markupAll hwritten.content

/-- **Data cannot become markup.**  What is rendered is read back as the document that was written, and
the elements, comments and doctypes in it do not depend on the strings in the data. -/
theorem parse_render {source : String} {data : Value} {o : Options} {r : Rendered} {d : Document}
    (hparse : Document.parse source = .ok d)
    (hraw : ∀ i e, d.element? i = some e → isRawText e.tag = false)
    (hrender : render source data o = .ok r) :
    ∃ st e, renderDocument o data d = .ok (st, r.summaries) ∧ r.markup = st.document.markup ∧
      Document.parse r.markup = .ok e ∧ e.kind? Document.root = some .document ∧
      Tree.bareAll (e.subtrees Document.root) =
        Tree.normalAll (st.document.subtrees Document.root) ∧
      ∀ data' : Value, data'.blank = data.blank → ∃ r' e', render source data' o = .ok r' ∧
        Document.parse r'.markup = .ok e' ∧
        Tree.skeletonAll (e'.subtrees Document.root) =
          Tree.skeletonAll (e.subtrees Document.root) := by
  -- what is read back has the skeleton of what the page shows
  have skeleton_of_bare : ∀ {data : Value} {st : Stage} {e : Document},
      Shows st (Tree.shownAll o data (d.subtrees Document.root)) →
      Tree.bareAll (e.subtrees Document.root) =
        Tree.normalAll (st.document.subtrees Document.root) →
      Tree.skeletonAll (e.subtrees Document.root) =
        Tree.skeletonAll (Tree.shownAll o data (d.subtrees Document.root)) := by
    intro data st e hshows hbare
    rw [← Tree.skeletonAll_bareAll, hbare, Tree.skeletonAll_normalAll, hshows.2]
  obtain ⟨st, hdocument, hmarkup⟩ := (render_eq_ok_iff hparse).1 hrender
  obtain ⟨e, hread, hkind, hbare⟩ := parse_shown hparse hraw hdocument
  refine ⟨st, e, hdocument, hmarkup, hmarkup ▸ hread, hkind, hbare, fun data' hblank => ?_⟩
  obtain ⟨⟨st', summaries⟩, hdocument'⟩ := exists_renderDocument hparse hdocument hblank
  obtain ⟨e', hread', -, hbare'⟩ := parse_shown hparse hraw hdocument'
  refine ⟨⟨st'.document.markup, summaries⟩, e',
    (render_eq_ok_iff hparse).2 ⟨st', hdocument', rfl⟩, hread', ?_⟩
  rw [skeleton_of_bare (renderDocument_trees hparse hdocument) hbare,
    skeleton_of_bare (renderDocument_trees hparse hdocument') hbare',
    Tree.skeletonAll_shownAll, Tree.skeletonAll_shownAll, hblank]

/-- Markup in the data of this page stays text. -/
theorem parse_render_two_items :
    (∀ i e, sampleDocument.element? i = some e → isRawText e.tag = false) ∧
      ∃ r, render sampleSource
          (.object [("xs", .array [.string "<b>", .string "-->"]), ("y", .string "\"")])
          ⟨"hb-repeat", "hb-controller"⟩ = .ok r ∧
        r.markup = "<p>&lt;b&gt; \"</p><p>--&gt; \"</p>" ∧ ∃ e, Document.parse r.markup = .ok e ∧
        ∃ r' e', render sampleSource
            (.object [("xs", .array [.string "</p>", .string ""]), ("y", .string "<!--")])
            ⟨"hb-repeat", "hb-controller"⟩ = .ok r' ∧
          Document.parse r'.markup = .ok e' ∧
          Tree.skeletonAll (e'.subtrees Document.root) =
            Tree.skeletonAll (e.subtrees Document.root) := by
  have hraw : ∀ i e, sampleDocument.element? i = some e → isRawText e.tag = false := by
    intro i e h
    rcases i with _ | _ | _ | i
    · cases h
    · cases h
      decide +kernel
    · cases h
    · cases h
  have hmarkup : (render sampleSource
      (.object [("xs", .array [.string "<b>", .string "-->"]), ("y", .string "\"")])
      ⟨"hb-repeat", "hb-controller"⟩).toOption.map (·.markup) =
        some "<p>&lt;b&gt; \"</p><p>--&gt; \"</p>" := by decide +kernel
  obtain ⟨r, hr, hshown⟩ := Option.map_eq_some_iff.1 hmarkup
  obtain ⟨st, e, -, -, hread, -, -, hother⟩ :=
    parse_render parse_sampleSource hraw (eq_ok_of_toOption hr)
  exact ⟨hraw, r, eq_ok_of_toOption hr, hshown, e, hread,
    hother (.object [("xs", .array [.string "</p>", .string ""]), ("y", .string "<!--")]) rfl⟩

end Page

end PageTemplate
