/-
**Rendering a page shows what the page means.**

A page without controllers is bound to its data as a whole.  Nothing can go wrong if its repeat
directives can be read, and what comes out is the markup of the meaning of its tree, where the data are
the whole environment.

Main results:

* `PageTemplate.Binding.bindable_of_carriers` — trees are bindable if each directive can be read;
* `PageTemplate.Binding.Ground.compile_newRoot` — a part of a document is bound to a new scope;
* `PageTemplate.Binding.Redone.markup` — the markup of a document that has been rendered;
* `PageTemplate.Page.render_means` — rendering a page shows what the page means.
-/

import PageTemplate.Page
import PageTemplate.Proofs.Binding.Compiling
import PageTemplate.Proofs.Binding.Rendering
import PageTemplate.Proofs.Document.Walking

set_option relaxedAutoImplicit false
set_option autoImplicit false

namespace PageTemplate

open PageTemplate.Data PageTemplate.Markup PageTemplate.Text

namespace Binding

/-! ### Pages that can be bound -/

/-- **Proper trees are bindable if each of their directives can be read.** -/
theorem bindable_of_carriers {mark : String} {d : Document} {p : Option NodeId} {ts : List Placed}
    (hts : ∀ t ∈ ts, t.Proper ∧ d.Holds p t)
    (h : ∀ i ∈ ts.flatMap (Placed.carriers mark),
      RepeatExpression.parse? (directive d mark i) ≠ none) : Bindable mark ts := by
  induction ts using Placed.forest_induction generalizing p with
  | nil => exact .nil
  | cons id kind span cs ts ihcs ihts =>
      obtain ⟨hproper, hheld⟩ := hts _ (List.mem_cons_self ..)
      rw [List.flatMap_cons, Placed.carriers_node] at h
      have hrest := ihts (fun t ht => hts t (List.mem_cons_of_mem _ ht))
        fun i hi => h i (List.mem_append_right _ hi)
      cases hproper with
      | text => exact .leaf id span rfl hrest
      | comment => exact .leaf id span rfl hrest
      | doctype => exact .leaf id span rfl hrest
      | element _ e _ hcs =>
          have hchildren := ihcs (fun c hc => ⟨hcs c hc, hheld.child hc⟩)
            fun i hi => h i (List.mem_append_left _ (List.mem_append_right _ hi))
          by_cases he : e.hasAttribute mark = true
          · have hself := h id (by simp [NodeKind.carries, NodeKind.element?, he])
            have hdirective : directive d mark id = (e.attribute? mark).getD "" := by
              have helement : d.element? id = some e := hheld.element?
              rw [directive, Document.attribute?, helement, Option.bind_some]
            obtain ⟨x, hx⟩ := Option.ne_none_iff_exists'.1 (hdirective ▸ hself)
            exact .marked id span (repeat?_of_parse? he hx) hchildren hrest
          · exact .plain id span (by simpa using he) hchildren hrest

/-! ### A new scope -/

theorem Scopes.get?_newRoot (f : Scopes) (data : Value) :
    (f.newRoot data).1.get? (f.newRoot data).2 = some (Scope.fresh data none) := by
  simp [Scopes.newRoot, Scopes.get?]

/-- A compiled scope sees its own data. -/
theorem Compiled.sees {mark : String} {st st' : Stage} {p : Option NodeId} {s : ScopeId}
    {id : NodeId} {kind : NodeKind} {span : Option Span} {ts : List Placed} {items : List Mold}
    {ys : List NodeId} {sc : Scope} (h : Compiled mark st st' p s id kind span ts items ys)
    (hsc : st.scopes.get? s = some sc) (hparent : sc.parent = none) :
    st'.scopes.Sees s [sc.data] := by
  obtain ⟨sc', hsc', hdata, hparent'⟩ := h.grows.own sc hsc
  rw [← hdata]
  exact .top hsc' (hparent'.trans hparent)

/-- **A bindable part of a document is bound to a new scope**, which sees the data. -/
theorem Ground.compile_newRoot {mark : String} {d : Document} {p : Option NodeId} {id : NodeId}
    {kind : NodeKind} {span : Option Span} {ts : List Placed}
    (h : Ground mark d p id kind span ts) (f : Scopes) (data : Value) :
    ∃ st items ys,
      (⟨d, (f.newRoot data).1⟩ : Stage).compile mark (f.newRoot data).2 id = .ok st ∧
      Compiled mark ⟨d, (f.newRoot data).1⟩ st p (f.newRoot data).2 id kind span ts items ys ∧
      st.scopes.Sees (f.newRoot data).2 [data.objectOrEmpty] := by
  have hscope := f.get?_newRoot data
  have hground : Ground mark (⟨d, (f.newRoot data).1⟩ : Stage).document p id kind span ts := h
  obtain ⟨st, items, ys, hok, hcompiled⟩ := hground.compile hscope rfl
  exact ⟨st, items, ys, hok, hcompiled, hcompiled.sees hscope rfl⟩

/-- **The markup of a document whose document node has been rendered.** -/
theorem Redone.markup {st st' : Stage} {s : ScopeId} {items : List Mold} {span : Option Span}
    {xs ys : List NodeId} {env : Env}
    (h : Redone st st' none s (.still Document.root .document span items) xs ys env) :
    st'.document.markup = String.ofList (Tree.markupAll false (Mold.shownAll env items)) := by
  obtain ⟨text, copies, hfilled⟩ := h.filled _ _ _ _ rfl
  rw [hfilled.holds.markup hfilled.nodup, hfilled.map_tree (List.mem_cons_self ..)]

end Binding

namespace Page

open PageTemplate.Binding

/-! ### Rendering -/

/-- **Rendering a page shows what the page means.**  The page has no controllers, and each of its
repeat directives can be read. -/
theorem render_means (source : String) (data : Value) (options : Options) {d : Document}
    (hparse : Document.parse source = .ok d)
    (hcontrollers : d.elementsWithAttribute Document.root options.controllerAttribute = [])
    (hrepeats : ∀ i ∈ d.elementsWithAttribute Document.root options.repeatAttribute,
      RepeatExpression.parse? (directive d options.repeatAttribute i) ≠ none) :
    ∃ r, render source data options = .ok r ∧ r.markup = String.ofList (Tree.markupAll false
      (Tree.renderedAll options.repeatAttribute [data.objectOrEmpty]
        (d.subtrees Document.root))) := by
  obtain ⟨cs, hsound, hholds, hproper, hnodup⟩ := Document.parse_holds hparse
  have hcarriers := hholds.elementsWithAttribute hnodup options.repeatAttribute
  have hbindable : Bindable options.repeatAttribute cs :=
    bindable_of_carriers (fun c hc => ⟨hproper c hc, hholds.child hc⟩) (hcarriers ▸ hrepeats)
  have hground : Ground options.repeatAttribute d none Document.root .document none cs :=
    ⟨hsound, hholds, hnodup, hbindable⟩
  obtain ⟨st, items, ys, hok, hcompiled, hsees⟩ := hground.compile_newRoot .empty data
  obtain ⟨zs, hredone⟩ := hcompiled.settled.render hcompiled.sound hsees
  refine ⟨⟨(st.render (Scopes.empty.newRoot data).2).document.markup,
    [(st.render (Scopes.empty.newRoot data).2).scopes.summary (Scopes.empty.newRoot data).2]⟩, ?_, ?_⟩
  · have hwhole : renderWhole options data d = .ok (st.render (Scopes.empty.newRoot data).2,
        [(st.render (Scopes.empty.newRoot data).2).scopes.summary
          (Scopes.empty.newRoot data).2]) := by
      simp only [renderWhole, hok]
    simp only [render, hparse, hcontrollers, ↓reduceIte, hwhole]
  · have hsubtrees : d.subtrees Document.root = cs.map Placed.tree := hholds.subtrees hnodup
    rw [hredone.markup, hcompiled.shownAll, hsubtrees, Tree.markupAll_expandAll_split]

theorem eq_ok_of_toOption {ε α : Type} {x : Except ε α} {a : α} (h : x.toOption = some a) :
    x = .ok a := by
  cases x with
  | error e => cases h
  | ok b =>
      cases h
      rfl

/-- A page that repeats an element. -/
def sampleSource : String := "<p hb-repeat='x in xs'>\x7b\x7b x \x7d\x7d \x7b\x7b y \x7d\x7d</p>"

/-- The same page as a document. -/
def sampleDocument : Document :=
  ⟨#[some ⟨.document, none, [1], none⟩,
    some ⟨.element ⟨"p", [⟨"hb-repeat", some "x in xs"⟩]⟩, some 0, [2],
      some ⟨⟨0, 0, 0⟩, ⟨23, 0, 23⟩⟩⟩,
    some ⟨.text "\x7b\x7b x \x7d\x7d \x7b\x7b y \x7d\x7d", some 1, [],
      some ⟨⟨23, 0, 23⟩, ⟨38, 0, 38⟩⟩⟩], []⟩

theorem parse_sampleSource : Document.parse sampleSource = .ok sampleDocument :=
  eq_ok_of_toOption (by decide +kernel)

theorem render_means_two_items :
    sampleDocument.elementsWithAttribute Document.root "hb-controller" = [] ∧
      (∀ i ∈ sampleDocument.elementsWithAttribute Document.root "hb-repeat",
        RepeatExpression.parse? (directive sampleDocument "hb-repeat" i) ≠ none) ∧
      ∃ r, render sampleSource
        (.object [("xs", .array [.string "a", .string "<"]), ("y", .bool true)])
        ⟨"hb-repeat", "hb-controller"⟩ = .ok r ∧ r.markup = "<p>a true</p><p>&lt; true</p>" := by
  have hcontrollers :
      sampleDocument.elementsWithAttribute Document.root "hb-controller" = [] := by decide +kernel
  have hrepeats : ∀ i ∈ sampleDocument.elementsWithAttribute Document.root "hb-repeat",
      RepeatExpression.parse? (directive sampleDocument "hb-repeat" i) ≠ none := by decide +kernel
  obtain ⟨r, hok, hmarkup⟩ := render_means sampleSource
    (.object [("xs", .array [.string "a", .string "<"]), ("y", .bool true)])
    ⟨"hb-repeat", "hb-controller"⟩ parse_sampleSource hcontrollers hrepeats
  refine ⟨hcontrollers, hrepeats, r, hok, hmarkup.trans ?_⟩
  decide +kernel

end Page

end PageTemplate
