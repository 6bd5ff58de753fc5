/-
**Checking a page says what rendering it will do.**

A page is checked by compiling it as a whole.  Where rendering does the same, because the page has no
controllers, it has the same outcome.  Where the page has controllers, rendering compiles their elements
one after the other, in a document in which others have been rendered already; if checking found nothing
wrong, none of this can fail but for controllers that are not known.

Main definitions:

* `PageTemplate.Page.unknownElements` — the elements of a page whose controllers are not known.

Main results:

* `PageTemplate.Page.check_of_parse` — what checking says;
* `PageTemplate.Page.renderWhole_of_parse`, `PageTemplate.Page.renderControllers_of_parse` — what rendering
  binds, or why it fails;
* `PageTemplate.Page.check_predicts_render` — checking a page says what rendering it will do.
-/

import PageTemplate.Proofs.Page.Injection
import PageTemplate.Proofs.Page.Summaries

set_option relaxedAutoImplicit false
set_option autoImplicit false

namespace PageTemplate.Page

open PageTemplate.Binding PageTemplate.Data PageTemplate.Diagnostic PageTemplate.Text

/-! ### Elements with controllers -/

/-- The elements of a page whose controllers are not fields of the data, in document order. -/
def unknownElements (o : Options) (data : Value) (d : Document) : List NodeId :=
  (elements o d).filter fun id => ((data.fields?.getD []).get? (nameOf o d id)).isNone

theorem unknownElements_of_holds {o : Options} {d : Document} {cs : List Placed} {span : Option Span}
    {p : Option NodeId} (hheld : d.Holds p (.node Document.root .document span cs))
    (hn : (Placed.node Document.root .document span cs).ids.Nodup) (data : Value) :
    unknownElements o data d = (strays o (data.fields?.getD []) cs).map Placed.id := by
  rw [unknownElements, elements_of_holds hheld hn, List.filter_map, strays]
  congr 1
  refine List.filter_congr fun u hu => ?_
  rw [Function.comp_apply, (of_mem_carrying hheld hn hu).1]

/-! ### What is checked, and what is rendered -/

variable {source : String} {d : Document}

/-- The page as a whole can be compiled exactly if all of its directives can be read, and whatever is done
with the scope, it binds what the page says. -/
theorem compile_root (hparse : Document.parse source = .ok d) (mark : String) (data : Value) :
    match invalidRepeat? d mark Document.root with
    | some e => (⟨d, (Scopes.empty.newRoot data).1⟩ : Stage).compile mark
        (Scopes.empty.newRoot data).2 Document.root = .error e
    | none => ∃ st, (⟨d, (Scopes.empty.newRoot data).1⟩ : Stage).compile mark
        (Scopes.empty.newRoot data).2 Document.root = .ok st ∧ ∀ changes,
          (Change.runAll (Scopes.empty.newRoot data).2 st changes).scopes.summary
            (Scopes.empty.newRoot data).2 = Tree.summaryAll mark (d.subtrees Document.root) := by
  cases hvalid : invalidRepeat? d mark Document.root with
  | some e => exact (Stage.compile_eq_error_iff ..).2 hvalid
  | none =>
      obtain ⟨st, hcompile⟩ : ∃ st, (⟨d, (Scopes.empty.newRoot data).1⟩ : Stage).compile mark
          (Scopes.empty.newRoot data).2 Document.root = .ok st := by
        rw [Stage.compile, hvalid]
        exact ⟨_, rfl⟩
      have hroot : d.contains Document.root = true := (linked_forest_of_parse hparse).2.live
      have hscope := Scopes.empty.get?_newRoot data
      obtain ⟨_, _, _, ts, _, _, hsubtrees, -, hcompiled⟩ :=
        exists_compiled hparse hroot hscope rfl hcompile
      refine ⟨st, hcompile, fun changes => ?_⟩
      rw [hsubtrees]
      exact (hcompiled.binds_run (hcompiled.sees hscope rfl) changes).summary

/-- **What checking a page says.** -/
theorem check_of_parse (hparse : Document.parse source = .ok d) (o : Options) :
    check source o = match invalidRepeat? d o.repeatAttribute Document.root with
      | some e => .error (.bind e)
      | none => .ok (Tree.summaryAll o.repeatAttribute (d.subtrees Document.root)) := by
  have hcompile := compile_root hparse o.repeatAttribute .emptyObject
  simp only [check, hparse]
  split at hcompile
  · rw [hcompile]
  · obtain ⟨st, hok, hsummary⟩ := hcompile
    rw [hok]
    exact congrArg Except.ok (hsummary [])

/-- **What a page that is rendered as a whole binds**, or why it cannot be rendered. -/
theorem renderWhole_of_parse (hparse : Document.parse source = .ok d) (o : Options) (data : Value) :
    (renderWhole o data d).map Prod.snd = match invalidRepeat? d o.repeatAttribute Document.root with
      | some e => .error e
      | none => .ok [Tree.summaryAll o.repeatAttribute (d.subtrees Document.root)] := by
  have hcompile := compile_root hparse o.repeatAttribute data
  simp only [renderWhole]
  split at hcompile
  · rw [hcompile]
    rfl
  · obtain ⟨st, hok, hsummary⟩ := hcompile
    rw [hok]
    exact congrArg (fun S => Except.ok [S]) (hsummary [.render])

/-- **What a page binds whose controllers are mounted**, or which of them is at fault, if all of its
directives can be read. -/
theorem renderControllers_of_parse (hparse : Document.parse source = .ok d) {o : Options}
    (hvalid : invalidRepeat? d o.repeatAttribute Document.root = none) (data : Value) :
    (renderControllers o data d).map Prod.snd = match (unknownElements o data d).getLast? with
      | some id => .error (.unknownController (nameOf o d id) (d.span? id))
      | none => .ok ((elements o d).map fun id =>
          mountSummary o (controllerData (data.fields?.getD [])) (d.subtrees id)) := by
  obtain ⟨cs, hsound, hholds, hcs, hnodup⟩ := Document.parse_holds hparse
  have hread : Tree.ReadableAll o.repeatAttribute (cs.map Placed.tree) :=
    (bindable_iff hcs).1 ((invalidRepeat?_eq_none_iff hcs hholds hnodup).1 hvalid)
  rw [renderControllers, registryOf_eq, unknownElements_of_holds hholds hnodup, List.getLast?_map]
  by_cases hready : Tree.ReadyAll o (fun name => (data.fields?.getD []).get? name ≠ none)
      (cs.map Placed.tree)
  · obtain ⟨mounts, _, hok, -, hbinds⟩ :=
      bootstrap_ready (o := o) .empty [] hsound hholds hnodup hcs hready
    have hsummaries : (mounts.map fun m =>
        ((registryOf o (.object (data.fields?.getD []))).bootstrap ⟨d, .empty⟩ []).stage.scopes.summary
          m.scope) = (elements o d).map fun id =>
            mountSummary o (controllerData (data.fields?.getD [])) (d.subtrees id) := by
      rw [elements_of_holds hholds hnodup, List.map_map]
      refine (map_eq_of_forall₂ hbinds fun m _ u h => h.summary.symm).symm.trans
        (List.map_congr_left fun u hu => ?_)
      rw [Function.comp_apply, (of_mem_carrying hholds hnodup hu).2.2]
    rw [(readyAll_iff hcs hread).1 hready]
    simp only [hok, ← hsummaries]
    rfl
  · obtain ⟨err, herr, hstray⟩ := bootstrap_fails .empty [] hsound hholds hnodup hcs hready
    obtain ⟨u, hu, rfl⟩ := hstray hread
    have hmem := (List.mem_filter.1 (List.mem_of_getLast? hu)).1
    obtain ⟨hname, hspan, -⟩ := of_mem_carrying hholds hnodup hmem
    simp only [herr, hu, Option.map_some, hname, hspan]
    rfl

/-- What a rendered page binds is what its document does. -/
theorem map_summaries_render (hparse : Document.parse source = .ok d) (o : Options) (data : Value) :
    (render source data o).map Rendered.summaries =
      ((renderDocument o data d).map Prod.snd).mapError PageError.bind := by
  unfold render
  simp only [hparse]
  rw [← renderDocument]
  cases renderDocument o data d <;> rfl

/-- **Checking a page says what rendering it will do**, whatever the data are.  What cannot be read is
neither checked nor rendered.  A page without controllers is rendered exactly if it is checked, with the
same fault otherwise, and what it binds is what checking says.  If checking a page with controllers finds
nothing wrong, rendering it fails exactly if some controller is not a field of the data, and then names
the last of these; otherwise there is one summary for each element with a controller. -/
theorem check_predicts_render (source : String) (o : Options) (data : Value) :
    (∀ e, Document.parse source = .error e →
      check source o = .error (.parse e) ∧ render source data o = .error (.parse e)) ∧
    ∀ d, Document.parse source = .ok d →
      (elements o d = [] →
        (render source data o).map Rendered.summaries = (check source o).map fun S => [S]) ∧
      (elements o d ≠ [] → ∀ S, check source o = .ok S →
        (render source data o).map Rendered.summaries =
          match (unknownElements o data d).getLast? with
          | some id => .error (.bind (.unknownController (nameOf o d id) (d.span? id)))
          | none => .ok ((elements o d).map fun id =>
              mountSummary o (controllerData (data.fields?.getD [])) (d.subtrees id))) := by
  refine ⟨fun e he => ?_, fun d hparse => ⟨fun hnone => ?_, fun hsome S hcheck => ?_⟩⟩
  · simp only [check, render, he, and_self]
  · have hdocument : renderDocument o data d = renderWhole o data d := if_pos hnone
    rw [map_summaries_render hparse, hdocument, renderWhole_of_parse hparse, check_of_parse hparse]
    cases invalidRepeat? d o.repeatAttribute Document.root <;> rfl
  · have hdocument : renderDocument o data d = renderControllers o data d := if_neg hsome
    have hvalid : invalidRepeat? d o.repeatAttribute Document.root = none := by
      rw [check_of_parse hparse] at hcheck
      cases h : invalidRepeat? d o.repeatAttribute Document.root with
      | none => rfl
      | some e =>
          rw [h] at hcheck
          cases hcheck
    rw [map_summaries_render hparse, hdocument, renderControllers_of_parse hparse hvalid]
    cases (unknownElements o data d).getLast? <;> rfl

/-- A page with three controllers, one of them in the element of another. -/
def mountedSource : String :=
  "<div c='a'>\x7b\x7b x \x7d\x7d</div><p c='b'><i c='z'>\x7b\x7b y \x7d\x7d</i></p>"

/-- This page is rendered if there are data for each of its controllers, where the outer one finds nothing
left to bind.  Otherwise it fails for the last one without. -/
theorem check_predicts_render_three : ∃ d S summaries, Document.parse mountedSource = .ok d ∧
    elements ⟨"r", "c"⟩ d = [1, 3, 4] ∧ check mountedSource ⟨"r", "c"⟩ = .ok S ∧
    (render mountedSource (.object [("a", .bool true), ("b", .null)]) ⟨"r", "c"⟩).map
        Rendered.summaries =
      .error (.bind (.unknownController "z" (some ⟨⟨33, 0, 33⟩, ⟨42, 0, 42⟩⟩))) ∧
    (render mountedSource (.object [("a", .bool true), ("b", .null), ("z", .object [])])
        ⟨"r", "c"⟩).map Rendered.summaries = .ok summaries ∧
    summaries.map (Summary.outline 0) =
      ["\x7b\x7b x \x7d\x7d\n", "", "\x7b\x7b y \x7d\x7d\n"] := by
  have hpage : (Document.parse mountedSource).toOption.map (fun d => (elements ⟨"r", "c"⟩ d,
      invalidRepeat? d "r" Document.root, nameOf ⟨"r", "c"⟩ d 4, d.span? 4)) =
      some ([1, 3, 4], none, "z", some ⟨⟨33, 0, 33⟩, ⟨42, 0, 42⟩⟩) := by
    decide +kernel
  have hbound : (Document.parse mountedSource).toOption.map (fun d =>
      (unknownElements ⟨"r", "c"⟩ (.object [("a", .bool true), ("b", .null)]) d,
      unknownElements ⟨"r", "c"⟩ (.object [("a", .bool true), ("b", .null), ("z", .object [])]) d,
      (elements ⟨"r", "c"⟩ d).map fun id => (mountSummary ⟨"r", "c"⟩ (controllerData
        [("a", .bool true), ("b", .null), ("z", .object [])]) (d.subtrees id)).outline 0)) =
      some ([4], [], ["\x7b\x7b x \x7d\x7d\n", "", "\x7b\x7b y \x7d\x7d\n"]) := by
    decide +kernel
  obtain ⟨d, hd, hfacts⟩ := Option.map_eq_some_iff.1 hpage
  rw [hd, Option.map_some, Option.some.injEq] at hbound
  simp only [Prod.mk.injEq] at hfacts hbound
  obtain ⟨helements, hvalid, hname, hspan⟩ := hfacts
  obtain ⟨hone, hnone, hshown⟩ := hbound
  have hparse := eq_ok_of_toOption hd
  have hsome : elements ⟨"r", "c"⟩ d ≠ [] := by
    rw [helements]
    simp
  have hcheck := check_of_parse hparse ⟨"r", "c"⟩
  rw [hvalid] at hcheck
  have hfails := ((check_predicts_render mountedSource ⟨"r", "c"⟩
    (.object [("a", .bool true), ("b", .null)])).2 d hparse).2 hsome _ hcheck
  have hrendered := ((check_predicts_render mountedSource ⟨"r", "c"⟩
    (.object [("a", .bool true), ("b", .null), ("z", .object [])])).2 d hparse).2 hsome _ hcheck
  rw [hone] at hfails
  rw [hnone] at hrendered
  refine ⟨d, _, _, hparse, helements, hcheck, ?_, hrendered, ?_⟩
  · rw [hfails, ← hname, ← hspan]
    rfl
  · rw [List.map_map, ← hshown]
    rfl

end PageTemplate.Page
