/-
**Compiling binds everything or nothing.**

A document that has been read is compiled and rendered again and again, with whatever scopes.  Each link
then stays on both of its sides, even where a scope takes a node for another one that had its slot
before.  So compiling finds the first directive below a node that cannot be read, and if there is none,
it binds all of them, whatever has been bound before.

It looks for them through elements only.  A rendering can put copies below a text node, where this text
node has the slot of an element that had been the place for the copies; a directive there is overlooked.

Main definitions:

* `PageTemplate.Binding.Stage.attempt` — compiling, if it goes well;
* `PageTemplate.Page.Handled` — what a document that has been read is taken through.

Main results:

* `PageTemplate.Page.Handled.linked` — each link stays on both of its sides;
* `PageTemplate.Page.compile_all_or_nothing` — when compiling fails, and what it does otherwise;
* `PageTemplate.Page.compile_overlooks` — a directive that is overlooked.
-/

import PageTemplate.Proofs.Binding.Unskipped
import PageTemplate.Proofs.Page.Installed
import PageTemplate.Proofs.Page.Rendering

set_option relaxedAutoImplicit false
set_option autoImplicit false

namespace PageTemplate

open PageTemplate.Data PageTemplate.Diagnostic PageTemplate.Document

namespace Binding

/-! ### Rendering keeps links -/

theorem linked_fill (slots : Slots) (value : String → Option Value) {d : Document}
    (h : d.Linked []) : (slots.fill value d).Linked [] :=
  List.foldlRecOn _ _ (motive := fun d : Document => d.Linked []) h fun _ hd _ _ =>
    List.foldlRecOn _ _ (motive := fun d : Document => d.Linked []) hd fun _ he i _ =>
      he.setText i _

section Rounds

variable {render : Stage → ScopeId → Stage}

theorem linked_itemRound
    (hrender : ∀ st s, st.document.Linked [] → (render st s).document.Linked [])
    (r : Repeat) (out : Stage × List NodeId) (h : out.1.document.Linked []) (item : Value) :
    (itemRound render r out item).1.document.Linked [] := by
  let busy : Stage := ⟨out.1.document, out.1.scopes.set r.scope r.expression.item item⟩
  have hbusy : busy.document.Linked [] := h
  have hclone : ((render busy r.scope).document.clone r.pattern).1.Linked [] :=
    (hrender busy r.scope hbusy).cloneTo _ r.pattern
  exact hclone.insertBefore r.container _ r.anchor

theorem linked_repeatRound
    (hrender : ∀ st s, st.document.Linked [] → (render st s).document.Linked [])
    (s : ScopeId) (out : Stage × List Repeat) (h : out.1.document.Linked []) (r : Repeat) :
    (repeatRound render s out r).1.document.Linked [] := by
  have hremoved : (r.copies.foldl Document.remove out.1.document).Linked [] :=
    stable_linked.removeAll h r.copies
  simp only [repeatRound, Stage.renderRepeat]
  split
  · exact hremoved
  · next items _ =>
      exact List.foldlRecOn items (itemRound render r)
        (motive := fun out : Stage × List NodeId => out.1.document.Linked []) hremoved
        fun out hout item _ => linked_itemRound hrender r out hout item

end Rounds

/-- Rendering keeps each link on both of its sides, whatever the scopes are. -/
theorem linked_renderTo (fuel : Nat) {st : Stage} (h : st.document.Linked []) (s : ScopeId) :
    (st.renderTo fuel s).document.Linked [] := by
  induction fuel generalizing st s with
  | zero => exact h
  | succ fuel ih =>
      have hdone := List.foldlRecOn (st.scopes.repeats s) (repeatRound (Stage.renderTo fuel) s)
        (b := (st, []))
        (motive := fun out : Stage × List Repeat => out.1.document.Linked []) h
        fun out hout r _ => linked_repeatRound (fun _ x hst => ih hst x) s out hout r
      rw [renderTo_succ_eq]
      exact linked_fill _ _ hdone

namespace Stage

/-- The stage behind a call of `compile`.  A call that fails leaves it as it is. -/
def attempt (mark : String) (st : Stage) (s : ScopeId) (node : NodeId) : Stage :=
  (st.compile mark s node).toOption.getD st

end Stage

end Binding

namespace Page

open PageTemplate.Binding

/-! ### Documents that are compiled and rendered -/

/-- What a document that has been read is taken through: the scopes are changed in any way, parts of
the document are compiled, and scopes are rendered. -/
inductive Handled : Stage → Prop
  | parse {source : String} {d : Document} (h : Document.parse source = .ok d) (f : Scopes) :
      Handled ⟨d, f⟩
  | scopes {st : Stage} (h : Handled st) (f : Scopes) : Handled { st with scopes := f }
  | attempt {st : Stage} (h : Handled st) (mark : String) (s : ScopeId) (node : NodeId) :
      Handled (st.attempt mark s node)
  | render {st : Stage} (h : Handled st) (s : ScopeId) : Handled (st.render s)

variable {st : Stage} {mark : String} {s : ScopeId} {node : NodeId}

/-- **Each link stays on both of its sides.** -/
theorem Handled.linked (h : Handled st) : st.document.Linked [] := by
  induction h with
  | parse h _ => exact (linked_forest_of_parse h).1
  | scopes _ _ ih => exact ih
  | @attempt st _ mark s node ih =>
      rw [Stage.attempt]
      cases hcompile : st.compile mark s node with
      | error err => exact ih
      | ok st' => exact stable_linked.compile hcompile ih
  | render _ s ih => exact linked_renderTo _ ih s

/-- **Compiling fails exactly if a directive below the node cannot be read, with the fault of the first
one in document order, and changes nothing then.**  If it succeeds, it passes over no repeated element.
The directives are those of the elements that are reached through elements, and so of all elements
below the node if nothing but elements has children there. -/
theorem compile_all_or_nothing (h : Handled st) (hfinite : st.document.FiniteBelow node)
    (mark : String) (s : ScopeId) :
    (∀ err, st.compile mark s node = .error err ↔
      ∃ x, (st.document.exposed node).find? (unreadable st.document mark) = some x ∧
        err = .invalidRepeat (directive st.document mark x) (st.document.span? x)) ∧
    (∀ err, st.compile mark s node = .error err → st.attempt mark s node = st) ∧
    (∀ st', st.compile mark s node = .ok st' → st.compile? mark s node = some st') ∧
    ((∀ x, st.document.Below x node → st.document.children x ≠ [] →
        st.document.element? x ≠ none) →
      ∀ err, st.compile mark s node = .error err ↔
        ∃ x, (st.document.elementsWithAttribute node mark).find?
            (fun x => (RepeatExpression.parse? (directive st.document mark x)).isNone) = some x ∧
          err = .invalidRepeat (directive st.document mark x) (st.document.span? x)) := by
  have hfault : ∀ err, st.compile mark s node = .error err ↔
      ∃ x, (st.document.exposed node).find? (unreadable st.document mark) = some x ∧
        err = .invalidRepeat (directive st.document mark x) (st.document.span? x) := by
    intro err
    rw [Stage.compile_eq_error_iff, invalidRepeat?_eq h.linked hfinite, Option.map_eq_some_iff]
    exact exists_congr fun x => and_congr_right fun _ => eq_comm
  refine ⟨hfault, fun err herr => ?_, fun st' hok => compile?_eq h.linked hfinite hok,
    fun hplain err => ?_⟩
  · rw [Stage.attempt, herr]
    rfl
  · rw [hfault, find?_exposed h.linked hfinite hplain]

/-! ### Pages whose directives cannot be read -/

/-- A page with a directive that cannot be read inside another one, and one behind it. -/
def faultySource : String :=
  "<p hb-repeat='x in xs'><b hb-repeat='bad'></b></p><i hb-repeat='worse'></i>"

/-- The same page as a document. -/
def faultyDocument : Document :=
  ⟨#[some ⟨.document, none, [1, 3], none⟩,
    some ⟨.element ⟨"p", [⟨"hb-repeat", some "x in xs"⟩]⟩, some 0, [2],
      some ⟨⟨0, 0, 0⟩, ⟨23, 0, 23⟩⟩⟩,
    some ⟨.element ⟨"b", [⟨"hb-repeat", some "bad"⟩]⟩, some 1, [], some ⟨⟨23, 0, 23⟩, ⟨42, 0, 42⟩⟩⟩,
    some ⟨.element ⟨"i", [⟨"hb-repeat", some "worse"⟩]⟩, some 0, [],
      some ⟨⟨50, 0, 50⟩, ⟨71, 0, 71⟩⟩⟩], []⟩

theorem parse_faultySource : Document.parse faultySource = .ok faultyDocument :=
  eq_ok_of_toOption (by decide +kernel)

theorem compile_all_or_nothing_nested :
    Handled ⟨faultyDocument, (Scopes.empty.newRoot .emptyObject).1⟩ ∧
      faultyDocument.FiniteBelow root ∧
      (⟨faultyDocument, (Scopes.empty.newRoot .emptyObject).1⟩ : Stage).compile "hb-repeat" 0 root =
        .error (.invalidRepeat "bad" (some ⟨⟨23, 0, 23⟩, ⟨42, 0, 42⟩⟩)) := by
  have hhandled : Handled ⟨faultyDocument, (Scopes.empty.newRoot .emptyObject).1⟩ :=
    .parse parse_faultySource _
  obtain ⟨hlinked, hforest⟩ := linked_forest_of_parse parse_faultySource
  have hfinite : faultyDocument.FiniteBelow root := hforest.finiteBelow hlinked root
  obtain ⟨hfault, -⟩ := compile_all_or_nothing hhandled hfinite "hb-repeat" 0
  exact ⟨hhandled, hfinite, (hfault _).2 ⟨2, by decide +kernel, by decide +kernel⟩⟩

/-! ### A directive that is overlooked -/

/-- A repeated element around a text and around an element with two other directives. -/
def straySource : String :=
  "<p hb-repeat='x in xs'><u>t</u><i data-each='y in ys' data-z='bad'></i></p>"

/-- The same page as a document. -/
def strayDocument : Document :=
  ⟨#[some ⟨.document, none, [1], none⟩,
    some ⟨.element ⟨"p", [⟨"hb-repeat", some "x in xs"⟩]⟩, some 0, [2, 4],
      some ⟨⟨0, 0, 0⟩, ⟨23, 0, 23⟩⟩⟩,
    some ⟨.element ⟨"u", []⟩, some 1, [3], some ⟨⟨23, 0, 23⟩, ⟨26, 0, 26⟩⟩⟩,
    some ⟨.text "t", some 2, [], some ⟨⟨26, 0, 26⟩, ⟨27, 0, 27⟩⟩⟩,
    some ⟨.element ⟨"i", [⟨"data-each", some "y in ys"⟩, ⟨"data-z", some "bad"⟩]⟩, some 1, [],
      some ⟨⟨31, 0, 31⟩, ⟨67, 0, 67⟩⟩⟩], []⟩

theorem parse_straySource : Document.parse straySource = .ok strayDocument :=
  eq_ok_of_toOption (by decide +kernel)

/-- The page when it has been compiled to a first scope and rendered, and the copy that this has made
has been compiled to a second scope. -/
def copiedStage : Stage :=
  let st : Stage := ⟨strayDocument, (Scopes.empty.newRoot (.object [("xs", .array [.null])])).1⟩
  let st := (st.attempt "hb-repeat" 0 root).render 0
  let st : Stage := ⟨st.document, (st.scopes.newRoot (.object [("ys", .array [.null])])).1⟩
  st.attempt "data-each" 2 5

/-- The first scope is rendered again, which makes the copy anew, and then the second one. -/
def strayStage : Stage :=
  let st := (copiedStage.render 0).render 2
  ⟨st.document, (st.scopes.newRoot .emptyObject).1⟩

theorem handled_strayStage : Handled strayStage := by
  have hparsed := Handled.parse parse_straySource
    (Scopes.empty.newRoot (.object [("xs", .array [.null])])).1
  have hfirst := (hparsed.attempt "hb-repeat" 0 root).render 0
  have hsecond : Handled copiedStage := (hfirst.scopes _).attempt "data-each" 2 5
  exact ((hsecond.render 0).render 2).scopes _

/-- **A directive that cannot be read is overlooked**, since the second scope has put its copy below a
text node, which has the slot of the element that the copies had been in. -/
theorem compile_overlooks :
    Handled strayStage ∧ (∃ st', strayStage.compile "data-z" 4 6 = .ok st') ∧
      strayStage.document.Below 10 6 ∧
      (strayStage.document.element? 6).isSome ∧ (strayStage.document.text? 5).isSome ∧
      strayStage.document.parent? 10 = some 5 ∧
      strayStage.document.hasAttribute 10 "data-z" = true ∧
      RepeatExpression.parse? (directive strayStage.document "data-z" 10) = none := by
  have hbelow : strayStage.document.parent? 10 = some 5 := by decide +kernel
  have habove : strayStage.document.parent? 5 = some 6 := by decide +kernel
  have hvalid : invalidRepeat? strayStage.document "data-z" 6 = none := by decide +kernel
  have hsucceeds : ∃ st', strayStage.compile "data-z" 4 6 = .ok st' := by
    rw [Stage.compile, hvalid]
    exact ⟨_, rfl⟩
  exact ⟨handled_strayStage, hsucceeds, .tail (.single hbelow) habove, by decide +kernel,
    by decide +kernel, hbelow, by decide +kernel, by decide +kernel⟩

end Page

end PageTemplate
