/-
**Pages that are changed from outside.**

A page that is bound to a scope can be changed from outside between two renderings.  Scopes remember
nodes by the numbers of their slots, and a rendering does not look at what is in such a slot before it
removes it or overwrites its text.  If a copy, or a text node that is a slot, has been removed from
outside, the next new node takes its place, and the next rendering takes the new node for the one that
was there.  This is the only way in which a rendering gets at a node that was made from outside and is
not below a copy: all others are spared, whatever has been done before.

Main definitions:

* `PageTemplate.Binding.Act` — what happens to a bound page;
* `PageTemplate.Binding.Session` — a bound page, with the nodes that were made from outside;
* `PageTemplate.Binding.Tracked` — what is known of these.

Main results:

* `PageTemplate.Binding.Tracked.act`, `PageTemplate.Binding.Tracked.run` — it stays so;
* `PageTemplate.Page.host_nodes_spared` — a rendering spares the nodes that were made from outside,
  but for those in slots that the scopes remember;
* `PageTemplate.Page.render_frees_host_node` — a page where it frees one of these.
-/

import PageTemplate.Proofs.Binding.Enclosure
import PageTemplate.Proofs.Page.Installed

set_option relaxedAutoImplicit false
set_option autoImplicit false

namespace PageTemplate

open PageTemplate.Data PageTemplate.Document

namespace Binding

/-! ### What happens to a bound page -/

/-- One thing that happens to a page that is bound to a scope: an operation from outside, or something
that is done with the scope. -/
inductive Act where
  | host (op : Operation)
  | change (c : Change)

namespace Act

/-- The operations on the document. -/
def operations (s : ScopeId) (st : Stage) : Act → List Operation
  | host op => [op]
  | change .render => st.steps s
  | change _ => []

/-- The stage behind it. -/
def run (s : ScopeId) (st : Stage) : Act → Stage
  | host op => { st with document := op.outcome st.document }
  | change c => c.run s st

/-- The node that is made from outside, if one is. -/
def made (d : Document) : Act → List NodeId
  | host op => ((op.apply d).bind (·.2)).toList.filter (op.outcome d).contains
  | change _ => []

end Act

/-- The slots in which a scope, or one below it, has a copy or a text node of its own. -/
def Scopes.claimed (f : Scopes) (s : ScopeId) : List NodeId :=
  f.fragments s ++ f.slotNodes s

/-- A stage, and the nodes that were made from outside. -/
structure Session where
  stage : Stage
  /-- The nodes that were made from outside and are still there. -/
  made : List NodeId
  /-- Those of them whose slots were claimed when they were made. -/
  taken : List NodeId

namespace Session

/-- Nothing has happened yet. -/
def start (st : Stage) : Session := ⟨st, [], []⟩

/-- One thing happens.  A node is still there if its slot is live all the time. -/
def act (s : ScopeId) (h : Session) (a : Act) : Session :=
  let still := h.stage.document.lasts (a.operations s h.stage)
  let st := a.run s h.stage
  let new := a.made h.stage.document
  { stage := st
    made := h.made.filter still ++ new
    taken := h.taken.filter still ++ new.filter (st.scopes.claimed s).contains }

/-- One thing happens after the other. -/
def run (s : ScopeId) (h : Session) (acts : List Act) : Session :=
  acts.foldl (act s) h

/-- All copying ends, in one act after the other. -/
def Ends (s : ScopeId) : Session → List Act → Prop
  | _, [] => True
  | h, a :: acts => h.stage.document.Ends (a.operations s h.stage) ∧ Ends s (h.act s a) acts

theorem ends_append {s : ScopeId} {h : Session} {acts acts' : List Act} :
    Ends s h (acts ++ acts') ↔ Ends s h acts ∧ Ends s (h.run s acts) acts' := by
  induction acts generalizing h with
  | nil => exact (and_iff_right trivial).symm
  | cons a acts ih =>
      rw [List.cons_append, Ends, Ends, ih, and_assoc]
      rfl

end Session

/-! ### Nodes that were made from outside -/

/-- The nodes that were made from outside are there, and none of those that took a free slot is in one
that is claimed. -/
structure Tracked (h : Session) (s : ScopeId) : Prop where
  linked : h.stage.document.Linked []
  ranked : h.stage.scopes.Ranked s
  live : ∀ x ∈ h.made, h.stage.document.contains x = true
  apart : ∀ x ∈ h.made, x ∉ h.taken → x ∉ h.stage.scopes.claimed s

/-- What an act does to the document are its operations.  No slot is claimed behind it that was not
claimed before, but for those that were free on the way. -/
structure Act.Traced (s : ScopeId) (st : Stage) (a : Act) : Prop where
  document : st.document.performAll (a.operations s st) = (a.run s st).document
  linked : (a.run s st).document.Linked []
  ranked : (a.run s st).scopes.Ranked s
  claimed : ∀ x ∈ (a.run s st).scopes.claimed s, x ∉ st.scopes.claimed s →
    st.document.lasts (a.operations s st) x = false

variable {st : Stage} {s : ScopeId}

/-- An operation from outside does not change what is claimed. -/
theorem Act.traced_host (hlinked : st.document.Linked []) (hranked : st.scopes.Ranked s)
    (op : Operation) : (Act.host op).Traced s st where
  document := rfl
  linked := by
    show (op.outcome st.document).Linked []
    rw [Operation.outcome]
    cases happly : op.apply st.document with
    | none => exact hlinked
    | some result => exact hlinked.apply happly
  ranked := hranked
  claimed x hx hnew := absurd hx hnew

/-- Confined scopes claim no slots but those that they are confined to. -/
theorem Scopes.Confined.claimed_subset {f : Scopes} {W : ScopeId → Prop} {sites : List Site}
    {writes listed : List NodeId} (h : f.Confined W sites writes listed) (hs : W s) :
    f.claimed s ⊆ listed ++ writes :=
  List.append_subset.2
    ⟨List.Subset.trans (h.fragments_subset hs) (List.subset_append_left _ _),
      List.Subset.trans (h.slotNodes_subset hs) (List.subset_append_right _ _)⟩

/-- New data do not change what is claimed. -/
theorem Act.traced_update {c : Change} {k : Scope → Scope}
    (hrun : c.run s st = { st with scopes := st.scopes.update s k })
    (hoperations : (Act.change c).operations s st = []) (hlinked : st.document.Linked [])
    (hranked : st.scopes.Ranked s)
    (hk : ∀ sc, (k sc).slots = sc.slots ∧ (k sc).repeats = sc.repeats) :
    (Act.change c).Traced s st := by
  have hconfined := hranked.confined.update s (fun sc => (hk sc).1) fun sc hsc hs r hr => by
    refine hranked.confined.repeats s hs r ?_
    rw [Scopes.repeats, hsc]
    rwa [(hk sc).2] at hr
  have hstage : (Act.change c).run s st = { st with scopes := st.scopes.update s k } := hrun
  refine ⟨?document, ?linked, ?ranked, ?claimed⟩
  case document =>
    rw [hoperations, hstage]
    rfl
  case linked =>
    rw [hstage]
    exact hlinked
  case ranked =>
    rw [hstage]
    exact hconfined.ranked hranked.self
  case claimed =>
    intro x hx hnew
    rw [hstage] at hx
    exact absurd (hconfined.claimed_subset hranked.self hx) hnew

/-- A rendering claims the slots of its copies, which were free. -/
theorem Act.traced_render (hlinked : st.document.Linked []) (hranked : st.scopes.Ranked s)
    (hends : st.document.Ends (st.steps s)) : (Act.change .render).Traced s st := by
  obtain ⟨listed, hmoves, hranked', hfragments, hslots, -⟩ := hranked.render
  obtain ⟨-, hlinked', -⟩ := hmoves.spares hlinked hends (hlinked.shelter _)
  refine ⟨hmoves.performAll_eq, hlinked', hranked', fun x hx hnew => ?_⟩
  rw [Scopes.claimed, List.mem_append, not_or] at hnew
  rcases List.mem_append.1 hx with hx | hx
  · exact hmoves.lasts_of_listed hlinked (hfragments hx) hnew.1
  · exact absurd (hslots hx) hnew.2

/-- **Whatever happens is traced.** -/
theorem Act.traced (hlinked : st.document.Linked []) (hranked : st.scopes.Ranked s) (a : Act)
    (hends : st.document.Ends (a.operations s st)) : a.Traced s st := by
  cases a with
  | host op => exact traced_host hlinked hranked op
  | change c =>
      cases c with
      | set name v =>
          refine traced_update rfl rfl hlinked hranked fun sc => ?_
          split <;> exact ⟨rfl, rfl⟩
      | setData data => exact traced_update rfl rfl hlinked hranked fun sc => ⟨rfl, rfl⟩
      | render => exact traced_render hlinked hranked hends

/-- A node that is made from outside is there. -/
theorem Act.contains_made {a : Act} {x : NodeId} (hx : x ∈ a.made st.document) :
    (a.run s st).document.contains x = true := by
  cases a with
  | host op => exact (List.mem_filter.1 hx).2
  | change c => cases hx

variable {h : Session}

/-- **What is known of the nodes stays so**, whatever happens. -/
theorem Tracked.act (ht : Tracked h s) (a : Act)
    (hends : h.stage.document.Ends (a.operations s h.stage)) : Tracked (h.act s a) s := by
  have htraced := a.traced ht.linked ht.ranked hends
  refine ⟨htraced.linked, htraced.ranked, fun x hx => ?_, fun x hx hfree hclaimed => ?_⟩
  · rcases List.mem_append.1 hx with hx | hx
    · have hlasts := lasts_iff.1 (List.mem_filter.1 hx).2 _ (performAll_mem_passes _ _)
      rwa [htraced.document] at hlasts
    · exact Act.contains_made hx
  · rcases List.mem_append.1 hx with hx | hx
    · obtain ⟨hmade, hlasts⟩ := List.mem_filter.1 hx
      have htaken : x ∉ h.taken := fun hmem =>
        hfree (List.mem_append_left _ (List.mem_filter.2 ⟨hmem, hlasts⟩))
      -- the slot was live all the time, so nothing has claimed it since
      rw [htraced.claimed x hclaimed (ht.apart x hmade htaken)] at hlasts
      cases hlasts
    · refine hfree (List.mem_append_right _ (List.mem_filter.2 ⟨hx, ?_⟩))
      exact List.contains_iff_mem.2 hclaimed

/-- **So it is after whatever has happened.** -/
theorem Tracked.run (ht : Tracked h s) (acts : List Act) (hends : Session.Ends s h acts) :
    Tracked (h.run s acts) s := by
  induction acts generalizing h with
  | nil => exact ht
  | cons a acts ih => exact ih (ht.act a hends.1) hends.2

/-- At the start there are no nodes that were made from outside. -/
theorem tracked_compile {mark : String} {st' : Stage} {node : NodeId}
    (hlinked : st.document.Linked []) (hs : st.scopes.contains s = true)
    (hcompile : st.compile mark s node = .ok st') : Tracked (.start st') s where
  linked := stable_linked.compile hcompile hlinked
  ranked := Stage.ranked_compile hcompile hs
  live x hx := by cases hx
  apart x hx := by cases hx

/-- **A rendering spares a node that was made from outside**, unless its slot is claimed or it is below
a copy. -/
theorem Tracked.spared (ht : Tracked h s)
    (hends : h.stage.document.Ends (h.stage.steps s)) {x : NodeId} (hmade : x ∈ h.made)
    (hfree : x ∉ h.taken)
    (hout : ∀ c ∈ h.stage.scopes.fragments s, ¬h.stage.document.Below x c) {e : Document}
    (he : e ∈ h.stage.document.passes (h.stage.steps s)) : Spared [] h.stage.document e x := by
  have hapart := ht.apart x hmade hfree
  rw [Scopes.claimed, List.mem_append, not_or] at hapart
  obtain ⟨listed, hmoves, -⟩ := ht.ranked.render
  obtain ⟨hspared, -⟩ := hmoves.spares ht.linked hends (ht.linked.shelter _)
  have hx := hspared e he x ⟨ht.live x hmade, fun c hc hup => ?_⟩
  · exact ⟨hx.outline, fun _ => hx.kind hapart.2⟩
  · rcases Relation.reflTransGen_iff_eq_or_transGen.1 hup with rfl | hbelow
    · exact hapart.1 hc
    · exact hout c hc hbelow

theorem Stage.mem_copies {x : NodeId} :
    x ∈ (st.copies s).flatten ↔ ∃ r ∈ st.scopes.repeats s, x ∈ r.copies := by
  rw [Stage.copies, ← List.flatMap_def, List.mem_flatMap]

/-- **A rendering frees whatever is in the slots of its copies.** -/
theorem Tracked.lasts_copies (ht : Tracked h s) {x : NodeId} (hroot : x ≠ root)
    (hx : x ∈ (h.stage.copies s).flatten) :
    h.stage.document.lasts (h.stage.steps s) x = false := by
  obtain ⟨r, hr, hx⟩ := Stage.mem_copies.1 hx
  exact lasts_of_remove hroot (Stage.remove_mem_steps (ht.ranked.lt s ht.ranked.self) hr hx)

/-- The copies of a scope are claimed. -/
theorem Tracked.copies_claimed (ht : Tracked h s) {x : NodeId}
    (hx : x ∈ (h.stage.copies s).flatten) : x ∈ h.stage.scopes.claimed s := by
  obtain ⟨r, hr, hx⟩ := Stage.mem_copies.1 hx
  refine List.mem_append_left _ (Scopes.mem_fragments.2 ⟨r, ?_, hx⟩)
  exact Scopes.mem_directives.2 ⟨s, ht.ranked.self, hr⟩

end Binding

namespace Page

open PageTemplate.Binding

/-- **A rendering spares the nodes that were made from outside, but for those in claimed slots.**  A
part of a document has been compiled to a scope, and the document may then be changed from outside,
and things be done with the scope, in any order, as long as all copying ends.  Of the nodes made from
outside that are there when the scope is rendered next, and that are not below a copy, all stay as
they are, in all documents on the way, except those that took a slot where the scopes have a copy or a
text node.  Those that are in the slot of a copy of the scope are such nodes, and are freed. -/
theorem host_nodes_spared {mark : String} {st st' : Stage} {s : ScopeId} {node : NodeId}
    (hlinked : st.document.Linked []) (hs : st.scopes.contains s = true)
    (hcompile : st.compile mark s node = .ok st') (acts : List Act)
    (hends : Session.Ends s (.start st') (acts ++ [.change .render])) :
    let h := Session.run s (.start st') acts
    let d := h.stage.document
    d.performAll (h.stage.steps s) = (h.stage.render s).document ∧
      (∀ x ∈ h.made, d.contains x = true ∧
        (x ∉ h.taken → (∀ c ∈ h.stage.scopes.fragments s, ¬d.Below x c) →
          ∀ e ∈ d.passes (h.stage.steps s), Spared [] d e x)) ∧
      ∀ x ∈ h.made, x ≠ root → x ∈ (h.stage.copies s).flatten →
        x ∈ h.taken ∧ d.lasts (h.stage.steps s) x = false := by
  intro h d
  obtain ⟨hacts, hrender⟩ := Session.ends_append.1 hends
  have ht : Tracked h s := (tracked_compile hlinked hs hcompile).run acts hacts
  have htraced := (Act.change .render).traced ht.linked ht.ranked hrender.1
  refine ⟨htraced.document, fun x hx => ⟨ht.live x hx, fun hfree hout e he => ?_⟩,
    fun x hx hroot hcopy => ⟨?_, ht.lasts_copies hroot hcopy⟩⟩
  · exact ht.spared hrender.1 hx hfree hout he
  · by_contra hfree
    exact ht.apart x hx hfree (ht.copies_claimed hcopy)

/-! ### A page that is changed from outside -/

/-- Below a node without a parent, a node is below no other one. -/
theorem not_below_of_top {d : Document} {x p c : NodeId} (hx : d.parent? x = some p)
    (hp : d.parent? p = none) (hc : c ≠ p) : ¬d.Below x c := by
  intro h
  obtain ⟨q, hq, hup⟩ := Relation.TransGen.head'_iff.1 h
  rw [Document.ChildOf, hx, Option.some.injEq] at hq
  rcases Relation.reflTransGen_iff_eq_or_transGen.1 hup with rfl | hbelow
  · exact hc hq.symm
  · rw [← hq] at hbelow
    exact not_below_of_loose hp hbelow

/-- A repeated element before a text with a placeholder. -/
def sharedSource : String :=
  "<p hb-repeat='x in xs'></p>\x7b\x7b y \x7d\x7d"

/-- The same page as a document. -/
def sharedDocument : Document :=
  ⟨#[some ⟨.document, none, [1, 2], none⟩,
    some ⟨.element ⟨"p", [⟨"hb-repeat", some "x in xs"⟩]⟩, some 0, [],
      some ⟨⟨0, 0, 0⟩, ⟨23, 0, 23⟩⟩⟩,
    some ⟨.text "\x7b\x7b y \x7d\x7d", some 0, [], some ⟨⟨27, 0, 27⟩, ⟨34, 0, 34⟩⟩⟩], []⟩

theorem parse_sharedSource : Document.parse sharedSource = .ok sharedDocument :=
  eq_ok_of_toOption (by decide +kernel)

/-- Data with one item. -/
def sharedData : Value :=
  .object [("xs", .array [.string "a"]), ("y", .string "v")]

/-- The page when it has been compiled to a new scope. -/
def sharedStage : Stage :=
  ⟨⟨#[some ⟨.document, none, [2], none⟩,
      some ⟨.element ⟨"p", []⟩, none, [], some ⟨⟨0, 0, 0⟩, ⟨23, 0, 23⟩⟩⟩,
      some ⟨.text "", some 0, [], some ⟨⟨27, 0, 27⟩, ⟨34, 0, 34⟩⟩⟩], []⟩,
    ⟨#[some ⟨sharedData, none, [1], ⟨[("y", [2])]⟩, [⟨⟨"x", "xs"⟩, 1, 1, 0, some 2, []⟩]⟩,
      some ⟨.object [], some 0, [], .empty, []⟩], [0]⟩⟩

theorem compile_sharedDocument :
    (⟨sharedDocument, (Scopes.empty.newRoot sharedData).1⟩ : Stage).compile "hb-repeat" 0 root =
      .ok sharedStage := by
  -- when the element has been taken out, the text is still to be cut
  let d := sharedStage.document.setText 2 "\x7b\x7b y \x7d\x7d"
  have hextract : extract d root = (sharedStage.document, ⟨[("y", [2])]⟩) := by decide +kernel
  have hvalid : invalidRepeat? sharedDocument "hb-repeat" root = none := by decide +kernel
  rw [Stage.compile, hvalid]
  show Except.ok (⟨(extract d root).1, sharedStage.scopes.update 0 fun scope =>
    { scope with slots := (extract d root).2 }⟩ : Stage) = _
  rw [hextract]
  rfl

theorem steps_sharedStage :
    sharedStage.steps 0 = [.clone 1, .insertBefore 0 3 (some 2), .setText 2 "v"] := rfl

/-- The first rendering of the page copies an element without children. -/
theorem ends_sharedStage : sharedStage.document.Ends (sharedStage.steps 0) := by
  rw [steps_sharedStage]
  exact ⟨finiteBelow_of_childless rfl, trivial, trivial, trivial⟩

/-- The page is rendered, and a new text is put behind it. -/
def extending : List Act :=
  [.change .render, .host (.createText "t"), .host (.append root 4)]

theorem ends_extending :
    Session.Ends 0 (.start sharedStage) (extending ++ [.change .render]) := by
  have hsteps : (Session.run 0 (.start sharedStage) extending).stage.steps 0 =
      [.remove 3, .clone 1, .insertBefore 0 3 (some 2), .setText 2 "v"] := rfl
  refine Session.ends_append.2
    ⟨⟨ends_sharedStage, ⟨trivial, trivial⟩, ⟨trivial, trivial⟩, trivial⟩, ?_, trivial⟩
  show Document.Ends _ (Stage.steps _ 0)
  rw [hsteps]
  exact ⟨trivial, finiteBelow_of_childless rfl, trivial, trivial, trivial⟩

theorem host_nodes_spared_extended :
    let h := Session.run 0 (.start sharedStage) extending
    let d := h.stage.document
    sharedDocument.Linked [] ∧ (Scopes.empty.newRoot sharedData).1.contains 0 = true ∧
      (⟨sharedDocument, (Scopes.empty.newRoot sharedData).1⟩ : Stage).compile "hb-repeat" 0 root =
        .ok sharedStage ∧
      Session.Ends 0 (.start sharedStage) (extending ++ [.change .render]) ∧
      4 ∈ h.made ∧ 4 ∉ h.taken ∧ (∀ c ∈ h.stage.scopes.fragments 0, ¬d.Below 4 c) ∧
      d.performAll (h.stage.steps 0) = (h.stage.render 0).document ∧
      ∀ e ∈ d.passes (h.stage.steps 0), Spared [] d e 4 := by
  have hlinked : sharedDocument.Linked [] := (linked_forest_of_parse parse_sharedSource).1
  have hmade : (Session.run 0 (.start sharedStage) extending).made = [4] := rfl
  have htaken : (Session.run 0 (.start sharedStage) extending).taken = [] := rfl
  have hfragments : (Session.run 0 (.start sharedStage) extending).stage.scopes.fragments 0 = [3] := rfl
  have hparent : (Session.run 0 (.start sharedStage) extending).stage.document.parent? 4 =
      some root := rfl
  have htop : (Session.run 0 (.start sharedStage) extending).stage.document.parent? root = none := rfl
  obtain ⟨hperform, hspared, -⟩ :=
    host_nodes_spared hlinked rfl compile_sharedDocument extending ends_extending
  have hout : ∀ c ∈ (Session.run 0 (.start sharedStage) extending).stage.scopes.fragments 0,
      ¬(Session.run 0 (.start sharedStage) extending).stage.document.Below 4 c := by
    intro c hc
    rw [hfragments, List.mem_singleton] at hc
    rw [hc]
    exact not_below_of_top hparent htop (by decide)
  have hfree : 4 ∉ (Session.run 0 (.start sharedStage) extending).taken := by
    rw [htaken]
    exact List.not_mem_nil
  have hmem : 4 ∈ (Session.run 0 (.start sharedStage) extending).made := by
    rw [hmade]
    exact List.mem_singleton_self 4
  exact ⟨hlinked, rfl, compile_sharedDocument, ends_extending, hmem, hfree, hout, hperform,
    (hspared 4 hmem).2 hfree hout⟩

/-- The page is rendered, its copy and its text are removed, and a new text and a new element, which
take their slots, are put behind it. -/
def replacing : List Act :=
  [.change .render, .host (.remove 3), .host (.remove 2), .host (.createText "t"),
    .host (.createElement ⟨"b", []⟩), .host (.append root 2), .host (.append root 3)]

theorem ends_replacing :
    Session.Ends 0 (.start sharedStage) (replacing ++ [.change .render]) := by
  have hsteps : (Session.run 0 (.start sharedStage) replacing).stage.steps 0 =
      [.remove 3, .clone 1, .insertBefore 0 3 (some 2), .setText 2 "v"] := rfl
  refine Session.ends_append.2 ⟨⟨ends_sharedStage, ⟨trivial, trivial⟩, ⟨trivial, trivial⟩,
    ⟨trivial, trivial⟩, ⟨trivial, trivial⟩, ⟨trivial, trivial⟩, ⟨trivial, trivial⟩, trivial⟩, ?_,
    trivial⟩
  show Document.Ends _ (Stage.steps _ 0)
  rw [hsteps]
  exact ⟨trivial, finiteBelow_of_childless rfl, trivial, trivial, trivial⟩

/-- **A rendering frees an element and overwrites a text that were made from outside**, since they have
taken the slots of a copy and of a text node of the scope. -/
theorem render_frees_host_node :
    let h := Session.run 0 (.start sharedStage) replacing
    let d := h.stage.document
    Document.parse sharedSource = .ok sharedDocument ∧
      (⟨sharedDocument, (Scopes.empty.newRoot sharedData).1⟩ : Stage).compile "hb-repeat" 0 root =
        .ok sharedStage ∧
      Session.Ends 0 (.start sharedStage) (replacing ++ [.change .render]) ∧
      h.made = [2, 3] ∧ (∀ x ∈ h.made, d.parent? x = some root) ∧ d.parent? root = none ∧
      (∀ x ∈ h.made, ∀ c ∈ h.stage.scopes.fragments 0, ¬d.Below x c) ∧
      d.element? 3 = some ⟨"b", []⟩ ∧ d.lasts (h.stage.steps 0) 3 = false ∧
      d.text? 2 = some "t" ∧ d.lasts (h.stage.steps 0) 2 = true ∧
      (h.stage.render 0).document.text? 2 = some "v" ∧
      d.innerMarkup root = "t<b></b>" ∧
      (h.stage.render 0).document.innerMarkup root = "<p></p>v" := by
  have hmade : (Session.run 0 (.start sharedStage) replacing).made = [2, 3] := rfl
  have hfragments : (Session.run 0 (.start sharedStage) replacing).stage.scopes.fragments 0 = [3] := rfl
  have hparent : ∀ x ∈ (Session.run 0 (.start sharedStage) replacing).made,
      (Session.run 0 (.start sharedStage) replacing).stage.document.parent? x = some root := by
    rw [hmade]
    decide +kernel
  have htop : (Session.run 0 (.start sharedStage) replacing).stage.document.parent? root = none := rfl
  refine ⟨parse_sharedSource, compile_sharedDocument, ends_replacing, hmade, hparent, htop,
    fun x hx c hc => ?_, by decide +kernel, by decide +kernel, by decide +kernel, by decide +kernel,
    by decide +kernel, by decide +kernel, by decide +kernel⟩
  rw [hfragments, List.mem_singleton] at hc
  rw [hc]
  exact not_below_of_top (hparent x hx) htop (by decide)

end Page

end PageTemplate
