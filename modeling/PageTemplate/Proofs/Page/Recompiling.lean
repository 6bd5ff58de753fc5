/-
**A scope that is compiled again and again.**

A document has been read, and scopes are made, changed, compiled with it, rendered and let go.  Beside this
it is recorded which children have been made by hand.  Whatever happens, and whether compiling succeeds or
fails, a scope has these children and one for each of its directives.  When it is compiled again, the old
copies are freed first, with all that is below them; the scopes of the old directives are not among its
children any more, and the children that have been made by hand still are.

A directive is never about the document node: its element is a child, so its copies are new nodes.
Otherwise a copy could be there that removing does not free.

Main definitions:

* `PageTemplate.Page.History` — what happens to scopes, with a record of the children made by hand;
* `PageTemplate.Binding.Scopes.Unrooted` — no directive is about the document node.

Main results:

* `PageTemplate.Binding.unrooted_compileTo`, `PageTemplate.Binding.Scopes.Unrooted.render` — compiling
  and rendering keep directives away from the document node;
* `PageTemplate.Page.History.kept` — what is always the case;
* `PageTemplate.Page.children_owned` — the children of a scope, and what compiling it again does to them.
-/

import PageTemplate.Proofs.Binding.Ownership
import PageTemplate.Proofs.Document.Rooted
import PageTemplate.Proofs.Page.Histories

set_option relaxedAutoImplicit false
set_option autoImplicit false

namespace PageTemplate

open PageTemplate.Data PageTemplate.Document

namespace Binding

variable {d : Document} {f g : Scopes} {s x : ScopeId} {mark : String}
  {made : ScopeId → List ScopeId}

/-! ### Directives and the document node -/

theorem stable_rooted : Stable Rooted where
  setText _ id text h := h.setText id text
  divide _ id head tail h := h.divide id head tail
  eraseAttribute _ id name h := h.eraseAttribute id name
  detach _ id h := h.detach id
  remove _ id h := h.remove id

/-- Binding uses slots again for text only. -/
theorem lasting_textOnly (x : NodeId) : Lasting fun d => d.Rooted ∧ d.TextOnly x where
  setText _ id text h := ⟨h.1.setText id text, h.2.setText id text⟩
  divide _ id head tail h := ⟨h.1.divide id head tail, h.2.divide h.1.linked.slots id head tail⟩
  eraseAttribute _ id name h := ⟨h.1.eraseAttribute id name, h.2.eraseAttribute id name⟩
  detach d id h := ⟨h.1.detach id, h.2.congr (kind?_detach d id x)⟩

/-- A directive is about a node, and has copies, that are not the document node. -/
structure Repeat.Unrooted (r : Repeat) : Prop where
  pattern : r.pattern ≠ root
  copies : root ∉ r.copies

/-- So are all directives. -/
def Scopes.Unrooted (f : Scopes) : Prop :=
  ∀ x, ∀ r ∈ f.repeats x, r.Unrooted

theorem Scopes.unrooted_empty : Scopes.empty.Unrooted := by
  intro x r hr
  rw [Scopes.repeats_of_size_le (Nat.zero_le x)] at hr
  cases hr

theorem Scopes.Unrooted.mono (h : f.Unrooted) (hsub : ∀ x, g.repeats x ⊆ f.repeats x) :
    g.Unrooted :=
  fun x r hr => h x r (hsub x hr)

/-- A change of one scope that gives it no directive about the document node. -/
theorem Scopes.Unrooted.update (h : f.Unrooted) {k : Scope → Scope}
    (hk : ∀ scope, f.get? s = some scope → ∀ r ∈ (k scope).repeats, r.Unrooted) :
    (f.update s k).Unrooted := by
  intro x r hr
  rcases Scopes.mem_repeats_update hr with ⟨-, scope, hscope, hr⟩ | ⟨-, hr⟩
  · exact hk scope hscope r hr
  · exact h x r hr

/-- A change of one scope that keeps its directives. -/
theorem Scopes.Unrooted.update_data (h : f.Unrooted) {k : Scope → Scope}
    (hk : ∀ scope, (k scope).repeats = scope.repeats) : (f.update s k).Unrooted := by
  intro x r hr
  rw [Scopes.repeats_update_of_same hk] at hr
  exact h x r hr

theorem Scopes.Unrooted.newRoot (h : f.Unrooted) (data : Value) : (f.newRoot data).1.Unrooted := by
  refine h.mono fun x => ?_
  have hget := f.get?_push (Scope.fresh data none) x
  split at hget
  · rw [Scopes.repeats, show (f.newRoot data).1.get? x = _ from hget]
    exact List.nil_subset _
  · rw [Scopes.repeats_of_get? (g := (f.newRoot data).1) hget]
    exact List.Subset.refl _

theorem Scopes.Unrooted.newChild (h : f.Unrooted) (s : ScopeId) (data : Value) :
    (f.newChild s data).1.Unrooted :=
  h.mono fun x => by rw [repeats_newChild]; exact List.Subset.refl _

theorem Scopes.Unrooted.collect (h : f.Unrooted) : f.collect.Unrooted := by
  refine h.mono fun x => ?_
  cases hx : f.collect.get? x with
  | none =>
      rw [Scopes.repeats, hx]
      exact List.nil_subset _
  | some scope =>
      rw [Scopes.repeats_of_get? (hx.trans (Scopes.get?_of_collect hx).symm)]
      exact List.Subset.refl _

/-! ### Compiling keeps directives away from the document node -/

/-- A repeated element is a child, and so it is not the document node. -/
theorem inborn_unrooted : Inborn Rooted fun _ r => r.Unrooted where
  document := stable_rooted.toLasting
  directive r :=
    { setText := fun d id text h => ⟨h.1.setText id text, h.2⟩
      divide := fun d id head tail h => ⟨h.1.divide id head tail, h.2⟩
      eraseAttribute := fun d id name h => ⟨h.1.eraseAttribute id name, h.2⟩
      detach := fun d id h => ⟨h.1.detach id, h.2⟩ }
  anchored _ _ _ h := ⟨h.pattern, h.copies⟩
  made d _ _ element container _ hd hcontainer := by
    refine ⟨?_, List.not_mem_nil⟩
    rintro rfl
    rw [hd.top] at hcontainer
    cases hcontainer

/-- **Compiling keeps directives away from the document node.** -/
theorem unrooted_compileTo (mark : String) (fuel : Nat) (st : Stage) (s : ScopeId) (node : NodeId)
    (hrooted : st.document.Rooted) (h : st.scopes.Unrooted) :
    (st.compileTo mark fuel s node).scopes.Unrooted := fun x =>
  inborn_unrooted.compileTo mark fuel st s node hrooted (fun x _ => h x) x (Nat.zero_le x)

theorem Scopes.Unrooted.dismantle {st : Stage} (h : st.scopes.Unrooted) (s : ScopeId) :
    (st.dismantle s).scopes.Unrooted := by
  rw [Stage.dismantle]
  simp only
  split
  · exact h
  · exact (h.update fun _ _ _ hr => absurd hr List.not_mem_nil).collect

/-! ### Rendering keeps directives away from the document node -/

/-- **Rendering keeps directives away from the document node**, and the document node on top. -/
theorem Scopes.Unrooted.render {st : Stage} (h : st.scopes.Unrooted) (howned : st.scopes.Owned made)
    (hrooted : st.document.Rooted) (hs : st.scopes.contains s = true) :
    (st.render s).document.Rooted ∧ (st.render s).scopes.Unrooted := by
  have hall := st.scopes.confined_all (W := (· < st.scopes.entries.size)) (fun _ hx => hx)
    fun x _ r hr => (howned.lt_scope hr).symm
  obtain ⟨listed, hmoves, hconfined⟩ := hall.moves_steps (Scopes.lt_size_of_contains hs)
  have hsites : ∀ k ∈ st.scopes.allSites, k.pattern ≠ root := by
    intro k hk
    obtain ⟨x, -, hk⟩ := List.mem_flatMap.1 hk
    obtain ⟨r, hr, rfl⟩ := List.mem_map.1 hk
    exact (h x r hr).pattern
  have hcopies : root ∉ st.scopes.allCopies := by
    intro hmem
    obtain ⟨x, -, hmem⟩ := List.mem_flatMap.1 hmem
    obtain ⟨r, hr, hmem⟩ := List.mem_flatMap.1 hmem
    exact (h x r hr).copies hmem
  obtain ⟨hafter, hlisted⟩ := hmoves.rooted hrooted hsites hcopies
  refine ⟨hafter, fun x r hr => ?_⟩
  have hx : x < st.scopes.entries.size := by
    have hsize : (st.render s).scopes.entries.size = st.scopes.entries.size :=
      (Scopes.alike_renderTo _ st s).size
    obtain ⟨hlt, hscope⟩ := (howned.render s).lt_scope hr
    exact Nat.lt_trans hlt (hsize ▸ hscope)
  have hr := hconfined.repeats x hx r hr
  exact ⟨hsites r.site hr.site, fun hmem => hlisted (hr.copies hmem)⟩

/-! ### What is always the case -/

/-- Scopes own their children, the document node is on top, and no directive is about it. -/
structure Stage.Kept (st : Stage) (made : ScopeId → List ScopeId) : Prop where
  owned : st.scopes.Owned made
  rooted : st.document.Rooted
  unrooted : st.scopes.Unrooted

/-- The record of the children that are made by hand, behind an event. -/
def Event.record (f : Scopes) (made : ScopeId → List ScopeId) : Event → ScopeId → List ScopeId
  | newChild parent _ => Function.update made parent (made parent ++ [f.entries.size])
  | _ => made

variable {st : Stage}

/-- **One event** keeps all this. -/
theorem Stage.Kept.event (h : st.Kept made) (e : Event) (he : e.Possible st.scopes) :
    (e.run st).Kept (e.record st.scopes made) := by
  cases e with
  | newRoot data => exact ⟨h.owned.newRoot data, h.rooted, h.unrooted.newRoot data⟩
  | newChild parent data =>
      exact ⟨h.owned.newChild (he parent rfl) data, h.rooted, h.unrooted.newChild parent data⟩
  | hold s => exact ⟨h.owned.hold s, h.rooted, h.unrooted⟩
  | letGo s => exact ⟨h.owned.letGo s, h.rooted, Scopes.Unrooted.collect h.unrooted⟩
  | set s name v =>
      refine ⟨h.owned.alike (Scopes.alike_set _ s name v), h.rooted, h.unrooted.update_data ?_⟩
      intro scope
      split <;> rfl
  | setData s data =>
      exact ⟨h.owned.alike (Scopes.alike_update fun _ _ => rfl), h.rooted,
        h.unrooted.update_data fun _ => rfl⟩
  | putData s data =>
      exact ⟨h.owned.alike (Scopes.alike_update fun _ _ => rfl), h.rooted,
        h.unrooted.update_data fun _ => rfl⟩
  | compile mark s node =>
      rw [Event.run, Stage.attempt]
      cases hcompile : st.compile mark s node with
      | error err => exact h
      | ok st' =>
          refine ⟨(h.owned.compile (he s rfl) hcompile).1, stable_rooted.compile hcompile h.rooted, ?_⟩
          rw [Stage.eq_of_compile hcompile]
          exact unrooted_compileTo mark _ _ s node (stable_rooted.removeAll h.rooted _)
            (h.unrooted.dismantle s)
  | render s =>
      obtain ⟨hrooted, hunrooted⟩ := h.unrooted.render h.owned h.rooted (he s rfl)
      exact ⟨h.owned.render s, hrooted, hunrooted⟩

end Binding

namespace Page

open PageTemplate.Binding

/-! ### Histories -/

/-- What happens to scopes, from none on, with a record of the children that are made by hand.  They are
compiled with a document that has been read, or with several ones in turn, each of which is what other
events have made of it. -/
inductive History : Stage → (ScopeId → List ScopeId) → Prop
  | start {source : String} {d : Document} (hparse : Document.parse source = .ok d) :
      History ⟨d, .empty⟩ fun _ => []
  | event {st : Stage} {made : ScopeId → List ScopeId} (h : History st made) (e : Event)
      (he : e.Possible st.scopes) : History (e.run st) (e.record st.scopes made)
  | exchange {st other : Stage} {made made' : ScopeId → List ScopeId} (h : History st made)
      (hother : History other made') : History { st with document := other.document } made

variable {st : Stage} {made : ScopeId → List ScopeId} {s : ScopeId}

/-- **Whatever happens to scopes**, they own their children, the document node is on top, and no
directive is about it. -/
theorem History.kept (h : History st made) : st.Kept made := by
  induction h with
  | start hparse =>
      obtain ⟨hlinked, hforest⟩ := linked_forest_of_parse hparse
      exact ⟨Scopes.owned_empty, ⟨hlinked, hforest.live, hforest.top⟩, Scopes.unrooted_empty⟩
  | event _ e he ih => exact ih.event e he
  | exchange _ _ ih ihother => exact ⟨ih.owned, ihother.rooted, ih.unrooted⟩

/-- **The children of a scope are those made by hand and those of its directives**, whatever has happened
to scopes and whether compiling has succeeded or failed.  They stand in the order in which they were
made, and so do both kinds; those of the directives have their order.  All of them are there, with the
scope as their parent.

If the scope is compiled again, it is still there, and no scope of an old directive is among its
children.  Before anything is bound, each old copy is freed with all that is below it; nothing but texts
that are cut uses these slots again. -/
theorem children_owned (h : History st made) (hs : st.scopes.contains s = true) :
    (st.scopes.children s).Pairwise (· < ·) ∧ (st.scopes.children s).Nodup ∧
      (st.scopes.children s).filter (· ∈ made s) = made s ∧
      (st.scopes.children s).filter (· ∉ made s) = (st.scopes.repeats s).map (·.scope) ∧
      (∀ c ∈ st.scopes.children s,
        st.scopes.contains c = true ∧ st.scopes.parent? c = some s) ∧
      ∀ mark node st', st.compile mark s node = .ok st' →
        st'.scopes.contains s = true ∧
        (∀ r ∈ st.scopes.repeats s, r.scope ∉ st'.scopes.children s) ∧
        ∀ r ∈ st.scopes.repeats s, ∀ c ∈ r.copies, ∀ x,
          Relation.ReflTransGen st.document.ChildOf x c →
          (st.dismantle s).document.contains x = false ∧ st'.document.TextOnly x := by
  obtain ⟨howned, hrooted, hunrooted⟩ := h.kept
  have howns := howned.owns s hs
  refine ⟨howns.ordered, howns.ordered.imp fun hlt => Nat.ne_of_lt hlt, howns.made, howns.bound,
    fun c hc => ?_, fun mark node st' hcompile => ?_⟩
  · obtain ⟨scope, hscope, hparent⟩ := howns.below c hc
    refine ⟨Scopes.contains_iff.2 ⟨scope, hscope⟩, ?_⟩
    rw [Scopes.parent?, hscope, Option.bind_some, hparent, Option.filter_some, if_pos hs]
  · obtain ⟨-, hlive, hexchanged⟩ := howned.compile hs hcompile
    refine ⟨hlive, hexchanged, fun r hr c hc x hx => ?_⟩
    have hcopies : root ∉ (st.scopes.repeats s).flatMap (·.copies) := by
      intro hmem
      obtain ⟨r, hr, hmem⟩ := List.mem_flatMap.1 hmem
      exact (hunrooted s r hr).copies hmem
    have hfreed : (st.dismantle s).document.contains x = false :=
      hrooted.linked.removeAll_frees hcopies (List.mem_flatMap.2 ⟨r, hr, hc⟩) hx
    have hbefore : (st.dismantle s).document.Rooted := stable_rooted.removeAll hrooted _
    refine ⟨hfreed, ?_⟩
    rw [Stage.eq_of_compile hcompile]
    exact ((lasting_textOnly x).compileTo mark _ ⟨hbefore, .of_dead hfreed⟩ s node).2

/-- A page that is compiled to a scope with a child, and rendered after the scope has got another
child. -/
def interleavedStage : Stage :=
  [Event.newRoot (.object [("xs", .array [.string "a", .string "b"])]),
    .newChild 0 .emptyObject, .compile "hb-repeat" 0 root, .newChild 0 .emptyObject,
    .render 0].foldl Event.run ⟨sampleDocument, .empty⟩

theorem history_interleavedStage : ∃ made, History interleavedStage made ∧ made 0 = [1, 3] := by
  have hroot := (History.start parse_sampleSource).event
    (.newRoot (.object [("xs", .array [.string "a", .string "b"])])) nofun
  have hfirst := hroot.event (.newChild 0 .emptyObject) (Event.possible_of_contains rfl rfl)
  have hcompiled := hfirst.event (.compile "hb-repeat" 0 root) (Event.possible_of_contains rfl rfl)
  have hsecond := hcompiled.event (.newChild 0 .emptyObject)
    (Event.possible_of_contains rfl (by decide +kernel))
  exact ⟨_, hsecond.event (.render 0) (Event.possible_of_contains rfl (by decide +kernel)),
    by decide +kernel⟩

theorem children_owned_interleaved : ∃ made st',
    History interleavedStage made ∧ interleavedStage.scopes.contains 0 = true ∧
      interleavedStage.scopes.children 0 = [1, 2, 3] ∧ made 0 = [1, 3] ∧
      [1, 2, 3].filter (· ∈ made 0) = made 0 ∧
      [1, 2, 3].filter (· ∉ made 0) = (interleavedStage.scopes.repeats 0).map (·.scope) ∧
      interleavedStage.compile "hb-repeat" 0 root = .ok st' ∧ 2 ∉ st'.scopes.children 0 ∧
      interleavedStage.document.parent? 6 = some 5 ∧
      (interleavedStage.dismantle 0).document.contains 6 = false := by
  obtain ⟨made, hhistory, hmade⟩ := history_interleavedStage
  have hlive : interleavedStage.scopes.contains 0 = true := by decide +kernel
  have hchildren : interleavedStage.scopes.children 0 = [1, 2, 3] := by decide +kernel
  have hrepeat : ⟨⟨"x", "xs"⟩, 2, 1, 0, none, [5, 9]⟩ ∈ interleavedStage.scopes.repeats 0 := by
    decide +kernel
  have hbelow : interleavedStage.document.parent? 6 = some 5 := by decide +kernel
  have hvalid : invalidRepeat? interleavedStage.document "hb-repeat" root = none := by
    decide +kernel
  have hsucceeds : ∃ st', interleavedStage.compile "hb-repeat" 0 root = .ok st' := by
    rw [Stage.compile, hvalid]
    exact ⟨_, rfl⟩
  obtain ⟨st', hcompile⟩ := hsucceeds
  obtain ⟨-, -, hfirst, hsecond, -, hcompiled⟩ := children_owned hhistory hlive
  obtain ⟨-, hexchanged, hfreed⟩ := hcompiled "hb-repeat" root st' hcompile
  rw [hchildren] at hfirst hsecond
  exact ⟨made, st', hhistory, hlive, hchildren, hmade, hfirst, hsecond, hcompile,
    hexchanged _ hrepeat, hbelow, (hfreed _ hrepeat 5 (by decide) 6 (.single hbelow)).1⟩

end Page

end PageTemplate
