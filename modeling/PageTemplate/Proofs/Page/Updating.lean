/-
**Rendering again is rendering from scratch.**

A page stays bound to its scope while the data change and the page is rendered in between.  What the
page shows when it is rendered depends on the current data alone: the copies and the texts that earlier
renderings have left, in the page, in the patterns and in the scopes of items, do not matter.  So a page
that is read anew, bound to a new scope with these data and rendered once, is the same.

Main definitions:

* `PageTemplate.Binding.Change` — what can be done with a bound scope;
* `PageTemplate.Binding.Attached` — a part of a document is bound to a scope of its own.

Main results:

* `PageTemplate.Binding.Attached.run` — it stays bound, whatever is done with the scope;
* `PageTemplate.Binding.Attached.render` — what a rendered page shows depends on the data;
* `PageTemplate.Page.rerender_eq` — rendering again is rendering from scratch.
-/

import PageTemplate.Proofs.Page.Rendering

set_option relaxedAutoImplicit false
set_option autoImplicit false

namespace PageTemplate

open PageTemplate.Data PageTemplate.Markup PageTemplate.Text

namespace Binding

/-! ### Changes -/

/-- One thing that can be done with a bound scope. -/
inductive Change where
  | set (name : String) (v : Value)
  | setData (data : Value)
  | render

namespace Change

/-- Does one thing with the scope `s`. -/
def run (s : ScopeId) (st : Stage) : Change → Stage
  | set name v => { st with scopes := st.scopes.set s name v }
  | setData data => { st with scopes := st.scopes.setData s data }
  | render => st.render s

/-- Does one thing after the other with the scope `s`. -/
def runAll (s : ScopeId) (st : Stage) (changes : List Change) : Stage :=
  changes.foldl (run s) st

/-- A rendering apart, what is done with a scope changes its data, and leaves them an object. -/
theorem run_cases (s : ScopeId) (st : Stage) (c : Change) : c.run s st = st.render s ∨
    ∃ k : Scope → Scope, c.run s st = { st with scopes := st.scopes.update s k } ∧
      (∀ sc, (k sc).parent = sc.parent ∧ (k sc).slots = sc.slots ∧ (k sc).repeats = sc.repeats) ∧
      ∀ sc fields, sc.data = .object fields → ∃ fields', (k sc).data = .object fields' := by
  cases c with
  | set name v =>
      refine .inr ⟨_, rfl, fun sc => ?_, fun sc fields hfields => ?_⟩
      · split <;> exact ⟨rfl, rfl, rfl⟩
      · rw [hfields]
        exact ⟨_, rfl⟩
  | setData data =>
      refine .inr ⟨_, rfl, fun sc => ⟨rfl, rfl, rfl⟩, fun sc fields _ => ?_⟩
      cases data <;> exact ⟨_, rfl⟩
  | render => exact .inl rfl

/-- What each change keeps is kept by all of them together. -/
theorem runAll_keeps {P : Stage → Prop} {s : ScopeId} (hP : ∀ st c, P st → P (run s st c))
    {st : Stage} (h : P st) (changes : List Change) : P (runAll s st changes) := by
  induction changes generalizing st with
  | nil => exact h
  | cons c changes ih => exact ih (hP st c h)

end Change

/-! ### A bound part of a document -/

/-- A part of a document is bound to the scope `s`, which has no parent and whose data are an
object. -/
structure Attached (st : Stage) (s : ScopeId) (p : Option NodeId) (id : NodeId) (kind : NodeKind)
    (span : Option Span) (items : List Mold) : Prop where
  sound : st.document.Sound
  settled : ∃ xs, Settled st.scopes st.document p s (.still id kind span items) xs
  scope : ∃ sc, st.scopes.get? s = some sc ∧ sc.parent = none ∧ ∃ fields, sc.data = .object fields

variable {st st' : Stage} {s : ScopeId} {p : Option NodeId} {id : NodeId} {kind : NodeKind}
  {span : Option Span} {items : List Mold}

/-- What is compiled to a new scope is bound. -/
theorem Compiled.attached {mark : String} {d : Document} {f : Scopes} {data : Value}
    {ts : List Placed} {ys : List NodeId}
    (h : Compiled mark ⟨d, (f.newRoot data).1⟩ st p (f.newRoot data).2 id kind span ts items ys) :
    Attached st (f.newRoot data).2 p id kind span items where
  sound := h.sound
  settled := ⟨ys, h.settled⟩
  scope := by
    obtain ⟨sc, hsc, hdata, hparent⟩ := h.grows.own _ (f.get?_newRoot data)
    refine ⟨sc, hsc, hparent, ?_⟩
    rw [hdata]
    cases data <;> exact ⟨_, rfl⟩

/-- New data leave a mold settled. -/
theorem Settled.update {f : Scopes} {d : Document} {m : Mold} {xs : List NodeId}
    (h : Settled f d p s m xs) (k : Scope → Scope)
    (hk : ∀ sc, (k sc).slots = sc.slots ∧ (k sc).repeats = sc.repeats) :
    Settled (f.update s k) d p s m xs := by
  refine h.congr (fun _ _ => rfl) (fun x hx => ?_) fun sc hsc => ⟨k sc, ?_, hk sc⟩
  · have hne : x ≠ s := Nat.ne_of_gt (h.lt hx)
    rw [Scopes.get?_update, if_neg hne]
  · rw [Scopes.get?_update, if_pos rfl, hsc]
    rfl

/-- New data leave it bound. -/
theorem Attached.update (h : Attached st s p id kind span items) (k : Scope → Scope)
    (hk : ∀ sc, (k sc).parent = sc.parent ∧ (k sc).slots = sc.slots ∧ (k sc).repeats = sc.repeats)
    (hdata : ∀ sc fields, sc.data = .object fields → ∃ fields', (k sc).data = .object fields') :
    Attached { st with scopes := st.scopes.update s k } s p id kind span items where
  sound := h.sound
  settled := by
    obtain ⟨xs, hsettled⟩ := h.settled
    exact ⟨xs, hsettled.update k fun sc => (hk sc).2⟩
  scope := by
    obtain ⟨sc, hsc, hparent, fields, hfields⟩ := h.scope
    refine ⟨k sc, ?_, (hk sc).1.trans hparent, hdata sc fields hfields⟩
    rw [Scopes.get?_update, if_pos rfl, hsc]
    rfl

/-- The scope sees its own data alone. -/
theorem Attached.sees (h : Attached st s p id kind span items) {v : Value} (hv : st.scopes.data? s = some v) :
    st.scopes.Sees s [v] := by
  obtain ⟨sc, hsc, hparent, _⟩ := h.scope
  rw [Scopes.data?_of_get? hsc] at hv
  cases hv
  exact .top hsc hparent

theorem Attached.exists_data (h : Attached st s p id kind span items) :
    ∃ v, st.scopes.data? s = some v ∧ v.objectOrEmpty = v := by
  obtain ⟨sc, hsc, _, fields, hfields⟩ := h.scope
  refine ⟨sc.data, Scopes.data?_of_get? hsc, ?_⟩
  rw [hfields]
  rfl

/-- **What is done with the scope leaves it bound.** -/
theorem Attached.change (h : Attached st s p id kind span items) (c : Change) :
    Attached (c.run s st) s p id kind span items := by
  rcases Change.run_cases s st c with hrun | ⟨k, hrun, hk, hdata⟩
  · rw [hrun]
    obtain ⟨xs, hsettled⟩ := h.settled
    obtain ⟨sc, hsc, hparent, fields, hfields⟩ := h.scope
    obtain ⟨ys, hredone⟩ := hsettled.render h.sound (.top hsc hparent)
    obtain ⟨sc', hsc', hdata', hparent'⟩ := hredone.data sc hsc
    exact ⟨hredone.sound, ⟨ys, hredone.settled⟩, sc', hsc', hparent'.trans hparent, fields,
      hdata'.trans hfields⟩
  · rw [hrun]
    exact h.update k hk hdata

/-- **A part of a document stays bound**, whatever is done with the scope. -/
theorem Attached.run (h : Attached st s p id kind span items) (changes : List Change) :
    Attached (Change.runAll s st changes) s p id kind span items :=
  Change.runAll_keeps (P := (Attached · s p id kind span items)) (fun _ c h => h.change c) h changes

/-- Rendering leaves the data alone. -/
theorem Attached.data?_render (h : Attached st s p id kind span items) :
    (st.render s).scopes.data? s = st.scopes.data? s := by
  obtain ⟨xs, hsettled⟩ := h.settled
  obtain ⟨sc, hsc, hparent, _⟩ := h.scope
  obtain ⟨ys, hredone⟩ := hsettled.render h.sound (.top hsc hparent)
  obtain ⟨sc', hsc', hdata', _⟩ := hredone.data sc hsc
  rw [Scopes.data?_of_get? hsc, Scopes.data?_of_get? hsc', hdata']

/-! ### Rendering a bound page -/

/-- A place has as many copies as there are items. -/
theorem Filled.length_copies {f : Scopes} {d : Document} {env : Env} {text : NodeId → String}
    {copies : ScopeId → List Placed} {ys : List NodeId}
    (h : Filled f d p s id kind span items env text copies ys) {a : Spot}
    (ha : Part.each a ∈ Mold.level p id kind span items)
    (hstill : ∃ i k sp ms, a.pattern = .still i k sp ms) :
    (copies a.scope).length = (env.items a.expression.collection).length := by
  obtain ⟨i, k, sp, ms, hpattern⟩ := hstill
  have hlength := congrArg List.length (h.places a ha)
  simp only [hpattern, Mold.shown] at hlength
  rwa [← List.map_eq_flatMap, List.length_map, List.length_map] at hlength

/-- The patterns of a settled mold are nodes. -/
theorem Settled.pattern_still {f : Scopes} {d : Document} {xs : List NodeId}
    (h : Settled f d p s (.still id kind span items) xs) {a : Spot}
    (ha : Part.each a ∈ Mold.level p id kind span items) :
    ∃ i k sp ms, a.pattern = .still i k sp ms := by
  cases h with
  | intro _ _ _ _ _ _ _ settled => exact (settled a ha).exists_still

/-- **What a rendered page shows depends on the data**: the markup is that of what the molds show,
and each place has as many copies as its collection has items. -/
theorem Attached.render (h : Attached st s none Document.root .document none items) {v : Value}
    (hv : st.scopes.data? s = some v) :
    (st.render s).document.markup =
        String.ofList (Tree.markupAll false (Mold.shownAll [v] items)) ∧
      ((st.render s).copies s).map List.length =
        (Mold.spots (Mold.level none Document.root .document none items)).map fun a =>
          (Env.items [v] a.expression.collection).length := by
  obtain ⟨xs, hsettled⟩ := h.settled
  obtain ⟨ys, hredone⟩ := hsettled.render h.sound (h.sees hv)
  refine ⟨hredone.markup, ?_⟩
  obtain ⟨text, copies, hfilled⟩ := hredone.filled _ _ _ _ rfl
  rw [Stage.copies, hfilled.repeats, List.map_map, List.map_map]
  refine List.map_congr_left fun a ha => ?_
  have ha := Mold.mem_spots.1 ha
  rw [← hfilled.length_copies ha (hsettled.pattern_still ha)]
  simp [Spot.toRepeat]

/-- The directives of two molds that the same page is bound by are the same. -/
theorem lengths_eq {mark : String} {st₁ st₁' st₂ st₂' : Stage} {s₁ s₂ : ScopeId}
    {ts : List Placed} {ms ns : List Mold} {xs ys : List NodeId} (h₁ : Compiled mark st₁ st₁' p s₁ id kind span ts ms xs)
    (h₂ : Compiled mark st₂ st₂' p s₂ id kind span ts ns ys)
    (g₁ : Ground mark st₁.document p id kind span ts)
    (g₂ : Ground mark st₂.document p id kind span ts) (env : Env) :
    (Mold.spots (Mold.level p id kind span ms)).map
        (fun a => (env.items a.expression.collection).length) =
      (Mold.spots (Mold.level p id kind span ns)).map
        fun a => (env.items a.expression.collection).length := by
  have hexpressions : (Mold.spots (Mold.level p id kind span ms)).map Spot.expression =
      (Mold.spots (Mold.level p id kind span ns)).map Spot.expression := by
    refine List.map_injective_iff.2 (fun _ _ h => Option.some.inj h) ?_
    rw [List.map_map, List.map_map]
    exact (h₁.expressions g₁).trans (h₂.expressions g₂).symm
  have hlengths := congrArg (List.map fun x => (env.items x.collection).length) hexpressions
  rwa [List.map_map, List.map_map] at hlengths

end Binding

namespace Page

open PageTemplate.Binding

/-- **Rendering again is rendering from scratch.**  A page has been bound to a new scope, and
whatever has been done with the scope, it has been rendered last.  The page can be bound to another
new scope with the data that the scope has now, and when it has been rendered once, its markup is
the same, and each directive has as many copies. -/
theorem rerender_eq (source mark : String) (data : Value) (f g : Scopes) (changes : List Change)
    {d : Document} {st : Stage} (hparse : Document.parse source = .ok d)
    (hcompile : (⟨d, (f.newRoot data).1⟩ : Stage).compile mark (f.newRoot data).2 Document.root =
      .ok st) :
    let live := Change.runAll (f.newRoot data).2 st (changes ++ [Change.render])
    ∃ v fresh, live.scopes.data? (f.newRoot data).2 = some v ∧
      (⟨d, (g.newRoot v).1⟩ : Stage).compile mark (g.newRoot v).2 Document.root = .ok fresh ∧
      live.document.markup = (fresh.render (g.newRoot v).2).document.markup ∧
      (live.copies (f.newRoot data).2).map List.length =
        ((fresh.render (g.newRoot v).2).copies (g.newRoot v).2).map List.length := by
  obtain ⟨cs, hsound, hholds, hproper, hnodup⟩ := Document.parse_holds hparse
  have hbindable : Bindable mark cs :=
    bindable_of_compile hproper (by exact hholds) hnodup hcompile
  have hground : Ground mark d none Document.root .document none cs :=
    ⟨hsound, hholds, hnodup, hbindable⟩
  obtain ⟨st', items, ys, hok, hcompiled, _⟩ := hground.compile_newRoot f data
  obtain rfl : st' = st := Except.ok.inj (hok.symm.trans hcompile)
  have hlive := hcompiled.attached.run changes
  obtain ⟨v, hv, hobject⟩ := hlive.exists_data
  obtain ⟨fresh, items', ys', hok', hcompiled', _⟩ := hground.compile_newRoot g v
  have hv' : fresh.scopes.data? (g.newRoot v).2 = some v := by
    obtain ⟨sc, hsc, hdata, _⟩ := hcompiled'.grows.own _ (g.get?_newRoot v)
    rw [Scopes.data?_of_get? hsc, hdata]
    exact congrArg some hobject
  obtain ⟨hmarkup, hcopies⟩ := hlive.render hv
  obtain ⟨hmarkup', hcopies'⟩ := hcompiled'.attached.render hv'
  have hrun : Change.runAll (f.newRoot data).2 st' (changes ++ [Change.render]) =
      (Change.runAll (f.newRoot data).2 st' changes).render (f.newRoot data).2 := by
    rw [Change.runAll, List.foldl_append]
    rfl
  intro live
  refine ⟨v, fresh, ?_, hok', ?_, ?_⟩
  · rw [show live = _ from hrun, hlive.data?_render, hv]
  · rw [show live = _ from hrun, hmarkup, hmarkup', hcompiled.shownAll, hcompiled'.shownAll]
  · rw [show live = _ from hrun, hcopies, hcopies']
    exact lengths_eq hcompiled hcompiled' hground hground [v]

theorem rerender_eq_shrunk : ∃ st v fresh,
    let scopes := Scopes.empty.newRoot (.object [("xs", .array [.string "a", .string "<"])])
    let live := Change.runAll scopes.2 st
      ([.render, .set "y" (.bool true), .set "xs" (.array [.string "b"])] ++ [Change.render])
    (⟨sampleDocument, scopes.1⟩ : Stage).compile "hb-repeat" scopes.2 Document.root = .ok st ∧
      live.scopes.data? scopes.2 = some v ∧
      (⟨sampleDocument, (Scopes.empty.newRoot v).1⟩ : Stage).compile "hb-repeat"
        (Scopes.empty.newRoot v).2 Document.root = .ok fresh ∧
      live.document.markup = (fresh.render (Scopes.empty.newRoot v).2).document.markup ∧
      (live.copies scopes.2).map List.length =
        ((fresh.render (Scopes.empty.newRoot v).2).copies
          (Scopes.empty.newRoot v).2).map List.length := by
  have hvalid : invalidRepeat? sampleDocument "hb-repeat" Document.root = none := by decide +kernel
  obtain ⟨st, hcompile⟩ : ∃ st, (⟨sampleDocument, (Scopes.empty.newRoot
      (.object [("xs", .array [.string "a", .string "<"])])).1⟩ : Stage).compile "hb-repeat"
        (Scopes.empty.newRoot (.object [("xs", .array [.string "a", .string "<"])])).2
        Document.root = .ok st := by
    rw [Stage.compile, hvalid]
    exact ⟨_, rfl⟩
  obtain ⟨v, fresh, hlive⟩ := rerender_eq sampleSource "hb-repeat"
    (.object [("xs", .array [.string "a", .string "<"])]) .empty .empty
    [.render, .set "y" (.bool true), .set "xs" (.array [.string "b"])] parse_sampleSource hcompile
  exact ⟨st, v, fresh, hcompile, hlive⟩

end Page

end PageTemplate
