/-
**Rendering, operation by operation.**

What rendering does to a document are operations, one after the other: the copies of a directive are
removed, for each item the pattern is copied and the copy put to its place, and in the end the slots are
overwritten.  The operations are listed here along the rendering itself, and each of them is a move: no
node is removed that no directive lists, nothing but patterns is copied, and nothing but slots is
overwritten.  Of the document nothing is asked, so this holds whatever has been done with it before.

Main definitions:

* `PageTemplate.Binding.Stage.steps` — the operations of a rendering;
* `PageTemplate.Binding.Scopes.Confined` — what the scopes of a set have in a document.

Main results:

* `PageTemplate.Binding.moves_itemSteps`, `PageTemplate.Binding.moves_repeatSteps`,
  `PageTemplate.Binding.moves_repeatsSteps` — the moves for items, for a directive, and for several;
* `PageTemplate.Binding.Scopes.Confined.moves_steps` — rendering is a sequence of moves;
* `PageTemplate.Binding.Stage.remove_mem_steps` — all copies of a scope are removed.
-/

import PageTemplate.Proofs.Binding.Rendering
import PageTemplate.Proofs.Document.Passing

set_option relaxedAutoImplicit false
set_option autoImplicit false

namespace PageTemplate.Binding

open PageTemplate.Data PageTemplate.Document

/-- What is copied for a directive, and where the copies are put. -/
def Repeat.site (r : Repeat) : Site := ⟨r.pattern, r.container, r.anchor⟩

/-! ### The operations of a rendering -/

namespace Stage

/-- The operations for items at the place of a directive, one item after the other, where `steps` are
the operations of rendering its scope. -/
def itemSteps (render : Stage → ScopeId → Stage) (steps : Stage → ScopeId → List Operation)
    (r : Repeat) : Stage → List Value → List Operation
  | _, [] => []
  | st, item :: items =>
      let busy := { st with scopes := st.scopes.set r.scope r.expression.item item }
      let d := (render busy r.scope).document
      steps busy r.scope ++
        .clone r.pattern :: .insertBefore r.container (d.clone r.pattern).2 r.anchor ::
          itemSteps render steps r (itemRound render r (st, []) item).1 items

/-- The operations at the place of a directive: the copies that are there are removed, and there are
new ones for the items. -/
def repeatSteps (render : Stage → ScopeId → Stage) (steps : Stage → ScopeId → List Operation)
    (st : Stage) (s : ScopeId) (r : Repeat) : List Operation :=
  r.copies.map .remove ++
    match items? (st.scopes.lookup? s r.expression.collection) with
    | none => []
    | some items =>
        itemSteps render steps r
          { st with document := r.copies.foldl Document.remove st.document } items

/-- The operations at the places of several directives. -/
def repeatsSteps (render : Stage → ScopeId → Stage) (steps : Stage → ScopeId → List Operation)
    (s : ScopeId) : Stage → List Repeat → List Operation
  | _, [] => []
  | st, r :: rs =>
      repeatSteps render steps st s r ++ repeatsSteps render steps s (renderRepeat render st s r).1 rs

/-- The operations that show the value of each path in its slots. -/
def fillSteps (slots : Slots) (value : String → Option Value) : List Operation :=
  slots.pairs.map fun p => .setText p.2 (display (value p.1))

/-- The operations of rendering a scope, with the scopes of repeat directives at most `fuel - 1` ones
below each other. -/
def stepsTo : Nat → Stage → ScopeId → List Operation
  | 0, _, _ => []
  | fuel + 1, st, s =>
      let (done, repeats) := (st.scopes.repeats s).foldl (repeatRound (renderTo fuel) s) (st, [])
      let scopes := done.scopes.update s fun scope => { scope with repeats := repeats }
      let slots := ((scopes.get? s).map (·.slots)).getD .empty
      repeatsSteps (renderTo fuel) (stepsTo fuel) s st (st.scopes.repeats s) ++
        fillSteps slots (scopes.lookup? s)

/-- The operations of rendering a scope. -/
def steps (st : Stage) (s : ScopeId) : List Operation :=
  stepsTo st.scopes.entries.size st s

end Stage

/-! ### What scopes have in a document -/

variable {W : ScopeId → Prop} {sites : List Site} {writes listed listed' : List NodeId}

/-- A directive of the scope `s` has its scope behind `s` in a set, its place among the sites, and its
copies on a list. -/
structure Repeat.Confined (W : ScopeId → Prop) (sites : List Site) (listed : List NodeId)
    (s : ScopeId) (r : Repeat) : Prop where
  scope : W r.scope
  after : s < r.scope
  site : r.site ∈ sites
  copies : r.copies ⊆ listed

/-- The directives of the scopes of a set are confined, and their slots are on a list. -/
structure Scopes.Confined (f : Scopes) (W : ScopeId → Prop) (sites : List Site)
    (writes listed : List NodeId) : Prop where
  lt : ∀ x, W x → x < f.entries.size
  repeats : ∀ x, W x → ∀ r ∈ f.repeats x, r.Confined W sites listed x
  slots : ∀ x sc, W x → f.get? x = some sc → ∀ p ∈ sc.slots.pairs, p.2 ∈ writes

theorem Repeat.Confined.mono {s : ScopeId} {r : Repeat} (h : r.Confined W sites listed s)
    (hsub : listed ⊆ listed') : r.Confined W sites listed' s :=
  ⟨h.scope, h.after, h.site, List.Subset.trans h.copies hsub⟩

theorem Scopes.Confined.mono {f : Scopes} (h : f.Confined W sites writes listed)
    (hsub : listed ⊆ listed') : f.Confined W sites writes listed' :=
  ⟨h.lt, fun x hx r hr => (h.repeats x hx r hr).mono hsub, h.slots⟩

theorem Scopes.repeats_update (f : Scopes) (s x : ScopeId) (k : Scope → Scope) :
    (f.update s k).repeats x =
      if x = s then ((f.get? s).map fun scope => (k scope).repeats).getD [] else f.repeats x := by
  rw [repeats, get?_update]
  split
  · rw [Option.map_map]
    rfl
  · rfl

/-- A change of one scope that keeps its directives. -/
theorem Scopes.repeats_update_of_same {f : Scopes} {s : ScopeId} {k : Scope → Scope}
    (hk : ∀ scope, (k scope).repeats = scope.repeats) (x : ScopeId) :
    (f.update s k).repeats x = f.repeats x := by
  rw [repeats_update]
  split
  · next hxs =>
      rw [hxs, repeats]
      cases f.get? s with
      | none => rfl
      | some scope => exact hk scope
  · rfl

/-- A directive of a changed scope is one that it got then; the others have theirs from before. -/
theorem Scopes.mem_repeats_update {f : Scopes} {s x : ScopeId} {k : Scope → Scope} {r : Repeat}
    (hr : r ∈ (f.update s k).repeats x) :
    (x = s ∧ ∃ scope, f.get? s = some scope ∧ r ∈ (k scope).repeats) ∨ x ≠ s ∧ r ∈ f.repeats x := by
  rw [repeats_update] at hr
  split at hr
  · next hxs =>
      cases hscope : f.get? s with
      | none => simp [hscope] at hr
      | some scope =>
          rw [hscope, Option.map_some, Option.getD_some] at hr
          exact .inl ⟨hxs, scope, rfl, hr⟩
  · next hxs => exact .inr ⟨hxs, hr⟩

/-- A scope that gets other data, or other directives that are confined. -/
theorem Scopes.Confined.update {f : Scopes} (h : f.Confined W sites writes listed) (s : ScopeId)
    {k : Scope → Scope} (hslots : ∀ scope, (k scope).slots = scope.slots)
    (hrepeats : ∀ scope, f.get? s = some scope → W s →
      ∀ r ∈ (k scope).repeats, r.Confined W sites listed s) :
    (f.update s k).Confined W sites writes listed where
  lt x hx := by
    rw [(Scopes.keeps_update f s k).size]
    exact h.lt x hx
  repeats x hx r hr := by
    rcases mem_repeats_update hr with ⟨rfl, scope, hscope, hr⟩ | ⟨-, hr⟩
    · exact hrepeats scope hscope hx r hr
    · exact h.repeats x hx r hr
  slots x sc hx hsc p hp := by
    rw [Scopes.get?_update] at hsc
    split at hsc
    · next hxs =>
        obtain ⟨scope, hscope, rfl⟩ := Option.map_eq_some_iff.1 hsc
        rw [hslots] at hp
        exact h.slots s scope (hxs ▸ hx) hscope p hp
    · exact h.slots x sc hx hsc p hp

theorem Scopes.Confined.set {f : Scopes} (h : f.Confined W sites writes listed) (s : ScopeId)
    (name : String) (v : Value) : (f.set s name v).Confined W sites writes listed := by
  refine Scopes.Confined.update h s (fun scope => ?_) fun scope hscope hs r hr => ?_
  · split <;> rfl
  · refine h.repeats s hs r ?_
    rw [Scopes.repeats, hscope]
    split at hr <;> exact hr

/-! ### Rendering as moves -/

/-- Rendering any scope of a set performs the given operations, which are moves, and leaves the scopes
confined to what is listed then. -/
def MovesAt (render : Stage → ScopeId → Stage) (steps : Stage → ScopeId → List Operation)
    (W : ScopeId → Prop) (sites : List Site) (writes : List NodeId) : Prop :=
  ∀ (st : Stage) (s : ScopeId) (listed : List NodeId), W s →
    st.scopes.Confined W sites writes listed →
    ∃ listed', Moves sites writes st.document listed (steps st s) (render st s).document listed' ∧
      (render st s).scopes.Confined W sites writes listed'

/-- Listed nodes are removed. -/
theorem moves_remove (d : Document) {cs : List NodeId} (h : cs ⊆ listed) :
    Moves sites writes d listed (cs.map .remove) (cs.foldl Document.remove d) listed := by
  induction cs generalizing d with
  | nil => exact .nil d listed
  | cons c cs ih =>
      rw [List.cons_subset] at h
      exact .remove h.1 (ih (d.remove c) h.2)

/-- Slots are overwritten. -/
theorem moves_fillSteps (d : Document) {slots : Slots} (value : String → Option Value)
    (h : ∀ p ∈ slots.pairs, p.2 ∈ writes) :
    Moves sites writes d listed (Stage.fillSteps slots value) (slots.fill value d) listed := by
  rw [Slots.fill_eq_foldl, Stage.fillSteps]
  generalize slots.pairs = ps at h
  induction ps generalizing d with
  | nil => exact .nil d listed
  | cons p ps ih =>
      exact .write (h p (List.mem_cons_self ..))
        (ih _ fun q hq => h q (List.mem_cons_of_mem _ hq))

section Rounds

variable {render : Stage → ScopeId → Stage} {steps : Stage → ScopeId → List Operation} {r : Repeat}

/-- **One item after the other**: each copy that is made is listed. -/
theorem moves_itemSteps (hrender : MovesAt render steps W sites writes)
    {s : ScopeId} (hr : r.Confined W sites listed s) (items : List Value) (st : Stage) (copies : List NodeId)
    (h : st.scopes.Confined W sites writes listed) (hcopies : copies ⊆ listed) :
    ∃ listed' st' copies', items.foldl (itemRound render r) (st, copies) = (st', copies') ∧
      Moves sites writes st.document listed (Stage.itemSteps render steps r st items) st'.document
        listed' ∧
      st'.scopes.Confined W sites writes listed' ∧ copies' ⊆ listed' := by
  induction items generalizing st copies listed with
  | nil => exact ⟨listed, st, copies, rfl, .nil _ _, h, hcopies⟩
  | cons item items ih =>
      obtain ⟨listed₁, hmoves, hconfined⟩ :=
        hrender { st with scopes := st.scopes.set r.scope r.expression.item item } r.scope listed
          hr.scope (h.set _ _ _)
      let d := (render { st with scopes := st.scopes.set r.scope r.expression.item item }
        r.scope).document
      -- the copy is put to its place, and listed behind those of the items before
      have hlist : listed₁ ⊆ listed₁ ++ [(d.clone r.pattern).2] := List.subset_append_left _ _
      have hsub : listed ⊆ listed₁ ++ [(d.clone r.pattern).2] :=
        List.Subset.trans hmoves.subset hlist
      have hround : itemRound render r (st, copies) item =
          ((itemRound render r (st, []) item).1, copies ++ [(d.clone r.pattern).2]) := rfl
      obtain ⟨listed', st', copies', hfold, hrest, hconfined', hcopies'⟩ :=
        ih (hr.mono hsub) (itemRound render r (st, []) item).1 (copies ++ [(d.clone r.pattern).2])
          (hconfined.mono hlist)
          (List.append_subset.2 ⟨List.Subset.trans hcopies hsub, List.subset_append_right _ _⟩)
      refine ⟨listed', st', copies', ?_, ?_, hconfined', hcopies'⟩
      · rw [List.foldl_cons, hround, hfold]
      · exact hmoves.trans (.copy (k := r.site) hr.site hrest)

/-- **One directive**: its copies are removed, and those that it lists then are new. -/
theorem moves_repeatSteps (hrender : MovesAt render steps W sites writes) (st : Stage) (s : ScopeId)
    (hr : r.Confined W sites listed s) (h : st.scopes.Confined W sites writes listed) :
    ∃ listed', Moves sites writes st.document listed (Stage.repeatSteps render steps st s r)
        (Stage.renderRepeat render st s r).1.document listed' ∧
      (Stage.renderRepeat render st s r).1.scopes.Confined W sites writes listed' ∧
      (Stage.renderRepeat render st s r).2.Confined W sites listed' s := by
  have hremove : Moves sites writes st.document listed (r.copies.map .remove)
      (r.copies.foldl Document.remove st.document) listed := moves_remove st.document hr.copies
  cases hitems : items? (st.scopes.lookup? s r.expression.collection) with
  | none =>
      refine ⟨listed, ?_, ?_, ?_⟩
      · simpa only [Stage.repeatSteps, Stage.renderRepeat, hitems, List.append_nil] using hremove
      · simpa only [Stage.renderRepeat, hitems] using h
      · simp only [Stage.renderRepeat, hitems]
        exact ⟨hr.scope, hr.after, hr.site, List.nil_subset _⟩
  | some items =>
      obtain ⟨listed', st', copies', hfold, hmoves, hconfined, hcopies⟩ :=
        moves_itemSteps hrender hr items
          { st with document := r.copies.foldl Document.remove st.document } [] h
          (List.nil_subset _)
      have hrepeat : Stage.renderRepeat render st s r = (st', { r with copies := copies' }) := by
        have hrounds : Stage.renderRepeat render st s r =
            let out := items.foldl (itemRound render r)
              ({ st with document := r.copies.foldl Document.remove st.document }, [])
            (out.1, { r with copies := out.2 }) := by
          simp only [Stage.renderRepeat, hitems]
          rfl
        rw [hrounds, hfold]
      rw [hrepeat]
      refine ⟨listed', ?_, hconfined, hr.scope, hr.after, hr.site, hcopies⟩
      simpa only [Stage.repeatSteps, hitems] using hremove.trans hmoves

/-- **Several directives**, one after the other. -/
theorem moves_repeatsSteps (hrender : MovesAt render steps W sites writes) (s : ScopeId)
    (rs : List Repeat) (st : Stage) (done : List Repeat)
    (hrs : ∀ r ∈ rs, r.Confined W sites listed s)
    (hdone : ∀ r ∈ done, r.Confined W sites listed s)
    (h : st.scopes.Confined W sites writes listed) :
    ∃ listed' st' done', rs.foldl (repeatRound render s) (st, done) = (st', done') ∧
      Moves sites writes st.document listed (Stage.repeatsSteps render steps s st rs) st'.document
        listed' ∧
      st'.scopes.Confined W sites writes listed' ∧ ∀ r ∈ done', r.Confined W sites listed' s := by
  induction rs generalizing st done listed with
  | nil => exact ⟨listed, st, done, rfl, .nil _ _, h, hdone⟩
  | cons r rs ih =>
      obtain ⟨listed₁, hmoves, hconfined, hr⟩ :=
        moves_repeatSteps hrender st s (hrs r (List.mem_cons_self ..)) h
      have hsub := hmoves.subset
      have hdone₁ : ∀ r' ∈ done ++ [(Stage.renderRepeat render st s r).2],
          r'.Confined W sites listed₁ s := by
        intro r' hr'
        rcases List.mem_append.1 hr' with hr' | hr'
        · exact (hdone r' hr').mono hsub
        · rw [List.mem_singleton.1 hr']
          exact hr
      obtain ⟨listed', st', done', hfold, hrest, hconfined', hdone'⟩ :=
        ih (Stage.renderRepeat render st s r).1 _
          (fun r' hr' => (hrs r' (List.mem_cons_of_mem _ hr')).mono hsub) hdone₁ hconfined
      exact ⟨listed', st', done', hfold, hmoves.trans hrest, hconfined', hdone'⟩

end Rounds

/-- A round of rendering a scope, as a whole. -/
theorem renderTo_succ_eq (fuel : Nat) (st : Stage) (s : ScopeId) :
    Stage.renderTo (fuel + 1) st s =
      let (done, repeats) :=
        (st.scopes.repeats s).foldl (repeatRound (Stage.renderTo fuel) s) (st, [])
      let scopes := done.scopes.update s fun scope => { scope with repeats := repeats }
      let slots := ((scopes.get? s).map (·.slots)).getD .empty
      ⟨slots.fill (scopes.lookup? s) done.document, scopes⟩ := rfl

/-- With any number of rounds, rendering is moves. -/
theorem movesAt_renderTo (W : ScopeId → Prop) (sites : List Site) (writes : List NodeId)
    (fuel : Nat) : MovesAt (Stage.renderTo fuel) (Stage.stepsTo fuel) W sites writes := by
  induction fuel with
  | zero => exact fun st s listed _ h => ⟨listed, .nil _ _, h⟩
  | succ fuel ih =>
      intro st s listed hs h
      obtain ⟨listed', st', done, hfold, hmoves, hconfined, hdone⟩ :=
        moves_repeatsSteps ih s (st.scopes.repeats s) st [] (h.repeats s hs)
          (fun r hr => by cases hr) h
      rw [renderTo_succ_eq, Stage.stepsTo, hfold]
      have hscopes : (st'.scopes.update s fun scope => { scope with repeats := done }).Confined W
          sites writes listed' :=
        hconfined.update s (fun _ => rfl) fun _ _ _ r hr => hdone r hr
      refine ⟨listed', hmoves.trans (moves_fillSteps _ _ ?_), hscopes⟩
      intro p hp
      cases hscope : (st'.scopes.update s fun scope => { scope with repeats := done }).get? s with
      | none => simp [hscope, Slots.pairs, Slots.empty] at hp
      | some scope =>
          rw [hscope, Option.map_some, Option.getD_some] at hp
          exact hscopes.slots s scope hs hscope p hp

/-- **Rendering a scope is a sequence of moves**, and the copies that are listed when it is done are
old ones or have been listed on the way. -/
theorem Scopes.Confined.moves_steps {st : Stage} {s : ScopeId}
    (h : st.scopes.Confined W sites writes listed) (hs : W s) :
    ∃ listed', Moves sites writes st.document listed (st.steps s) (st.render s).document listed' ∧
      (st.render s).scopes.Confined W sites writes listed' :=
  movesAt_renderTo W sites writes st.scopes.entries.size st s listed hs h

/-- The copies of each of several directives are removed. -/
theorem remove_mem_repeatsSteps {render : Stage → ScopeId → Stage}
    {steps : Stage → ScopeId → List Operation} {s : ScopeId} {rs : List Repeat} {r : Repeat}
    {c : NodeId} (hr : r ∈ rs) (hc : c ∈ r.copies) (st : Stage) :
    .remove c ∈ Stage.repeatsSteps render steps s st rs := by
  induction rs generalizing st with
  | nil => cases hr
  | cons r' rs ih =>
      rw [Stage.repeatsSteps, List.mem_append]
      rcases List.mem_cons.1 hr with rfl | hr
      · refine .inl ?_
        rw [Stage.repeatSteps, List.mem_append]
        exact .inl (List.mem_map.2 ⟨c, hc, rfl⟩)
      · exact .inr (ih hr _)

/-- **Rendering a scope removes the copies that its directives list.** -/
theorem Stage.remove_mem_steps {st : Stage} {s : ScopeId} {r : Repeat} {c : NodeId}
    (hs : s < st.scopes.entries.size) (hr : r ∈ st.scopes.repeats s) (hc : c ∈ r.copies) :
    .remove c ∈ st.steps s := by
  obtain ⟨fuel, hfuel⟩ := Nat.exists_eq_succ_of_ne_zero (Nat.ne_of_gt (Nat.zero_lt_of_lt hs))
  rw [Stage.steps, hfuel, Stage.stepsTo]
  exact List.mem_append_left _ (remove_mem_repeatsSteps hr hc st)

end PageTemplate.Binding
