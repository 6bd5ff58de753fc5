/-
**Rendering shows what a mold means.**

Rendering a scope goes through its places in document order.  At each one it removes the copies that
are there, and then puts the items of the collection into the scope of the pattern, one after the
other, renders this scope, and makes a copy of the pattern.  What earlier renderings have left is never
shown: old copies go, and the pattern is rendered again before it is copied.

Main definitions:

* `PageTemplate.Binding.Filled` — a document shows a mold in an environment;
* `PageTemplate.Binding.Redone` — a stage after a scope has been rendered;
* `PageTemplate.Binding.Busy` — a stage while a scope is rendered.

Main results:

* `PageTemplate.Binding.Busy.renderItem`, `PageTemplate.Binding.Busy.renderRepeat`,
  `PageTemplate.Binding.Busy.renderRepeats` — what one item, one place and several places leave;
* `PageTemplate.Binding.Settled.render` — rendering a scope shows what its mold means.
-/

import PageTemplate.Binding.Stage
import PageTemplate.Proofs.Binding.Settled

set_option relaxedAutoImplicit false
set_option autoImplicit false

namespace PageTemplate.Binding

open PageTemplate.Data PageTemplate.Text

/-! ### What a document shows -/

/-- The document has the molds where it has their parts. -/
theorem holds_placedAll {d : Document} {copies : ScopeId → List Placed} {text : NodeId → String}
    {c : NodeId} {ms : List Mold} (h : ∀ x ∈ Mold.partsAll c ms, x.Holds d (fun _ => []) copies)
    (htext : ∀ p id span path, Part.slot p id span path ∈ Mold.partsAll c ms →
      d.text? id = some (text id)) :
    ∀ t ∈ Mold.placedAll text copies ms, d.Holds (some c) t := by
  induction ms using Mold.forest_induction generalizing c with
  | nil => simp [Mold.placedAll]
  | still id kind span items rest ihitems ihrest =>
      rw [Mold.partsAll_still] at h htext
      intro t ht
      rw [Mold.placedAll] at ht
      rcases List.mem_append.1 ht with ht | ht
      · rw [Mold.placed, List.mem_singleton] at ht
        subst ht
        have hget := Part.holds_still_iff.1 (h _ (List.mem_cons_self ..))
        rw [← Mold.map_id_placedAll text] at hget
        refine .node hget (ihitems (fun x hx => h x ?_) fun p i sp path hx => htext p i sp path ?_)
        · exact List.mem_cons_of_mem _ (List.mem_append_left _ hx)
        · exact List.mem_cons_of_mem _ (List.mem_append_left _ hx)
      · refine ihrest (fun x hx => h x ?_) (fun p i sp path hx => htext p i sp path ?_) t ht
        · exact List.mem_cons_of_mem _ (List.mem_append_right _ hx)
        · exact List.mem_cons_of_mem _ (List.mem_append_right _ hx)
  | slot id span path rest ih =>
      rw [Mold.partsAll_slot] at h htext
      intro t ht
      rw [Mold.placedAll] at ht
      rcases List.mem_append.1 ht with ht | ht
      · rw [Mold.placed, List.mem_singleton] at ht
        subst ht
        obtain ⟨u, hget⟩ := h _ (List.mem_cons_self ..)
        have hu := htext c id span path (List.mem_cons_self ..)
        have hu' : u = text id := by
          simpa [Document.text?, Document.kind?, hget, NodeKind.text?] using hu
        exact .node (hu' ▸ hget) (by simp)
      · exact ih (fun x hx => h x (List.mem_cons_of_mem _ hx))
          (fun p i sp path hx => htext p i sp path (List.mem_cons_of_mem _ hx)) t ht
  | each x s pattern rest _ ih =>
      rw [Mold.partsAll_each] at h htext
      intro t ht
      rw [Mold.placedAll] at ht
      rcases List.mem_append.1 ht with ht | ht
      · exact h _ (List.mem_cons_self ..) t (by simpa [Mold.placed] using ht)
      · exact ih (fun x hx => h x (List.mem_cons_of_mem _ hx))
          (fun p i sp path hx => htext p i sp path (List.mem_cons_of_mem _ hx)) t ht

/-- The molds show their meaning if their slots and places do. -/
theorem map_tree_placedAll {env : Env} {copies : ScopeId → List Placed} {text : NodeId → String}
    {c : NodeId} {ms : List Mold}
    (htext : ∀ p id span path, Part.slot p id span path ∈ Mold.partsAll c ms →
      text id = display (env.get? path))
    (hcopies : ∀ a, Part.each a ∈ Mold.partsAll c ms → (copies a.scope).map Placed.tree =
      (env.items a.expression.collection).flatMap fun v =>
        a.pattern.shown (Env.frame a.expression.item v :: env)) :
    (Mold.placedAll text copies ms).map Placed.tree = Mold.shownAll env ms := by
  induction ms using Mold.forest_induction generalizing c with
  | nil => rfl
  | still id kind span items rest ihitems ihrest =>
      rw [Mold.partsAll_still] at htext hcopies
      have hitems := ihitems (c := id)
        (fun p i sp path hx =>
          htext p i sp path (List.mem_cons_of_mem _ (List.mem_append_left _ hx)))
        fun a ha => hcopies a (List.mem_cons_of_mem _ (List.mem_append_left _ ha))
      have hrest := ihrest (c := c)
        (fun p i sp path hx =>
          htext p i sp path (List.mem_cons_of_mem _ (List.mem_append_right _ hx)))
        fun a ha => hcopies a (List.mem_cons_of_mem _ (List.mem_append_right _ ha))
      rw [Mold.placedAll, Mold.placed, List.map_append, hrest, Mold.shownAll, Mold.shown, ← hitems]
      simp
  | slot id span path rest ih =>
      rw [Mold.partsAll_slot] at htext hcopies
      have hrest := ih (c := c) (fun p i sp path hx => htext p i sp path (List.mem_cons_of_mem _ hx))
        fun a ha => hcopies a (List.mem_cons_of_mem _ ha)
      rw [Mold.placedAll, Mold.placed, List.map_append, hrest, Mold.shownAll, Mold.shown,
        htext c id span path (List.mem_cons_self ..)]
      simp
  | each x s pattern rest _ ih =>
      rw [Mold.partsAll_each] at htext hcopies
      have hrest := ih (c := c) (fun p i sp path hx => htext p i sp path (List.mem_cons_of_mem _ hx))
        fun a ha => hcopies a (List.mem_cons_of_mem _ ha)
      have hfirst := hcopies _ (List.mem_cons_self ..)
      rw [Mold.placedAll, Mold.placed, List.map_append, hrest, Mold.shownAll, Mold.shown, hfirst]

/-- A document shows the mold of a node in an environment, where the slots hold `text` and the copies
of each pattern are `copies`. -/
structure Filled (f : Scopes) (d : Document) (p : Option NodeId) (s : ScopeId) (id : NodeId)
    (kind : NodeKind) (span : Option Span) (items : List Mold) (env : Env)
    (text : NodeId → String) (copies : ScopeId → List Placed) (ys : List NodeId) : Prop where
  holds : d.Holds p (.node id kind span (Mold.placedAll text copies items))
  nodup : (Placed.node id kind span (Mold.placedAll text copies items)).ids.Nodup
  within : ∀ i ∈ (Placed.node id kind span (Mold.placedAll text copies items)).ids, i ∈ ys
  slots : ∀ c i sp path, Part.slot c i sp path ∈ Mold.level p id kind span items →
    text i = display (env.get? path)
  places : ∀ a, Part.each a ∈ Mold.level p id kind span items → (copies a.scope).map Placed.tree =
    (env.items a.expression.collection).flatMap fun v =>
      a.pattern.shown (Env.frame a.expression.item v :: env)
  repeats : f.repeats s =
    (Mold.spots (Mold.level p id kind span items)).map (Spot.toRepeat copies)

/-- Each node of a mold shows the meaning of its items. -/
theorem Filled.map_tree {f : Scopes} {d : Document} {p : Option NodeId} {s : ScopeId} {id : NodeId}
    {kind : NodeKind} {span : Option Span} {items : List Mold} {env : Env} {text : NodeId → String}
    {copies : ScopeId → List Placed} {ys : List NodeId}
    (h : Filled f d p s id kind span items env text copies ys)
    {q : Option NodeId} {i : NodeId} {k : NodeKind} {sp : Option Span} {ms : List Mold}
    (hms : Part.still q i k sp ms ∈ Mold.level p id kind span items) :
    (Mold.placedAll text copies ms).map Placed.tree = Mold.shownAll env ms :=
  map_tree_placedAll (c := i)
    (fun c i sp path hx => h.slots c i sp path ((Mold.level_sublist hms).subset hx))
    fun a ha => h.places a ((Mold.level_sublist hms).subset ha)

/-- What a scope has been rendered to. -/
structure Redone (st st' : Stage) (p : Option NodeId) (s : ScopeId) (m : Mold)
    (xs ys : List NodeId) (env : Env) : Prop where
  sound : st'.document.Sound
  settled : Settled st'.scopes st'.document p s m ys
  trades : st.document.Trades st'.document xs ys
  keeps : st.scopes.Keeps st'.scopes (s :: m.scopes)
  data : ∀ scope, st.scopes.get? s = some scope → ∃ scope', st'.scopes.get? s = some scope' ∧
    scope'.data = scope.data ∧ scope'.parent = scope.parent
  filled : ∀ id kind span items, m = .still id kind span items → ∃ text copies,
    Filled st'.scopes st'.document p s id kind span items env text copies ys

theorem Settled.exists_still {f : Scopes} {d : Document} {p : Option NodeId} {s : ScopeId}
    {m : Mold} {xs : List NodeId} (h : Settled f d p s m xs) :
    ∃ id kind span items, m = .still id kind span items := by
  cases h with
  | intro _ _ _ _ _ _ _ _ => exact ⟨_, _, _, _, rfl⟩

/-- A rendered mold is one tree. -/
theorem Redone.exists_tree {st st' : Stage} {p : Option NodeId} {s : ScopeId} {m : Mold}
    {xs ys : List NodeId} {env : Env} (h : Redone st st' p s m xs ys env) :
    ∃ t, st'.document.Holds p t ∧ t.id = m.id ∧ t.ids.Nodup ∧ [t.tree] = m.shown env := by
  obtain ⟨id, kind, span, items, rfl⟩ := h.settled.exists_still
  obtain ⟨text, copies, hf⟩ := h.filled id kind span items rfl
  refine ⟨_, hf.holds, rfl, hf.nodup, ?_⟩
  rw [Placed.tree_node, hf.map_tree (List.mem_cons_self ..), Mold.shown]

/-! ### While a scope is rendered -/

/-- A stage while the scope `s` is rendered in an environment, with old and new copies. -/
structure Busy (st : Stage) (s : ScopeId) (env : Env) (ps : List Part)
    (gone new : ScopeId → List Placed) (inner : ScopeId → List NodeId) : Prop where
  sound : st.document.Sound
  level : Level st.document ps gone new inner
  linked : ∀ a, Part.each a ∈ ps → Linked st.scopes s a
  settled : ∀ a, Part.each a ∈ ps →
    Settled st.scopes st.document none a.scope a.pattern (inner a.scope)
  sees : st.scopes.Sees s env

/-- Rendering the scope `s` shows what every mold bound to it means, among `n` scopes. -/
def RendersAt (render : Stage → ScopeId → Stage) (n : Nat) (s : ScopeId) : Prop :=
  ∀ ⦃st : Stage⦄ ⦃p : Option NodeId⦄ ⦃m : Mold⦄ ⦃xs : List NodeId⦄ ⦃env : Env⦄,
    st.scopes.entries.size = n → st.document.Sound → Settled st.scopes st.document p s m xs →
    st.scopes.Sees s env → ∃ ys, Redone st (render st s) p s m xs ys env

section Busy

variable {st : Stage} {s : ScopeId} {env : Env} {q : Option NodeId} {j : NodeId} {k : NodeKind}
  {sp : Option Span} {ms : List Mold} {gone new : ScopeId → List Placed}
  {inner : ScopeId → List NodeId} {a : Spot}

/-- A change of the document that leaves the patterns alone. -/
theorem Busy.of_document {d : Document} {gone' new' : ScopeId → List Placed}
    (h : Busy st s env (Mold.level q j k sp ms) gone new inner) (hd : d.Sound)
    (hl : Level d (Mold.level q j k sp ms) gone' new' inner)
    (hinner : ∀ b, Part.each b ∈ Mold.level q j k sp ms → ∀ i ∈ inner b.scope,
      d.get? i = st.document.get? i) :
    Busy { st with document := d } s env (Mold.level q j k sp ms) gone' new' inner where
  sound := hd
  level := hl
  linked := h.linked
  settled b hb := (h.settled b hb).congr (hinner b hb) (fun _ _ => rfl)
    fun scope hscope => ⟨scope, hscope, rfl, rfl⟩
  sees := h.sees

/-- Old copies go. -/
theorem Busy.removeCopies {ts : List Placed}
    (h : Busy st s env (Mold.level q j k sp ms) gone new inner)
    (hs : ((Mold.level q j k sp ms).flatMap Part.scopes).Nodup)
    (ha : Part.each a ∈ Mold.level q j k sp ms) (hgone : gone a.scope = ts) :
    Busy { st with document := (ts.map Placed.id).foldl Document.remove st.document } s env
        (Mold.level q j k sp ms) (Function.update gone a.scope []) new inner ∧
      st.document.Trades ((ts.map Placed.id).foldl Document.remove st.document)
        (occupied (Mold.level q j k sp ms) gone new inner)
        (occupied (Mold.level q j k sp ms) (Function.update gone a.scope []) new inner) := by
  induction ts generalizing st gone with
  | nil =>
      have hupdate : Function.update gone a.scope [] = gone := by
        rw [← hgone, Function.update_eq_self]
      rw [hupdate]
      exact ⟨h, .refl _ _⟩
  | cons t ts ih =>
      obtain ⟨hd, hl, ht, hinner⟩ := h.level.remove h.sound hs ha hgone
      have hrest := ih (h.of_document hd hl hinner) (Function.update_self ..)
      rw [Function.update_idem] at hrest
      exact ⟨hrest.1, ht.trans hrest.2⟩

/-- Only the own scopes of a place and its pattern are after the scope of the place. -/
theorem Busy.scope_notMem (h : Busy st s env (Mold.level q j k sp ms) gone new inner)
    (ha : Part.each a ∈ Mold.level q j k sp ms) {x : ScopeId} (hx : x ≤ s) :
    x ∉ a.scope :: a.pattern.scopes := by
  intro hmem
  have hlt := (h.linked a ha).lt
  rcases List.mem_cons.1 hmem with rfl | hmem
  · exact Nat.not_lt.2 hx hlt
  · exact Nat.not_lt.2 hx (Nat.lt_trans hlt ((h.settled a ha).lt hmem))

/-- Two places share no scope. -/
theorem scopes_disjoint (hs : ((Mold.level q j k sp ms).flatMap Part.scopes).Nodup)
    (ha : Part.each a ∈ Mold.level q j k sp ms) {b : Spot}
    (hb : Part.each b ∈ Mold.level q j k sp ms) (hne : b ≠ a) {x : ScopeId}
    (hx : x ∈ b.scope :: b.pattern.scopes) : x ∉ a.scope :: a.pattern.scopes := by
  intro hmem
  exact hne (Part.each.inj (eq_of_nodup_flatMap hs hb ha hx hmem))

/-- An item is put into the scope of a place. -/
theorem Linked.set {f : Scopes} (h : Linked f s a) (v : Value) :
    ∃ scope scope', f.get? a.scope = some scope ∧
      (f.set a.scope a.expression.item v).get? a.scope = some scope' ∧
      scope'.data = Env.frame a.expression.item v ∧ scope'.parent = some s ∧
      scope'.slots = scope.slots ∧ scope'.repeats = scope.repeats := by
  obtain ⟨scope, hscope, hparent, fields, hdata, hfields⟩ := h.scope
  refine ⟨scope, { scope with data := Env.frame a.expression.item v }, hscope, ?_, rfl, hparent, rfl,
    rfl⟩
  rw [Scopes.set, Scopes.get?_update, if_pos rfl, hscope, Option.map_some, hdata]
  rcases hfields with rfl | ⟨w, rfl⟩
  · rfl
  · simp [Fields.set, Env.frame]

theorem Scopes.keeps_set (f : Scopes) (s : ScopeId) (name : String) (v : Value) :
    f.Keeps (f.set s name v) [s] :=
  Scopes.keeps_update f s _

/-- The scopes up to that of the level do not change with the scopes of a place. -/
theorem Busy.sees_of_keeps {f : Scopes}
    (h : Busy st s env (Mold.level q j k sp ms) gone new inner)
    (ha : Part.each a ∈ Mold.level q j k sp ms)
    (hkeeps : st.scopes.Keeps f (a.scope :: a.pattern.scopes)) : f.Sees s env :=
  h.sees.congr fun x hx => by
    rw [Scopes.outlook?, Scopes.outlook?, hkeeps.get? x (h.scope_notMem ha hx)]

/-- An item is seen from the scope of the pattern. -/
theorem Busy.sees_item (h : Busy st s env (Mold.level q j k sp ms) gone new inner)
    (ha : Part.each a ∈ Mold.level q j k sp ms) (v : Value) :
    (st.scopes.set a.scope a.expression.item v).Sees a.scope
      (Env.frame a.expression.item v :: env) := by
  have hkeeps : st.scopes.Keeps (st.scopes.set a.scope a.expression.item v)
      (a.scope :: a.pattern.scopes) := (Scopes.keeps_set ..).mono (by simp)
  obtain ⟨_, scope', _, hscope', hdata, hparent, _, _⟩ := (h.linked a ha).set v
  rw [← hdata]
  exact .child hscope' hparent (h.linked a ha).lt (h.sees_of_keeps ha hkeeps)

/-- An item that is put into the scope of a pattern leaves the pattern settled. -/
theorem Busy.settled_item (h : Busy st s env (Mold.level q j k sp ms) gone new inner)
    (ha : Part.each a ∈ Mold.level q j k sp ms) (v : Value) :
    Settled (st.scopes.set a.scope a.expression.item v) st.document none a.scope a.pattern
      (inner a.scope) := by
  have hkeeps := Scopes.keeps_set st.scopes a.scope a.expression.item v
  obtain ⟨scope, scope', hscope, hscope', _, _, hslots, hrepeats⟩ := (h.linked a ha).set v
  refine (h.settled a ha).congr (fun _ _ => rfl) (fun x hx => hkeeps.get? x fun hmem => ?_) ?_
  · have hlt := (h.settled a ha).lt hx
    rw [List.mem_singleton.1 hmem] at hlt
    exact Nat.lt_irrefl _ hlt
  · intro scope₁ hscope₁
    rw [hscope] at hscope₁
    cases hscope₁
    exact ⟨scope', hscope', hslots, hrepeats⟩

/-- **The scopes and the slots of one pattern change**, and those of the other patterns do not. -/
theorem Busy.change {st' : Stage} {gone' new' : ScopeId → List Placed} {ys : List NodeId}
    (h : Busy st s env (Mold.level q j k sp ms) gone new inner)
    (hs : ((Mold.level q j k sp ms).flatMap Part.scopes).Nodup)
    (ha : Part.each a ∈ Mold.level q j k sp ms)
    (hkeeps : st.scopes.Keeps st'.scopes (a.scope :: a.pattern.scopes))
    (hsound : st'.document.Sound)
    (hl : Level st'.document (Mold.level q j k sp ms) gone' new' (Function.update inner a.scope ys))
    (hlinked : Linked st'.scopes s a)
    (hsettled : Settled st'.scopes st'.document none a.scope a.pattern ys)
    (hinner : ∀ b, Part.each b ∈ Mold.level q j k sp ms → b ≠ a → ∀ i ∈ inner b.scope,
      st'.document.get? i = st.document.get? i) :
    Busy st' s env (Mold.level q j k sp ms) gone' new' (Function.update inner a.scope ys) where
  sound := hsound
  level := hl
  linked b hb := by
    by_cases hba : b = a
    · rw [hba]
      exact hlinked
    · exact (h.linked b hb).congr
        (hkeeps.get? _ (scopes_disjoint hs ha hb hba (List.mem_cons_self ..)))
  settled b hb := by
    by_cases hba : b = a
    · rw [hba, Function.update_self]
      exact hsettled
    · have hscopes := fun x hx => hkeeps.get? x (scopes_disjoint hs ha hb hba hx)
      have hne : b.scope ≠ a.scope := fun e => hba (eq_of_scope hs hb ha e)
      rw [Function.update_of_ne hne]
      exact (h.settled b hb).congr (hinner b hb hba)
        (fun x hx => hscopes x (List.mem_cons_of_mem _ hx)) fun scope hscope =>
          ⟨scope, by rw [hscopes _ (List.mem_cons_self ..), hscope], rfl, rfl⟩
  sees := h.sees_of_keeps ha hkeeps

/-- **One item**: it is put into the scope of the pattern, which is rendered and copied. -/
theorem Busy.renderItem {render : Stage → ScopeId → Stage} {r : Repeat}
    (h : Busy st s env (Mold.level q j k sp ms) gone new inner)
    (hs : ((Mold.level q j k sp ms).flatMap Part.scopes).Nodup)
    (ha : Part.each a ∈ Mold.level q j k sp ms) (hrun : ∀ x ∈ a.run, new x = [])
    (hr : r.pattern = a.pattern.id ∧ r.container = a.container ∧ r.anchor = a.anchor)
    (hrender : RendersAt render st.scopes.entries.size a.scope) (v : Value) :
    ∃ st₂ u ys,
      render { st with scopes := st.scopes.set a.scope a.expression.item v } a.scope = st₂ ∧
      (Stage.copyPattern st₂.document r).2 = u.id ∧
      [u.tree] = a.pattern.shown (Env.frame a.expression.item v :: env) ∧
      Busy { st₂ with document := (Stage.copyPattern st₂.document r).1 } s env
        (Mold.level q j k sp ms) gone (Function.update new a.scope (new a.scope ++ [u]))
        (Function.update inner a.scope ys) ∧
      st.document.Trades (Stage.copyPattern st₂.document r).1
        (occupied (Mold.level q j k sp ms) gone new inner)
        (occupied (Mold.level q j k sp ms) gone
          (Function.update new a.scope (new a.scope ++ [u])) (Function.update inner a.scope ys)) ∧
      st.scopes.Keeps st₂.scopes (a.scope :: a.pattern.scopes) := by
  have hkeeps₁ := Scopes.keeps_set st.scopes a.scope a.expression.item v
  obtain ⟨_, scope₁, _, hscope₁, hdata, hparent, _, _⟩ := (h.linked a ha).set v
  -- the pattern is rendered
  obtain ⟨ys, hredone⟩ := @hrender { st with
    scopes := st.scopes.set a.scope a.expression.item v } _ _ _ _ hkeeps₁.size h.sound
      (h.settled_item ha v) (h.sees_item ha v)
  obtain ⟨st₂, hst₂⟩ : ∃ st₂, render { st with
    scopes := st.scopes.set a.scope a.expression.item v } a.scope = st₂ := ⟨_, rfl⟩
  rw [hst₂] at hredone
  have hkeeps : st.scopes.Keeps st₂.scopes (a.scope :: a.pattern.scopes) :=
    (hkeeps₁.mono (by simp)).trans hredone.keeps
  obtain ⟨hl, htrades, hinner⟩ := h.level.renew hs ha hredone.trades hredone.settled.nodup
    fun i hi => hredone.settled.live hi
  have hlinked : Linked st₂.scopes s a := by
    obtain ⟨scope₂, hscope₂, hdata₂, hparent₂⟩ := hredone.data scope₁ hscope₁
    exact ⟨(h.linked a ha).lt, scope₂, hscope₂, hparent₂.trans hparent, _, hdata₂.trans hdata,
      .inr ⟨v, rfl⟩⟩
  have hbusy := h.change hs ha hkeeps hredone.sound hl hlinked hredone.settled hinner
  -- and its tree is copied
  obtain ⟨t, ht, hid, hnodup, htree⟩ := hredone.exists_tree
  obtain ⟨u, hu, hutree, hgained⟩ := hredone.sound.slotted.clone ht hnodup
  obtain ⟨hsound, hl', htrades', hinner'⟩ := hl.insert hredone.sound hs ha hgained hrun
  have hcopy : Stage.copyPattern st₂.document r =
      ((st₂.document.clone t.id).1.insertBefore a.container u.id a.anchor, u.id) := by
    rw [Stage.copyPattern, hr.1, hr.2.1, hr.2.2, ← hid, hu]
  refine ⟨st₂, u, ys, hst₂, by rw [hcopy], by rw [hutree, htree], ?_, ?_, hkeeps⟩
  · rw [hcopy]
    exact hbusy.of_document hsound hl' hinner'
  · rw [hcopy]
    exact htrades.trans htrades'

/-- What is done for one item at a place, behind the copies for the items before it. -/
def itemRound (render : Stage → ScopeId → Stage) (r : Repeat) :
    Stage × List NodeId → Value → Stage × List NodeId := fun (st, copies) item =>
  let st := { st with scopes := st.scopes.set r.scope r.expression.item item }
  let st := render st r.scope
  let (document, copy) := Stage.copyPattern st.document r
  ({ st with document := document }, copies ++ [copy])

/-- **Several items**: the copies are what the pattern means for each of them. -/
theorem Busy.renderItems {render : Stage → ScopeId → Stage} (copies : ScopeId → List Placed)
    (hs : ((Mold.level q j k sp ms).flatMap Part.scopes).Nodup)
    (ha : Part.each a ∈ Mold.level q j k sp ms) (hself : a.scope ∉ a.run) {n : Nat}
    (hrender : RendersAt render n a.scope) (vs : List Value) (ids : List NodeId)
    (h : Busy st s env (Mold.level q j k sp ms) gone new inner) (hrun : ∀ x ∈ a.run, new x = [])
    (hn : st.scopes.entries.size = n) :
    ∃ st' us inner',
      vs.foldl (itemRound render (a.toRepeat copies)) (st, ids) = (st', ids ++ us.map Placed.id) ∧
      us.map Placed.tree = (vs.flatMap fun v =>
        a.pattern.shown (Env.frame a.expression.item v :: env)) ∧
      Busy st' s env (Mold.level q j k sp ms) gone
        (Function.update new a.scope (new a.scope ++ us)) inner' ∧
      st.document.Trades st'.document (occupied (Mold.level q j k sp ms) gone new inner)
        (occupied (Mold.level q j k sp ms) gone (Function.update new a.scope (new a.scope ++ us))
          inner') ∧
      st.scopes.Keeps st'.scopes (a.scope :: a.pattern.scopes) := by
  induction vs generalizing st new inner ids with
  | nil =>
      refine ⟨st, [], inner, ?_, rfl, ?_, ?_, .refl _ _⟩
      · simp
      · rw [List.append_nil, Function.update_eq_self]
        exact h
      · rw [List.append_nil, Function.update_eq_self]
        exact .refl _ _
  | cons v vs ih =>
      obtain ⟨st₂, u, ys, hst₂, hcopy, htree, hbusy, htrades, hkeeps⟩ :=
        h.renderItem (r := a.toRepeat copies) hs ha hrun ⟨rfl, rfl, rfl⟩ (hn ▸ hrender) v
      have hrun' : ∀ x ∈ a.run, Function.update new a.scope (new a.scope ++ [u]) x = [] := by
        intro x hx
        have hne : x ≠ a.scope := by
          rintro rfl
          exact hself hx
        rw [Function.update_of_ne hne, hrun x hx]
      obtain ⟨st', us, inner', hfold, hmap, hbusy', htrades', hkeeps'⟩ :=
        ih (ids ++ [u.id]) hbusy hrun' (hkeeps.size.trans hn)
      rw [Function.update_idem, Function.update_self, List.append_assoc] at hbusy' htrades'
      refine ⟨st', u :: us, inner', ?_, ?_, hbusy', htrades.trans htrades', hkeeps.trans hkeeps'⟩
      · have hround : itemRound render (a.toRepeat copies) (st, ids) v =
            ({ st₂ with document := (Stage.copyPattern st₂.document (a.toRepeat copies)).1 },
              ids ++ [u.id]) := by
          rw [← hcopy, ← hst₂]
          rfl
        rw [List.foldl_cons, hround, hfold, List.append_assoc]
        rfl
      · rw [List.map_cons, hmap, List.flatMap_cons, ← htree]
        rfl

/-- **One place**: the old copies go, and there is one new copy for each item. -/
theorem Busy.renderRepeat {render : Stage → ScopeId → Stage} {copies : ScopeId → List Placed}
    (h : Busy st s env (Mold.level q j k sp ms) gone new inner)
    (hs : ((Mold.level q j k sp ms).flatMap Part.scopes).Nodup)
    (ha : Part.each a ∈ Mold.level q j k sp ms) (hself : a.scope ∉ a.run)
    (hrun : ∀ x ∈ a.run, new x = []) (hpath : a.expression.collection ≠ "")
    (hgone : gone a.scope = copies a.scope) (hnew : new a.scope = [])
    (hrender : RendersAt render st.scopes.entries.size a.scope) :
    ∃ st' us inner',
      Stage.renderRepeat render st s (a.toRepeat copies) =
        (st', { a.toRepeat copies with copies := us.map Placed.id }) ∧
      us.map Placed.tree = ((env.items a.expression.collection).flatMap fun v =>
        a.pattern.shown (Env.frame a.expression.item v :: env)) ∧
      Busy st' s env (Mold.level q j k sp ms) (Function.update gone a.scope [])
        (Function.update new a.scope us) inner' ∧
      st.document.Trades st'.document (occupied (Mold.level q j k sp ms) gone new inner)
        (occupied (Mold.level q j k sp ms) (Function.update gone a.scope [])
          (Function.update new a.scope us) inner') ∧
      st.scopes.Keeps st'.scopes (a.scope :: a.pattern.scopes) := by
  obtain ⟨hbusy, htrades⟩ := h.removeCopies hs ha hgone
  have hlookup : st.scopes.lookup? s a.expression.collection = env.get? a.expression.collection :=
    h.sees.lookup? hpath
  let st₀ : Stage := { st with
    document := ((copies a.scope).map Placed.id).foldl Document.remove st.document }
  cases hitems : items? (env.get? a.expression.collection) with
  | none =>
      have hnone : env.items a.expression.collection = [] := by rw [Env.items, hitems]; rfl
      have hupdate : Function.update new a.scope [] = new := by
        rw [← hnew, Function.update_eq_self]
      refine ⟨st₀, [], inner, ?_, by rw [hnone]; rfl, ?_, ?_, .refl _ _⟩
      · simp only [Stage.renderRepeat, Spot.toRepeat, hlookup, hitems]
        rfl
      · rw [hupdate]
        exact hbusy
      · rw [hupdate]
        exact htrades
  | some vs =>
      have hsome : env.items a.expression.collection = vs := by rw [Env.items, hitems]; rfl
      obtain ⟨st', us, inner', hfold, hmap, hbusy', htrades', hkeeps⟩ :=
        Busy.renderItems copies hs ha hself hrender vs [] hbusy hrun rfl
      rw [hnew, List.nil_append] at hbusy' htrades'
      refine ⟨st', us, inner', ?_, by rw [hsome, hmap], hbusy', htrades.trans htrades', hkeeps⟩
      have hrepeat : Stage.renderRepeat render st s (a.toRepeat copies) =
          let out := vs.foldl (itemRound render (a.toRepeat copies)) (st₀, [])
          (out.1, { a.toRepeat copies with copies := out.2 }) := by
        simp only [Stage.renderRepeat, Spot.toRepeat, hlookup, hitems]
        rfl
      rw [hrepeat, hfold]
      rfl

/-- What is done for one place, behind the places before it. -/
def repeatRound (render : Stage → ScopeId → Stage) (s : ScopeId) :
    Stage × List Repeat → Repeat → Stage × List Repeat := fun (st, repeats) r =>
  let (st, r) := Stage.renderRepeat render st s r
  (st, repeats ++ [r])

/-- **Several places**, one after the other: each one shows what it means. -/
theorem Busy.renderRepeats {render : Stage → ScopeId → Stage} (copies : ScopeId → List Placed)
    (hs : ((Mold.level q j k sp ms).flatMap Part.scopes).Nodup) {n : Nat} {es : List Spot}
    (hes : ∀ a ∈ es, Part.each a ∈ Mold.level q j k sp ms ∧ a.expression.collection ≠ "" ∧
      RendersAt render n a.scope)
    (hord : Mold.Ordered es) (hnodup : (es.map Spot.scope).Nodup) (rs : List Repeat)
    (h : Busy st s env (Mold.level q j k sp ms) gone new inner)
    (hold : ∀ a ∈ es, gone a.scope = copies a.scope ∧ new a.scope = [])
    (hn : st.scopes.entries.size = n) :
    ∃ st' gone' new' inner',
      (es.map (Spot.toRepeat copies)).foldl (repeatRound render s) (st, rs) =
        (st', rs ++ es.map (Spot.toRepeat new')) ∧
      Busy st' s env (Mold.level q j k sp ms) gone' new' inner' ∧
      (∀ a ∈ es, gone' a.scope = [] ∧ (new' a.scope).map Placed.tree =
        (env.items a.expression.collection).flatMap fun v =>
          a.pattern.shown (Env.frame a.expression.item v :: env)) ∧
      (∀ x, x ∉ es.map Spot.scope → gone' x = gone x ∧ new' x = new x) ∧
      st.document.Trades st'.document (occupied (Mold.level q j k sp ms) gone new inner)
        (occupied (Mold.level q j k sp ms) gone' new' inner') ∧
      st.scopes.Keeps st'.scopes (Mold.scopesAll ms) := by
  induction es generalizing st gone new inner rs with
  | nil =>
      exact ⟨st, gone, new, inner, by simp, h, by simp, fun _ _ => ⟨rfl, rfl⟩, .refl _ _, .refl _ _⟩
  | cons a es ih =>
      obtain ⟨ha, hpath, hrender⟩ := hes a (List.mem_cons_self ..)
      rw [List.map_cons, List.nodup_cons] at hnodup
      obtain ⟨hgone, hnew⟩ := hold a (List.mem_cons_self ..)
      -- the places between this one and its anchor have no new copies yet
      have hrun : ∀ x ∈ a.run, new x = [] := by
        intro x hx
        obtain ⟨b, hb, rfl⟩ := List.mem_map.1 (hord.1 x hx)
        exact (hold b (List.mem_cons_of_mem _ hb)).2
      have hself : a.scope ∉ a.run := fun hmem => hnodup.1 (hord.1 _ hmem)
      obtain ⟨st₁, us, inner₁, hround, hmap, hbusy, htrades, hkeeps⟩ :=
        h.renderRepeat hs ha hself hrun hpath hgone hnew (hn ▸ hrender)
      have hold' : ∀ b ∈ es, Function.update gone a.scope [] b.scope = copies b.scope ∧
          Function.update new a.scope us b.scope = [] := by
        intro b hb
        have hne : b.scope ≠ a.scope := by
          intro e
          exact hnodup.1 (e ▸ List.mem_map.2 ⟨b, hb, rfl⟩)
        rw [Function.update_of_ne hne, Function.update_of_ne hne]
        exact hold b (List.mem_cons_of_mem _ hb)
      obtain ⟨st', gone', new', inner', hfold, hbusy', hshown, hother, htrades', hkeeps'⟩ :=
        ih (fun b hb => hes b (List.mem_cons_of_mem _ hb)) hord.2 hnodup.2
          (rs ++ [{ a.toRepeat copies with copies := us.map Placed.id }]) hbusy hold'
          (hkeeps.size.trans hn)
      obtain ⟨hgone', hnew'⟩ := hother a.scope hnodup.1
      rw [Function.update_self] at hgone' hnew'
      refine ⟨st', gone', new', inner', ?_, hbusy', fun b hb => ?_, fun x hx => ?_,
        htrades.trans htrades', (hkeeps.mono fun x hx => ?_).trans hkeeps'⟩
      · have hfirst : repeatRound render s (st, rs) (a.toRepeat copies) =
            (st₁, rs ++ [{ a.toRepeat copies with copies := us.map Placed.id }]) := by
          simp only [repeatRound, hround]
        rw [List.map_cons, List.foldl_cons, hfirst, hfold, List.map_cons, List.append_assoc]
        simp [Spot.toRepeat, hnew']
      · rcases List.mem_cons.1 hb with rfl | hb
        · exact ⟨hgone', by rw [hnew', hmap]⟩
        · exact hshown b hb
      · rw [List.map_cons, List.mem_cons, not_or] at hx
        obtain ⟨h₁, h₂⟩ := hother x hx.2
        rw [h₁, h₂, Function.update_of_ne hx.1, Function.update_of_ne hx.1]
        exact ⟨rfl, rfl⟩
      · exact mem_scopesAll_of_each ha hx

end Busy

/-! ### Filling the slots of a scope -/

section Fill

variable {d : Document} {value : String → Option Value} {q : Option NodeId} {j : NodeId}
  {k : NodeKind} {sp : Option Span} {ms : List Mold} {gone new : ScopeId → List Placed}
  {inner : ScopeId → List NodeId}

/-- No two slots have the same node. -/
theorem Level.nodup_slotList {ps : List Part} (h : Level d ps gone new inner) :
    ((slotList ps).map Prod.snd).Nodup := by
  refine h.nodup.sublist ?_
  clear h
  induction ps with
  | nil => simp [slotList]
  | cons x ps ih =>
      rw [occupied, List.flatMap_cons]
      cases x with
      | still p id kind span items => exact ih.trans (List.sublist_append_right _ _)
      | slot p id span path => exact ih.cons_cons _
      | each a => exact ih.trans (List.sublist_append_right _ _)

/-- Filling leaves the slots of a part alone that is no slot. -/
theorem Level.get?_fill (h : Level d (Mold.level q j k sp ms) gone new inner) {x : Part}
    (hx : x ∈ Mold.level q j k sp ms) (hslot : x.slot? = none) {i : NodeId}
    (hi : i ∈ x.ids (foot gone new inner)) :
    ((Slots.ofList (slotList (Mold.level q j k sp ms))).fill value d).get? i = d.get? i := by
  refine get?_fill_of_notMem fun hmem => ?_
  obtain ⟨⟨path, i'⟩, hpair, rfl⟩ := List.mem_map.1 hmem
  obtain ⟨p, span, hs⟩ := mem_slotList.1 hpair
  have := h.eq_of_mem hx hs hi (by simp [Part.ids])
  subst this
  cases hslot

variable (value) in
/-- Filling leaves a text node for each slot, which shows the value of its path. -/
theorem Level.get?_fill_slot (h : Level d (Mold.level q j k sp ms) gone new inner)
    {p : NodeId} {i : NodeId} {span : Option Span} {path : String}
    (hx : Part.slot p i span path ∈ Mold.level q j k sp ms) :
    ((Slots.ofList (slotList (Mold.level q j k sp ms))).fill value d).get? i =
      some ⟨.text (display (value path)), some p, [], span⟩ := by
  obtain ⟨t, ht⟩ := h.holds _ hx
  exact get?_fill_of_mem h.nodup_slotList (mem_slotList.2 ⟨p, span, hx⟩) ht

/-- A slot shows what a scope sees at its path. -/
theorem Level.text?_fill (h : Level d (Mold.level q j k sp ms) gone new inner) {f : Scopes}
    {s : ScopeId} {env : Env} (hsees : f.Sees s env) {p : NodeId} {i : NodeId} {span : Option Span}
    {path : String} (hpath : path ≠ "")
    (hx : Part.slot p i span path ∈ Mold.level q j k sp ms) :
    ((Slots.ofList (slotList (Mold.level q j k sp ms))).fill (f.lookup? s) d).text? i =
      some (display (env.get? path)) := by
  have hget := h.get?_fill_slot (f.lookup? s) hx
  rw [hsees.lookup? hpath] at hget
  rw [Document.text?, Document.kind?, hget]
  rfl

/-- **Filling keeps a level.** -/
theorem Level.fill (h : Level d (Mold.level q j k sp ms) gone new inner) :
    Level ((Slots.ofList (slotList (Mold.level q j k sp ms))).fill value d)
      (Mold.level q j k sp ms) gone new inner where
  holds x hx := by
    cases x with
    | still p id kind span items => exact (h.holds _ hx).congr fun i hi => h.get?_fill hx rfl hi
    | slot p id span path => exact ⟨_, h.get?_fill_slot value hx⟩
    | each a => exact (h.holds _ hx).congr fun i hi => h.get?_fill hx rfl hi
  nodup := h.nodup
  live a ha i hi := by
    obtain ⟨n, hn⟩ := h.live a ha i hi
    exact ⟨n, by rw [h.get?_fill ha rfl (List.mem_append_right _ hi), hn]⟩

/-- Filling is a trade among the slots of a level. -/
theorem Level.trades_fill (d : Document) (gone new : ScopeId → List Placed)
    (inner : ScopeId → List NodeId) :
    d.Trades ((Slots.ofList (slotList (Mold.level q j k sp ms))).fill value d)
      (occupied (Mold.level q j k sp ms) gone new inner)
      (occupied (Mold.level q j k sp ms) gone new inner) where
  within _ hx := .inl hx
  dead _ hx hx' := absurd hx hx'
  keeps x hx _ := by
    refine get?_fill_of_notMem fun hmem => hx ?_
    obtain ⟨⟨path, i⟩, hpair, rfl⟩ := List.mem_map.1 hmem
    obtain ⟨p, span, hs⟩ := mem_slotList.1 hpair
    exact List.mem_flatMap.2 ⟨_, hs, by simp [Part.ids]⟩

/-- What a level without old copies has at its topmost node is a tree. -/
theorem Level.holds_node (h : Level d (Mold.level q j k sp ms) (fun _ => []) new inner)
    {text : NodeId → String}
    (htext : ∀ p id span path, Part.slot p id span path ∈ Mold.level q j k sp ms →
      d.text? id = some (text id)) :
    d.Holds q (.node j k sp (Mold.placedAll text new ms)) := by
  have hget := Part.holds_still_iff.1 (h.holds _ (List.mem_cons_self ..))
  rw [← Mold.map_id_placedAll text] at hget
  exact .node hget (holds_placedAll (fun x hx => h.holds x (List.mem_cons_of_mem _ hx))
    fun p i span path hx => htext p i span path (List.mem_cons_of_mem _ hx))

/-- The slots of what a level shows are among those that it occupies. -/
theorem ids_node_sublist (text : NodeId → String) (new : ScopeId → List Placed)
    (inner : ScopeId → List NodeId) :
    (Placed.node j k sp (Mold.placedAll text new ms)).ids.Sublist
      (occupied (Mold.level q j k sp ms) (fun _ => []) new inner) := by
  rw [Placed.ids_node, occupied, Mold.level, List.flatMap_cons]
  refine (Mold.ids_placedAll_sublist text (fun s => ?_) j ms).cons_cons _
  exact List.sublist_append_left _ _

theorem Level.nodup_node (h : Level d (Mold.level q j k sp ms) (fun _ => []) new inner)
    (text : NodeId → String) :
    (Placed.node j k sp (Mold.placedAll text new ms)).ids.Nodup :=
  h.nodup.sublist (ids_node_sublist text new inner)

end Fill

/-! ### Rendering a scope -/

/-- The directives of a scope are not seen from any. -/
theorem Scopes.Sees.update_repeats {f : Scopes} {s : ScopeId} {env : Env} (h : f.Sees s env)
    (x : ScopeId) (rs : List Repeat) :
    (f.update x fun scope => { scope with repeats := rs }).Sees s env := by
  refine h.congr fun y _ => ?_
  rw [Scopes.outlook?, Scopes.outlook?, Scopes.get?_update]
  split
  · rename_i hy
    rw [hy, Option.map_map]
    rfl
  · rfl

/-- What a round of rendering a scope does, in terms of what it does at each place. -/
theorem renderTo_succ {fuel : Nat} {st st' : Stage} {s : ScopeId} {scope : Scope}
    {rs : List Repeat} (hscope : st.scopes.get? s = some scope)
    (hscope' : st'.scopes.get? s = some scope)
    (hfold : scope.repeats.foldl (repeatRound (Stage.renderTo fuel) s) (st, []) = (st', rs)) :
    Stage.renderTo (fuel + 1) st s =
      ⟨scope.slots.fill ((st'.scopes.update s fun scope => { scope with repeats := rs }).lookup? s)
        st'.document, st'.scopes.update s fun scope => { scope with repeats := rs }⟩ := by
  have hrepeats : st.scopes.repeats s = scope.repeats := by
    rw [Scopes.repeats, hscope]
    rfl
  have hfold' : (st.scopes.repeats s).foldl (fun (st, repeats) r =>
      let (st, r) := Stage.renderRepeat (Stage.renderTo fuel) st s r
      (st, repeats ++ [r])) (st, ([] : List Repeat)) = (st', rs) := by
    rw [hrepeats]
    exact hfold
  rw [Stage.renderTo, hfold']
  simp only [Scopes.get?_update, ↓reduceIte, hscope', Option.map_some, Option.getD_some]

/-- The places of a mold have different scopes. -/
theorem nodup_spots {ps : List Part} (hs : (ps.flatMap Part.scopes).Nodup) :
    ((Mold.spots ps).map Spot.scope).Nodup := by
  refine hs.sublist ?_
  clear hs
  induction ps with
  | nil => simp [Mold.spots]
  | cons x ps ih =>
      rw [List.flatMap_cons]
      cases x with
      | still p id kind span items => exact ih
      | slot p id span path => exact ih
      | each a => exact (ih.trans (List.sublist_append_right _ _)).cons_cons _

/-- Places that have been rendered, and then slots that have been filled, show what a mold means. -/
theorem Busy.redone {st st' : Stage} {p : Option NodeId} {s : ScopeId} {id : NodeId}
    {kind : NodeKind} {span : Option Span} {items : List Mold} {env : Env} {scope : Scope}
    {copies : ScopeId → List Placed} {inner' : ScopeId → List NodeId}
    (h : Busy st' s env (Mold.level p id kind span items) (fun _ => []) copies inner')
    {xs : List NodeId} (hscope : st.scopes.get? s = some scope)
    (hscope' : st'.scopes.get? s = some scope)
    (hslots : scope.slots = .ofList (slotList (Mold.level p id kind span items)))
    (named : ∀ x ∈ Mold.level p id kind span items, x.Named)
    (scopes : (Mold.scopesAll items).Nodup)
    (hshown : ∀ a, Part.each a ∈ Mold.level p id kind span items →
      (copies a.scope).map Placed.tree = (env.items a.expression.collection).flatMap fun v =>
        a.pattern.shown (Env.frame a.expression.item v :: env))
    (htrades : st.document.Trades st'.document xs
      (occupied (Mold.level p id kind span items) (fun _ => []) copies inner'))
    (hkeeps : st.scopes.Keeps st'.scopes (Mold.scopesAll items))
    {rs : List Repeat}
    (hrs : rs = (Mold.spots (Mold.level p id kind span items)).map (Spot.toRepeat copies)) :
    Redone st
      ⟨scope.slots.fill ((st'.scopes.update s fun scope => { scope with repeats := rs }).lookup? s)
        st'.document, st'.scopes.update s fun scope => { scope with repeats := rs }⟩
      p s (.still id kind span items) xs
      (occupied (Mold.level p id kind span items) (fun _ => []) copies inner') env := by
  subst hrs
  obtain ⟨f, hf⟩ : ∃ f, (st'.scopes.update s fun scope => { scope with
    repeats := (Mold.spots (Mold.level p id kind span items)).map (Spot.toRepeat copies) }) = f :=
    ⟨_, rfl⟩
  have hkeeps' : st'.scopes.Keeps f [s] := by
    rw [← hf]
    exact Scopes.keeps_update ..
  have hfs : f.get? s = some { scope with
      repeats := (Mold.spots (Mold.level p id kind span items)).map (Spot.toRepeat copies) } := by
    rw [← hf, Scopes.get?_update, if_pos rfl, hscope']
    rfl
  have hsees : f.Sees s env := by
    rw [← hf]
    exact h.sees.update_repeats s _
  rw [hf, hslots]
  have htext : ∀ c i sp path, Part.slot c i sp path ∈ Mold.level p id kind span items →
      ((Slots.ofList (slotList (Mold.level p id kind span items))).fill (f.lookup? s)
        st'.document).text? i = some (display (env.get? path)) :=
    fun c i sp path hx => h.level.text?_fill hsees (named _ hx) hx
  have hother : ∀ a, Part.each a ∈ Mold.level p id kind span items →
      ∀ x ∈ a.scope :: a.pattern.scopes, f.get? x = st'.scopes.get? x := by
    intro a ha x hx
    refine hkeeps'.get? x fun hmem => h.scope_notMem ha (Nat.le_refl s) ?_
    rwa [List.mem_singleton.1 hmem] at hx
  refine ⟨sound_fill h.sound, .intro hfs hslots rfl h.level.fill named scopes (fun a ha => ?_)
    fun a ha => ?_, htrades.trans (Level.trades_fill ..), (hkeeps.mono ?_).trans (hkeeps'.mono ?_),
    fun scope₁ hscope₁ => ?_, ?_⟩
  · exact (h.linked a ha).congr (hother a ha _ (List.mem_cons_self ..))
  · refine (h.settled a ha).congr (fun i hi => ?_) (fun x hx => ?_) fun scope₁ hscope₁ => ?_
    · exact h.level.get?_fill ha rfl (List.mem_append_right _ hi)
    · exact hother a ha x (List.mem_cons_of_mem _ hx)
    · exact ⟨scope₁, by rw [hother a ha _ (List.mem_cons_self ..), hscope₁], rfl, rfl⟩
  · exact fun x hx => List.mem_cons_of_mem _ hx
  · exact fun x hx => by rw [List.mem_singleton.1 hx]; exact List.mem_cons_self ..
  · rw [hscope] at hscope₁
    cases hscope₁
    exact ⟨_, hfs, rfl, rfl⟩
  · rintro id' kind' span' items' hm
    cases hm
    let text : NodeId → String := fun i => (((Slots.ofList (slotList
      (Mold.level p id kind span items))).fill (f.lookup? s) st'.document).text? i).getD ""
    refine ⟨text, copies, h.level.fill.holds_node fun c i sp path hx => ?_, h.level.nodup_node _,
      fun i hi => (ids_node_sublist _ copies inner').subset hi, fun c i sp path hx => ?_, hshown, ?_⟩
    · simp only [text, htext c i sp path hx, Option.getD_some]
    · simp only [text, htext c i sp path hx, Option.getD_some]
    · rw [Scopes.repeats, hfs]
      rfl

/-- **Rendering shows what a mold means**, if there is a round for every scope that may be below. -/
theorem renderTo_rendersAt (fuel : Nat) {n : Nat} {s : ScopeId} (hn : n ≤ fuel + s) :
    RendersAt (Stage.renderTo fuel) n s := by
  induction fuel generalizing s with
  | zero =>
      intro st p m xs env hsize _ _ hsees
      obtain ⟨scope, hscope⟩ := hsees.exists_get?
      have hlt := Scopes.lt_size_of_get? hscope
      rw [hsize] at hlt
      rw [Nat.zero_add] at hn
      exact absurd hlt (Nat.not_lt.2 hn)
  | succ fuel ih =>
      intro st p m xs env hsize hsound hsettled hsees
      have hnotMem : s ∉ m.scopes := fun hmem => Nat.lt_irrefl _ (hsettled.lt hmem)
      obtain @⟨_, _, id, kind, span, items, scope, copies, inner, hscope, hslots, hrepeats, level,
        named, scopes, linked, settled⟩ := hsettled
      have hs : ((Mold.level p id kind span items).flatMap Part.scopes).Nodup := by
        rw [flatMap_scopes_level]
        exact scopes
      have hbusy : Busy st s env (Mold.level p id kind span items) copies (fun _ => []) inner :=
        ⟨hsound, level.renamed, linked, settled, hsees⟩
      -- the places below have scopes after this one, so there are rounds enough for them
      have hes : ∀ a ∈ Mold.spots (Mold.level p id kind span items),
          Part.each a ∈ Mold.level p id kind span items ∧ a.expression.collection ≠ "" ∧
          RendersAt (Stage.renderTo fuel) n a.scope := by
        intro a ha
        have ha' := Mold.mem_spots.1 ha
        refine ⟨ha', named _ ha', ih (Nat.le_trans hn ?_)⟩
        rw [Nat.succ_add, ← Nat.add_succ]
        exact Nat.add_le_add_left (linked a ha').lt fuel
      obtain ⟨st', gone', new', inner', hfold, hbusy', hshown, _, htrades, hkeeps⟩ :=
        Busy.renderRepeats copies hs hes (Mold.ordered_level ..) (nodup_spots hs) []
          hbusy (fun a _ => ⟨rfl, rfl⟩) hsize
      rw [← hrepeats, List.nil_append] at hfold
      have hscope' : st'.scopes.get? s = some scope := by
        rw [hkeeps.get? s hnotMem, hscope]
      -- every place has been rendered, so no old copy is left
      let none : ScopeId → List Placed := fun _ => []
      have hnone : ∀ a, Part.each a ∈ Mold.level p id kind span items →
          none a.scope = gone' a.scope ∧ new' a.scope = new' a.scope :=
        fun a ha => ⟨(hshown a (Mold.mem_spots.2 ha)).1.symm, rfl⟩
      have hbusy'' : Busy st' s env (Mold.level p id kind span items) none new' inner' :=
        hbusy'.of_document hbusy'.sound (hbusy'.level.congr_copies hnone) fun _ _ _ _ => rfl
      rw [occupied_renamed, ← occupied_congr hnone] at htrades
      rw [renderTo_succ hscope hscope' hfold]
      exact ⟨_, hbusy''.redone hscope hscope' hslots named scopes
        (fun a ha => (hshown a (Mold.mem_spots.2 ha)).2) htrades hkeeps rfl⟩

/-- **Rendering a scope shows what the mold that is bound to it means.** -/
theorem Settled.render {st : Stage} {p : Option NodeId} {s : ScopeId} {m : Mold} {xs : List NodeId}
    {env : Env} (h : Settled st.scopes st.document p s m xs) (hsound : st.document.Sound)
    (hsees : st.scopes.Sees s env) : ∃ ys, Redone st (st.render s) p s m xs ys env :=
  renderTo_rendersAt st.scopes.entries.size (Nat.le_add_right _ s) rfl hsound h hsees

end PageTemplate.Binding
