/-
**Pages that are bound for good.**

A page that has been read has no nodes but those of its tree.  When it is bound to a scope as a whole,
each of them is a node of the mold, and this stays so while the scope gets new data and is rendered:
the mold occupies all slots that are live.  Links stay on both of their sides, and nothing comes to be
below itself.  A rendering removes copies only, and no node of the mold is at or below one.

Main definitions:

* `PageTemplate.Binding.Installed` — a document is bound to a scope as a whole.

Main results:

* `PageTemplate.Binding.installed_compile` — a page that has been read and compiled is bound;
* `PageTemplate.Binding.Installed.run` — it stays bound, whatever is done with the scope;
* `PageTemplate.Binding.Installed.moves` — a rendering is moves that end and spare the mold.
-/

import PageTemplate.Proofs.Binding.Ancestors
import PageTemplate.Proofs.Binding.Separate
import PageTemplate.Proofs.Page.Updating

set_option relaxedAutoImplicit false
set_option autoImplicit false

namespace PageTemplate.Binding

open PageTemplate.Data PageTemplate.Document PageTemplate.Markup PageTemplate.Text

/-- A document is bound to the scope `s` as a whole, by a mold that occupies all of its nodes. -/
structure Installed (st : Stage) (s : ScopeId) (items : List Mold) : Prop where
  linked : st.document.Linked []
  forest : st.document.Forest
  sees : ∃ env, st.scopes.Sees s env
  settled : ∃ xs, Settled st.scopes st.document none s
    (.still Document.root .document none items) xs ∧ ∀ i, st.document.contains i = true → i ∈ xs

variable {st : Stage} {s : ScopeId} {items : List Mold}

theorem Installed.sound (h : Installed st s items) : st.document.Sound :=
  h.linked.sound h.forest

/-! ### Compiling -/

theorem stable_linked_forest : Stable fun d => d.Linked [] ∧ d.Forest where
  setText _ id text h := ⟨h.1.setText id text, h.2.setText id text⟩
  divide _ id head tail h := ⟨h.1.divide id head tail, h.2.divide h.1 id head tail⟩
  eraseAttribute d id name h := ⟨h.1.congr (sameLinks_eraseAttribute d id name) (h.1.slots.update _ _),
    h.2.eraseAttribute id name⟩
  detach _ id h := ⟨h.1.detach id, h.2.detach id⟩
  remove _ id h := ⟨h.1.remove id, h.2.remove h.1 id⟩

/-- A page that has been read is a forest, and each link is on both of its sides. -/
theorem linked_forest_of_parse {source : String} {d : Document}
    (hparse : Document.parse source = .ok d) : d.Linked [] ∧ d.Forest := by
  obtain ⟨_, hsound, hholds, -, hnodup, hall⟩ := Document.parse_covers hparse
  exact hsound.linked_forest hholds hnodup hall

/-- What a scope sees does not depend on what is bound to it. -/
theorem Scopes.Grows.sees {f g : Scopes} {env : Env} (h : f.Grows g s) (hs : f.Sees s env) :
    g.Sees s env := by
  obtain ⟨sc, hsc⟩ := hs.exists_get?
  refine hs.congr fun x hx => ?_
  rcases Nat.lt_or_eq_of_le hx with hlt | rfl
  · have hsize := Scopes.lt_size_of_get? hsc
    rw [Scopes.outlook?, h.get? x (Nat.lt_trans hlt hsize) (Nat.ne_of_lt hlt), Scopes.outlook?]
  · obtain ⟨sc', hsc', hdata, hparent⟩ := h.own sc hsc
    rw [Scopes.outlook?_of_get? hsc, Scopes.outlook?_of_get? hsc', hdata, hparent]

/-- **A page that has been read is bound when it has been compiled** to a scope that nothing was bound
to. -/
theorem installed_compile {source mark : String} {f : Scopes} {d : Document} {sc : Scope}
    (hparse : Document.parse source = .ok d) (hf : f.ParentsFirst) (hs : f.get? s = some sc)
    (hfresh : sc.repeats = [])
    (hcompile : (⟨d, f⟩ : Stage).compile mark s Document.root = .ok st) :
    ∃ cs items ys, Ground mark d none Document.root .document none cs ∧
      Compiled mark ⟨d, f⟩ st none s Document.root .document none cs items ys ∧
      Installed st s items := by
  obtain ⟨cs, hsound, hholds, hproper, hnodup, hall⟩ := Document.parse_covers hparse
  have hbindable : Bindable mark cs :=
    bindable_of_compile hproper (by exact hholds) hnodup hcompile
  have hground : Ground mark (⟨d, f⟩ : Stage).document none Document.root .document none cs :=
    ⟨hsound, hholds, hnodup, hbindable⟩
  obtain ⟨st', items, ys, hok, hcompiled⟩ := hground.compile hs hfresh
  obtain rfl : st' = st := Except.ok.inj (hok.symm.trans hcompile)
  have hlinks : st'.document.Linked [] ∧ st'.document.Forest :=
    stable_linked_forest.compile hcompile (linked_forest_of_parse hparse)
  refine ⟨cs, items, ys, hground, hcompiled, hlinks.1, hlinks.2,
    ⟨_, hcompiled.grows.sees (hf.sees hs)⟩, ys, hcompiled.settled, fun i hi => ?_⟩
  by_contra hmem
  -- a node that the mold does not occupy was there before, and so the mold occupies it
  have hbefore : d.contains i = true := by
    rw [Document.contains, hcompiled.keeps i hmem] at hi
    exact hi
  exact hmem (hcompiled.covers i (hall i hbefore))

/-! ### Rendering -/

/-- **No node of the mold is at or below a copy.** -/
theorem Installed.apart (h : Installed st s items) {i c : NodeId}
    (hi : i ∈ (Mold.still Document.root .document none items).bones)
    (hc : c ∈ st.scopes.fragments s) : ¬Relation.ReflTransGen st.document.ChildOf i c := by
  obtain ⟨xs, hsettled, -⟩ := h.settled
  exact hsettled.apart h.linked hi hc

theorem Installed.live (h : Installed st s items) {i : NodeId}
    (hi : i ∈ (Mold.still Document.root .document none items).bones) :
    st.document.contains i = true := by
  obtain ⟨xs, hsettled, -⟩ := h.settled
  exact contains_iff.2 (hsettled.live (hsettled.mem_of_bone hi))

/-- What scopes remember are nodes of the mold. -/
theorem Installed.bone_of_handle (h : Installed st s items) {i : NodeId}
    (hi : i ∈ st.scopes.handles s) : i ∈ (Mold.still Document.root .document none items).bones := by
  obtain ⟨xs, hsettled, -⟩ := h.settled
  exact hsettled.bone_of_handle hi

/-- **A rendering is a sequence of moves that end**, and spares the nodes of the mold on the way. -/
theorem Installed.moves (h : Installed st s items) :
    st.document.Ends (st.steps s) ∧
      st.document.performAll (st.steps s) = (st.render s).document ∧
      (st.render s).document.Linked [] ∧ (st.render s).document.Forest ∧
      ∀ e ∈ st.document.passes (st.steps s),
        ∀ i ∈ (Mold.still Document.root .document none items).bones,
          Spared (st.scopes.slotNodes s) st.document e i := by
  obtain ⟨xs, hsettled, -⟩ := h.settled
  obtain ⟨listed, hmoves, -⟩ := hsettled.ranked.render
  have hshelter := h.linked.shelter (st.scopes.fragments s)
  have hbone : ∀ i ∈ (Mold.still Document.root .document none items).bones,
      st.document.contains i = true ∧
        ∀ c ∈ st.scopes.fragments s, ¬Relation.ReflTransGen st.document.ChildOf i c :=
    fun i hi => ⟨h.live hi, fun c hc => h.apart hi hc⟩
  obtain ⟨hends, hforest⟩ := hmoves.forest h.linked h.forest hshelter fun k hk => by
    obtain ⟨r, hr, rfl⟩ := List.mem_map.1 hk
    refine hbone _ (h.bone_of_handle (List.mem_append_right _ (List.mem_flatMap.2 ⟨r, hr, ?_⟩)))
    simp [Repeat.site]
  obtain ⟨hspared, hlinked, -⟩ := hmoves.spares h.linked hends hshelter
  exact ⟨hends, hmoves.performAll_eq, hlinked, hforest,
    fun e he i hi => hspared e he i (hbone i hi)⟩

/-- A rendering changes neither the data nor the parents that a scope sees. -/
theorem Redone.sees {st' : Stage} {p : Option NodeId} {m : Mold} {xs ys : List NodeId} {env : Env}
    (h : Redone st st' p s m xs ys env) (hsettled : Settled st.scopes st.document p s m xs)
    (hsees : st.scopes.Sees s env) : st'.scopes.Sees s env := by
  refine hsees.congr fun x hx => ?_
  rcases Nat.lt_or_eq_of_le hx with hlt | rfl
  · have hx' : x ∉ s :: m.scopes := by
      intro hmem
      rcases List.mem_cons.1 hmem with rfl | hmem
      · exact absurd hlt (Nat.lt_irrefl x)
      · exact absurd (hsettled.lt hmem) (Nat.not_lt.2 hx)
    rw [Scopes.outlook?, h.keeps.get? x hx', Scopes.outlook?]
  · obtain ⟨sc, hsc⟩ := hsees.exists_get?
    obtain ⟨sc', hsc', hdata, hparent⟩ := h.data sc hsc
    rw [Scopes.outlook?_of_get? hsc, Scopes.outlook?_of_get? hsc', hdata, hparent]

/-- **A rendering leaves the document bound**, and shows what the data of the scope mean. -/
theorem Installed.render (h : Installed st s items) :
    ∃ env xs ys, st.scopes.Sees s env ∧ (st.render s).scopes.Sees s env ∧
      Redone st (st.render s) none s (.still Document.root .document none items) xs ys env ∧
      Installed (st.render s) s items := by
  obtain ⟨env, hsees⟩ := h.sees
  obtain ⟨xs, hsettled, hall⟩ := h.settled
  obtain ⟨ys, hredone⟩ := hsettled.render h.sound hsees
  obtain ⟨-, -, hlinked, hforest, -⟩ := h.moves
  have hsees' : (st.render s).scopes.Sees s env := hredone.sees hsettled hsees
  refine ⟨env, xs, ys, hsees, hsees', hredone, hlinked, hforest, ⟨env, hsees'⟩, ys,
    hredone.settled, fun i hi => ?_⟩
  by_contra hmem
  by_cases hx : i ∈ xs
  · rw [contains_iff, hredone.trades.dead i hx hmem] at hi
    obtain ⟨n, hn⟩ := hi
    cases hn
  · -- what the mold has never occupied has never been live
    rw [Document.contains, hredone.trades.keeps i hx hmem] at hi
    exact hx (hall i hi)

/-! ### Runs -/

/-- New data leave a document bound. -/
theorem Installed.update (h : Installed st s items) (k : Scope → Scope)
    (hk : ∀ sc, (k sc).parent = sc.parent ∧ (k sc).slots = sc.slots ∧ (k sc).repeats = sc.repeats) :
    Installed { st with scopes := st.scopes.update s k } s items where
  linked := h.linked
  forest := h.forest
  sees := by
    obtain ⟨env, hsees⟩ := h.sees
    exact hsees.update fun sc => (hk sc).1
  settled := by
    obtain ⟨xs, hsettled, hall⟩ := h.settled
    exact ⟨xs, hsettled.update k fun sc => (hk sc).2, hall⟩

/-- What is done with the scope leaves the document bound. -/
theorem Installed.change (h : Installed st s items) (c : Change) :
    Installed (c.run s st) s items := by
  rcases Change.run_cases s st c with hrun | ⟨k, hrun, hk, -⟩
  · obtain ⟨_, _, _, _, _, _, hrender⟩ := h.render
    rwa [hrun]
  · rw [hrun]
    exact h.update k hk

/-- **A document stays bound**, whatever is done with the scope. -/
theorem Installed.run (h : Installed st s items) (changes : List Change) :
    Installed (Change.runAll s st changes) s items :=
  Change.runAll_keeps (P := (Installed · s items)) (fun _ c h => h.change c) h changes

/-- The page that repeats an element can be compiled. -/
theorem exists_compile_sample (v : Value) : ∃ st,
    (⟨Page.sampleDocument, (Scopes.empty.newRoot v).1⟩ : Stage).compile "hb-repeat"
      (Scopes.empty.newRoot v).2 Document.root = .ok st := by
  have hvalid : invalidRepeat? Page.sampleDocument "hb-repeat" Document.root = none := by
    decide +kernel
  rw [Stage.compile, hvalid]
  exact ⟨_, rfl⟩

/-- Of a run that ends with a rendering, the rendering is the last step. -/
theorem Change.runAll_append_render (s : ScopeId) (st : Stage) (changes : List Change) :
    Change.runAll s st (changes ++ [.render]) = (Change.runAll s st changes).render s := by
  rw [Change.runAll, List.foldl_append]
  rfl

end PageTemplate.Binding
