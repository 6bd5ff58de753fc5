/-
**What a scope has in a document.**

A scope has its own directives and slots, and those of the scopes of its directives, and so on below.
The scope of a directive comes after the scope that the directive belongs to, so a round for each scope
is enough to find them all.  Compiling numbers the scopes in this way, whatever document it is given,
and rendering only exchanges the copies that directives list.

Main definitions:

* `PageTemplate.Binding.Scopes.within` — a scope, and the scopes of the directives below it;
* `PageTemplate.Binding.Scopes.directives`, `PageTemplate.Binding.Scopes.fragments`,
  `PageTemplate.Binding.Scopes.slotNodes` — their directives, the copies that these list, and the nodes
  of their slots;
* `PageTemplate.Binding.Scopes.Ranked` — each directive has its scope behind its own;
* `PageTemplate.Binding.Inborn` — what directives have when they are made, and keep.

Main results:

* `PageTemplate.Binding.Stage.ranked_compile` — compiling ranks scopes;
* `PageTemplate.Binding.Scopes.Ranked.render` — rendering keeps them ranked, and is a sequence of
  moves;
* `PageTemplate.Binding.Inborn.compileTo` — compiling gives all its directives what is inborn to them.
-/

import PageTemplate.Proofs.Binding.Compiling
import PageTemplate.Proofs.Binding.Steps

set_option relaxedAutoImplicit false
set_option autoImplicit false

namespace PageTemplate.Binding

open PageTemplate.Data PageTemplate.Diagnostic PageTemplate.Document

namespace Scopes

/-- The scope `s` and, down to depth `fuel`, the scopes of the directives below it. -/
def withinTo (f : Scopes) : Nat → ScopeId → List ScopeId
  | 0, _ => []
  | fuel + 1, s => s :: (f.repeats s).flatMap fun r => f.withinTo fuel r.scope

/-- The scope `s` and the scopes of the directives below it.  No scope is below another over more
steps than there are scopes. -/
def within (f : Scopes) (s : ScopeId) : List ScopeId :=
  f.withinTo f.entries.size s

/-- The directives of a scope and of the scopes below it. -/
def directives (f : Scopes) (s : ScopeId) : List Repeat :=
  (f.within s).flatMap f.repeats

/-- The copies that these directives list. -/
def fragments (f : Scopes) (s : ScopeId) : List NodeId :=
  (f.directives s).flatMap (·.copies)

/-- What is copied for these directives, and where. -/
def sites (f : Scopes) (s : ScopeId) : List Site :=
  (f.directives s).map Repeat.site

/-- The nodes of the slots of one scope. -/
def slotsAt (f : Scopes) (x : ScopeId) : List NodeId :=
  ((f.get? x).map fun scope => scope.slots.pairs.map Prod.snd).getD []

/-- The nodes of the slots of a scope and of the scopes below it. -/
def slotNodes (f : Scopes) (s : ScopeId) : List NodeId :=
  (f.within s).flatMap f.slotsAt

variable {f g : Scopes} {s x : ScopeId} {r : Repeat}

theorem mem_directives : r ∈ f.directives s ↔ ∃ x ∈ f.within s, r ∈ f.repeats x :=
  List.mem_flatMap

theorem mem_fragments {c : NodeId} :
    c ∈ f.fragments s ↔ ∃ r ∈ f.directives s, c ∈ r.copies :=
  List.mem_flatMap

theorem mem_slotsAt {i : NodeId} :
    i ∈ f.slotsAt x ↔ ∃ scope path, f.get? x = some scope ∧ (path, i) ∈ scope.slots.pairs := by
  rw [slotsAt]
  cases h : f.get? x with
  | none => simp
  | some scope => simp

/-! ### Ranks -/

/-- At the scope `s` and below, each directive has its scope behind its own. -/
structure Ranked (f : Scopes) (s : ScopeId) : Prop where
  self : s ∈ f.within s
  lt : ∀ x ∈ f.within s, x < f.entries.size
  repeats : ∀ x ∈ f.within s, ∀ r ∈ f.repeats x, r.scope ∈ f.within s ∧ x < r.scope

section Confined

variable {W : ScopeId → Prop} {sites : List Site} {writes listed : List NodeId}

/-- The scopes below a scope of a set are in the set. -/
theorem Confined.of_mem_withinTo (h : f.Confined W sites writes listed) {fuel : Nat} (hs : W s)
    (hx : x ∈ f.withinTo fuel s) : W x := by
  induction fuel generalizing s with
  | zero => cases hx
  | succ fuel ih =>
      rcases List.mem_cons.1 hx with rfl | hx
      · exact hs
      · obtain ⟨r, hr, hx⟩ := List.mem_flatMap.1 hx
        exact ih (h.repeats s hs r hr).scope hx

/-- With rounds enough, the scopes below a scope have the scopes of their directives among them. -/
theorem Confined.scope_mem_withinTo (h : f.Confined W sites writes listed) {fuel : Nat} (hs : W s)
    (hfuel : f.entries.size ≤ fuel + s) (hx : x ∈ f.withinTo fuel s) (hr : r ∈ f.repeats x) :
    r.scope ∈ f.withinTo fuel s := by
  induction fuel generalizing s with
  | zero => cases hx
  | succ fuel ih =>
      -- the next scope is behind this one, so a round less is enough for it
      have hnext : ∀ r ∈ f.repeats s, f.entries.size ≤ fuel + r.scope := by
        intro r hr
        have hafter : s + 1 ≤ r.scope := (h.repeats s hs r hr).after
        calc f.entries.size ≤ fuel + (s + 1) := by rw [Nat.add_comm s 1, ← Nat.add_assoc]; exact hfuel
          _ ≤ fuel + r.scope := Nat.add_le_add_left hafter fuel
      rcases List.mem_cons.1 hx with rfl | hx
      · refine List.mem_cons_of_mem _ (List.mem_flatMap.2 ⟨r, hr, ?_⟩)
        have hlt : r.scope < f.entries.size := h.lt _ (h.repeats x hs r hr).scope
        cases fuel with
        | zero =>
            have hle := hnext r hr
            rw [Nat.zero_add] at hle
            exact absurd hlt (Nat.not_lt.2 hle)
        | succ fuel => exact List.mem_cons_self ..
      · obtain ⟨r', hr', hx⟩ := List.mem_flatMap.1 hx
        refine List.mem_cons_of_mem _ (List.mem_flatMap.2 ⟨r', hr', ?_⟩)
        exact ih (h.repeats s hs r' hr').scope (hnext r' hr') hx

/-- Confined scopes are ranked. -/
theorem Confined.ranked (h : f.Confined W sites writes listed) (hs : W s) : f.Ranked s where
  self := by
    rw [within]
    cases hsize : f.entries.size with
    | zero =>
        have hlt := h.lt s hs
        rw [hsize] at hlt
        exact absurd hlt (Nat.not_lt_zero s)
    | succ fuel => exact List.mem_cons_self ..
  lt x hx := h.lt x (h.of_mem_withinTo hs hx)
  repeats x hx r hr :=
    ⟨h.scope_mem_withinTo hs (Nat.le_add_right _ s) hx hr,
      (h.repeats x (h.of_mem_withinTo hs hx) r hr).after⟩

theorem Confined.fragments_subset (h : f.Confined W sites writes listed) (hs : W s) :
    f.fragments s ⊆ listed := by
  intro c hc
  obtain ⟨r, hr, hc⟩ := mem_fragments.1 hc
  obtain ⟨x, hx, hr⟩ := mem_directives.1 hr
  exact (h.repeats x (h.of_mem_withinTo hs hx) r hr).copies hc

theorem Confined.slotNodes_subset (h : f.Confined W sites writes listed) (hs : W s) :
    f.slotNodes s ⊆ writes := by
  intro i hi
  obtain ⟨x, hx, hi⟩ := List.mem_flatMap.1 hi
  obtain ⟨scope, path, hscope, hp⟩ := mem_slotsAt.1 hi
  exact h.slots x scope (h.of_mem_withinTo hs hx) hscope _ hp

theorem Confined.sites_subset (h : f.Confined W sites writes listed) (hs : W s) :
    f.sites s ⊆ sites := by
  intro k hk
  obtain ⟨r, hr, rfl⟩ := List.mem_map.1 hk
  obtain ⟨x, hx, hr⟩ := mem_directives.1 hr
  exact (h.repeats x (h.of_mem_withinTo hs hx) r hr).site

end Confined

/-- Ranked scopes are confined to what they have. -/
theorem Ranked.confined (h : f.Ranked s) :
    f.Confined (· ∈ f.within s) (f.sites s) (f.slotNodes s) (f.fragments s) where
  lt := h.lt
  repeats x hx r hr := by
    have hr' : r ∈ f.directives s := mem_directives.2 ⟨x, hx, hr⟩
    exact ⟨(h.repeats x hx r hr).1, (h.repeats x hx r hr).2, List.mem_map.2 ⟨r, hr', rfl⟩,
      fun c hc => mem_fragments.2 ⟨r, hr', hc⟩⟩
  slots x scope hx hscope p hp :=
    List.mem_flatMap.2 ⟨x, hx, mem_slotsAt.2 ⟨scope, p.1, hscope, hp⟩⟩

/-- **Rendering a ranked scope is a sequence of moves.**  It stays ranked, the copies that are listed
then have been listed on the way, and there are no other slots and places. -/
theorem Ranked.render {st : Stage} (h : st.scopes.Ranked s) :
    ∃ listed, Moves (st.scopes.sites s) (st.scopes.slotNodes s) st.document (st.scopes.fragments s)
        (st.steps s) (st.render s).document listed ∧
      (st.render s).scopes.Ranked s ∧ (st.render s).scopes.fragments s ⊆ listed ∧
      (st.render s).scopes.slotNodes s ⊆ st.scopes.slotNodes s ∧
      (st.render s).scopes.sites s ⊆ st.scopes.sites s := by
  obtain ⟨listed, hmoves, hconfined⟩ := h.confined.moves_steps h.self
  exact ⟨listed, hmoves, hconfined.ranked h.self, hconfined.fragments_subset h.self,
    hconfined.slotNodes_subset h.self, hconfined.sites_subset h.self⟩

/-! ### Compiling ranks scopes -/

/-- The directives of `s`, and those of the scopes from `n` on, have scopes among these, each behind
the scope that the directive belongs to. -/
structure RankedFrom (n : Nat) (f : Scopes) (own : List Repeat) : Prop where
  own : ∀ r ∈ own, n ≤ r.scope ∧ r.scope < f.entries.size
  new : ∀ x, n ≤ x → ∀ r ∈ f.repeats x, x < r.scope ∧ r.scope < f.entries.size

theorem repeats_of_get? (h : g.get? x = f.get? x) : g.repeats x = f.repeats x := by
  rw [repeats, h, repeats]

theorem get?_of_size_le (h : f.entries.size ≤ x) : f.get? x = none := by
  rw [get?, Array.getElem?_eq_none h]
  rfl

theorem repeats_of_size_le (h : f.entries.size ≤ x) : f.repeats x = [] := by
  rw [repeats, get?_of_size_le h, Option.map_none, Option.getD_none]

theorem size_le_of_rankedFrom {n : Nat} {rs : List Repeat} (h : RankedFrom n f rs)
    (hg : f.entries.size ≤ g.entries.size) (hr : r ∈ rs) : n ≤ r.scope ∧ r.scope < g.entries.size :=
  ⟨(h.own r hr).1, Nat.lt_of_lt_of_le (h.own r hr).2 hg⟩

end Scopes

open Scopes

variable {mark : String}

/-- What compiling does with scopes: the scope gets directives with new scopes, which are ranked. -/
def RanksAt (compile : Stage → ScopeId → NodeId → Stage) : Prop :=
  ∀ (st : Stage) (s : ScopeId) (node : NodeId), s < st.scopes.entries.size →
    st.scopes.repeats s = [] →
    st.scopes.Grows (compile st s node).scopes s ∧
      RankedFrom st.scopes.entries.size (compile st s node).scopes
        ((compile st s node).scopes.repeats s)

/-- **One repeated element** gets a new scope, behind all others. -/
theorem rankedFrom_takeRound {fuel : Nat} {n : Nat} {f : Scopes} {s : ScopeId} {st : Stage}
    {repeats : List Repeat} (hcompile : RanksAt (Stage.compileTo mark fuel)) (hs : s < n)
    (hn : n = f.entries.size) (hgrows : f.Grows st.scopes s) (h : RankedFrom n st.scopes repeats)
    (element : NodeId) :
    f.Grows (takeRound mark fuel s (st, repeats) element).1.scopes s ∧
      RankedFrom n (takeRound mark fuel s (st, repeats) element).1.scopes
        (takeRound mark fuel s (st, repeats) element).2 := by
  have hsize : n ≤ st.scopes.entries.size := hn ▸ hgrows.size
  have hlt : s < st.scopes.entries.size := Nat.lt_of_lt_of_le hs hsize
  simp only [takeRound]
  split
  · next expression container _ _ =>
      let k := st.scopes.entries.size
      let f₁ := (st.scopes.newChild s .emptyObject).1
      have hnew := Scopes.get?_newChild hlt .emptyObject
      have hsize₁ : f₁.entries.size = k + 1 := Scopes.size_newChild ..
      have hfresh : f₁.repeats k = [] := by
        have hget : f₁.get? k = some (Scope.fresh .emptyObject (some s)) := by
          rw [hnew k, if_neg (Nat.ne_of_gt hlt), if_pos rfl]
        rw [Scopes.repeats, hget]
        rfl
      obtain ⟨hgrows₂, hranked₂⟩ := hcompile ⟨st.document, f₁⟩ k element
        (by rw [hsize₁]; exact Nat.lt_succ_self k) hfresh
      rw [hsize₁] at hranked₂
      let st₂ := Stage.compileTo mark fuel ⟨st.document, f₁⟩ k element
      have hk₂ : k + 1 ≤ st₂.scopes.entries.size := hsize₁ ▸ hgrows₂.size
      have hle : st.scopes.entries.size ≤ st₂.scopes.entries.size := Nat.le_of_succ_le hk₂
      refine ⟨(hgrows.trans (Scopes.grows_newChild hlt .emptyObject)).of_new hgrows₂
        (hn ▸ hsize) (hn ▸ hs), fun r hr => ?_, fun x hx r hr => ?_⟩
      · -- the anchors of the other directives may be others, but not their scopes
        rcases List.mem_append.1 hr with hr | hr
        · obtain ⟨r', hr', rfl⟩ := List.mem_map.1 hr
          have hown := size_le_of_rankedFrom h hle hr'
          split <;> exact hown
        · rw [List.mem_singleton.1 hr]
          exact ⟨hsize, hk₂⟩
      · rcases Nat.lt_trichotomy x k with hxk | rfl | hxk
        · have hget : st₂.scopes.get? x = st.scopes.get? x := by
            rw [hgrows₂.get? x (hsize₁ ▸ Nat.lt_succ_of_lt hxk) (Nat.ne_of_lt hxk), hnew x,
              if_neg (Nat.ne_of_gt (Nat.lt_of_lt_of_le hs hx)), if_neg (Nat.ne_of_lt hxk)]
          have hr' : r ∈ st.scopes.repeats x := Scopes.repeats_of_get? hget ▸ hr
          exact (h.new x hx r hr').imp_right fun hlt => Nat.lt_of_lt_of_le hlt hle
        · exact hranked₂.own r hr
        · exact hranked₂.new x hxk r hr
  · exact ⟨hgrows, h⟩

/-- **Compiling ranks the new scopes.** -/
theorem ranksAt_compileTo (mark : String) (fuel : Nat) : RanksAt (Stage.compileTo mark fuel) := by
  induction fuel with
  | zero =>
      intro st s node _ hrepeats
      refine ⟨.refl _ _, fun r hr => ?_, fun x hx r hr => ?_⟩
      · rw [Stage.compileTo, hrepeats] at hr
        cases hr
      · rw [Stage.compileTo, Scopes.repeats_of_size_le hx] at hr
        cases hr
  | succ fuel ih =>
      intro st s node hs hrepeats
      have hstart : RankedFrom st.scopes.entries.size st.scopes [] := by
        refine ⟨nofun, fun x hx r hr => ?_⟩
        rw [Scopes.repeats_of_size_le hx] at hr
        cases hr
      -- what holds for the repeated elements that have been taken out
      obtain ⟨hgrows, h⟩ := List.foldlRecOn (repeated st.document mark node) (takeRound mark fuel s)
        (motive := fun out : Stage × List Repeat => st.scopes.Grows out.1.scopes s ∧
          RankedFrom st.scopes.entries.size out.1.scopes out.2)
        (b := (st, [])) ⟨.refl _ _, hstart⟩
        fun _ hout element _ => rankedFrom_takeRound ih hs rfl hout.1 hout.2 element
      rw [compileTo_succ]
      generalize (repeated st.document mark node).foldl (takeRound mark fuel s) (st, []) = taken
        at hgrows h
      have hsize : ∀ k : Scope → Scope,
          (taken.1.scopes.update s k).entries.size = taken.1.scopes.entries.size :=
        fun k => Scopes.size_update ..
      refine ⟨hgrows.trans (Scopes.grows_update _ _ _ fun _ => ⟨rfl, rfl⟩), fun r hr => ?_,
        fun x hx r hr => ?_⟩
      · rw [hsize]
        rcases Scopes.mem_repeats_update hr with ⟨-, _, -, hr⟩ | ⟨hne, -⟩
        · exact h.own r hr
        · exact absurd rfl hne
      · rw [hsize]
        rcases Scopes.mem_repeats_update hr with ⟨hxs, -⟩ | ⟨-, hr⟩
        · exact absurd hxs (Nat.ne_of_gt (Nat.lt_of_lt_of_le hs hx))
        · exact h.new x hx r hr

/-- The places of the directives of all scopes. -/
def Scopes.allSites (f : Scopes) : List Site :=
  (List.range f.entries.size).flatMap fun x => (f.repeats x).map Repeat.site

/-- The nodes of the slots of all scopes. -/
def Scopes.allSlots (f : Scopes) : List NodeId :=
  (List.range f.entries.size).flatMap f.slotsAt

/-- The copies that the directives of all scopes list. -/
def Scopes.allCopies (f : Scopes) : List NodeId :=
  (List.range f.entries.size).flatMap fun x => (f.repeats x).flatMap (·.copies)

/-- Scopes whose directives have their scopes among them, behind their own, are confined to what all
scopes have. -/
theorem Scopes.confined_all (f : Scopes) {W : ScopeId → Prop} (hlt : ∀ x, W x → x < f.entries.size)
    (hrepeats : ∀ x, W x → ∀ r ∈ f.repeats x, W r.scope ∧ x < r.scope) :
    f.Confined W f.allSites f.allSlots f.allCopies where
  lt := hlt
  repeats x hx r hr := by
    have hmem : x ∈ List.range f.entries.size := List.mem_range.2 (hlt x hx)
    exact ⟨(hrepeats x hx r hr).1, (hrepeats x hx r hr).2,
      List.mem_flatMap.2 ⟨x, hmem, List.mem_map.2 ⟨r, hr, rfl⟩⟩,
      fun c hc => List.mem_flatMap.2 ⟨x, hmem, List.mem_flatMap.2 ⟨r, hr, hc⟩⟩⟩
  slots x scope hx hscope p hp :=
    List.mem_flatMap.2 ⟨x, List.mem_range.2 (hlt x hx), mem_slotsAt.2 ⟨scope, p.1, hscope, hp⟩⟩

/-- A scope that has been compiled is ranked, with the scopes below it. -/
theorem Scopes.RankedFrom.ranked {n : Nat} {f : Scopes} {s : ScopeId} (h : RankedFrom n f (f.repeats s))
    (hs : s < n) (hsize : s < f.entries.size) : f.Ranked s := by
  have hconfined := f.confined_all (W := fun x => x < f.entries.size ∧ (x = s ∨ n ≤ x))
    (fun x hx => hx.1) fun x hx r hr => by
      have hscope : n ≤ r.scope ∧ x < r.scope ∧ r.scope < f.entries.size := by
        rcases hx.2 with rfl | hnx
        · have hown := h.own r hr
          exact ⟨hown.1, Nat.lt_of_lt_of_le hs hown.1, hown.2⟩
        · have hnew := h.new x hnx r hr
          exact ⟨Nat.le_of_lt (Nat.lt_of_le_of_lt hnx hnew.1), hnew⟩
      exact ⟨⟨hscope.2.2, .inr hscope.1⟩, hscope.2.1⟩
  exact hconfined.ranked ⟨hsize, .inl rfl⟩

theorem Scopes.get?_collect (f : Scopes) (x : ScopeId) :
    f.collect.get? x = if x ∈ f.owned then f.get? x else none := by
  rw [collect, get?, Array.getElem?_mapIdx]
  cases hx : f.entries[x]? with
  | none => simp [get?, hx]
  | some scope => by_cases howned : x ∈ f.owned <;> simp [get?, hx, howned]

/-- A scope that is left is one from before. -/
theorem Scopes.get?_of_collect {f : Scopes} {x : ScopeId} {scope : Scope}
    (h : f.collect.get? x = some scope) : f.get? x = some scope := by
  rw [get?_collect] at h
  split at h
  · exact h
  · cases h

theorem repeats_dismantle (st : Stage) (s : ScopeId) : (st.dismantle s).scopes.repeats s = [] := by
  rw [Stage.dismantle]
  simp only
  split
  · next h => simpa using h
  · rw [Scopes.repeats]
    cases hget : (st.scopes.update s fun scope => { scope with
        repeats := []
        children := scope.children.filter fun c =>
          !(st.scopes.repeats s).any (·.scope == c) }).collect.get? s with
    | none => rfl
    | some scope =>
        have hupdated := Scopes.get?_of_collect hget
        rw [Scopes.get?_update, if_pos rfl] at hupdated
        obtain ⟨_, _, rfl⟩ := Option.map_eq_some_iff.1 hupdated
        rfl

theorem size_dismantle (st : Stage) (s : ScopeId) :
    (st.dismantle s).scopes.entries.size = st.scopes.entries.size := by
  rw [Stage.dismantle]
  simp only
  split
  · rfl
  · simp [Scopes.collect, Scopes.update]

/-- **Compiling ranks scopes**, whatever the document is. -/
theorem Stage.ranked_compile {st st' : Stage} {s : ScopeId} {node : NodeId}
    (h : st.compile mark s node = .ok st') (hs : st.scopes.contains s = true) :
    st'.scopes.Ranked s := by
  obtain ⟨scope, hscope⟩ := Option.isSome_iff_exists.1 hs
  have hlt : s < (st.dismantle s).scopes.entries.size := by
    rw [size_dismantle]
    exact Scopes.lt_size_of_get? hscope
  obtain rfl := eq_of_compile h
  obtain ⟨hgrows, hranked⟩ := ranksAt_compileTo mark ((st.dismantle s).document.nodes.size + 1)
    (st.dismantle s) s node hlt (repeats_dismantle st s)
  exact hranked.ranked hlt (Nat.lt_of_lt_of_le hlt hgrows.size)

/-! ### What directives have from the start -/

/-- A new scope has no directives. -/
theorem repeats_newChild (f : Scopes) (s : ScopeId) (data : Value) (x : ScopeId) :
    (f.newChild s data).1.repeats x = f.repeats x := by
  have hpush : ∀ sc, sc.repeats = [] →
      ({ f with entries := f.entries.push (some sc) } : Scopes).repeats x = f.repeats x := by
    intro sc hsc
    have hget := f.get?_push sc x
    by_cases hx : x = f.entries.size
    · rw [if_pos hx] at hget
      rw [Scopes.repeats_of_size_le (Nat.le_of_eq hx.symm), Scopes.repeats, hget, Option.map_some,
        Option.getD_some, hsc]
    · rw [if_neg hx] at hget
      exact Scopes.repeats_of_get? hget
  rw [Scopes.newChild]
  simp only
  rw [Scopes.repeats_update]
  split
  · next hx => rw [← hpush (Scopes.Scope.fresh data (some s)) rfl, hx, Scopes.repeats]
  · exact hpush _ rfl

/-- Directives have the property `Q` in documents with the property `P` when they are made, wherever they
are anchored, and keep it while others are made. -/
structure Inborn (P : Document → Prop) (Q : Document → Repeat → Prop) : Prop where
  document : Lasting P
  directive : ∀ r, Lasting fun d => P d ∧ Q d r
  anchored : ∀ d r anchor, Q d r → Q d { r with anchor := anchor }
  made : ∀ d x scope element container anchor, P d → d.parent? element = some container →
    Q d ⟨x, scope, element, container, anchor, []⟩

section Inborn

variable {P : Document → Prop} {Q : Document → Repeat → Prop} {n : Nat}

/-- **One repeated element** makes a directive with the property, and all others keep it. -/
theorem Inborn.takeRound (h : Inborn P Q) {fuel : Nat} {s : ScopeId}
    (hcompile : ∀ (st : Stage) (s : ScopeId) (node : NodeId), P st.document →
      (∀ x, n ≤ x → ∀ r ∈ st.scopes.repeats x, Q st.document r) →
      ∀ x, n ≤ x → ∀ r ∈ (st.compileTo mark fuel s node).scopes.repeats x,
        Q (st.compileTo mark fuel s node).document r)
    (out : Stage × List Repeat) (hd : P out.1.document)
    (hscopes : ∀ x, n ≤ x → ∀ r ∈ out.1.scopes.repeats x, Q out.1.document r)
    (hout : ∀ r ∈ out.2, Q out.1.document r) (element : NodeId) :
    let out' := Binding.takeRound mark fuel s out element
    P out'.1.document ∧ (∀ x, n ≤ x → ∀ r ∈ out'.1.scopes.repeats x, Q out'.1.document r) ∧
      ∀ r ∈ out'.2, Q out'.1.document r := by
  simp only [Binding.takeRound]
  split
  · next expression container _ hcontainer =>
      let k := out.1.scopes.entries.size
      let inner : Stage := ⟨out.1.document, (out.1.scopes.newChild s .emptyObject).1⟩
      let done := inner.compileTo mark fuel k element
      have hinner : P inner.document := hd
      have hdone : P done.document := h.document.compileTo mark fuel hinner k element
      have hkeep : ∀ r, Q out.1.document r → Q done.document r := fun r hr =>
        have hbefore : P inner.document ∧ Q inner.document r := ⟨hd, hr⟩
        ((h.directive r).compileTo mark fuel hbefore k element).2
      have htake : ∀ r, Q done.document r →
          Q ((done.document.eraseAttribute element mark).detach element) r := fun r hr =>
        have hbefore : P done.document ∧ Q done.document r := ⟨hdone, hr⟩
        ((h.directive r).takeOut hbefore mark [] expression k element container).2
      refine ⟨h.document.takeOut hdone mark _ expression _ element container,
        fun x hx r hr => htake r (hcompile inner k element hinner (fun x hx r hr => ?_) x hx r hr),
        fun r hr => ?_⟩
      · rw [repeats_newChild] at hr
        exact hscopes x hx r hr
      · rcases List.mem_append.1 hr with hr | hr
        · -- the directives before may be anchored elsewhere now
          obtain ⟨r', hr', rfl⟩ := List.mem_map.1 hr
          have hold := htake r' (hkeep r' (hout r' hr'))
          split
          · exact h.anchored _ _ _ hold
          · exact hold
        · rw [List.mem_singleton.1 hr]
          exact htake _ (hkeep _ (h.made _ _ _ _ _ _ hd hcontainer))
  · exact ⟨hd, hscopes, hout⟩

/-- **The directives that compiling makes have the property**, and the others keep it. -/
theorem Inborn.compileTo (h : Inborn P Q) (mark : String) (fuel : Nat) (st : Stage) (s : ScopeId)
    (node : NodeId) (hd : P st.document)
    (hscopes : ∀ x, n ≤ x → ∀ r ∈ st.scopes.repeats x, Q st.document r) :
    ∀ x, n ≤ x → ∀ r ∈ (st.compileTo mark fuel s node).scopes.repeats x,
      Q (st.compileTo mark fuel s node).document r := by
  induction fuel generalizing st s node with
  | zero => exact hscopes
  | succ fuel ih =>
      have htaken := List.foldlRecOn (repeated st.document mark node)
        (Binding.takeRound mark fuel s) (b := (st, []))
        (motive := fun out : Stage × List Repeat => P out.1.document ∧
          (∀ x, n ≤ x → ∀ r ∈ out.1.scopes.repeats x, Q out.1.document r) ∧
          ∀ r ∈ out.2, Q out.1.document r)
        ⟨hd, hscopes, nofun⟩ fun out hout element _ =>
          h.takeRound ih out hout.1 hout.2.1 hout.2.2 element
      rw [compileTo_succ]
      generalize (repeated st.document mark node).foldl (Binding.takeRound mark fuel s) (st, []) =
        taken at htaken
      obtain ⟨hd', hscopes', hrepeats⟩ := htaken
      have hcut : ∀ r, Q taken.1.document r → Q (extract taken.1.document node).1 r := fun r hr =>
        ((h.directive r).extractTo _ ⟨hd', hr⟩ .empty node).2
      intro x hx r hr
      rcases Scopes.mem_repeats_update hr with ⟨-, _, -, hr⟩ | ⟨-, hr⟩
      · exact hcut r (hrepeats r hr)
      · exact hcut r (hscopes' x hx r hr)

end Inborn

end PageTemplate.Binding
