/-
**Scopes and their ancestors.**

A scope is made after the scope that answers for it, and stays below it.  So the ancestors of a scope
come to an end, and the scope has an environment: its own data, then those of its parent, and so on up
to the first scope without a parent, or whose parent is gone.

Main definitions:

* `PageTemplate.Binding.Scopes.ParentsFirst` — parents come before their children;
* `PageTemplate.Binding.Scopes.environment` — the data of a scope and of its ancestors.

Main results:

* `PageTemplate.Binding.Scopes.ParentsFirst.newRoot`,
  `PageTemplate.Binding.Scopes.ParentsFirst.newChild`,
  `PageTemplate.Binding.Scopes.ParentsFirst.update`,
  `PageTemplate.Binding.Scopes.ParentsFirst.letGo`,
  `PageTemplate.Binding.Scopes.ParentsFirst.compile`,
  `PageTemplate.Binding.Scopes.ParentsFirst.render` — what can be done with scopes keeps their order;
* `PageTemplate.Binding.Scopes.ParentsFirst.sees` — every scope has an environment.
-/

import PageTemplate.Proofs.Binding.Reach

set_option relaxedAutoImplicit false
set_option autoImplicit false

namespace PageTemplate.Binding.Scopes

open PageTemplate.Data

variable {f : Scopes} {s : ScopeId} {env : Env}

/-! ### Parents come first -/

/-- Each scope comes after its parent. -/
def ParentsFirst (f : Scopes) : Prop :=
  ∀ s scope p, f.get? s = some scope → scope.parent = some p → p < s

theorem parentsFirst_empty : ParentsFirst .empty := by
  intro s scope p h _
  simp [empty, get?] at h

theorem ParentsFirst.newRoot (h : f.ParentsFirst) (data : Value) :
    (f.newRoot data).1.ParentsFirst := by
  intro s scope p hs hp
  have hpush := f.get?_push (Scope.fresh data none) s
  rw [show (f.newRoot data).1.get? s = _ from hpush] at hs
  split at hs
  · cases hs
    cases hp
  · exact h s scope p hs hp

theorem ParentsFirst.update (h : f.ParentsFirst) (s : ScopeId) {k : Scope → Scope}
    (hk : ∀ scope, (k scope).parent = scope.parent) : (f.update s k).ParentsFirst := by
  intro x scope p hx hp
  rw [get?_update] at hx
  split at hx
  · next hxs =>
      obtain ⟨scope', hs, rfl⟩ := Option.map_eq_some_iff.1 hx
      rw [hxs]
      exact h s scope' p hs ((hk scope').symm.trans hp)
  · exact h x scope p hx hp

theorem ParentsFirst.newChild (h : f.ParentsFirst) {parent : ScopeId}
    (hparent : parent < f.entries.size) (data : Value) :
    (f.newChild parent data).1.ParentsFirst := by
  refine ParentsFirst.update (fun x scope p hx hp => ?_) parent fun _ => rfl
  rw [get?_push] at hx
  split at hx
  · next hxs =>
      cases hx
      cases hp
      rw [hxs]
      exact hparent
  · exact h x scope p hx hp

/-- Scopes that are gone leave the others as they are. -/
theorem ParentsFirst.collect (h : f.ParentsFirst) : f.collect.ParentsFirst :=
  fun x scope p hx hp => h x scope p (get?_of_collect hx) hp

theorem ParentsFirst.letGo (h : f.ParentsFirst) (s : ScopeId) : (f.letGo s).ParentsFirst :=
  ParentsFirst.collect (f := { f with held := f.held.erase s }) h

theorem ParentsFirst.hold (h : f.ParentsFirst) (s : ScopeId) : (f.hold s).ParentsFirst := h

theorem ParentsFirst.set (h : f.ParentsFirst) (s : ScopeId) (name : String) (v : Value) :
    (f.set s name v).ParentsFirst := by
  refine h.update s fun scope => ?_
  split <;> rfl

/-! ### Compiling and rendering keep the order -/

/-- Compiling keeps the order of scopes, and the number of a scope stays one. -/
theorem ParentsFirst.compileTo (mark : String) (fuel : Nat) {st : Stage} (h : st.scopes.ParentsFirst)
    (hs : s < st.scopes.entries.size) (node : NodeId) :
    (st.compileTo mark fuel s node).scopes.ParentsFirst ∧
      st.scopes.entries.size ≤ (st.compileTo mark fuel s node).scopes.entries.size := by
  induction fuel generalizing st s node with
  | zero => exact ⟨h, Nat.le_refl _⟩
  | succ fuel ih =>
      have htaken := List.foldlRecOn (repeated st.document mark node) (takeRound mark fuel s)
        (b := (st, []))
        (motive := fun out => out.1.scopes.ParentsFirst ∧
          st.scopes.entries.size ≤ out.1.scopes.entries.size)
        ⟨h, Nat.le_refl _⟩ fun out hout element _ => by
          simp only [takeRound]
          split
          · -- the scope of the element is new, and a child of `s`
            let inner : Stage := ⟨out.1.document, (out.1.scopes.newChild s .emptyObject).1⟩
            have hown : s < out.1.scopes.entries.size := Nat.lt_of_lt_of_le hs hout.2
            have hsize : inner.scopes.entries.size = out.1.scopes.entries.size + 1 :=
              size_newChild ..
            have hbefore : inner.scopes.ParentsFirst := hout.1.newChild hown .emptyObject
            obtain ⟨hfirst, hmore⟩ := ih hbefore (s := out.1.scopes.entries.size)
              (hsize ▸ Nat.lt_succ_self _) element
            rw [hsize] at hmore
            exact ⟨hfirst, Nat.le_trans hout.2 (Nat.le_of_succ_le hmore)⟩
          · exact hout
      rw [compileTo_succ]
      refine ⟨htaken.1.update s fun _ => rfl, ?_⟩
      rw [size_update]
      exact htaken.2

/-- **Compiling keeps the order of scopes.** -/
theorem ParentsFirst.compile {mark : String} {st st' : Stage} {node : NodeId}
    (h : st.scopes.ParentsFirst) (hs : s < st.scopes.entries.size)
    (hcompile : st.compile mark s node = .ok st') : st'.scopes.ParentsFirst := by
  obtain rfl := Stage.eq_of_compile hcompile
  have hdismantled : (st.dismantle s).scopes.ParentsFirst := by
    rw [Stage.dismantle]
    simp only
    split
    · exact h
    · exact ParentsFirst.collect (h.update s fun _ => rfl)
  exact (hdismantled.compileTo mark _ (size_dismantle st s ▸ hs) node).1

/-- **Rendering keeps the order of scopes.** -/
theorem ParentsFirst.renderTo (fuel : Nat) {st : Stage} (h : st.scopes.ParentsFirst) (s : ScopeId) :
    (st.renderTo fuel s).scopes.ParentsFirst := by
  induction fuel generalizing st s with
  | zero => exact h
  | succ fuel ih =>
      have hdone : ((st.scopes.repeats s).foldl (repeatRound (Stage.renderTo fuel) s)
          (st, [])).1.scopes.ParentsFirst := by
        refine List.foldlRecOn _ (repeatRound (Stage.renderTo fuel) s)
          (motive := fun out : Stage × List Repeat => out.1.scopes.ParentsFirst) h
          fun out hout r _ => ?_
        simp only [repeatRound, Stage.renderRepeat]
        split
        · exact hout
        · exact List.foldlRecOn _ _
            (motive := fun out : Stage × List NodeId => out.1.scopes.ParentsFirst) hout
            fun out hout item _ =>
              ih (ParentsFirst.set hout r.scope r.expression.item item) r.scope
      rw [renderTo_succ_eq]
      exact hdone.update s fun _ => rfl

theorem ParentsFirst.render {st : Stage} (h : st.scopes.ParentsFirst) (s : ScopeId) :
    (st.render s).scopes.ParentsFirst :=
  h.renderTo _ s

/-! ### Environments -/

/-- The data of a scope and of its ancestors, its own first. -/
def environment (f : Scopes) (s : ScopeId) : Env :=
  (f.chain f.entries.size s).filterMap f.data?

theorem chain_of_alone {scope : Scope} (h : f.get? s = some scope) (hp : f.parent? s = none)
    {fuel : Nat} (hf : s < fuel) : (f.chain fuel s).filterMap f.data? = [scope.data] := by
  cases fuel with
  | zero => exact absurd hf (Nat.not_lt_zero s)
  | succ fuel => simp [chain, hp, data?_of_get? h]

/-- With a round for every scope that may be an ancestor, all ancestors are found. -/
theorem Sees.filterMap_chain (h : f.Sees s env) {fuel : Nat} (hf : s < fuel) :
    (f.chain fuel s).filterMap f.data? = env := by
  induction h generalizing fuel with
  | top h hp => exact chain_of_alone h (parent?_of_none h hp) hf
  | gone h hp hlt hgone => exact chain_of_alone h (parent?_of_gone h hp hgone) hf
  | @child s p scope env h hp hlt hsees ih =>
      cases fuel with
      | zero => exact absurd hf (Nat.not_lt_zero s)
      | succ fuel =>
          have hrest : (f.chain fuel p).filterMap f.data? = env :=
            ih (Nat.lt_of_lt_of_le hlt (Nat.le_of_lt_succ hf))
          simp [chain, parent?_of_sees h hp hsees, data?_of_get? h, hrest]

theorem Sees.environment_eq (h : f.Sees s env) : f.environment s = env := by
  obtain ⟨scope, hs⟩ := h.exists_get?
  exact h.filterMap_chain (lt_size_of_get? hs)

theorem ParentsFirst.exists_sees (h : f.ParentsFirst) {scope : Scope} (hs : f.get? s = some scope) :
    ∃ env, f.Sees s env := by
  induction s using Nat.strong_induction_on generalizing scope with
  | _ s ih =>
      cases hp : scope.parent with
      | none => exact ⟨_, .top hs hp⟩
      | some p =>
          have hlt : p < s := h s scope p hs hp
          cases hparent : f.get? p with
          | none => exact ⟨_, .gone hs hp hlt hparent⟩
          | some above =>
              obtain ⟨env, henv⟩ := ih p hlt hparent
              exact ⟨_, .child hs hp hlt henv⟩

/-- **Every scope has an environment**: its data, and those of its ancestors. -/
theorem ParentsFirst.sees (h : f.ParentsFirst) {scope : Scope} (hs : f.get? s = some scope) :
    f.Sees s (f.environment s) := by
  obtain ⟨env, henv⟩ := h.exists_sees hs
  rw [henv.environment_eq]
  exact henv

/-- New data of a scope leave what its parent sees. -/
theorem Sees.update (h : f.Sees s env) {k : Scope → Scope}
    (hk : ∀ scope, (k scope).parent = scope.parent) : ∃ env', (f.update s k).Sees s env' := by
  have hbefore : ∀ x, x ≠ s → (f.update s k).get? x = f.get? x := by
    intro x hx
    rw [get?_update, if_neg hx]
  have hself : ∀ scope, f.get? s = some scope → (f.update s k).get? s = some (k scope) := by
    intro scope hscope
    rw [get?_update, if_pos rfl, hscope, Option.map_some]
  cases h with
  | top h hp => exact ⟨_, .top (hself _ h) ((hk _).trans hp)⟩
  | gone h hp hlt hgone =>
      exact ⟨_, .gone (hself _ h) ((hk _).trans hp) hlt
        (by rw [hbefore _ (Nat.ne_of_lt hlt), hgone])⟩
  | child h hp hlt hsees =>
      refine ⟨_, .child (hself _ h) ((hk _).trans hp) hlt (hsees.congr fun x hx => ?_)⟩
      rw [outlook?, outlook?, hbefore x (Nat.ne_of_lt (Nat.lt_of_le_of_lt hx hlt))]

end PageTemplate.Binding.Scopes
