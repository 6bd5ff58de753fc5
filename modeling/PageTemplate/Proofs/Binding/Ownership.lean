/-
**Who owns a scope.**

The children of a scope come from two sides.  Some are made by hand, and compiling makes one for each
directive; they stand in one list, in the order in which they were made.  When a scope is compiled
again, the scopes of its old directives have to leave the list, and the others have to stay.  A scope
that nothing owns any more, and that is not held, is gone, together with what it owns alone.

So it is recorded beside the scopes which children were made by hand.  While a scope is being compiled,
the scopes of its new directives are not yet those of its directives: for that time they count as made
by hand, and all is in order between two repeated elements.

Main definitions:

* `PageTemplate.Binding.Scopes.Owns` — the children of a scope are those made by hand and those of its
  directives;
* `PageTemplate.Binding.Scopes.Owning`, `PageTemplate.Binding.Scopes.Owned` — it is so for each scope,
  and each scope is held or owned;
* `PageTemplate.Binding.Scopes.Alike` — scopes that differ in their data, their slots and their copies;
* `PageTemplate.Binding.Scopes.Restored` — scopes after some that were made have been let go again.

Main results:

* `PageTemplate.Binding.Scopes.Owned.newRoot`, `PageTemplate.Binding.Scopes.Owned.newChild`,
  `PageTemplate.Binding.Scopes.Owned.letGo` — scopes are made and let go;
* `PageTemplate.Binding.Scopes.restored_letGo_newRoot` — a scope that is made for nothing;
* `PageTemplate.Binding.Scopes.Owned.compile` — compiling exchanges the children that belong to
  directives;
* `PageTemplate.Binding.Scopes.alike_renderTo` — rendering leaves ownership alone.
-/

import PageTemplate.Proofs.Binding.Lookups
import PageTemplate.Proofs.Binding.Rooms

set_option relaxedAutoImplicit false
set_option autoImplicit false

namespace PageTemplate.Binding

open PageTemplate.Data

namespace Scopes

variable {f g : Scopes} {s x c : ScopeId} {made : ScopeId → List ScopeId}

/-! ### Children -/

theorem children_of_get? (h : g.get? x = f.get? x) : g.children x = f.children x := by
  rw [children, h, children]

theorem contains_of_child (h : c ∈ f.children x) : f.contains x = true := by
  cases hx : f.get? x with
  | none => simp [children, hx] at h
  | some scope => exact contains_iff.2 ⟨scope, hx⟩

theorem children_update (f : Scopes) (s x : ScopeId) (k : Scope → Scope) :
    (f.update s k).children x =
      if x = s then ((f.get? s).map fun scope => (k scope).children).getD [] else f.children x := by
  rw [children, get?_update]
  split
  · rw [Option.map_map]
    rfl
  · rfl

/-! ### Owning -/

/-- The children of the scope `x`, in the order in which they were made, are those that `hand` lists and
those of its directives, both in their own order.  Each of them is there, and has `x` as its parent. -/
structure Owns (f : Scopes) (hand : List ScopeId) (x : ScopeId) : Prop where
  ordered : (f.children x).Pairwise (· < ·)
  made : (f.children x).filter (· ∈ hand) = hand
  bound : (f.children x).filter (· ∉ hand) = (f.repeats x).map (·.scope)
  below : ∀ c ∈ f.children x, ∃ scope, f.get? c = some scope ∧ scope.parent = some x

/-- Every scope owns its children, where `made` lists those that were made by hand. -/
structure Owning (f : Scopes) (made : ScopeId → List ScopeId) : Prop where
  first : f.ParentsFirst
  owns : ∀ x, f.contains x = true → f.Owns (made x) x
  unmade : ∀ x, f.entries.size ≤ x → made x = []

/-- Besides, every scope is held, or a child of one. -/
structure Owned (f : Scopes) (made : ScopeId → List ScopeId) : Prop extends Owning f made where
  kept : ∀ x, f.contains x = true → x ∈ f.held ∨ ∃ p, x ∈ f.children p

theorem Owning.lt_of_child (h : f.Owning made) (hc : c ∈ f.children x) :
    x < c ∧ c < f.entries.size := by
  obtain ⟨scope, hscope, hparent⟩ := (h.owns x (contains_of_child hc)).below c hc
  exact ⟨h.first c scope x hscope hparent, lt_size_of_get? hscope⟩

/-- A directive has its scope among the children. -/
theorem Owns.scope_mem {hand : List ScopeId} (h : f.Owns hand x) {r : Repeat} (hr : r ∈ f.repeats x) :
    r.scope ∈ f.children x ∧ r.scope ∉ hand := by
  have hmem : r.scope ∈ (f.children x).filter (· ∉ hand) := by
    rw [h.bound]
    exact List.mem_map.2 ⟨r, hr, rfl⟩
  simpa using hmem

/-- The scope of a directive is behind that of the directive. -/
theorem Owning.lt_scope (h : f.Owning made) {r : Repeat} (hr : r ∈ f.repeats x) :
    x < r.scope ∧ r.scope < f.entries.size := by
  have hx : f.contains x = true := by
    cases hget : f.get? x with
    | none => simp [repeats, hget] at hr
    | some scope => exact contains_iff.2 ⟨scope, hget⟩
  exact h.lt_of_child ((h.owns x hx).scope_mem hr).1

/-- A change that leaves the lists of a scope and the parents of its children leaves it what it owns. -/
theorem Owns.congr {hand : List ScopeId} (h : f.Owns hand x) (hchildren : g.children x = f.children x)
    (hrepeats : (g.repeats x).map (·.scope) = (f.repeats x).map (·.scope))
    (hbelow : ∀ c ∈ f.children x, ∀ scope, f.get? c = some scope →
      ∃ scope', g.get? c = some scope' ∧ scope'.parent = scope.parent) : g.Owns hand x where
  ordered := by rw [hchildren]; exact h.ordered
  made := by rw [hchildren]; exact h.made
  bound := by rw [hchildren, hrepeats]; exact h.bound
  below c hc := by
    rw [hchildren] at hc
    obtain ⟨scope, hscope, hparent⟩ := h.below c hc
    obtain ⟨scope', hscope', hsame⟩ := hbelow c hc scope hscope
    exact ⟨scope', hscope', hsame.trans hparent⟩

/-- A change of one scope keeps all parents. -/
theorem exists_get?_update {k : Scope → Scope} (hk : ∀ scope, (k scope).parent = scope.parent)
    {scope : Scope} (hscope : f.get? c = some scope) (s : ScopeId) :
    ∃ scope', (f.update s k).get? c = some scope' ∧ scope'.parent = scope.parent := by
  rw [get?_update]
  split
  · next hcs =>
      rw [← hcs, hscope]
      exact ⟨k scope, rfl, hk scope⟩
  · exact ⟨scope, hscope, rfl⟩

theorem exists_child_update {k : Scope → Scope} (hk : ∀ scope, (k scope).parent = scope.parent)
    (hc : ∃ scope, f.get? c = some scope ∧ scope.parent = some x) (s : ScopeId) :
    ∃ scope, (f.update s k).get? c = some scope ∧ scope.parent = some x := by
  obtain ⟨scope, hscope, hparent⟩ := hc
  obtain ⟨scope', hscope', hsame⟩ := exists_get?_update hk hscope s
  exact ⟨scope', hscope', hsame.trans hparent⟩

/-- A scope gets other children or directives, and the others own what they did. -/
theorem Owning.update (h : f.Owning made) {made' : ScopeId → List ScopeId} {k : Scope → Scope}
    (hk : ∀ scope, (k scope).parent = scope.parent) (hmade : ∀ x, x ≠ s → made' x = made x)
    (hs : f.contains s = true) (hself : (f.update s k).Owns (made' s) s) :
    (f.update s k).Owning made' where
  first := h.first.update s hk
  owns x hx := by
    rw [contains_update] at hx
    by_cases hxs : x = s
    · rw [hxs]
      exact hself
    · rw [hmade x hxs]
      refine (h.owns x hx).congr ?_ ?_ fun c _ scope hscope => exists_get?_update hk hscope s
      · rw [children_update, if_neg hxs]
      · rw [repeats_update, if_neg hxs]
  unmade x hx := by
    rw [size_update] at hx
    rw [hmade x fun hxs => Nat.not_lt.2 hx (hxs ▸ lt_size_of_contains hs)]
    exact h.unmade x hx

/-! ### Scopes that differ in data only -/

/-- The place of a scope among the others. -/
def kin (scope : Scope) : Option ScopeId × List ScopeId × List ScopeId :=
  (scope.parent, scope.children, scope.repeats.map (·.scope))

/-- The same scopes, with the same children, are held, with perhaps other data, slots and copies. -/
structure Alike (f g : Scopes) : Prop where
  held : g.held = f.held
  size : g.entries.size = f.entries.size
  kin : ∀ x, (g.get? x).map kin = (f.get? x).map kin

theorem Alike.refl (f : Scopes) : f.Alike f := ⟨rfl, rfl, fun _ => rfl⟩

theorem Alike.symm (h : f.Alike g) : g.Alike f := ⟨h.held.symm, h.size.symm, fun x => (h.kin x).symm⟩

theorem Alike.trans {h : Scopes} (hfg : f.Alike g) (hgh : g.Alike h) : f.Alike h :=
  ⟨hgh.held.trans hfg.held, hgh.size.trans hfg.size, fun x => (hgh.kin x).trans (hfg.kin x)⟩

theorem alike_update {k : Scope → Scope}
    (hk : ∀ scope, f.get? s = some scope → Scopes.kin (k scope) = Scopes.kin scope) :
    f.Alike (f.update s k) where
  held := rfl
  size := size_update f s k
  kin x := by
    rw [get?_update]
    split
    · next hxs =>
        rw [hxs]
        cases hscope : f.get? s with
        | none => rfl
        | some scope => exact congrArg some (hk scope hscope)
    · rfl

theorem alike_set (f : Scopes) (s : ScopeId) (name : String) (v : Value) :
    f.Alike (f.set s name v) := by
  refine alike_update fun scope _ => ?_
  split <;> rfl

section Alike

variable (h : f.Alike g)
include h

theorem Alike.contains (x : ScopeId) : g.contains x = f.contains x := by
  rw [Scopes.contains, ← Option.isSome_map, h.kin x, Option.isSome_map, Scopes.contains]

theorem Alike.children (x : ScopeId) : g.children x = f.children x := by
  have hkin := congrArg (fun o => (o.map fun k => k.2.1).getD []) (h.kin x)
  simp only [Option.map_map] at hkin
  exact hkin

theorem Alike.scopes (x : ScopeId) :
    (g.repeats x).map (·.scope) = (f.repeats x).map (·.scope) := by
  have hkin := congrArg (fun o => (o.map fun k => k.2.2).getD []) (h.kin x)
  simp only [Option.map_map] at hkin
  rw [repeats, repeats, ← Option.getD_map (List.map _), ← Option.getD_map (List.map _),
    Option.map_map, Option.map_map]
  exact hkin

theorem Alike.exists_get? {scope : Scope} (hscope : f.get? c = some scope) :
    ∃ scope', g.get? c = some scope' ∧ scope'.parent = scope.parent := by
  have hkin := h.kin c
  rw [hscope, Option.map_some, Option.map_eq_some_iff] at hkin
  obtain ⟨scope', hscope', hsame⟩ := hkin
  exact ⟨scope', hscope', congrArg Prod.fst hsame⟩

end Alike

/-- Scopes that are alike are owned alike. -/
theorem Owned.alike (h : f.Owned made) (hfg : f.Alike g) : g.Owned made where
  first x scope p hscope hp := by
    obtain ⟨scope', hscope', hsame⟩ := hfg.symm.exists_get? hscope
    exact h.first x scope' p hscope' (hsame.trans hp)
  owns x hx := by
    rw [hfg.contains] at hx
    exact (h.owns x hx).congr (hfg.children x) (hfg.scopes x) fun _ _ _ => hfg.exists_get?
  unmade x hx := h.unmade x (hfg.size ▸ hx)
  kept x hx := by
    rw [hfg.contains] at hx
    rw [hfg.held]
    exact (h.kept x hx).imp_right fun ⟨p, hp⟩ => ⟨p, by rwa [hfg.children]⟩

/-! ### New scopes -/

theorem owned_empty : Owned .empty fun _ => [] where
  first := parentsFirst_empty
  owns x hx := by simp [Scopes.contains, Scopes.get?, Scopes.empty] at hx
  unmade _ _ := rfl
  kept x hx := by simp [Scopes.contains, Scopes.get?, Scopes.empty] at hx

/-- A new scope owns nothing, and nothing changes for the others. -/
theorem Owning.push (h : f.Owning made) (parent : Option ScopeId) (data : Value)
    (hparent : ∀ p, parent = some p → p < f.entries.size) (held : List ScopeId) :
    (⟨f.entries.push (some (Scope.fresh data parent)), held⟩ : Scopes).Owning made := by
  let g : Scopes := ⟨f.entries.push (some (Scope.fresh data parent)), held⟩
  have hget : ∀ x, g.get? x = if x = f.entries.size then some (Scope.fresh data parent) else f.get? x :=
    f.get?_push (Scope.fresh data parent)
  refine ⟨fun x scope p hx hp => ?_, fun x hx => ?_, fun x hx => h.unmade x ?_⟩
  · rw [hget] at hx
    split at hx
    · next hxs =>
        obtain rfl := Option.some.inj hx
        exact hxs ▸ hparent p hp
    · exact h.first x scope p hx hp
  · by_cases hxs : x = f.entries.size
    · have hself : g.get? x = some (Scope.fresh data parent) := by rw [hget, if_pos hxs]
      have hchildren : g.children x = [] := by rw [children, hself]; rfl
      have hrepeats : g.repeats x = [] := by rw [repeats, hself]; rfl
      rw [h.unmade x (Nat.le_of_eq hxs.symm)]
      refine ⟨?ordered, ?made, ?bound, ?below⟩
      case ordered =>
        rw [hchildren]
        exact .nil
      case made =>
        rw [hchildren]
        rfl
      case bound =>
        rw [hchildren, hrepeats]
        rfl
      case below =>
        rw [hchildren]
        exact fun c hc => absurd hc List.not_mem_nil
    · have hsame : g.get? x = f.get? x := by rw [hget, if_neg hxs]
      have hold : f.contains x = true := by rwa [Scopes.contains, ← hsame]
      refine (h.owns x hold).congr (children_of_get? hsame) (by rw [repeats_of_get? hsame])
        fun c hc scope hscope => ⟨scope, ?_, rfl⟩
      rw [hget, if_neg (Nat.ne_of_lt (h.lt_of_child hc).2), hscope]
  · rw [Array.size_push] at hx
    exact Nat.le_of_succ_le hx

/-- Scopes of `f` are kept in `g` if they are held there, or children. -/
theorem Owned.kept_of_subset (h : f.Owned made) (hheld : f.held ⊆ g.held)
    (hchildren : ∀ p, f.children p ⊆ g.children p) (hx : f.contains x = true) :
    x ∈ g.held ∨ ∃ p, x ∈ g.children p :=
  (h.kept x hx).imp (fun hx => hheld hx) fun ⟨p, hp⟩ => ⟨p, hchildren p hp⟩

/-- A new scope that nothing owns yet changes nobody's children. -/
theorem children_push (f : Scopes) (parent : Option ScopeId) (data : Value) (held : List ScopeId)
    (x : ScopeId) :
    (⟨f.entries.push (some (Scope.fresh data parent)), held⟩ : Scopes).children x = f.children x := by
  let g : Scopes := ⟨f.entries.push (some (Scope.fresh data parent)), held⟩
  have hget : g.get? x = if x = f.entries.size then some (Scope.fresh data parent) else f.get? x :=
    f.get?_push (Scope.fresh data parent) x
  split at hget
  · next hx =>
      rw [children, hget, children, get?_of_size_le (Nat.le_of_eq hx.symm)]
      rfl
  · exact children_of_get? hget

theorem Owned.newRoot (h : f.Owned made) (data : Value) : (f.newRoot data).1.Owned made where
  toOwning := h.toOwning.push none data nofun _
  kept x hx := by
    have hget := f.get?_push (Scope.fresh data none) x
    by_cases hxs : x = f.entries.size
    · exact .inl (hxs ▸ List.mem_cons_self ..)
    · rw [if_neg hxs] at hget
      have hold : f.contains x = true := by rwa [Scopes.contains, ← hget]
      exact h.kept_of_subset (List.subset_cons_self ..)
        (fun p c hc => (f.children_push none data _ p).symm ▸ hc) hold

/-- A number behind all others of a list is filtered by itself. -/
theorem filter_concat {cs : List ScopeId} (hand : List ScopeId) {n : ScopeId}
    (h : ∀ c ∈ cs, c < n) :
    (cs ++ [n]).filter (· ∈ hand ++ [n]) = cs.filter (· ∈ hand) ++ [n] ∧
      (cs ++ [n]).filter (· ∉ hand ++ [n]) = cs.filter (· ∉ hand) := by
  have hsame : ∀ c ∈ cs, (c ∈ hand ++ [n] ↔ c ∈ hand) := by
    intro c hc
    rw [List.mem_append, List.mem_singleton, or_iff_left (Nat.ne_of_lt (h c hc))]
  refine ⟨?_, ?_⟩
  · rw [List.filter_append, List.filter_congr fun c hc => decide_eq_decide.2 (hsame c hc),
      List.filter_cons_of_pos (by simp), List.filter_nil]
  · rw [List.filter_append,
      List.filter_congr fun c hc => decide_eq_decide.2 (not_congr (hsame c hc)),
      List.filter_cons_of_neg (by simp), List.filter_nil, List.append_nil]

/-- The children after a new one has been made. -/
theorem children_newChild (hs : f.contains s = true) (data : Value) (x : ScopeId) :
    (f.newChild s data).1.children x =
      if x = s then f.children s ++ [f.entries.size] else f.children x := by
  obtain ⟨scope, hscope⟩ := contains_iff.1 hs
  have hget := get?_newChild (lt_size_of_get? hscope) data x
  split
  · next hxs =>
      rw [if_pos hxs, hscope] at hget
      rw [children, hget, children, hscope]
      rfl
  · next hxs =>
      rw [if_neg hxs] at hget
      by_cases hx : x = f.entries.size
      · rw [if_pos hx] at hget
        rw [children, hget, children, get?_of_size_le (Nat.le_of_eq hx.symm)]
        rfl
      · rw [if_neg hx] at hget
        exact children_of_get? hget

/-- **A child that is made by hand** is one more of these. -/
theorem Owned.newChild (h : f.Owned made) (hs : f.contains s = true) (data : Value) :
    (f.newChild s data).1.Owned (Function.update made s (made s ++ [f.entries.size])) := by
  let g : Scopes := ⟨f.entries.push (some (Scope.fresh data (some s))), f.held⟩
  have hget : ∀ x, g.get? x =
      if x = f.entries.size then some (Scope.fresh data (some s)) else f.get? x :=
    f.get?_push (Scope.fresh data (some s))
  have hlt := lt_size_of_contains hs
  have hbehind : ∀ c ∈ f.children s, c < f.entries.size := fun c hc => (h.lt_of_child hc).2
  have hchildren := children_newChild hs data
  have hself := (hchildren s).trans (if_pos rfl)
  obtain ⟨hmade, hbound⟩ := filter_concat (made s) hbehind
  have howns : (f.newChild s data).1.Owns (made s ++ [f.entries.size]) s := by
    have hold := h.owns s hs
    refine ⟨?_, by rw [hself, hmade, hold.made], ?_, fun c hc => ?_⟩
    · rw [hself]
      exact List.pairwise_append.2 ⟨hold.ordered, List.pairwise_singleton _ _,
        fun c hc n hn => List.mem_singleton.1 hn ▸ hbehind c hc⟩
    · rw [hself, hbound, hold.bound, repeats_newChild]
    · have hscope : ∃ scope, g.get? c = some scope ∧ scope.parent = some s := by
        rw [hself] at hc
        rcases List.mem_append.1 hc with hc | hc
        · rw [hget, if_neg (Nat.ne_of_lt (hbehind c hc))]
          exact hold.below c hc
        · rw [hget, if_pos (List.mem_singleton.1 hc)]
          exact ⟨_, rfl, rfl⟩
      exact exists_child_update (k := fun p => { p with children := p.children ++ [f.entries.size] })
        (fun _ => rfl) hscope s
  have hpushed : g.Owning made :=
    h.toOwning.push (some s) data (fun p hp => Option.some.inj hp ▸ hlt) f.held
  have hlive : g.contains s = true := by rwa [Scopes.contains, hget, if_neg (Nat.ne_of_lt hlt)]
  refine ⟨hpushed.update (fun _ => rfl) (fun x hx => Function.update_of_ne hx _ _) hlive ?_,
    fun x hx => ?_⟩
  · rw [Function.update_self]
    exact howns
  · by_cases hxs : x = f.entries.size
    · exact .inr ⟨s, by rw [hself, hxs]; simp⟩
    · have hold : f.contains x = true := by
        rw [show (f.newChild s data).1.contains x = g.contains x from contains_update g s _ x,
          Scopes.contains, hget, if_neg hxs] at hx
        exact hx
      refine h.kept_of_subset (List.Subset.refl _) (fun p c hc => ?_) hold
      rw [hchildren]
      split
      · next hps => exact List.mem_append_left _ (hps ▸ hc)
      · exact hc

/-! ### Scopes that are let go -/

/-- With rounds enough, the scopes below a scope have their children among them. -/
theorem Owning.child_mem_ownedTo (h : f.Owning made) {fuel : Nat} (hfuel : f.entries.size ≤ fuel + s)
    (hx : x ∈ f.ownedTo fuel s) (hc : c ∈ f.children x) : c ∈ f.ownedTo fuel s := by
  induction fuel generalizing s with
  | zero => cases hx
  | succ fuel ih =>
      -- a child is behind its parent, so a round less is enough for it
      have hnext : ∀ p ∈ f.children s, f.entries.size ≤ fuel + p := fun p hp =>
        calc f.entries.size ≤ fuel + (s + 1) := by rw [Nat.add_comm s 1, ← Nat.add_assoc]; exact hfuel
          _ ≤ fuel + p := Nat.add_le_add_left (h.lt_of_child hp).1 fuel
      refine List.mem_cons_of_mem _ ?_
      rcases List.mem_cons.1 hx with rfl | hx
      · refine List.mem_flatMap.2 ⟨c, hc, ?_⟩
        cases fuel with
        | zero => exact absurd (h.lt_of_child hc).2 (Nat.not_lt.2 (Nat.zero_add c ▸ hnext c hc))
        | succ fuel => exact List.mem_cons_self ..
      · obtain ⟨p, hp, hx⟩ := List.mem_flatMap.1 hx
        exact List.mem_flatMap.2 ⟨p, hp, ih (hnext p hp) hx⟩

/-- What an owned scope owns is owned. -/
theorem Owning.child_mem_owned (h : f.Owning made) (hx : x ∈ f.owned) (hc : c ∈ f.children x) :
    c ∈ f.owned := by
  obtain ⟨s, hs, hx⟩ := List.mem_flatMap.1 hx
  exact List.mem_flatMap.2 ⟨s, hs, h.child_mem_ownedTo (Nat.le_add_right _ s) hx hc⟩

theorem mem_owned_of_held (hx : x ∈ f.held) (hlive : f.contains x = true) : x ∈ f.owned := by
  refine List.mem_flatMap.2 ⟨x, hx, ?_⟩
  obtain ⟨fuel, hfuel⟩ := Nat.exists_eq_succ_of_ne_zero
    (Nat.ne_of_gt (Nat.zero_lt_of_lt (lt_size_of_contains hlive)))
  rw [hfuel]
  exact List.mem_cons_self ..

/-- A scope below another one is this one, or a child of one that is below. -/
theorem eq_or_child_of_mem_ownedTo {fuel : Nat} (hx : x ∈ f.ownedTo fuel s) :
    x = s ∨ ∃ p ∈ f.ownedTo fuel s, x ∈ f.children p := by
  induction fuel generalizing s with
  | zero => cases hx
  | succ fuel ih =>
      rcases List.mem_cons.1 hx with rfl | hx
      · exact .inl rfl
      · obtain ⟨c, hc, hx⟩ := List.mem_flatMap.1 hx
        rcases ih hx with rfl | ⟨p, hp, hxp⟩
        · exact .inr ⟨s, List.mem_cons_self .., hc⟩
        · exact .inr ⟨p, List.mem_cons_of_mem _ (List.mem_flatMap.2 ⟨c, hc, hp⟩), hxp⟩

/-- **When the scopes that nothing owns are gone**, the others own what they did, and are held or
owned. -/
theorem Owning.collect (h : f.Owning made) : f.collect.Owned made := by
  have hlive : ∀ x, f.collect.contains x = true → x ∈ f.owned ∧ f.contains x = true := by
    intro x hx
    rw [Scopes.contains, get?_collect] at hx
    split at hx
    · next howned => exact ⟨howned, hx⟩
    · cases hx
  have hsame : ∀ x ∈ f.owned, f.collect.get? x = f.get? x := fun x hx => by
    rw [get?_collect, if_pos hx]
  refine ⟨⟨h.first.collect, fun x hx => ?_, fun x hx => h.unmade x ?_⟩, fun x hx => ?_⟩
  · obtain ⟨howned, hold⟩ := hlive x hx
    refine (h.owns x hold).congr (children_of_get? (hsame x howned))
      (by rw [repeats_of_get? (hsame x howned)]) fun c hc scope hscope => ⟨scope, ?_, rfl⟩
    rw [hsame c (h.child_mem_owned howned hc), hscope]
  · simpa [Scopes.collect] using hx
  · obtain ⟨s, hs, hx⟩ := List.mem_flatMap.1 (hlive x hx).1
    rcases eq_or_child_of_mem_ownedTo hx with rfl | ⟨p, hp, hxp⟩
    · exact .inl hs
    · refine .inr ⟨p, ?_⟩
      rwa [children_of_get? (hsame p (List.mem_flatMap.2 ⟨s, hs, hp⟩))]

/-- Who holds a scope does not matter to what the scopes own. -/
theorem Owning.hold (h : f.Owning made) (held : List ScopeId) :
    (⟨f.entries, held⟩ : Scopes).Owning made :=
  ⟨h.first, fun x hx => ⟨(h.owns x hx).ordered, (h.owns x hx).made, (h.owns x hx).bound,
    (h.owns x hx).below⟩, h.unmade⟩

theorem Owned.hold (h : f.Owned made) (s : ScopeId) : (f.hold s).Owned made :=
  ⟨h.toOwning.hold _, fun _ => h.kept_of_subset (List.subset_cons_self ..)
    fun _ => List.Subset.refl _⟩

theorem Owned.letGo (h : f.Owned made) (s : ScopeId) : (f.letGo s).Owned made :=
  (h.toOwning.hold _).collect

/-! ### Scopes that are made for nothing -/

/-- The same scopes are held, those that are held or owned are what they were, and if nothing has used
the next number yet there are no others. -/
structure Restored (f g : Scopes) : Prop where
  held : g.held = f.held
  kept : ∀ x ∈ f.owned, ∀ scope, f.get? x = some scope → g.get? x = some scope
  old : f.entries.size ∉ f.held → (∀ p, f.entries.size ∉ f.children p) →
    ∀ x scope, g.get? x = some scope → f.get? x = some scope

theorem Restored.refl (f : Scopes) : f.Restored f where
  held := rfl
  kept _ _ _ hx := hx
  old _ _ _ _ hx := hx

/-- With more rounds no scope is left out. -/
theorem mem_ownedTo_succ {fuel : Nat} (hx : x ∈ f.ownedTo fuel s) : x ∈ f.ownedTo (fuel + 1) s := by
  induction fuel generalizing s with
  | zero => cases hx
  | succ fuel ih =>
      rcases List.mem_cons.1 hx with rfl | hx
      · exact List.mem_cons_self ..
      · obtain ⟨c, hc, hx⟩ := List.mem_flatMap.1 hx
        exact List.mem_cons_of_mem _ (List.mem_flatMap.2 ⟨c, hc, ih hx⟩)

/-- What a scope owns depends on the children alone. -/
theorem ownedTo_congr (h : ∀ x, g.children x = f.children x) (fuel : Nat) (s : ScopeId) :
    g.ownedTo fuel s = f.ownedTo fuel s := by
  induction fuel generalizing s with
  | zero => rfl
  | succ fuel ih => simp only [ownedTo, h, funext ih]

/-- **A new scope that is let go at once** leaves the others as they were. -/
theorem restored_letGo_newRoot (f : Scopes) (data : Value) :
    f.Restored ((f.newRoot data).1.letGo (f.newRoot data).2) := by
  let g : Scopes := ⟨f.entries.push (some (Scope.fresh data none)), f.held⟩
  have hletGo : (f.newRoot data).1.letGo (f.newRoot data).2 = g.collect := by
    simp only [letGo, newRoot, List.erase_cons_head, g]
  have howned : g.owned = f.held.flatMap (f.ownedTo (f.entries.size + 1)) := by
    have hsize : g.entries.size = f.entries.size + 1 := Array.size_push ..
    rw [owned, hsize, funext (ownedTo_congr (f.children_push none data f.held) _)]
  have hget : ∀ x, g.get? x = if x = f.entries.size then some (Scope.fresh data none) else f.get? x :=
    f.get?_push (Scope.fresh data none)
  rw [hletGo]
  refine ⟨rfl, fun x hx scope hscope => ?kept, fun hheld hchildren x scope hscope => ?old⟩
  case kept =>
    obtain ⟨s, hs, hx⟩ := List.mem_flatMap.1 hx
    have hlive : x ∈ g.owned := howned ▸ List.mem_flatMap.2 ⟨s, hs, mem_ownedTo_succ hx⟩
    rw [get?_collect, if_pos hlive, hget, if_neg (Nat.ne_of_lt (lt_size_of_get? hscope)), hscope]
  case old =>
    rw [get?_collect, howned] at hscope
    split at hscope
    · next hx =>
        -- nothing leads to the new scope
        obtain ⟨s, hs, hx⟩ := List.mem_flatMap.1 hx
        have hne : x ≠ f.entries.size := by
          rintro rfl
          rcases eq_or_child_of_mem_ownedTo hx with rfl | ⟨p, -, hp⟩
          · exact hheld hs
          · exact hchildren p hp
        rwa [hget, if_neg hne] at hscope
    · cases hscope

/-! ### Scopes that are bound, and no longer bound -/

/-- Numbers that stand in two parts of a list can be told apart. -/
theorem filter_append_of_nodup {as bs : List ScopeId} (h : (as ++ bs).Nodup) :
    (as ++ bs).filter (· ∈ as) = as ∧ (as ++ bs).filter (· ∉ as) = bs := by
  have hdisjoint : ∀ b ∈ bs, b ∉ as := fun b hb ha => (List.nodup_append.1 h).2.2 b ha b hb rfl
  refine ⟨?_, ?_⟩
  · rw [List.filter_append, List.filter_eq_self.2 (by simp),
      List.filter_eq_nil_iff.2 (by simpa using hdisjoint), List.append_nil]
  · rw [List.filter_append, List.filter_eq_nil_iff.2 (by simp),
      List.filter_eq_self.2 (by simpa using hdisjoint), List.nil_append]

/-- **Directives are bound to a scope** after their scopes have been made: these belong to them now. -/
theorem Owned.bind {rs : List Repeat}
    (h : f.Owned (Function.update made s (made s ++ rs.map (·.scope)))) (hs : f.contains s = true)
    (hrepeats : f.repeats s = []) (slots : Slots) :
    (f.update s fun scope => { scope with slots := slots, repeats := rs }).Owned made := by
  let k : Scope → Scope := fun scope => { scope with slots := slots, repeats := rs }
  obtain ⟨scope, hscope⟩ := contains_iff.1 hs
  have howns := h.owns s hs
  rw [Function.update_self] at howns
  have hall : f.children s = made s ++ rs.map (·.scope) := by
    have hnone := howns.bound
    rw [hrepeats, List.map_nil, List.filter_eq_nil_iff] at hnone
    rw [← howns.made, List.filter_eq_self.2 fun c hc => by
      simpa only [decide_eq_true_eq, Classical.not_not] using hnone c hc]
  have hchildren : ∀ x, (f.update s k).children x = f.children x := by
    intro x
    rw [children_update]
    split
    · next hxs => rw [hxs, children]
    · rfl
  have hbound : (f.update s k).repeats s = rs := by
    rw [repeats_update, if_pos rfl, hscope]
    rfl
  have hnodup : (made s ++ rs.map (·.scope)).Nodup :=
    hall ▸ howns.ordered.imp fun hlt => Nat.ne_of_lt hlt
  obtain ⟨hmade, hrest⟩ := filter_append_of_nodup hnodup
  have hself : (f.update s k).Owns (made s) s := by
    refine ⟨?ordered, ?made, ?bound, ?below⟩
    case ordered =>
      rw [hchildren]
      exact howns.ordered
    case made =>
      rw [hchildren, hall, hmade]
    case bound =>
      rw [hchildren, hall, hrest, hbound]
    case below =>
      intro c hc
      rw [hchildren] at hc
      exact exists_child_update (k := k) (fun _ => rfl) (howns.below c hc) s
  have hothers : ∀ x, x ≠ s → made x = Function.update made s (made s ++ rs.map (·.scope)) x :=
    fun x hx => (Function.update_of_ne hx _ _).symm
  refine ⟨h.toOwning.update (fun _ => rfl) hothers hs hself, fun x hx => ?_⟩
  refine h.kept_of_subset (List.Subset.refl _) (fun p => ?_) (contains_update f s k x ▸ hx)
  exact (hchildren p).symm ▸ List.Subset.refl _

/-- A scope loses its directives and the children that belong to them, and owns the others. -/
theorem Owned.unbind (h : f.Owned made) (hs : f.contains s = true) :
    (f.update s fun scope => { scope with
      repeats := []
      children := scope.children.filter fun c => !(f.repeats s).any (·.scope == c) }).Owning made := by
  let k : Scope → Scope := fun scope => { scope with
    repeats := []
    children := scope.children.filter fun c => !(f.repeats s).any (·.scope == c) }
  obtain ⟨scope, hscope⟩ := contains_iff.1 hs
  have howns := h.owns s hs
  -- the children that do not belong to directives are those made by hand
  have hchildren : (f.update s k).children s = made s := by
    have hfilter : (f.update s k).children s =
        (f.children s).filter fun c => !(f.repeats s).any (·.scope == c) := by
      rw [children_update, if_pos rfl, hscope, children, hscope]
      rfl
    rw [hfilter, ← howns.made]
    refine List.filter_congr fun c hc => ?_
    have hbound : (∃ r ∈ f.repeats s, r.scope = c) ↔ c ∉ made s := by
      rw [← List.mem_map, ← howns.bound, List.mem_filter]
      simp [hc]
    rw [Bool.eq_iff_iff]
    simpa [not_exists] using not_congr hbound
  have hrepeats : (f.update s k).repeats s = [] := by
    rw [repeats_update, if_pos rfl, hscope]
    rfl
  have hself : (f.update s k).Owns (made s) s := by
    refine ⟨?ordered, ?made, ?bound, ?below⟩
    case ordered =>
      rw [hchildren, ← howns.made]
      exact howns.ordered.sublist List.filter_sublist
    case made =>
      rw [hchildren]
      exact List.filter_eq_self.2 (by simp)
    case bound =>
      rw [hchildren, hrepeats]
      exact List.filter_eq_nil_iff.2 (by simp)
    case below =>
      intro c hc
      rw [hchildren, ← howns.made] at hc
      have hold := howns.below c (List.mem_filter.1 hc).1
      exact exists_child_update (k := k) (fun _ => rfl) hold s
  exact h.toOwning.update (fun _ => rfl) (fun _ _ => rfl) hs hself

/-- A scope that has lost children is still owned itself: the way to it leads through scopes before
it. -/
theorem Owned.mem_owned_update (h : f.Owned made) {k : Scope → Scope}
    (hg : (f.update s k).Owning made) (hx : f.contains x = true) (hxs : x ≤ s) :
    x ∈ (f.update s k).owned := by
  induction x using Nat.strong_induction_on with
  | _ x ih =>
      rcases h.kept x hx with hheld | ⟨p, hp⟩
      · exact mem_owned_of_held hheld ((contains_update f s k x).trans hx)
      · have hlt : p < x := (h.lt_of_child hp).1
        have hne : p ≠ s := Nat.ne_of_lt (Nat.lt_of_lt_of_le hlt hxs)
        refine hg.child_mem_owned
          (ih p hlt (contains_of_child hp) (Nat.le_of_lt (Nat.lt_of_lt_of_le hlt hxs))) ?_
        rwa [children_update, if_neg hne]

end Scopes

open Scopes

variable {made : ScopeId → List ScopeId} {s : ScopeId} {mark : String}

/-! ### Compiling -/

/-- Without its old directives, a scope is there as before. -/
theorem Scopes.Owned.dismantle {st : Stage} (h : st.scopes.Owned made)
    (hs : st.scopes.contains s = true) :
    (st.dismantle s).scopes.Owned made ∧ (st.dismantle s).scopes.contains s = true := by
  rw [Stage.dismantle]
  simp only
  split
  · exact ⟨h, hs⟩
  · have howning := h.unbind hs
    refine ⟨howning.collect, ?_⟩
    rw [Scopes.contains, get?_collect, if_pos (h.mem_owned_update howning hs (Nat.le_refl s))]
    exact (contains_update st.scopes s _ s).trans hs

/-- The scopes of the directives when one more has been taken out. -/
theorem scopes_takeOut (mark : String) (st : Stage) (repeats : List Repeat)
    (expression : RepeatExpression) (scope : ScopeId) (element container : NodeId) :
    (Stage.takeOut mark st repeats expression scope element container).2.map (·.scope) =
      repeats.map (·.scope) ++ [scope] := by
  have hsame : ∀ anchor, (fun r : Repeat =>
      (if r.anchor = some element then { r with anchor := anchor } else r).scope) = (·.scope) := by
    intro anchor
    funext r
    split <;> rfl
  rw [Stage.takeOut]
  simp only [List.map_append, List.map_map, List.map_cons, List.map_nil]
  exact congrArg (fun k => repeats.map k ++ [scope]) (hsame _)

/-- What holds of the scopes between two repeated elements: the scopes of those that have been taken out
count as made by hand. -/
structure Pending (made : ScopeId → List ScopeId) (s : ScopeId) (out : Stage × List Repeat) : Prop where
  owned : out.1.scopes.Owned (Function.update made s (made s ++ out.2.map (·.scope)))
  live : out.1.scopes.contains s = true
  unbound : out.1.scopes.repeats s = []

/-- **One repeated element** gets a scope, which is a new child. -/
theorem Pending.takeRound {fuel : Nat}
    (hcompile : ∀ (st : Stage) (made : ScopeId → List ScopeId) (s : ScopeId) (node : NodeId),
      st.scopes.Owned made → st.scopes.contains s = true → st.scopes.repeats s = [] →
      (st.compileTo mark fuel s node).scopes.Owned made)
    {out : Stage × List Repeat} (h : Pending made s out) (element : NodeId) :
    Pending made s (takeRound mark fuel s out element) := by
  simp only [Binding.takeRound]
  split
  · next expression container _ _ =>
      let n := out.1.scopes.entries.size
      let inner : Stage := ⟨out.1.document, (out.1.scopes.newChild s .emptyObject).1⟩
      have hlt := lt_size_of_contains h.live
      have hnew := get?_newChild hlt .emptyObject
      have hinner := h.owned.newChild h.live .emptyObject
      rw [Function.update_self, Function.update_idem, List.append_assoc] at hinner
      have hlive : inner.scopes.contains n = true :=
        contains_iff.2 ⟨_, (hnew n).trans (by rw [if_neg (Nat.ne_of_gt hlt), if_pos rfl])⟩
      have hfresh : inner.scopes.repeats n = [] := by
        rw [repeats_newChild, repeats_of_size_le (Nat.le_refl _)]
      have hsize : s < inner.scopes.entries.size := by
        rw [size_newChild]
        exact Nat.lt_succ_of_lt hlt
      obtain ⟨hgrows, -⟩ := ranksAt_compileTo mark fuel inner n element (lt_size_of_contains hlive)
        hfresh
      -- the elements inside leave `s` alone
      have hsame : (inner.compileTo mark fuel n element).scopes.get? s = inner.scopes.get? s :=
        hgrows.get? s hsize (Nat.ne_of_lt hlt)
      refine ⟨?_, ?_, ?_⟩
      · rw [scopes_takeOut]
        exact hcompile inner _ n element hinner hlive hfresh
      · show (inner.compileTo mark fuel n element).scopes.contains s = true
        rw [Scopes.contains, hsame, hnew s, if_pos rfl, Option.isSome_map]
        exact h.live
      · exact (repeats_of_get? hsame).trans ((repeats_newChild _ s _ s).trans h.unbound)
  · exact h

/-- **Compiling gives a scope children for its directives**, and changes nothing else in what scopes
own. -/
theorem Scopes.Owned.compileTo (mark : String) (fuel : Nat) {st : Stage} (h : st.scopes.Owned made)
    (hs : st.scopes.contains s = true) (hrepeats : st.scopes.repeats s = []) (node : NodeId) :
    (st.compileTo mark fuel s node).scopes.Owned made := by
  induction fuel generalizing st made s node with
  | zero => exact h
  | succ fuel ih =>
      have hstart : Pending made s (st, []) :=
        ⟨by rwa [List.map_nil, List.append_nil, Function.update_eq_self], hs, hrepeats⟩
      have htaken := List.foldlRecOn (repeated st.document mark node) (takeRound mark fuel s)
        (motive := Pending made s) hstart
        fun out hout element _ => hout.takeRound (fun _ _ _ node h hs hr => ih h hs hr node) element
      rw [compileTo_succ]
      exact htaken.owned.bind htaken.live htaken.unbound _

/-- **Compiling a scope again exchanges the children that belong to its directives.**  It stays there
itself, and no scope of an old directive is left among its children. -/
theorem Scopes.Owned.compile {st st' : Stage} {node : NodeId} (h : st.scopes.Owned made)
    (hs : st.scopes.contains s = true) (hcompile : st.compile mark s node = .ok st') :
    st'.scopes.Owned made ∧ st'.scopes.contains s = true ∧
      ∀ r ∈ st.scopes.repeats s, r.scope ∉ st'.scopes.children s := by
  obtain ⟨howned, hlive⟩ := h.dismantle hs
  have hbare := repeats_dismantle st s
  obtain ⟨hgrows, hranked⟩ := ranksAt_compileTo mark ((st.dismantle s).document.nodes.size + 1)
    (st.dismantle s) s node (lt_size_of_contains hlive) hbare
  rw [← Stage.eq_of_compile hcompile] at hgrows hranked
  have hafter : st'.scopes.Owned made := by
    rw [Stage.eq_of_compile hcompile]
    exact howned.compileTo mark _ hlive hbare node
  have hthere : st'.scopes.contains s = true := by
    obtain ⟨scope, hscope⟩ := contains_iff.1 hlive
    obtain ⟨scope', hscope', -⟩ := hgrows.own scope hscope
    exact contains_iff.2 ⟨scope', hscope'⟩
  refine ⟨hafter, hthere, fun r hr hmem => ?_⟩
  obtain ⟨hchild, hmade⟩ := (h.owns s hs).scope_mem hr
  -- a child that has not been made by hand belongs to a new directive, and is a new scope
  have hbound : r.scope ∈ (st'.scopes.repeats s).map (·.scope) := by
    rw [← (hafter.owns s hthere).bound]
    exact List.mem_filter.2 ⟨hmem, by simpa using hmade⟩
  obtain ⟨r', hr', hsame⟩ := List.mem_map.1 hbound
  have hnew := (hranked.own r' hr').1
  rw [hsame, size_dismantle] at hnew
  exact absurd (h.lt_of_child hchild).2 (Nat.not_lt.2 hnew)

/-! ### Rendering -/

section Rounds

variable {render : Stage → ScopeId → Stage}

theorem alike_renderRepeat
    (hrender : ∀ (st : Stage) (s : ScopeId), st.scopes.Alike (render st s).scopes) (st : Stage)
    (s : ScopeId) (r : Repeat) :
    st.scopes.Alike (Stage.renderRepeat render st s r).1.scopes ∧
      (Stage.renderRepeat render st s r).2.scope = r.scope := by
  simp only [Stage.renderRepeat]
  split
  · exact ⟨.refl _, rfl⟩
  · next items _ =>
      refine ⟨?_, rfl⟩
      exact List.foldlRecOn items (itemRound render r)
        (motive := fun out : Stage × List NodeId => st.scopes.Alike out.1.scopes) (.refl _)
        fun out hout item _ => by
          have hset := alike_set out.1.scopes r.scope r.expression.item item
          exact (hout.trans hset).trans (hrender ⟨out.1.document, _⟩ r.scope)

theorem alike_repeatRounds
    (hrender : ∀ (st : Stage) (s : ScopeId), st.scopes.Alike (render st s).scopes) (s : ScopeId)
    (rs : List Repeat) (out : Stage × List Repeat) :
    out.1.scopes.Alike (rs.foldl (repeatRound render s) out).1.scopes ∧
      (rs.foldl (repeatRound render s) out).2.map (·.scope) =
        out.2.map (·.scope) ++ rs.map (·.scope) := by
  induction rs generalizing out with
  | nil => exact ⟨.refl _, by simp⟩
  | cons r rs ih =>
      obtain ⟨halike, hscope⟩ := alike_renderRepeat hrender out.1 s r
      obtain ⟨hrest, hscopes⟩ := ih (repeatRound render s out r)
      refine ⟨halike.trans hrest, ?_⟩
      rw [List.foldl_cons, hscopes]
      simp [repeatRound, hscope]

end Rounds

/-- **Rendering leaves ownership alone.** -/
theorem Scopes.alike_renderTo (fuel : Nat) (st : Stage) (s : ScopeId) :
    st.scopes.Alike (st.renderTo fuel s).scopes := by
  induction fuel generalizing st s with
  | zero => exact .refl _
  | succ fuel ih =>
      obtain ⟨halike, hscopes⟩ := alike_repeatRounds ih s (st.scopes.repeats s) (st, [])
      rw [renderTo_succ_eq]
      refine halike.trans (alike_update fun scope hscope => ?_)
      -- the directives are those from before, with other copies
      have hsame := halike.scopes s
      rw [repeats, hscope, Option.map_some, Option.getD_some] at hsame
      rw [List.map_nil, List.nil_append] at hscopes
      rw [kin, kin, hsame]
      exact congrArg (fun ss => (scope.parent, scope.children, ss)) hscopes

theorem Scopes.Owned.render {st : Stage} (h : st.scopes.Owned made) (s : ScopeId) :
    (st.render s).scopes.Owned made :=
  h.alike (alike_renderTo _ st s)

end PageTemplate.Binding
