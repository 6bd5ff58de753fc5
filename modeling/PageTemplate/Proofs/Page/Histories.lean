/-
**What happens to scopes, and what they answer then.**

Scopes are made and held, they get other data, parts of a document are bound to them and rendered, and
they are let go, in any order.  A parent can be gone while its child is still held, and the scopes of
directives are exchanged when their scope is compiled again.  Whatever has happened, a parent was made
before its children, so every scope has a chain of ancestors, and a path leads to what the first scope
of the chain has for it.

Main definitions:

* `PageTemplate.Binding.Event` — one thing that happens to scopes;
* `PageTemplate.Binding.Reached` — the stages that are reached in this way.

Main results:

* `PageTemplate.Binding.Reached.parentsFirst` — parents come before their children;
* `PageTemplate.Binding.lookup?_nearest` — a path leads to what the nearest scope has for it;
* `PageTemplate.Binding.lookup?_assigned` — what setting a field does to all scopes and all paths.
-/

import PageTemplate.Proofs.Binding.Lookups
import PageTemplate.Proofs.Page.Validating

set_option relaxedAutoImplicit false
set_option autoImplicit false

namespace PageTemplate.Binding

open PageTemplate.Data

/-! ### Events -/

/-- One thing that happens to scopes. -/
inductive Event where
  | newRoot (data : Value)
  | newChild (parent : ScopeId) (data : Value)
  | hold (s : ScopeId)
  | letGo (s : ScopeId)
  | set (s : ScopeId) (name : String) (v : Value)
  | setData (s : ScopeId) (data : Value)
  | putData (s : ScopeId) (data : Value)
  | compile (mark : String) (s : ScopeId) (node : NodeId)
  | render (s : ScopeId)

namespace Event

/-- The stage behind it.  Compiling that fails leaves the stage as it is. -/
def run (st : Stage) : Event → Stage
  | newRoot data => { st with scopes := (st.scopes.newRoot data).1 }
  | newChild parent data => { st with scopes := (st.scopes.newChild parent data).1 }
  | hold s => { st with scopes := st.scopes.hold s }
  | letGo s => { st with scopes := st.scopes.letGo s }
  | set s name v => { st with scopes := st.scopes.set s name v }
  | setData s data => { st with scopes := st.scopes.setData s data }
  | putData s data => { st with scopes := st.scopes.putData s data }
  | compile mark s node => st.attempt mark s node
  | render s => st.render s

/-- The scope that it is done with, if there has to be one. -/
def scope? : Event → Option ScopeId
  | newRoot _ => none
  | newChild s _ | hold s | letGo s | set s _ _ | setData s _ | putData s _ | compile _ s _
  | render s => some s

/-- Nothing can be done with a scope that is gone. -/
def Possible (f : Scopes) (e : Event) : Prop :=
  ∀ s, e.scope? = some s → f.contains s = true

theorem possible_of_contains {f : Scopes} {e : Event} {s : ScopeId} (he : e.scope? = some s)
    (hs : f.contains s = true) : e.Possible f := by
  intro t ht
  rwa [← Option.some.inj (he.symm.trans ht)]

end Event

/-- The stages that are reached from a document without scopes, when one thing after the other happens
to scopes, and anything to the document in between. -/
inductive Reached : Stage → Prop
  | start (d : Document) : Reached ⟨d, .empty⟩
  | event {st : Stage} (h : Reached st) (e : Event) (he : e.Possible st.scopes) : Reached (e.run st)
  | document {st : Stage} (h : Reached st) (d : Document) : Reached { st with document := d }

variable {st : Stage} {s : ScopeId}

/-- An event leaves parents before their children. -/
theorem Event.parentsFirst (h : st.scopes.ParentsFirst) (e : Event) (he : e.Possible st.scopes) :
    (e.run st).scopes.ParentsFirst := by
  have hlt : ∀ s, e.scope? = some s → s < st.scopes.entries.size := fun s hs =>
    Scopes.lt_size_of_contains (he s hs)
  cases e with
  | newRoot data => exact h.newRoot data
  | newChild parent data => exact h.newChild (hlt parent rfl) data
  | hold s => exact h.hold s
  | letGo s => exact h.letGo s
  | set s name v => exact h.set s name v
  | setData s data => exact h.update s fun _ => rfl
  | putData s data => exact h.update s fun _ => rfl
  | compile mark s node =>
      rw [run, Stage.attempt]
      cases hcompile : st.compile mark s node with
      | error err => exact h
      | ok st' => exact h.compile (hlt s rfl) hcompile
  | render s => exact h.render s

/-- **Parents come before their children**, whatever has happened. -/
theorem Reached.parentsFirst (h : Reached st) : st.scopes.ParentsFirst := by
  induction h with
  | start d => exact Scopes.parentsFirst_empty
  | event _ e he ih => exact e.parentsFirst ih he
  | document _ _ ih => exact ih

/-! ### Asking -/

/-- The first answer along a list depends on those answers that are asked for. -/
theorem findSome?_congr_asked {α β : Type} {p q : α → Option β} {xs : List α}
    (h : ∀ before x after, xs = before ++ x :: after → (∀ y ∈ before, p y = none) → q x = p x) :
    xs.findSome? q = xs.findSome? p := by
  induction xs with
  | nil => rfl
  | cons x xs ih =>
      have hx : q x = p x := h [] x xs rfl nofun
      rw [List.findSome?_cons, List.findSome?_cons, hx]
      cases hpx : p x with
      | some _ => rfl
      | none =>
          refine ih fun before y after hsplit hbefore => ?_
          refine h (x :: before) y after (by rw [hsplit, List.cons_append]) fun z hz => ?_
          rcases List.mem_cons.1 hz with rfl | hz
          · exact hpx
          · exact hbefore z hz

/-- **A path leads to what the nearest scope has for it.**  The scope and its ancestors, up to one that
has no parent any more, are asked for the whole path one after the other, and the first one that has an
answer decides: it has one if each name of the path but the last leads to a member that is not null, and
the last one to any member.  The data of other scopes do not matter, neither of those behind it nor of
those off the chain. -/
theorem lookup?_nearest (h : Reached st) (hs : st.scopes.contains s = true) {path : String}
    (hpath : path ≠ "") :
    ∃ chain, st.scopes.Ancestry s chain ∧
      st.scopes.lookup? s path = chain.findSome? (st.scopes.answer? (segments path)) ∧
      (∀ x ∈ chain, ∃ data, st.scopes.data? x = some data ∧
        ∀ v, st.scopes.answer? (segments path) x = some v ↔ data.Leads (segments path) v) ∧
      ∀ g : Scopes, g.Ancestry s chain →
        (∀ before x after, chain = before ++ x :: after →
          (∀ y ∈ before, st.scopes.answer? (segments path) y = none) →
          g.data? x = st.scopes.data? x) →
        g.lookup? s path = st.scopes.lookup? s path := by
  obtain ⟨chain, hchain⟩ := h.parentsFirst.exists_ancestry hs
  refine ⟨chain, hchain, hchain.lookup? hpath, fun x hx => ?_, fun g hg hdata => ?_⟩
  · obtain ⟨scope, hscope⟩ := Scopes.contains_iff.1 (hchain.contains hx)
    refine ⟨scope.data, Scopes.data?_of_get? hscope, fun v => ?_⟩
    rw [Scopes.answer?, Scopes.data?_of_get? hscope, Option.bind_some, Value.lookup?_eq_some_iff]
  · rw [hg.lookup? hpath, hchain.lookup? hpath]
    refine findSome?_congr_asked fun before x after hsplit hbefore => ?_
    rw [Scopes.answer?, hdata before x after hsplit hbefore, ← Scopes.answer?]

/-- Three scopes, each below the one before: the first one has a track with an album, the second one no
track any more, and the third one a list of tracks. -/
def threeScopes : Stage :=
  [Event.newRoot (.object [("track", .object [("album", .string "first")])]),
    .newChild 0 (.object [("track", .null)]),
    .newChild 1 (.object [("track", .array [.string "last"])])].foldl Event.run ⟨.empty, .empty⟩

theorem reached_threeScopes : Reached threeScopes := by
  have hroot := Reached.event (.start .empty)
    (.newRoot (.object [("track", .object [("album", .string "first")])])) nofun
  have hchild := hroot.event (.newChild 0 (.object [("track", .null)]))
    (Event.possible_of_contains rfl rfl)
  exact hchild.event (.newChild 1 (.object [("track", .array [.string "last"])]))
    (Event.possible_of_contains rfl rfl)

theorem ancestry_threeScopes : threeScopes.scopes.Ancestry 2 [2, 1, 0] :=
  .next rfl (.next rfl (.last rfl rfl))

theorem lookup?_nearest_threeScopes :
    Reached threeScopes ∧ threeScopes.scopes.contains 2 = true ∧ "track?.album" ≠ "" ∧
      threeScopes.scopes.lookup? 2 "track?.album" =
        [2, 1, 0].findSome? (threeScopes.scopes.answer? (segments "track?.album")) ∧
      threeScopes.scopes.lookup? 2 "track?.album" = some (.string "first") := by
  obtain ⟨chain, hchain, hlookup, -⟩ :=
    lookup?_nearest reached_threeScopes (s := 2) rfl (by decide : "track?.album" ≠ "")
  obtain rfl := hchain.unique ancestry_threeScopes
  exact ⟨reached_threeScopes, rfl, by decide, hlookup, hlookup.trans rfl⟩

/-! ### Assigning -/

/-- **Setting a field changes what it has to change and nothing else.**  Paths that start with another
name lead where they did, from everywhere; and so does every path from a scope that does not have the
changed one on its chain.  If the name is a path, it leads to the new value from the scope itself, and
from each scope that has it on its chain, behind scopes that have nothing for the name.  The other fields
stay as they are, in their order. -/
theorem lookup?_assigned (h : Reached st) {fields : Fields}
    (hs : st.scopes.data? s = some (.object fields)) (name : String) (v : Value) :
    (∀ t path, path ≠ "" → (segments path).head? ≠ some name →
      (st.scopes.set s name v).lookup? t path = st.scopes.lookup? t path) ∧
    (∀ t, st.scopes.contains t = true → (∀ chain, st.scopes.Ancestry t chain → s ∉ chain) →
      ∀ path, (st.scopes.set s name v).lookup? t path = st.scopes.lookup? t path) ∧
    (name ≠ "" → '.' ∉ name.toList → name.toList.getLast? ≠ some '?' →
      (st.scopes.set s name v).lookup? s name = some v ∧
      ∀ t before after, st.scopes.Ancestry t (before ++ s :: after) →
        (∀ x ∈ before, st.scopes.answer? (segments name) x = none) →
        (st.scopes.set s name v).lookup? t name = some v) ∧
    ∃ fields', (st.scopes.set s name v).data? s = some (.object fields') ∧
      fields'.filter (·.1 ≠ name) = fields.filter (·.1 ≠ name) := by
  have hlive : st.scopes.contains s = true := by
    obtain ⟨scope, hscope, -⟩ := Option.map_eq_some_iff.1 hs
    exact Scopes.contains_iff.2 ⟨scope, hscope⟩
  have hbelow : name ≠ "" → '.' ∉ name.toList → name.toList.getLast? ≠ some '?' →
      ∀ t before after, st.scopes.Ancestry t (before ++ s :: after) →
        (∀ x ∈ before, st.scopes.answer? (segments name) x = none) →
        (st.scopes.set s name v).lookup? t name = some v := by
    intro hname hdot hmark t before after hchain hbefore
    have hself : (st.scopes.set s name v).answer? (segments name) s = some v := by
      rw [Scopes.answer?, Scopes.data?_set_self hs, Option.bind_some,
        segments_eq_singleton hdot hmark, Value.lookup?_singleton, Value.member?, Fields.get?_set,
        if_pos rfl]
    have hnone : before.findSome? ((st.scopes.set s name v).answer? (segments name)) = none := by
      refine List.findSome?_eq_none_iff.2 fun x hx => ?_
      have hne : x ≠ s := by
        rintro rfl
        exact (List.nodup_append.1 hchain.nodup).2.2 x hx x (List.mem_cons_self ..) rfl
      rw [Scopes.answer?, Scopes.data?_set_of_ne hne, ← Scopes.answer?, hbefore x hx]
    rw [(hchain.set name v).lookup? hname, List.findSome?_append, hnone, Option.none_or,
      List.findSome?_cons, hself]
  refine ⟨fun t path hpath hhead => ?_, fun t ht hoff path => ?_, fun hname hdot hmark => ?_,
    Fields.set name v fields, Scopes.data?_set_self hs name v, Fields.filter_set name v fields⟩
  · rw [Scopes.lookup?, if_neg hpath, Scopes.lookup?, if_neg hpath, Scopes.set, Scopes.size_update]
    exact Scopes.resolve_congr (Scopes.parent?_update (Scopes.parent_set name v))
      (Scopes.answer?_set hs hhead v) _ t
  · obtain ⟨chain, hchain⟩ := h.parentsFirst.exists_ancestry ht
    have hdata : ∀ x ∈ chain, (st.scopes.set s name v).data? x = st.scopes.data? x := by
      intro x hx
      refine Scopes.data?_set_of_ne ?_ name v
      rintro rfl
      exact hoff chain hchain hx
    by_cases hpath : path = ""
    · rw [Scopes.lookup?, if_pos hpath, Scopes.lookup?, if_pos hpath, hdata t hchain.self_mem]
    · rw [(hchain.set name v).lookup? hpath, hchain.lookup? hpath]
      refine findSome?_congr_asked fun before x after hsplit _ => ?_
      rw [Scopes.answer?, hdata x (by rw [hsplit]; simp), ← Scopes.answer?]
  · obtain ⟨chain, hchain⟩ := h.parentsFirst.exists_ancestry hlive
    obtain ⟨rest, rfl⟩ := hchain.head
    have hself := hbelow hname hdot hmark s [] rest hchain fun x hx => absurd hx List.not_mem_nil
    exact ⟨hself, hbelow hname hdot hmark⟩

theorem lookup?_assigned_threeScopes :
    Reached threeScopes ∧
      threeScopes.scopes.data? 0 =
        some (.object [("track", .object [("album", .string "first")])]) ∧
      (threeScopes.scopes.set 0 "title" (.bool true)).lookup? 2 "title" = some (.bool true) ∧
      (threeScopes.scopes.set 0 "title" (.bool true)).lookup? 2 "track.0" = some (.string "last") := by
  obtain ⟨hothers, -, hseen, -⟩ :=
    lookup?_assigned reached_threeScopes (s := 0) rfl "title" (.bool true)
  have htitle := (hseen (by decide) (by decide) (by decide)).2 2 [2, 1] [] ancestry_threeScopes
    (by simp only [List.forall_mem_cons]; exact ⟨rfl, rfl, nofun⟩)
  have htrack := hothers 2 "track.0" (by decide) (by decide)
  exact ⟨reached_threeScopes, rfl, htitle, htrack.trans rfl⟩

end PageTemplate.Binding
