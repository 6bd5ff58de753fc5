/-
**Taking out one repeated element after the other.**

Compiling takes the repeated elements out of a part of a document in document order.  Each is compiled
by itself while it is still in its place, where only its own slots and new ones can change.  Then it is
taken out, and directives that were anchored at it move their anchors on.

Main definitions:

* `PageTemplate.Binding.Ground` — the part of a document that is compiled;
* `PageTemplate.Binding.Compiled` — what compiling makes of it;
* `PageTemplate.Binding.Taken` — a stage when some repeated elements have been taken out;
* `PageTemplate.Binding.Next` — such a stage when one more has been compiled.

Main results:

* `PageTemplate.Binding.Scopes.Grows` — compiling only makes new scopes;
* `PageTemplate.Binding.Next.step` — taking out one more element.
-/

import PageTemplate.Proofs.Binding.Layout

set_option relaxedAutoImplicit false
set_option autoImplicit false

namespace PageTemplate.Binding

open PageTemplate.Data PageTemplate.Markup PageTemplate.Text

/-! ### New scopes -/

namespace Scopes

variable {f g h : Scopes} {s : ScopeId}

theorem size_update (f : Scopes) (s : ScopeId) (k : Scope → Scope) :
    (f.update s k).entries.size = f.entries.size := by
  simp [update]

theorem size_newChild (f : Scopes) (s : ScopeId) (data : Value) :
    (f.newChild s data).1.entries.size = f.entries.size + 1 := by
  simp [newChild, size_update]

theorem get?_push (f : Scopes) (scope : Scope) (x : ScopeId) :
    (⟨f.entries.push (some scope), f.held⟩ : Scopes).get? x =
      if x = f.entries.size then some scope else f.get? x := by
  by_cases hx : x = f.entries.size
  · simp [get?, hx]
  · simp [get?, Array.getElem?_push, hx]

/-- A new child is known to its parent, and no other scope changes. -/
theorem get?_newChild (hs : s < f.entries.size) (data : Value) (x : ScopeId) :
    (f.newChild s data).1.get? x =
      if x = s then (f.get? s).map fun p => { p with children := p.children ++ [f.entries.size] }
      else if x = f.entries.size then some (Scope.fresh data (some s)) else f.get? x := by
  have hne : s ≠ f.entries.size := Nat.ne_of_lt hs
  rw [newChild]
  simp only [get?_update, get?_push, if_neg hne]

/-- The scopes `g` are the scopes `f` with new ones, where of the others only `s` may be bound to
something else and have more children. -/
structure Grows (f g : Scopes) (s : ScopeId) : Prop where
  size : f.entries.size ≤ g.entries.size
  get? : ∀ x < f.entries.size, x ≠ s → g.get? x = f.get? x
  own : ∀ sc, f.get? s = some sc → ∃ sc', g.get? s = some sc' ∧ sc'.data = sc.data ∧
    sc'.parent = sc.parent

theorem Grows.refl (f : Scopes) (s : ScopeId) : f.Grows f s :=
  ⟨Nat.le_refl _, fun _ _ _ => rfl, fun sc hsc => ⟨sc, hsc, rfl, rfl⟩⟩

theorem Grows.trans (hfg : f.Grows g s) (hgh : g.Grows h s) : f.Grows h s where
  size := Nat.le_trans hfg.size hgh.size
  get? x hx hne := by rw [hgh.get? x (Nat.lt_of_lt_of_le hx hfg.size) hne, hfg.get? x hx hne]
  own sc hsc := by
    obtain ⟨sc₁, h₁, hdata₁, hparent₁⟩ := hfg.own sc hsc
    obtain ⟨sc₂, h₂, hdata₂, hparent₂⟩ := hgh.own sc₁ h₁
    exact ⟨sc₂, h₂, hdata₂.trans hdata₁, hparent₂.trans hparent₁⟩

/-- What only happens to a new scope and those made after it is growth. -/
theorem Grows.of_new (hfg : f.Grows g s) {n : ScopeId} (hgh : g.Grows h n)
    (hn : f.entries.size ≤ n) (hs : s < f.entries.size) : f.Grows h s where
  size := Nat.le_trans hfg.size hgh.size
  get? x hx hne := by
    have hxn : x ≠ n := Nat.ne_of_lt (Nat.lt_of_lt_of_le hx hn)
    rw [hgh.get? x (Nat.lt_of_lt_of_le hx hfg.size) hxn, hfg.get? x hx hne]
  own sc hsc := by
    obtain ⟨sc₁, h₁, hdata₁, hparent₁⟩ := hfg.own sc hsc
    have hsn : s ≠ n := Nat.ne_of_lt (Nat.lt_of_lt_of_le hs hn)
    exact ⟨sc₁, by rw [hgh.get? s (Nat.lt_of_lt_of_le hs hfg.size) hsn, h₁], hdata₁, hparent₁⟩

theorem grows_newChild (hs : s < f.entries.size) (data : Value) :
    f.Grows (f.newChild s data).1 s where
  size := by rw [size_newChild]; exact Nat.le_succ _
  get? x hx hne := by
    rw [get?_newChild hs, if_neg hne, if_neg (Nat.ne_of_lt hx)]
  own sc hsc := by
    refine ⟨{ sc with children := sc.children ++ [f.entries.size] }, ?_, rfl, rfl⟩
    rw [get?_newChild hs, if_pos rfl, hsc]
    rfl

theorem grows_update (f : Scopes) (s : ScopeId) (k : Scope → Scope)
    (hk : ∀ sc, (k sc).data = sc.data ∧ (k sc).parent = sc.parent) : f.Grows (f.update s k) s where
  size := by rw [size_update]
  get? x _ hne := by rw [get?_update, if_neg hne]
  own sc hsc := by
    refine ⟨k sc, ?_, (hk sc).1, (hk sc).2⟩
    rw [get?_update, if_pos rfl, hsc]
    rfl

end Scopes

/-! ### The part of a document that is compiled -/

/-- A document has a bindable part. -/
structure Ground (mark : String) (d : Document) (p : Option NodeId) (id : NodeId) (kind : NodeKind)
    (span : Option Span) (ts : List Placed) : Prop where
  sound : d.Sound
  holds : d.Holds p (.node id kind span ts)
  nodup : (Placed.node id kind span ts).ids.Nodup
  bindable : Bindable mark ts

/-- The slots of the nodes that are left when the repeated elements are taken out. -/
def leftIds (mark : String) (id : NodeId) (ts : List Placed) : List NodeId :=
  id :: (pruneAll mark ts).flatMap Placed.ids

section Ground

variable {mark : String} {d : Document} {p : Option NodeId} {id : NodeId} {kind : NodeKind}
  {span : Option Span} {ts : List Placed}

theorem Ground.perm (h : Ground mark d p id kind span ts) :
    (Placed.node id kind span ts).ids.Perm
      (leftIds mark id ts ++ (marksAll mark id ts).flatMap fun m => m.tree.ids) := by
  rw [Placed.ids_node, leftIds, List.cons_append]
  exact List.Perm.cons id (perm_ids h.bindable id)

theorem Ground.nodup_left (h : Ground mark d p id kind span ts) : (leftIds mark id ts).Nodup :=
  (List.nodup_append.1 (h.perm.nodup_iff.1 h.nodup)).1

theorem Ground.nodup_marks (h : Ground mark d p id kind span ts) :
    ((marksAll mark id ts).flatMap fun m => m.tree.ids).Nodup :=
  (List.nodup_append.1 (h.perm.nodup_iff.1 h.nodup)).2.1

/-- No node that is left is in a repeated element. -/
theorem Ground.left_notMem (h : Ground mark d p id kind span ts) {i : NodeId}
    (hi : i ∈ leftIds mark id ts) {m : Mark} (hm : m ∈ marksAll mark id ts) : i ∉ m.tree.ids := by
  intro him
  exact (List.nodup_append.1 (h.perm.nodup_iff.1 h.nodup)).2.2 i hi i
    (List.mem_flatMap.2 ⟨m, hm, him⟩) rfl

theorem Ground.mem_ids (h : Ground mark d p id kind span ts) {i : NodeId} :
    i ∈ (Placed.node id kind span ts).ids ↔
      i ∈ leftIds mark id ts ∨ ∃ m ∈ marksAll mark id ts, i ∈ m.tree.ids := by
  rw [h.perm.mem_iff, List.mem_append, List.mem_flatMap]

theorem Ground.live (h : Ground mark d p id kind span ts) {i : NodeId}
    (hi : i ∈ (Placed.node id kind span ts).ids) : ∃ n, d.get? i = some n :=
  h.holds.live hi

/-- A repeated element is in the document, bindable, and stands below a node that is left. -/
theorem Ground.of_mark (h : Ground mark d p id kind span ts) {m : Mark}
    (hm : m ∈ marksAll mark id ts) :
    Ground mark d (some m.container) m.id (.element m.element) m.span m.children :=
  ⟨h.sound, holds_mark (fun _ ht => h.holds.child ht) hm,
    nodup_mark (List.nodup_cons.1 (by simpa using h.nodup)).2 hm, (h.bindable.of_mem_marks hm).2⟩

theorem Ground.container (h : Ground mark d p id kind span ts) {m : Mark}
    (hm : m ∈ marksAll mark id ts) : m.container ∈ leftIds mark id ts ∧ ∃ n pre,
      d.get? m.container = some n ∧ n.children = pre ++ m.id :: m.later ∧ n.children.Nodup := by
  have hmem : m.container ∈ leftIds mark id ts ∧ ∃ n pre,
      d.get? m.container = some n ∧ n.children = pre ++ m.id :: m.later := by
    rcases container_mark h.bindable (fun _ ht => h.holds.child ht) hm with ⟨hc, pre, hpre⟩ | ⟨hc, hn⟩
    · refine ⟨hc ▸ List.mem_cons_self .., ⟨kind, p, ts.map Placed.id, span⟩, pre, ?_, hpre⟩
      rw [hc]
      exact h.holds.get?
    · exact ⟨List.mem_cons_of_mem _ hc, hn⟩
  obtain ⟨hc, n, pre, hn, hpre⟩ := hmem
  exact ⟨hc, n, pre, hn, hpre, h.holds.nodup_children h.nodup (h.mem_ids.2 (.inl hc)) hn⟩

/-- A repeated element is a child of its container only. -/
theorem Ground.container_eq (h : Ground mark d p id kind span ts) {m : Mark}
    (hm : m ∈ marksAll mark id ts) {i : NodeId} (hi : i ∈ leftIds mark id ts) {n : Node}
    (hn : d.get? i = some n) (hmem : m.id ∈ n.children) : i = m.container := by
  obtain ⟨n', hn', hparent⟩ := h.holds.parent_of_child (h.mem_ids.2 (.inl hi)) hn hmem
  have hget : d.get? m.id = _ := (h.of_mark hm).holds.get?
  rw [hget] at hn'
  cases hn'
  exact (Option.some.inj hparent).symm

theorem Mark.id_mem_ids (m : Mark) : m.id ∈ m.tree.ids := m.tree.id_mem_ids

end Ground

/-! ### Taking out one element -/

/-- Taking the directive from an element, and the element from its container, changes these two
nodes. -/
theorem get?_takeOut {d : Document} {mark : String} {id c : NodeId} {e : Element}
    {cs : List NodeId} {span : Option Span} {n : Node}
    (hid : d.get? id = some ⟨.element e, some c, cs, span⟩) (hc : d.get? c = some n)
    (hne : c ≠ id) (x : NodeId) :
    ((d.eraseAttribute id mark).detach id).get? x =
      if x = id then some ⟨.element (e.eraseAttribute mark), none, cs, span⟩
      else if x = c then some { n with children := n.children.filter (· != id) }
      else d.get? x := by
  have hid' := Document.get?_eraseAttribute_self hid mark
  have hc' : (d.eraseAttribute id mark).get? c = some n := by
    rw [Document.get?_eraseAttribute_of_ne hne, hc]
  rw [Document.get?_detach hid' rfl hc' hne]
  by_cases hx : x = id
  · rw [if_pos hx, if_pos hx]
  · rw [if_neg hx, if_neg hx]
    by_cases hxc : x = c
    · rw [if_pos hxc, if_pos hxc]
    · rw [if_neg hxc, if_neg hxc, Document.get?_eraseAttribute_of_ne hx]

theorem Settled.get?_top {f : Scopes} {d : Document} {p : Option NodeId} {s : ScopeId}
    {id : NodeId} {kind : NodeKind} {span : Option Span} {items : List Mold} {xs : List NodeId}
    (h : Settled f d p s (.still id kind span items) xs) :
    id ∈ xs ∧ ∃ cs, d.get? id = some ⟨kind, p, cs, span⟩ := by
  cases h with
  | intro _ _ _ level _ _ _ _ =>
      obtain ⟨cs, hget, _⟩ := level.holds _ (List.mem_cons_self ..)
      exact ⟨List.mem_flatMap.2 ⟨_, List.mem_cons_self .., by simp [Part.ids]⟩, cs, hget⟩

/-- A settled mold stays so when its topmost node becomes another one in another place. -/
theorem Settled.reroot {f : Scopes} {d e : Document} {p q : Option NodeId} {s : ScopeId}
    {id : NodeId} {kind kind' : NodeKind} {span : Option Span} {items : List Mold}
    {xs : List NodeId} (h : Settled f d p s (.still id kind span items) xs)
    (hid : ∀ cs, d.get? id = some ⟨kind, p, cs, span⟩ →
      e.get? id = some ⟨kind', q, cs, span⟩)
    (he : ∀ i ∈ xs, i ≠ id → e.get? i = d.get? i) :
    Settled f e q s (.still id kind' span items) xs := by
  cases h with
  | @intro _ _ _ _ _ _ _ copies inner hscope hslots hrepeats level named scopes linked settled =>
      have hocc : occupied (Mold.level p id kind span items) (fun _ => []) copies inner =
          occupied (Mold.level q id kind' span items) (fun _ => []) copies inner := rfl
      have hnodup := level.nodup
      rw [hocc] at hnodup he ⊢
      -- the topmost node is no slot of another part
      have hother : ∀ x ∈ Mold.partsAll id items,
          ∀ i ∈ x.ids (foot (fun _ => []) copies inner), e.get? i = d.get? i := by
        intro x hx i hi
        have hmem : i ∈ (Mold.partsAll id items).flatMap
          (Part.ids (foot (fun _ => []) copies inner)) := List.mem_flatMap.2 ⟨x, hx, hi⟩
        refine he i (List.mem_cons_of_mem _ hmem) ?_
        rintro rfl
        exact (List.nodup_cons.1 hnodup).1 hmem
      have heach : ∀ a, Part.each a ∈ Mold.level q id kind' span items →
          Part.each a ∈ Mold.level p id kind span items ∧ Part.each a ∈ Mold.partsAll id items := by
        intro a ha
        rcases List.mem_cons.1 ha with h | h
        · cases h
        · exact ⟨List.mem_cons_of_mem _ h, h⟩
      refine .intro hscope hslots hrepeats ⟨fun x hx => ?_, hnodup, fun a ha i hi => ?_⟩
        (fun x hx => ?_) scopes (fun a ha => linked a (heach a ha).1) fun a ha => ?_
      · rcases List.mem_cons.1 hx with rfl | hx
        · obtain ⟨cs, hget, hcs⟩ := level.holds _ (List.mem_cons_self ..)
          exact ⟨cs, hid cs hget, hcs⟩
        · exact (level.holds x (List.mem_cons_of_mem _ hx)).congr (hother x hx)
      · obtain ⟨n, hn⟩ := level.live a (heach a ha).1 i hi
        exact ⟨n, by rw [hother _ (heach a ha).2 i (List.mem_append_right _ hi), hn]⟩
      · rcases List.mem_cons.1 hx with rfl | hx
        · trivial
        · exact named x (List.mem_cons_of_mem _ hx)
      · refine (settled a (heach a ha).1).congr (fun i hi => ?_) (fun _ _ => rfl)
          fun scope hscope => ⟨scope, hscope, rfl, rfl⟩
        exact hother _ (heach a ha).2 i (List.mem_append_right _ hi)

theorem find?_notMem_snoc {ys out : List NodeId} {id : NodeId} (hid : id ∉ ys) :
    ys.find? (· ∉ out ++ [id]) = ys.find? (· ∉ out) := by
  induction ys with
  | nil => rfl
  | cons y ys ih =>
      rw [List.mem_cons, not_or] at hid
      by_cases hy : y ∈ out
      · rw [List.find?_cons_of_neg (by simp [hy]), List.find?_cons_of_neg (by simp [hy]), ih hid.2]
      · rw [List.find?_cons_of_pos (by simp [hy, Ne.symm hid.1]),
          List.find?_cons_of_pos (by simp [hy])]

/-- The first of the siblings `xs` to stay when one more is taken out that has the siblings `ys`
behind it. -/
theorem find?_snoc {xs ys out : List NodeId} {id : NodeId}
    (h : ∀ pre post, xs = pre ++ id :: post → post = ys) (hid : id ∉ ys) :
    xs.find? (· ∉ out ++ [id]) =
      if xs.find? (· ∉ out) = some id then ys.find? (· ∉ out) else xs.find? (· ∉ out) := by
  induction xs with
  | nil => rfl
  | cons x xs ih =>
      have hrest := ih fun pre post hxs => h (x :: pre) post (by rw [hxs]; rfl)
      by_cases hx : x ∈ out
      · rw [List.find?_cons_of_neg (by simp [hx]), List.find?_cons_of_neg (by simp [hx]), hrest]
      · rw [List.find?_cons_of_pos (p := (· ∉ out)) (by simp [hx])]
        by_cases hxid : x = id
        · obtain rfl := h [] xs (by rw [hxid]; rfl)
          rw [hxid, if_pos rfl, List.find?_cons_of_neg (by simp), find?_notMem_snoc hid]
        · rw [if_neg (by simpa using hxid), List.find?_cons_of_pos (by simp [hx, hxid])]

/-! ### A stage when some elements have been taken out -/

/-- What compiling a part of a document makes of it: a mold that is settled there, in the old slots
and new ones, with scopes that are new. -/
structure Compiled (mark : String) (st st' : Stage) (p : Option NodeId) (s : ScopeId) (id : NodeId)
    (kind : NodeKind) (span : Option Span) (ts : List Placed) (items : List Mold)
    (ys : List NodeId) : Prop where
  sound : st'.document.Sound
  settled : Settled st'.scopes st'.document p s (.still id kind span items) ys
  covers : ∀ i ∈ (Placed.node id kind span ts).ids, i ∈ ys
  within : ∀ i ∈ ys, i ∈ (Placed.node id kind span ts).ids ∨ st.document.get? i = none
  keeps : ∀ i, i ∉ ys → st'.document.get? i = st.document.get? i
  grows : st.scopes.Grows st'.scopes s
  fresh : ∀ x ∈ Mold.scopesAll items, st.scopes.entries.size ≤ x ∧ x < st'.scopes.entries.size
  laid : ∃ scope pattern, Laid mark scope pattern ts items ∧
    (∀ m ∈ marksAll mark id ts, m.Fits mark (pattern m.id)) ∧
    ∀ m ∈ marksAll mark id ts, (pattern m.id).id = m.id

/-- What is compiled means what the trees mean. -/
theorem Compiled.shownAll {mark : String} {st st' : Stage} {p : Option NodeId} {s : ScopeId}
    {id : NodeId} {kind : NodeKind} {span : Option Span} {ts : List Placed} {items : List Mold}
    {ys : List NodeId} (h : Compiled mark st st' p s id kind span ts items ys) (env : Env) :
    Mold.shownAll env items = Tree.expandAll splitText mark env (ts.map Placed.tree) := by
  obtain ⟨scope, pattern, hlaid, hfits, _⟩ := h.laid
  exact hlaid.shownAll (fun m hm => (hfits m hm).means) env

/-- A stage when the repeated elements `done` of a part of a document have been taken out, and their
patterns are bound. -/
structure Taken (mark : String) (st₀ st : Stage) (s : ScopeId) (id : NodeId) (ts : List Placed)
    (done todo : List Mark) (repeats : List Repeat) (scope : NodeId → ScopeId)
    (pattern : NodeId → Mold) (inner : ScopeId → List NodeId) : Prop where
  sound : st.document.Sound
  left : ∀ i ∈ leftIds mark id ts, st.document.get? i = (st₀.document.get? i).map fun n =>
    { n with children := n.children.filter (· ∉ done.map Mark.id) }
  untouched : ∀ m ∈ todo, ∀ i ∈ m.tree.ids, st.document.get? i = st₀.document.get? i
  directives : repeats = done.map (Mark.toRepeat mark scope (done.map Mark.id))
  bound : ∀ m ∈ done, m.Bound st.scopes st.document s scope pattern inner
  fits : ∀ m ∈ done, m.Fits mark (pattern m.id)
  covers : ∀ m ∈ done, ∀ i ∈ m.tree.ids, i ∈ inner (scope m.id)
  within : ∀ m ∈ done, ∀ i ∈ inner (scope m.id), i ∈ m.tree.ids ∨ st₀.document.get? i = none
  nodup : (done.flatMap fun m => inner (scope m.id)).Nodup
  keeps : ∀ i, i ∉ leftIds mark id ts → (∀ m ∈ todo, i ∉ m.tree.ids) →
    (∀ m ∈ done, i ∉ inner (scope m.id)) → st.document.get? i = st₀.document.get? i
  grows : st₀.scopes.Grows st.scopes s
  fresh : ∀ m ∈ done, ∀ x ∈ scope m.id :: (pattern m.id).scopes,
    st₀.scopes.entries.size ≤ x ∧ x < st.scopes.entries.size
  nodupScopes : (done.flatMap fun m => scope m.id :: (pattern m.id).scopes).Nodup

section Taken

variable {mark : String} {st₀ st : Stage} {p : Option NodeId} {s : ScopeId} {id : NodeId}
  {kind : NodeKind} {span : Option Span} {ts : List Placed} {done todo : List Mark}
  {repeats : List Repeat} {scope : NodeId → ScopeId} {pattern : NodeId → Mold}
  {inner : ScopeId → List NodeId}

/-- Before anything is taken out. -/
theorem Ground.taken (h : Ground mark st₀.document p id kind span ts) (scope : NodeId → ScopeId)
    (pattern : NodeId → Mold) (inner : ScopeId → List NodeId) :
    Taken mark st₀ st₀ s id ts [] (marksAll mark id ts) [] scope pattern inner where
  sound := h.sound
  left i _ := by
    cases hi : st₀.document.get? i with
    | none => rfl
    | some n => simp
  untouched _ _ _ _ := rfl
  directives := rfl
  bound _ hm := by cases hm
  fits _ hm := by cases hm
  covers _ hm := by cases hm
  within _ hm := by cases hm
  nodup := by simp
  keeps _ _ _ _ := rfl
  grows := .refl _ _
  fresh _ hm := by cases hm
  nodupScopes := by simp

/-- What was live still is. -/
theorem Taken.live (h : Taken mark st₀ st s id ts done todo repeats scope pattern inner)
    {i : NodeId} {n : Node} (hi : st₀.document.get? i = some n) : ∃ n', st.document.get? i = some n' := by
  by_cases hleft : i ∈ leftIds mark id ts
  · exact ⟨_, by rw [h.left i hleft, hi]; rfl⟩
  · by_cases htodo : ∃ m ∈ todo, i ∈ m.tree.ids
    · obtain ⟨m, hm, him⟩ := htodo
      exact ⟨n, by rw [h.untouched m hm i him, hi]⟩
    · by_cases hdone : ∃ m ∈ done, i ∈ inner (scope m.id)
      · obtain ⟨m, hm, him⟩ := hdone
        exact (h.bound m hm).settled.live him
      · refine ⟨n, ?_⟩
        rw [h.keeps i hleft (fun m hm him => htodo ⟨m, hm, him⟩)
          fun m hm him => hdone ⟨m, hm, him⟩, hi]

end Taken

/-! ### The step -/

/-- A stage when some repeated elements have been taken out, and the next one has been compiled. -/
structure Next (mark : String) (st₀ st st₁ : Stage) (p : Option NodeId) (s : ScopeId) (id : NodeId)
    (kind : NodeKind) (span : Option Span) (ts : List Placed) (done : List Mark) (m : Mark)
    (todo : List Mark) (repeats : List Repeat) (scope : NodeId → ScopeId)
    (pattern : NodeId → Mold) (inner : ScopeId → List NodeId) (items : List Mold)
    (ys : List NodeId) : Prop where
  ground : Ground mark st₀.document p id kind span ts
  marks : marksAll mark id ts = done ++ m :: todo
  taken : Taken mark st₀ st s id ts done (m :: todo) repeats scope pattern inner
  lt : s < st₀.scopes.entries.size
  compiled : Compiled mark ⟨st.document, (st.scopes.newChild s .emptyObject).1⟩ st₁
    (some m.container) st.scopes.entries.size m.id (.element m.element) m.span m.children items ys

section Next

variable {mark : String} {st₀ st st₁ : Stage} {p : Option NodeId} {s : ScopeId} {id : NodeId}
  {kind : NodeKind} {span : Option Span} {ts : List Placed} {done todo : List Mark} {m m' : Mark}
  {repeats : List Repeat} {scope : NodeId → ScopeId} {pattern : NodeId → Mold}
  {inner : ScopeId → List NodeId} {items : List Mold} {ys : List NodeId} {i : NodeId}

/-- The document when the element has been taken out. -/
abbrev takenOut (mark : String) (st₁ : Stage) (m : Mark) : Document :=
  (st₁.document.eraseAttribute m.id mark).detach m.id

theorem Next.mem (h : Next mark st₀ st st₁ p s id kind span ts done m todo repeats scope pattern
    inner items ys) : m ∈ marksAll mark id ts := by
  rw [h.marks]
  simp

theorem Next.mem_done (h : Next mark st₀ st st₁ p s id kind span ts done m todo repeats scope
    pattern inner items ys) (hm' : m' ∈ done) : m' ∈ marksAll mark id ts := by
  rw [h.marks]
  exact List.mem_append_left _ hm'

theorem Next.mem_todo (h : Next mark st₀ st st₁ p s id kind span ts done m todo repeats scope
    pattern inner items ys) (hm' : m' ∈ todo) : m' ∈ marksAll mark id ts := by
  rw [h.marks]
  exact List.mem_append_right _ (List.mem_cons_of_mem _ hm')

/-- The slots of the element are in no other one. -/
theorem Next.notMem_of_mark (h : Next mark st₀ st st₁ p s id kind span ts done m todo repeats scope
    pattern inner items ys) (hm' : m' ∈ done ∨ m' ∈ todo) (hi : i ∈ m'.tree.ids) :
    i ∉ m.tree.ids := by
  have hnodup := h.ground.nodup_marks
  rw [h.marks, List.flatMap_append, List.flatMap_cons] at hnodup
  obtain ⟨_, hrest, hdis⟩ := List.nodup_append.1 hnodup
  obtain ⟨_, _, hdis'⟩ := List.nodup_append.1 hrest
  intro him
  rcases hm' with hm' | hm'
  · exact hdis i (List.mem_flatMap.2 ⟨m', hm', hi⟩) i (List.mem_append_left _ him) rfl
  · exact hdis' i him i (List.mem_flatMap.2 ⟨m', hm', hi⟩) rfl

theorem Next.notMem_of_inner (h : Next mark st₀ st st₁ p s id kind span ts done m todo repeats
    scope pattern inner items ys) (hm' : m' ∈ done) (hi : i ∈ inner (scope m'.id)) :
    i ∉ m.tree.ids := by
  rcases h.taken.within m' hm' i hi with hi | hnone
  · exact h.notMem_of_mark (.inl hm') hi
  · intro him
    obtain ⟨n, hn⟩ := h.ground.live (h.ground.mem_ids.2 (.inr ⟨m, h.mem, him⟩))
    rw [hn] at hnone
    cases hnone

/-- What was live outside the element is not among its slots now. -/
theorem Next.notMem (h : Next mark st₀ st st₁ p s id kind span ts done m todo repeats scope pattern
    inner items ys) {n : Node} (hn : st.document.get? i = some n) (hi : i ∉ m.tree.ids) :
    i ∉ ys := by
  intro hmem
  rcases h.compiled.within i hmem with h' | hnone
  · exact hi h'
  · rw [hn] at hnone
    cases hnone

theorem Next.notMem_of_left (h : Next mark st₀ st st₁ p s id kind span ts done m todo repeats scope
    pattern inner items ys) (hi : i ∈ leftIds mark id ts) : i ∉ ys := by
  obtain ⟨n, hn⟩ := h.ground.live (h.ground.mem_ids.2 (.inl hi))
  obtain ⟨n', hn'⟩ := h.taken.live hn
  exact h.notMem hn' (h.ground.left_notMem hi h.mem)

/-- Taking the element out changes it and its container. -/
theorem Next.get? (h : Next mark st₀ st st₁ p s id kind span ts done m todo repeats scope pattern
    inner items ys) : ∃ cs n pre,
      st₁.document.get? m.id = some ⟨.element m.element, some m.container, cs, m.span⟩ ∧
      st₀.document.get? m.container = some n ∧ n.children = pre ++ m.id :: m.later ∧
      n.children.Nodup ∧
      st₁.document.get? m.container =
        some { n with children := n.children.filter (· ∉ done.map Mark.id) } ∧
      ∀ x, (takenOut mark st₁ m).get? x =
        if x = m.id then some ⟨.element (m.element.eraseAttribute mark), none, cs, m.span⟩
        else if x = m.container then
          some { n with children := (n.children.filter (· ∉ done.map Mark.id)).filter (· != m.id) }
        else st₁.document.get? x := by
  obtain ⟨hleft, n, pre, hn, hpre, hnodup⟩ := h.ground.container h.mem
  obtain ⟨_, cs, hid⟩ := h.compiled.settled.get?_top
  have hc : st₁.document.get? m.container =
      some { n with children := n.children.filter (· ∉ done.map Mark.id) } := by
    rw [h.compiled.keeps _ (h.notMem_of_left hleft), h.taken.left _ hleft, hn]
    rfl
  have hne : m.container ≠ m.id := by
    intro e
    exact h.ground.left_notMem hleft h.mem (e ▸ m.id_mem_ids)
  exact ⟨cs, n, pre, hid, hn, hpre, hnodup, hc, get?_takeOut hid hc hne⟩

/-- What is not among the slots of the element, nor its container, stays as it was. -/
theorem Next.keeps (h : Next mark st₀ st st₁ p s id kind span ts done m todo repeats scope pattern
    inner items ys) (hi : i ∉ ys) (hc : i ≠ m.container) :
    (takenOut mark st₁ m).get? i = st.document.get? i := by
  obtain ⟨cs, n, pre, _, _, _, _, _, hget⟩ := h.get?
  have hid : i ≠ m.id := by
    rintro rfl
    exact hi (h.compiled.covers _ m.id_mem_ids)
  rw [hget, if_neg hid, if_neg hc, h.compiled.keeps i hi]

theorem Next.ne_container (h : Next mark st₀ st st₁ p s id kind span ts done m todo repeats scope
    pattern inner items ys) (hm' : m' ∈ marksAll mark id ts) (hi : i ∈ m'.tree.ids) :
    i ≠ m.container := by
  rintro rfl
  exact h.ground.left_notMem (h.ground.container h.mem).1 hm' hi

/-- The patterns that are bound already stay as they are. -/
theorem Next.keeps_inner (h : Next mark st₀ st st₁ p s id kind span ts done m todo repeats scope
    pattern inner items ys) (hm' : m' ∈ done) (hi : i ∈ inner (scope m'.id)) :
    (takenOut mark st₁ m).get? i = st.document.get? i ∧ i ∉ ys := by
  obtain ⟨n, hn⟩ := (h.taken.bound m' hm').settled.live hi
  have hys := h.notMem hn (h.notMem_of_inner hm' hi)
  refine ⟨h.keeps hys ?_, hys⟩
  rintro rfl
  have hleft := (h.ground.container h.mem).1
  rcases h.taken.within m' hm' _ hi with hi' | hnone
  · exact h.ground.left_notMem hleft (h.mem_done hm') hi'
  · obtain ⟨n', hn'⟩ := h.ground.live (h.ground.mem_ids.2 (.inl hleft))
    rw [hn'] at hnone
    cases hnone

/-- The scopes grow by that of the element and those below it. -/
theorem Next.grows (h : Next mark st₀ st st₁ p s id kind span ts done m todo repeats scope pattern
    inner items ys) : st.scopes.Grows st₁.scopes s := by
  have hs := Nat.lt_of_lt_of_le h.lt h.taken.grows.size
  exact (Scopes.grows_newChild hs _).of_new h.compiled.grows (Nat.le_refl _) hs

/-- The scope of the element is new, and below the scope `s`. -/
theorem Next.newScope (h : Next mark st₀ st st₁ p s id kind span ts done m todo repeats scope pattern
    inner items ys) : st.scopes.entries.size < st₁.scopes.entries.size ∧
      ∃ sc, st₁.scopes.get? st.scopes.entries.size = some sc ∧ sc.parent = some s ∧
        sc.data = .object [] := by
  have hs := Nat.lt_of_lt_of_le h.lt h.taken.grows.size
  have hget := Scopes.get?_newChild hs .emptyObject st.scopes.entries.size
  rw [if_neg (Nat.ne_of_gt hs), if_pos rfl] at hget
  obtain ⟨sc, hsc, hdata, hparent⟩ := h.compiled.grows.own _ hget
  exact ⟨Scopes.lt_size_of_get? hsc, sc, hsc, hparent, hdata⟩

/-- Behind the element stands the first sibling that has not been taken out. -/
theorem Next.nextSibling? (h : Next mark st₀ st st₁ p s id kind span ts done m todo repeats scope
    pattern inner items ys) :
    st₁.document.nextSibling? m.id = m.later.find? (· ∉ done.map Mark.id) := by
  obtain ⟨cs, n, pre, hid, _, hpre, hnodup, hc, _⟩ := h.get?
  have hnotDone : m.id ∉ done.map Mark.id := by
    intro hmem
    obtain ⟨m', hm', e⟩ := List.mem_map.1 hmem
    exact h.notMem_of_mark (.inl hm') m'.id_mem_ids (e ▸ m.id_mem_ids)
  have hsplit : n.children.filter (· ∉ done.map Mark.id) =
      pre.filter (· ∉ done.map Mark.id) ++ m.id :: m.later.filter (· ∉ done.map Mark.id) := by
    rw [hpre, List.filter_append, filter_cons hnotDone]
  have hidpre : m.id ∉ pre.filter (· ∉ done.map Mark.id) := by
    intro hmem
    rw [hpre] at hnodup
    exact (List.nodup_append.1 hnodup).2.2 _ (List.mem_filter.1 hmem).1 _ (List.mem_cons_self ..) rfl
  rw [Document.nextSibling?_eq hid rfl hc hsplit hidpre, List.head?_filter]

/-- The directives move their anchors on when the element is taken out. -/
theorem Next.anchor (h : Next mark st₀ st st₁ p s id kind span ts done m todo repeats scope pattern
    inner items ys) (hm' : m' ∈ done) :
    m'.later.find? (· ∉ done.map Mark.id ++ [m.id]) =
      if m'.later.find? (· ∉ done.map Mark.id) = some m.id then
        m.later.find? (· ∉ done.map Mark.id)
      else m'.later.find? (· ∉ done.map Mark.id) := by
  obtain ⟨hleft, n', pre', hn', hpre', hnodup'⟩ := h.ground.container (h.mem_done hm')
  obtain ⟨cs, n, pre, _, hn, hpre, hnodup, _, _⟩ := h.get?
  have hsplit := hpre ▸ hnodup
  have hid : m.id ∉ pre := fun hmem =>
    (List.nodup_append.1 hsplit).2.2 _ hmem _ (List.mem_cons_self ..) rfl
  have hlater : m.id ∉ m.later := (List.nodup_cons.1 (List.nodup_append.1 hsplit).2.1).1
  refine find?_snoc (fun us vs hus => ?_) hlater
  -- both elements have the same container
  have hmem : m.id ∈ n'.children := by
    rw [hpre', hus]
    simp
  have hcontainer := h.ground.container_eq h.mem hleft hn' hmem
  rw [hcontainer, hn] at hn'
  cases hn'
  rw [hpre, hus] at hpre'
  have heq : pre ++ m.id :: m.later = (pre' ++ m'.id :: us) ++ m.id :: vs := by
    rw [hpre']
    simp
  exact ((List.append_cons_inj_of_notMem hid hlater).1 heq).2.2.symm

/-- An element that was taken out before has its scope and its pattern still. -/
theorem Next.update_of_done (h : Next mark st₀ st st₁ p s id kind span ts done m todo repeats scope
    pattern inner items ys) (hm' : m' ∈ done) (n : ScopeId) (new : Mold) (zs : List NodeId) :
    Function.update scope m.id n m'.id = scope m'.id ∧
      Function.update pattern m.id new m'.id = pattern m'.id ∧
      Function.update inner st.scopes.entries.size zs (scope m'.id) = inner (scope m'.id) := by
  have hid : m'.id ≠ m.id := by
    intro e
    exact h.notMem_of_mark (.inl hm') m'.id_mem_ids (e ▸ m.id_mem_ids)
  have hscope : scope m'.id ≠ st.scopes.entries.size :=
    Nat.ne_of_lt (h.taken.fresh m' hm' _ (List.mem_cons_self ..)).2
  exact ⟨Function.update_of_ne hid _ _, Function.update_of_ne hid _ _,
    Function.update_of_ne hscope _ _⟩

/-- The directives when the element has been taken out. -/
theorem Next.directives (h : Next mark st₀ st st₁ p s id kind span ts done m todo repeats scope
    pattern inner items ys) {x : RepeatExpression} (hx : m.element.repeat? mark = some x) :
    Stage.takeOut mark st₁ repeats x st.scopes.entries.size m.id m.container =
      (⟨takenOut mark st₁ m, st₁.scopes⟩, (done ++ [m]).map (Mark.toRepeat mark
        (Function.update scope m.id st.scopes.entries.size) ((done ++ [m]).map Mark.id))) := by
  obtain ⟨cs, n, pre, _, _, hpre, hnodup, _, _⟩ := h.get?
  have hlater : m.id ∉ m.later := by
    rw [hpre] at hnodup
    exact (List.nodup_cons.1 (List.nodup_append.1 hnodup).2.1).1
  have hold : repeats.map (fun r => if r.anchor = some m.id then
      { r with anchor := m.later.find? (· ∉ done.map Mark.id) } else r) =
      done.map (Mark.toRepeat mark (Function.update scope m.id st.scopes.entries.size)
        ((done ++ [m]).map Mark.id)) := by
    rw [h.taken.directives, List.map_map]
    refine List.map_congr_left fun m' hm' => ?_
    have hscope := (h.update_of_done hm' st.scopes.entries.size (pattern m.id) []).1
    have hanchor := h.anchor hm'
    rw [Function.comp_apply, Mark.toRepeat, Mark.toRepeat, hscope, List.map_append, List.map_cons,
      List.map_nil, hanchor]
    split <;> rfl
  have hnew : Mark.toRepeat mark (Function.update scope m.id st.scopes.entries.size)
      ((done ++ [m]).map Mark.id) m = ⟨x, st.scopes.entries.size, m.id, m.container,
        m.later.find? (· ∉ done.map Mark.id), []⟩ := by
    rw [Mark.toRepeat, hx, Function.update_self, List.map_append, List.map_cons, List.map_nil,
      find?_notMem_snoc hlater]
    rfl
  rw [List.map_append, List.map_cons, List.map_nil, hnew, ← hold, Stage.takeOut, h.nextSibling?]

/-- The patterns are bound when the element has been taken out. -/
theorem Next.bound (h : Next mark st₀ st st₁ p s id kind span ts done m todo repeats scope pattern
    inner items ys) (hm' : m' ∈ done ++ [m]) :
    m'.Bound st₁.scopes (takenOut mark st₁ m) s
      (Function.update scope m.id st.scopes.entries.size)
      (Function.update pattern m.id
        (.still m.id (.element (m.element.eraseAttribute mark)) m.span items))
      (Function.update inner st.scopes.entries.size ys) := by
  rcases List.mem_append.1 hm' with hm' | hm'
  · obtain ⟨hscope, hpattern, hinner⟩ := h.update_of_done hm' st.scopes.entries.size
      (.still m.id (.element (m.element.eraseAttribute mark)) m.span items) ys
    obtain ⟨hid, hsettled, hlt, sc, hsc, hparent, hdata⟩ := h.taken.bound m' hm'
    -- the scopes below this one were made before the element was compiled
    have hget : ∀ x ∈ scope m'.id :: (pattern m'.id).scopes,
        st₁.scopes.get? x = st.scopes.get? x := by
      intro x hx
      obtain ⟨hge, hltx⟩ := h.taken.fresh m' hm' x hx
      exact h.grows.get? x hltx (Nat.ne_of_gt (Nat.lt_of_lt_of_le h.lt hge))
    have hself := hget _ (List.mem_cons_self ..)
    constructor
    · rw [hpattern, hid]
    · rw [hscope, hpattern, hinner]
      refine hsettled.congr (fun i hi => (h.keeps_inner hm' hi).1)
        (fun x hx => hget x (List.mem_cons_of_mem _ hx)) fun sc hsc => ?_
      exact ⟨sc, by rw [hself, hsc], rfl, rfl⟩
    · rwa [hscope]
    · rw [hscope]
      exact ⟨sc, by rw [hself, hsc], hparent, hdata⟩
  · rw [List.mem_singleton] at hm'
    subst hm'
    obtain ⟨cs, n, pre, hid, _, _, _, hc, hget⟩ := h.get?
    obtain ⟨_, sc, hsc, hparent, hdata⟩ := h.newScope
    constructor
    · rw [Function.update_self, Mold.id]
    · rw [Function.update_self, Function.update_self, Function.update_self]
      refine h.compiled.settled.reroot (fun cs' hcs' => ?_) fun i hi hne => ?_
      · rw [hid] at hcs'
        cases hcs'
        rw [hget, if_pos rfl]
      · have hic : i ≠ m'.container := by
          rintro rfl
          exact h.notMem_of_left (h.ground.container h.mem).1 hi
        rw [hget, if_neg hne, if_neg hic]
    · rw [Function.update_self]
      exact Nat.lt_of_lt_of_le h.lt h.taken.grows.size
    · rw [Function.update_self]
      exact ⟨sc, hsc, hparent, hdata⟩

/-- The elements fit the patterns that are bound. -/
theorem Next.fits (h : Next mark st₀ st st₁ p s id kind span ts done m todo repeats scope pattern
    inner items ys) (hm' : m' ∈ done ++ [m]) :
    m'.Fits mark (Function.update pattern m.id
      (.still m.id (.element (m.element.eraseAttribute mark)) m.span items) m'.id) := by
  rcases List.mem_append.1 hm' with hm' | hm'
  · rw [(h.update_of_done hm' 0 _ []).2.1]
    exact h.taken.fits m' hm'
  · rw [List.mem_singleton] at hm'
    subst hm'
    obtain ⟨_, _, hlaid, hfits, _⟩ := h.compiled.laid
    rw [Function.update_self]
    exact .intro hlaid hfits

/-- The nodes that are left have lost the element from their children. -/
theorem Next.left (h : Next mark st₀ st st₁ p s id kind span ts done m todo repeats scope pattern
    inner items ys) (hi : i ∈ leftIds mark id ts) :
    (takenOut mark st₁ m).get? i = (st₀.document.get? i).map fun n =>
      { n with children := n.children.filter (· ∉ (done ++ [m]).map Mark.id) } := by
  obtain ⟨cs, n, pre, _, hn, _, _, _, hget⟩ := h.get?
  have hfilter : ∀ xs : List NodeId, xs.filter (· ∉ (done ++ [m]).map Mark.id) =
      (xs.filter (· ∉ done.map Mark.id)).filter (· != m.id) := by
    intro xs
    rw [List.filter_filter]
    refine List.filter_congr fun x _ => ?_
    simp only [List.map_append, List.map_cons, List.map_nil, List.mem_append, List.mem_singleton,
      not_or]
    by_cases hx : x = m.id <;> simp [hx]
  by_cases hic : i = m.container
  · subst hic
    have hne : m.container ≠ m.id := fun e =>
      h.ground.left_notMem hi h.mem (e ▸ m.id_mem_ids)
    rw [hget, if_neg hne, if_pos rfl, hn, Option.map_some, hfilter]
  · rw [h.keeps (h.notMem_of_left hi) hic, h.taken.left i hi]
    obtain ⟨n', hn'⟩ := h.ground.live (h.ground.mem_ids.2 (.inl hi))
    have hnotMem : m.id ∉ n'.children := fun hmem =>
      hic (h.ground.container_eq h.mem hi hn' hmem)
    have hsame : (n'.children.filter (· ∉ done.map Mark.id)).filter (· != m.id) =
        n'.children.filter (· ∉ done.map Mark.id) := by
      refine List.filter_eq_self.2 fun x hx => ?_
      have hne : x ≠ m.id := fun e => hnotMem (e ▸ (List.mem_filter.1 hx).1)
      simpa using hne
    rw [hn', Option.map_some, Option.map_some, hfilter, hsame]

/-- What is known of each element that has been taken out. -/
theorem Next.forall_taken (h : Next mark st₀ st st₁ p s id kind span ts done m todo repeats scope
    pattern inner items ys) {P : Mark → ScopeId → Mold → List NodeId → Prop} (new : Mold)
    (hdone : ∀ m' ∈ done, P m' (scope m'.id) (pattern m'.id) (inner (scope m'.id)))
    (hnew : P m st.scopes.entries.size new ys) (hm' : m' ∈ done ++ [m]) :
    P m' (Function.update scope m.id st.scopes.entries.size m'.id)
      (Function.update pattern m.id new m'.id)
      (Function.update inner st.scopes.entries.size ys
        (Function.update scope m.id st.scopes.entries.size m'.id)) := by
  rcases List.mem_append.1 hm' with hm' | hm'
  · obtain ⟨hscope, hpattern, hinner⟩ := h.update_of_done hm' st.scopes.entries.size new ys
    rw [hscope, hpattern, hinner]
    exact hdone m' hm'
  · rw [List.mem_singleton] at hm'
    subst hm'
    rw [Function.update_self, Function.update_self, Function.update_self]
    exact hnew

/-- What is listed for the elements that have been taken out is listed once. -/
theorem Next.nodup_taken {α : Type} (h : Next mark st₀ st st₁ p s id kind span ts done m todo
    repeats scope pattern inner items ys) {F : ScopeId → Mold → List NodeId → List α} (new : Mold)
    (hdone : (done.flatMap fun m => F (scope m.id) (pattern m.id) (inner (scope m.id))).Nodup)
    (hnew : (F st.scopes.entries.size new ys).Nodup)
    (hdis : ∀ m' ∈ done, ∀ a ∈ F (scope m'.id) (pattern m'.id) (inner (scope m'.id)),
      a ∉ F st.scopes.entries.size new ys) :
    ((done ++ [m]).flatMap fun m' => F (Function.update scope m.id st.scopes.entries.size m'.id)
      (Function.update pattern m.id new m'.id)
      (Function.update inner st.scopes.entries.size ys
        (Function.update scope m.id st.scopes.entries.size m'.id))).Nodup := by
  have hold : (done.flatMap fun m' =>
      F (Function.update scope m.id st.scopes.entries.size m'.id)
        (Function.update pattern m.id new m'.id)
        (Function.update inner st.scopes.entries.size ys
          (Function.update scope m.id st.scopes.entries.size m'.id))) =
      done.flatMap fun m' => F (scope m'.id) (pattern m'.id) (inner (scope m'.id)) := by
    refine List.flatMap_congr fun m' hm' => ?_
    obtain ⟨hscope, hpattern, hinner⟩ := h.update_of_done hm' st.scopes.entries.size new ys
    rw [hscope, hpattern, hinner]
  rw [List.flatMap_append, hold, List.flatMap_singleton, Function.update_self, Function.update_self,
    Function.update_self]
  refine List.nodup_append.2 ⟨hdone, hnew, fun a ha b hb hab => ?_⟩
  obtain ⟨m', hm', ha⟩ := List.mem_flatMap.1 ha
  exact hdis m' hm' a ha (hab ▸ hb)

/-- What is made for the element comes behind the scopes that there were. -/
theorem Next.size_lt (h : Next mark st₀ st st₁ p s id kind span ts done m todo repeats scope pattern
    inner items ys) {x : ScopeId} (hx : x ∈ Mold.scopesAll items) :
    st.scopes.entries.size < x ∧ x < st₁.scopes.entries.size := by
  obtain ⟨hge, hlt⟩ := h.compiled.fresh x hx
  have hge : (st.scopes.newChild s .emptyObject).1.entries.size ≤ x := hge
  rw [Scopes.size_newChild] at hge
  exact ⟨Nat.lt_of_succ_le hge, hlt⟩

/-- **Taking out one more element.** -/
theorem Next.step (h : Next mark st₀ st st₁ p s id kind span ts done m todo repeats scope pattern
    inner items ys) :
    Taken mark st₀ ⟨takenOut mark st₁ m, st₁.scopes⟩ s id ts (done ++ [m]) todo
      ((done ++ [m]).map (Mark.toRepeat mark
        (Function.update scope m.id st.scopes.entries.size) ((done ++ [m]).map Mark.id)))
      (Function.update scope m.id st.scopes.entries.size)
      (Function.update pattern m.id
        (.still m.id (.element (m.element.eraseAttribute mark)) m.span items))
      (Function.update inner st.scopes.entries.size ys) where
  sound := (h.compiled.sound.eraseAttribute _ _).detach _
  left _ hi := h.left hi
  untouched m' hm' i hi := by
    have hsame := h.taken.untouched m' (List.mem_cons_of_mem _ hm') i hi
    obtain ⟨n, hn⟩ := h.ground.live (h.ground.mem_ids.2 (.inr ⟨m', h.mem_todo hm', hi⟩))
    have hys := h.notMem (hsame.trans hn) (h.notMem_of_mark (.inr hm') hi)
    rw [h.keeps hys (h.ne_container (h.mem_todo hm') hi), hsame]
  directives := rfl
  bound _ hm' := h.bound hm'
  fits _ hm' := h.fits hm'
  covers _ hm' := h.forall_taken (P := fun m _ _ zs => ∀ i ∈ m.tree.ids, i ∈ zs)
    (pattern m.id) h.taken.covers h.compiled.covers hm'
  within _ hm' := h.forall_taken
    (P := fun m _ _ zs => ∀ i ∈ zs, i ∈ m.tree.ids ∨ st₀.document.get? i = none)
    (pattern m.id) h.taken.within (fun i hi => by
      refine (h.compiled.within i hi).imp_right fun hnone => ?_
      cases hn : st₀.document.get? i with
      | none => rfl
      | some n =>
          obtain ⟨n', hn'⟩ := h.taken.live hn
          have hnone : st.document.get? i = none := hnone
          rw [hn'] at hnone
          cases hnone) hm'
  nodup := h.nodup_taken (F := fun _ _ zs => zs) (pattern m.id) h.taken.nodup
    h.compiled.settled.nodup fun _ hm' _ hi => (h.keeps_inner hm' hi).2
  keeps i hleft htodo hdone := by
    have hys : i ∉ ys := by
      have hnew := hdone m (List.mem_append_right _ (List.mem_singleton_self _))
      rwa [Function.update_self, Function.update_self] at hnew
    have hc : i ≠ m.container := by
      rintro rfl
      exact hleft (h.ground.container h.mem).1
    rw [h.keeps hys hc, h.taken.keeps i hleft]
    · intro m' hm'
      rcases List.mem_cons.1 hm' with rfl | hm'
      · exact fun hi => hys (h.compiled.covers i hi)
      · exact htodo m' hm'
    · intro m' hm'
      obtain ⟨hscope, _, hinner⟩ := h.update_of_done hm' st.scopes.entries.size (pattern m.id) ys
      have hold := hdone m' (List.mem_append_left _ hm')
      rwa [hscope, hinner] at hold
  grows := h.taken.grows.trans h.grows
  fresh _ hm' := by
    have hsize := h.taken.grows.size
    refine h.forall_taken (P := fun _ n pattern _ => ∀ x ∈ n :: pattern.scopes,
      st₀.scopes.entries.size ≤ x ∧ x < st₁.scopes.entries.size) _ (fun m' hm' x hx => ?_)
      (fun x hx => ?_) hm'
    · obtain ⟨hge, hlt⟩ := h.taken.fresh m' hm' x hx
      exact ⟨hge, Nat.lt_of_lt_of_le hlt h.grows.size⟩
    · rcases List.mem_cons.1 hx with rfl | hx
      · exact ⟨hsize, h.newScope.1⟩
      · obtain ⟨hge, hlt⟩ := h.size_lt hx
        exact ⟨Nat.le_trans hsize (Nat.le_of_lt hge), hlt⟩
  nodupScopes := by
    refine h.nodup_taken (F := fun n pattern _ => n :: pattern.scopes) _ h.taken.nodupScopes ?_
      fun m' hm' x hx hmem => ?_
    · refine List.nodup_cons.2 ⟨fun hmem => Nat.lt_irrefl _ (h.size_lt hmem).1, ?_⟩
      cases h.compiled.settled with
      | intro _ _ _ _ _ scopes _ _ => exact scopes
    · have hlt := (h.taken.fresh m' hm' x hx).2
      rcases List.mem_cons.1 hmem with rfl | hmem
      · exact Nat.lt_irrefl _ hlt
      · exact Nat.lt_irrefl _ (Nat.lt_trans hlt (h.size_lt hmem).1)

end Next

end PageTemplate.Binding
