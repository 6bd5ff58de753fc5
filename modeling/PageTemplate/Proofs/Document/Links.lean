/-
**Links and free slots over whole runs.**

A document is changed by a few operations, which take any numbers for the nodes that they are about.
Whatever the numbers are, each link stays on both of its sides, and the free slots are those without
a node.  This holds even where nodes are put below themselves: a walk that frees nodes starts from one
that has no parent, and meets each node once, since no node has two parents.

Main definitions:

* `PageTemplate.Document.Operation`, `PageTemplate.Document.Operation.apply` — the operations;
* `PageTemplate.Document.Reachable` — the documents that runs of them lead to;
* `PageTemplate.Document.Linked` — each link is on both of its sides, but for some nodes without a
  parent;
* `PageTemplate.Document.Consistent` — the same for the whole document, with its free slots.

Main results:

* `PageTemplate.Document.Linked.detach`, `PageTemplate.Document.Linked.insertBefore` — changes of
  links;
* `PageTemplate.Document.Linked.release`, `PageTemplate.Document.Linked.releaseAll` — one round of
  freeing, and all of them;
* `PageTemplate.Document.Linked.apply` — what an operation preserves;
* `PageTemplate.Document.reachable_consistent` — what holds at the end of every run.
-/

import PageTemplate.Proofs.Document.Subtrees

set_option relaxedAutoImplicit false
set_option autoImplicit false

namespace PageTemplate.Document

open PageTemplate.Markup PageTemplate.Text

/-! ### Runs -/

/-- The operations that change a document. -/
inductive Operation where
  | createElement (element : Element)
  | createText (text : String)
  | setText (id : NodeId) (text : String)
  | eraseAttribute (id : NodeId) (name : String)
  | splitText (id : NodeId) (offset : Nat)
  | detach (id : NodeId)
  | append (parent child : NodeId)
  | insertBefore (parent child : NodeId) (anchor : Option NodeId)
  | remove (id : NodeId)
  | clone (id : NodeId)

/-- There is no endless way down from the node. -/
def FiniteBelow (d : Document) (id : NodeId) : Prop :=
  Acc (fun c p => c ∈ d.children p) id

namespace Operation

/-- What an operation makes of a document, and the number that it gives back, if it gives one.  Only
splitting a text at a place that is none of it has no result. -/
def apply (d : Document) : Operation → Option (Document × Option NodeId)
  | createElement e => some ((d.alloc (.element e) none).1, some (d.alloc (.element e) none).2)
  | createText t => some ((d.alloc (.text t) none).1, some (d.alloc (.text t) none).2)
  | setText id t => some (d.setText id t, none)
  | eraseAttribute id name => some (d.eraseAttribute id name, none)
  | splitText id offset => (d.splitText? id offset).map fun r => (r.1, some r.2)
  | detach id => some (d.detach id, none)
  | append p c => some (d.append p c, none)
  | insertBefore p c a => some (d.insertBefore p c a, none)
  | remove id => some (d.remove id, none)
  | clone id => some ((d.clone id).1, some (d.clone id).2)

/-- Only a node with finitely many nodes below it is copied. -/
def Allowed (d : Document) : Operation → Prop
  | clone id => d.FiniteBelow id
  | _ => True

end Operation

/-- The documents that runs of operations lead to. -/
inductive Reachable : Document → Prop
  | start : Reachable empty
  | step {d e : Document} {result : Option NodeId} (h : Reachable d) (op : Operation)
      (hop : op.Allowed d) (happly : op.apply d = some (e, result)) : Reachable e

/-- What holds at the start and is preserved by each operation holds at the end of every run. -/
theorem Reachable.invariant {P : Document → Prop} (start : P empty)
    (step : ∀ d e op result, P d → Operation.apply d op = some (e, result) → P e)
    {d : Document} (h : Reachable d) : P d := by
  induction h with
  | start => exact start
  | step _ op _ happly ih => exact step _ _ op _ ih happly

/-! ### Links -/

/-- Each link is on both of its sides, except that the nodes `orphans`, which are live, have a
parent that is not, or none.  No node is its own parent. -/
structure Linked (d : Document) (orphans : List NodeId) : Prop where
  slots : d.Slotted
  child : ∀ p c, c ∈ d.children p → d.parent? c = some p
  distinct : ∀ p, (d.children p).Nodup
  parent : ∀ c p, d.parent? c = some p → c ∉ orphans → c ∈ d.children p
  irrefl : ∀ c, d.parent? c ≠ some c
  nodup : orphans.Nodup
  orphan : ∀ c ∈ orphans, d.contains c = true ∧ ∀ p, d.parent? c = some p → d.contains p = false

variable {d e : Document} {orphans : List NodeId}

/-! #### What the operations do to links -/

theorem parent?_eq_none_of_dead {id : NodeId} (h : d.get? id = none) : d.parent? id = none := by
  simp [parent?, h]

theorem children_eq_nil_of_dead {id : NodeId} (h : d.get? id = none) : d.children id = [] := by
  simp [children, h]

theorem contains_iff {id : NodeId} : d.contains id = true ↔ ∃ n, d.get? id = some n := by
  rw [contains, Option.isSome_iff_exists]

theorem contains_eq_false_iff {id : NodeId} : d.contains id = false ↔ d.get? id = none := by
  rw [contains, Option.isSome_eq_false_iff, Option.isNone_iff_eq_none]

theorem contains_of_parent? {c p : NodeId} (h : d.parent? c = some p) : d.contains c = true := by
  rw [contains_iff]
  cases hc : d.get? c with
  | none =>
      rw [parent?_eq_none_of_dead hc] at h
      cases h
  | some n => exact ⟨n, rfl⟩

theorem contains_of_child {c p : NodeId} (h : c ∈ d.children p) : d.contains p = true := by
  rw [contains_iff]
  cases hp : d.get? p with
  | none =>
      rw [children_eq_nil_of_dead hp] at h
      cases h
  | some n => exact ⟨n, rfl⟩

/-- Two documents whose live nodes have the same links. -/
structure SameLinks (d e : Document) : Prop where
  parent? : ∀ x, e.parent? x = d.parent? x
  children : ∀ x, e.children x = d.children x

/-- A change of what a node is changes no links. -/
theorem sameLinks_update (d : Document) (id : NodeId) {f : Node → Node}
    (hf : ∀ n, (f n).parent = n.parent ∧ (f n).children = n.children) :
    SameLinks d (d.update id f) := by
  constructor
  · intro x
    rw [parent?, parent?, get?_update]
    by_cases hx : x = id
    · subst hx
      cases hd : d.get? x <;> simp [hf]
    · rw [if_neg hx]
  · intro x
    rw [children, children, get?_update]
    by_cases hx : x = id
    · subst hx
      cases hd : d.get? x <;> simp [hf]
    · rw [if_neg hx]

theorem sameLinks_setText (d : Document) (id : NodeId) (text : String) :
    SameLinks d (d.setText id text) := by
  refine sameLinks_update d id fun n => ?_
  split <;> exact ⟨rfl, rfl⟩

theorem sameLinks_eraseAttribute (d : Document) (id : NodeId) (name : String) :
    SameLinks d (d.eraseAttribute id name) := by
  refine sameLinks_update d id fun n => ?_
  split <;> exact ⟨rfl, rfl⟩

/-- A new node has no links, and its slot had none. -/
theorem Slotted.sameLinks_alloc (h : d.Slotted) (kind : NodeKind) (span : Option Span) :
    SameLinks d (d.alloc kind span).1 := by
  obtain ⟨hdead, hnew, -⟩ := h.get?_alloc kind span
  constructor
  · intro x
    by_cases hx : x = (d.alloc kind span).2
    · rw [hx, parent?_of_get? hnew, parent?_eq_none_of_dead hdead]
      rfl
    · rw [parent?, parent?, get?_alloc_of_ne d kind span hx]
  · intro x
    by_cases hx : x = (d.alloc kind span).2
    · rw [hx, children_of_get? hnew, children_eq_nil_of_dead hdead]
      rfl
    · rw [children, children, get?_alloc_of_ne d kind span hx]

theorem contains_update (d : Document) (id x : NodeId) (f : Node → Node) :
    (d.update id f).contains x = d.contains x := by
  rw [contains, contains, get?_update]
  split
  · rename_i hx
    rw [hx, Option.isSome_map]
  · rfl

/-- Only the parent of a changed node may be another. -/
theorem parent?_update (d : Document) (id x : NodeId) (f : Node → Node) :
    (d.update id f).parent? x =
      if x = id then (d.get? id).bind fun n => (f n).parent else d.parent? x := by
  rw [parent?, get?_update]
  split
  · rw [Option.bind_map]
    rfl
  · rfl

theorem children_update (d : Document) (id x : NodeId) (f : Node → Node) :
    (d.update id f).children x =
      if x = id then ((d.get? id).map fun n => (f n).children).getD [] else d.children x := by
  rw [children, get?_update]
  split
  · rw [Option.map_map]
    rfl
  · rfl

theorem parent?_detach (d : Document) (id x : NodeId) :
    (d.detach id).parent? x = if x = id then none else d.parent? x := by
  unfold Document.detach
  split
  · rename_i hnone
    split
    · rename_i hx
      rw [hx, hnone]
    · rfl
  · rename_i p hp
    rw [parent?_update, parent?_update]
    split
    · cases ((d.update p _).get? id) <;> rfl
    · split
      · rename_i hx
        rw [hx, parent?]
      · rfl

theorem children_detach (d : Document) (id x : NodeId) :
    (d.detach id).children x =
      if d.parent? id = some x then (d.children x).filter (· != id) else d.children x := by
  unfold Document.detach
  split
  · rename_i hnone
    rw [hnone]
    rfl
  · rename_i p hp
    have hlast : ∀ d : Document, (d.update id fun n => { n with parent := none }).children x =
        d.children x := by
      intro d
      rw [children_update]
      split
      · rename_i hx
        rw [hx, children]
      · rfl
    rw [hlast, children_update, hp]
    by_cases hx : x = p
    · subst hx
      rw [if_pos rfl, if_pos rfl, children]
      cases d.get? x <;> simp
    · rw [if_neg hx, if_neg (by simpa using Ne.symm hx)]

theorem contains_detach (d : Document) (id x : NodeId) :
    (d.detach id).contains x = d.contains x := by
  unfold Document.detach
  split
  · rfl
  · rw [contains_update, contains_update]

/-- An insertion that is done. -/
theorem insertBefore_of_live {p c : NodeId} (hp : d.contains p = true) (hc : d.contains c = true)
    (hne : p ≠ c) (a : Option NodeId) : d.insertBefore p c a =
      ((d.detach c).update p fun n => { n with children := place c a n.children }).update c
        fun n => { n with parent := some p } := by
  rw [Document.insertBefore, if_pos (by simp [hp, hc, hne])]

theorem parent?_insertBefore {p c : NodeId} (hp : d.contains p = true) (hc : d.contains c = true)
    (hne : p ≠ c) (a : Option NodeId) (x : NodeId) :
    (d.insertBefore p c a).parent? x = if x = c then some p else d.parent? x := by
  rw [insertBefore_of_live hp hc hne, parent?_update]
  split
  · have hlive : ((d.detach c).update p fun n =>
        { n with children := place c a n.children }).contains c = true := by
      rw [contains_update, contains_detach, hc]
    obtain ⟨n, hn⟩ := contains_iff.1 hlive
    rw [hn]
    rfl
  · rename_i hx
    rw [parent?_update]
    split
    · rename_i hxp
      have := parent?_detach d c x
      rw [if_neg hx] at this
      rw [← this, hxp, parent?]
    · rw [parent?_detach, if_neg hx]

theorem children_insertBefore {p c : NodeId} (hp : d.contains p = true) (hc : d.contains c = true)
    (hne : p ≠ c) (a : Option NodeId) (x : NodeId) :
    (d.insertBefore p c a).children x =
      if x = p then place c a ((d.detach c).children p) else (d.detach c).children x := by
  have hlast : ∀ d : Document, (d.update c fun n => { n with parent := some p }).children x =
      d.children x := by
    intro d
    rw [children_update]
    split
    · rename_i hx
      rw [hx, children]
    · rfl
  rw [insertBefore_of_live hp hc hne, hlast, children_update]
  split
  · have hlive : (d.detach c).contains p = true := by rw [contains_detach, hp]
    obtain ⟨n, hn⟩ := contains_iff.1 hlive
    rw [children_of_get? hn, hn]
    rfl
  · rfl

theorem contains_insertBefore (d : Document) (p c : NodeId) (a : Option NodeId) (x : NodeId) :
    (d.insertBefore p c a).contains x = d.contains x := by
  unfold Document.insertBefore
  split
  · rw [contains_update, contains_update, contains_detach]
  · rfl

theorem parent?_release (d : Document) (id x : NodeId) :
    (d.release id).parent? x = if x = id then none else d.parent? x := by
  rw [parent?, get?_release]
  split <;> rfl

theorem children_release (d : Document) (id x : NodeId) :
    (d.release id).children x = if x = id then [] else d.children x := by
  rw [children, get?_release]
  split <;> rfl

theorem contains_release (d : Document) (id x : NodeId) :
    (d.release id).contains x = true ↔ x ≠ id ∧ d.contains x = true := by
  rw [contains, get?_release]
  by_cases hx : x = id
  · simp [hx]
  · simp [hx, contains]

theorem mem_placeBefore {c x a : NodeId} {cs : List NodeId} :
    x ∈ placeBefore c a cs ↔ x = c ∨ x ∈ cs := by
  induction cs with
  | nil => simp [placeBefore]
  | cons y cs ih =>
      rw [placeBefore]
      split
      · simp
      · rw [List.mem_cons, ih, List.mem_cons]
        tauto

theorem mem_place {c x : NodeId} {a : Option NodeId} {cs : List NodeId} :
    x ∈ place c a cs ↔ x = c ∨ x ∈ cs := by
  cases a with
  | none => simp [place, or_comm]
  | some a => exact mem_placeBefore

theorem nodup_placeBefore {c a : NodeId} {cs : List NodeId} (hcs : cs.Nodup) (hc : c ∉ cs) :
    (placeBefore c a cs).Nodup := by
  induction cs with
  | nil => simp [placeBefore]
  | cons y cs ih =>
      rw [List.nodup_cons] at hcs
      rw [List.mem_cons, not_or] at hc
      rw [placeBefore]
      split
      · rw [List.nodup_cons, List.mem_cons, not_or, List.nodup_cons]
        exact ⟨hc, hcs⟩
      · rw [List.nodup_cons]
        refine ⟨fun hmem => ?_, ih hcs.2 hc.2⟩
        rcases mem_placeBefore.1 hmem with rfl | hy
        · exact hc.1 rfl
        · exact hcs.1 hy

theorem nodup_place {c : NodeId} {a : Option NodeId} {cs : List NodeId} (hcs : cs.Nodup)
    (hc : c ∉ cs) : (place c a cs).Nodup := by
  cases a with
  | none =>
      rw [place, List.nodup_append]
      exact ⟨hcs, by simp, by
        rintro x hx y hy rfl
        rw [List.mem_singleton] at hy
        exact hc (hy ▸ hx)⟩
  | some a => exact nodup_placeBefore hcs hc

/-! #### What the operations preserve -/

theorem linked_empty : Linked empty [] := by
  have hlinks : ∀ x, empty.parent? x = none ∧ empty.children x = [] := by
    intro x
    cases x with
    | zero => exact ⟨rfl, rfl⟩
    | succ x => simp [parent?, children, get?, empty]
  refine ⟨slotted_empty, fun p c hc => ?_, fun p => ?_, fun c p hc => ?_, fun c hc => ?_, .nil,
    by simp⟩
  · rw [(hlinks p).2] at hc
    cases hc
  · rw [(hlinks p).2]
    exact .nil
  · rw [(hlinks c).1] at hc
    cases hc
  · rw [(hlinks c).1] at hc
    cases hc

theorem Linked.congr (h : d.Linked []) (hlinks : SameLinks d e) (hslots : e.Slotted) :
    e.Linked [] where
  slots := hslots
  child p c hc := by
    rw [hlinks.children] at hc
    rw [hlinks.parent?, h.child p c hc]
  distinct p := by
    rw [hlinks.children]
    exact h.distinct p
  parent c p hc hno := by
    rw [hlinks.parent?] at hc
    rw [hlinks.children]
    exact h.parent c p hc hno
  irrefl c := by
    rw [hlinks.parent?]
    exact h.irrefl c
  nodup := .nil
  orphan := by simp

theorem Linked.alloc (h : d.Linked []) (kind : NodeKind) (span : Option Span) :
    (d.alloc kind span).1.Linked [] :=
  h.congr (h.slots.sameLinks_alloc kind span) (h.slots.get?_alloc kind span).2.2

/-- Taking a node from its parent keeps the other links. -/
theorem Linked.detach (h : d.Linked []) (id : NodeId) : (d.detach id).Linked [] where
  slots := h.slots.detach id
  child p c hc := by
    rw [children_detach] at hc
    have hmem : c ∈ d.children p ∧ c ≠ id := by
      split at hc
      · rw [List.mem_filter, bne_iff_ne] at hc
        exact hc
      · rename_i hp
        refine ⟨hc, ?_⟩
        rintro rfl
        exact hp (h.child p c hc)
    rw [parent?_detach, if_neg hmem.2, h.child p c hmem.1]
  distinct p := by
    rw [children_detach]
    split
    · exact (h.distinct p).filter _
    · exact h.distinct p
  parent c p hc hno := by
    rw [parent?_detach] at hc
    split at hc
    · cases hc
    · rename_i hne
      have hmem := h.parent c p hc hno
      rw [children_detach]
      split
      · rw [List.mem_filter, bne_iff_ne]
        exact ⟨hmem, hne⟩
      · exact hmem
  irrefl c := by
    rw [parent?_detach]
    split
    · simp
    · exact h.irrefl c
  nodup := .nil
  orphan := by simp

/-- **An insertion keeps every link on both of its sides**, whatever nodes it is about. -/
theorem Linked.insertBefore (h : d.Linked []) (p c : NodeId) (a : Option NodeId) :
    (d.insertBefore p c a).Linked [] := by
  by_cases hlive : d.contains p = true ∧ d.contains c = true ∧ p ≠ c
  · obtain ⟨hp, hc, hne⟩ := hlive
    have hd := h.detach c
    have hparent : ∀ x, x ≠ c → (d.insertBefore p c a).parent? x = (d.detach c).parent? x := by
      intro x hx
      rw [parent?_insertBefore hp hc hne, if_neg hx, parent?_detach, if_neg hx]
    -- the node is below no other one when it is put below its new parent
    have hfree : ∀ q, c ∉ (d.detach c).children q := by
      intro q hq
      have := hd.child q c hq
      rw [parent?_detach, if_pos rfl] at this
      cases this
    refine ⟨h.slots.insertBefore p c a, ?child, ?distinct, ?parent, ?irrefl, .nil, by simp⟩
    case child =>
      intro q x hx
      rw [children_insertBefore hp hc hne] at hx
      split at hx
      · rename_i hq
        rw [hq]
        rcases mem_place.1 hx with rfl | hx
        · rw [parent?_insertBefore hp hc hne, if_pos rfl]
        · have hxc : x ≠ c := fun e => hfree p (e ▸ hx)
          rw [hparent x hxc, hd.child p x hx]
      · have hxc : x ≠ c := fun e => hfree q (e ▸ hx)
        rw [hparent x hxc, hd.child q x hx]
    case distinct =>
      intro q
      rw [children_insertBefore hp hc hne]
      split
      · exact nodup_place (hd.distinct p) (hfree p)
      · exact hd.distinct q
    case parent =>
      intro x q hx hno
      rw [children_insertBefore hp hc hne]
      by_cases hxc : x = c
      · subst hxc
        rw [parent?_insertBefore hp hc hne, if_pos rfl, Option.some.injEq] at hx
        rw [if_pos hx.symm]
        exact mem_place.2 (.inl rfl)
      · rw [hparent x hxc] at hx
        have hmem := hd.parent x q hx hno
        split
        · rename_i hq
          exact mem_place.2 (.inr (hq ▸ hmem))
        · exact hmem
    case irrefl =>
      intro x
      by_cases hxc : x = c
      · rw [hxc, parent?_insertBefore hp hc hne, if_pos rfl, ne_eq, Option.some.injEq]
        exact hne
      · rw [hparent x hxc]
        exact hd.irrefl x
  · have hcond : ¬(d.contains p && d.contains c && p != c) = true := by
      simpa [and_assoc] using hlive
    rwa [Document.insertBefore, if_neg hcond]

/-- **One round of freeing**: the children of the node are left without a parent. -/
theorem Linked.release {id : NodeId} (h : d.Linked (id :: orphans)) :
    (d.release id).Linked ((d.children id).reverse ++ orphans) := by
  obtain ⟨hlive, hparent⟩ := h.orphan id (List.mem_cons_self ..)
  obtain ⟨n, hn⟩ := contains_iff.1 hlive
  obtain ⟨hid, hnodup⟩ := List.nodup_cons.1 h.nodup
  -- no live node has the freed one below it
  have hbelow : ∀ p, id ∉ d.children p := by
    intro p hp
    have := hparent p (h.child p id hp)
    rw [contains_of_child hp] at this
    cases this
  have hself : id ∉ d.children id := hbelow id
  refine ⟨h.slots.release hn, ?child, ?distinct, ?parent, ?irrefl, ?nodup, ?orphan⟩
  case child =>
    intro p c hc
    rw [children_release] at hc
    split at hc
    · cases hc
    · have hne : c ≠ id := fun e => hbelow p (e ▸ hc)
      rw [parent?_release, if_neg hne, h.child p c hc]
  case distinct =>
    intro p
    rw [children_release]
    split
    · exact .nil
    · exact h.distinct p
  case parent =>
    intro c p hc hno
    rw [List.mem_append, List.mem_reverse, not_or] at hno
    rw [parent?_release] at hc
    split at hc
    · cases hc
    · rename_i hne
      have hmem := h.parent c p hc (by simp [hne, hno.2])
      rw [children_release, if_neg fun heq : p = id => hno.1 (heq ▸ hmem)]
      exact hmem
  case irrefl =>
    intro c
    rw [parent?_release]
    split
    · simp
    · exact h.irrefl c
  case nodup =>
    rw [List.nodup_append]
    refine ⟨List.nodup_reverse.2 (h.distinct id), hnodup, ?_⟩
    rintro c hc _ hc' rfl
    have hdead := (h.orphan c (List.mem_cons_of_mem _ hc')).2 id
      (h.child id c (List.mem_reverse.1 hc))
    rw [hlive] at hdead
    cases hdead
  case orphan =>
    intro c hc
    rw [contains_release]
    rcases List.mem_append.1 hc with hc | hc
    · have hchild := h.child id c (List.mem_reverse.1 hc)
      have hne : c ≠ id := by
        rintro rfl
        exact hself (List.mem_reverse.1 hc)
      refine ⟨⟨hne, contains_of_parent? hchild⟩, fun p hp => ?_⟩
      rw [parent?_release, if_neg hne, hchild, Option.some.injEq] at hp
      rw [← hp, contains_eq_false_iff, get?_release, if_pos rfl]
    · have hne : c ≠ id := fun e => hid (e ▸ hc)
      obtain ⟨hc', hdead⟩ := h.orphan c (List.mem_cons_of_mem _ hc)
      refine ⟨⟨hne, hc'⟩, fun p hp => ?_⟩
      rw [parent?_release, if_neg hne] at hp
      have := hdead p hp
      rw [contains_eq_false_iff] at this ⊢
      rw [get?_release, this, ite_self]

/-- There are no more free slots than slots. -/
theorem Slotted.length_free_le (h : d.Slotted) : d.free.length ≤ d.nodes.size := by
  have hsub : d.free ⊆ List.range d.nodes.size := fun x hx =>
    List.mem_range.2 ((h.mem_free x).1 hx).1
  have := (h.nodup.subperm hsub).length_le
  rwa [List.length_range] at this

/-- **Freeing ends when no node is left without a parent**, with a round for each live node. -/
theorem Linked.releaseAll (fuel : Nat) (stack : List NodeId) (h : d.Linked stack)
    (hfuel : d.nodes.size < fuel + d.free.length) :
    (Document.releaseAll fuel stack d).Linked [] := by
  induction fuel generalizing stack d with
  | zero =>
      have := h.slots.length_free_le
      omega
  | succ fuel ih =>
      cases stack with
      | nil => exact h
      | cons id stack =>
          obtain ⟨n, hn⟩ := contains_iff.1 (h.orphan id (List.mem_cons_self ..)).1
          rw [Document.releaseAll, hn]
          have hnext := h.release
          rw [children_of_get? hn] at hnext
          refine ih _ hnext ?_
          simp only [Document.release, Array.size_setIfInBounds, List.length_cons]
          omega

/-- A node without a parent is an orphan. -/
theorem Linked.of_loose (h : d.Linked []) {id : NodeId} (hlive : d.contains id = true)
    (hloose : d.parent? id = none) : d.Linked [id] where
  slots := h.slots
  child := h.child
  distinct := h.distinct
  parent c p hc _ := h.parent c p hc List.not_mem_nil
  irrefl := h.irrefl
  nodup := List.nodup_singleton id
  orphan c hc := by
    rw [List.mem_singleton.1 hc]
    refine ⟨hlive, fun p hp => ?_⟩
    rw [hloose] at hp
    cases hp

theorem Linked.remove (h : d.Linked []) (id : NodeId) : (d.remove id).Linked [] := by
  unfold Document.remove
  split
  · rename_i hcond
    rw [Bool.and_eq_true] at hcond
    refine Linked.releaseAll _ _ ((h.detach id).of_loose ?_ ?_) ?_
    · rw [contains_detach, hcond.2]
    · rw [parent?_detach, if_pos rfl]
    · rw [size_nodes_detach]
      omega
  · exact h

theorem Linked.append (h : d.Linked []) (p c : NodeId) : (d.append p c).Linked [] :=
  h.insertBefore p c none

theorem Linked.cloneTo (fuel : Nat) (id : NodeId) (h : d.Linked []) :
    (Document.cloneTo fuel id d).1.Linked [] := by
  induction fuel generalizing id d with
  | zero => exact h
  | succ fuel ih =>
      rw [Document.cloneTo]
      split
      · exact h
      · rename_i n hn
        simp only
        exact List.foldlRecOn n.children _ (motive := fun d : Document => d.Linked [])
          (h.alloc n.kind n.span) fun _ he child _ => (ih child he).append _ _

theorem Linked.setText (h : d.Linked []) (id : NodeId) (text : String) :
    (d.setText id text).Linked [] :=
  h.congr (sameLinks_setText d id text) (h.slots.update _ _)

theorem Linked.divide (h : d.Linked []) (id : NodeId) (head tail : String) :
    (d.divide id head tail).1.Linked [] := by
  have hnew := (h.setText id head).alloc (.text tail) (d.span? id)
  unfold Document.divide
  simp only
  split
  · exact hnew
  · exact hnew.insertBefore _ _ _

/-- A split that has a result divides the node. -/
theorem exists_divide_of_apply_splitText {id : NodeId} {offset : Nat} {result : Option NodeId}
    (h : (Operation.splitText id offset).apply d = some (e, result)) :
    ∃ head tail, e = (d.divide id head tail).1 ∧ result = some (d.divide id head tail).2 := by
  obtain ⟨r, hr, hresult⟩ := Option.map_eq_some_iff.1 h
  cases hresult
  unfold Document.splitText? at hr
  split at hr
  · cases hr
    exact ⟨"", "", rfl, rfl⟩
  · obtain ⟨parts, -, rfl⟩ := Option.map_eq_some_iff.1 hr
    exact ⟨_, _, rfl, rfl⟩

/-- **Each operation keeps every link on both of its sides.** -/
theorem Linked.apply (h : d.Linked []) {op : Operation} {result : Option NodeId}
    (happly : op.apply d = some (e, result)) : e.Linked [] := by
  cases op with
  | createElement e =>
      cases happly
      exact h.alloc _ _
  | createText t =>
      cases happly
      exact h.alloc _ _
  | setText id t =>
      cases happly
      exact h.setText id t
  | eraseAttribute id name =>
      cases happly
      exact h.congr (sameLinks_eraseAttribute d id name) (h.slots.update _ _)
  | splitText id offset =>
      obtain ⟨head, tail, rfl, -⟩ := exists_divide_of_apply_splitText happly
      exact h.divide id head tail
  | detach id =>
      cases happly
      exact h.detach id
  | append p c =>
      cases happly
      exact h.append p c
  | insertBefore p c a =>
      cases happly
      exact h.insertBefore p c a
  | remove id =>
      cases happly
      exact h.remove id
  | clone id =>
      cases happly
      exact h.cloneTo _ id

/-- Every run keeps each link on both of its sides. -/
theorem Reachable.linked (h : Reachable d) : d.Linked [] :=
  h.invariant (P := fun d => d.Linked []) linked_empty fun _ _ _ _ h happly => h.apply happly

/-! ### Documents as runs leave them -/

/-- An operation that makes a node puts it into a slot that was free. -/
theorem Slotted.get?_of_apply (h : d.Slotted) {op : Operation} {id : NodeId}
    (happly : op.apply d = some (e, some id)) : d.get? id = none := by
  have hdivide : ∀ (i : NodeId) (head tail : String), d.get? (d.divide i head tail).2 = none := by
    intro i head tail
    obtain ⟨hdead, -, -⟩ := (h.update i _).get?_alloc (.text tail) (d.span? i)
    have hnew : (d.divide i head tail).2 =
        ((d.setText i head).alloc (.text tail) (d.span? i)).2 := by
      unfold Document.divide
      simp only
      split <;> rfl
    have hset : (d.setText i head).get? (d.divide i head tail).2 = none := by
      rw [hnew]
      exact hdead
    rw [← contains_eq_false_iff] at hset ⊢
    rwa [← contains_update d i _ _]
  cases op with
  | createElement e =>
      cases happly
      exact (h.get?_alloc _ _).1
  | createText t =>
      cases happly
      exact (h.get?_alloc _ _).1
  | splitText i offset =>
      obtain ⟨head, tail, -, hid⟩ := exists_divide_of_apply_splitText happly
      rw [Option.some.inj hid]
      exact hdivide i head tail
  | clone i =>
      cases happly
      rw [Document.clone, Document.cloneTo]
      split
      · assumption
      · exact (h.get?_alloc _ _).1
  | setText | eraseAttribute | detach | append | insertBefore | remove => cases happly

/-- The live nodes of a document. -/
def live (d : Document) : List NodeId :=
  (List.range d.nodes.size).filter d.contains

/-- The size of a document is the number of its live nodes. -/
theorem Slotted.size_eq (h : d.Slotted) : d.size = d.live.length := by
  have hfree : d.free.Perm ((List.range d.nodes.size).filter fun id => !d.contains id) := by
    rw [List.perm_ext_iff_of_nodup h.nodup (List.nodup_range.filter _)]
    intro id
    rw [h.mem_free, List.mem_filter, List.mem_range, Bool.not_eq_true', contains_eq_false_iff]
  have hsum := List.length_eq_length_filter_add (l := List.range d.nodes.size) d.contains
  rw [List.length_range, ← hfree.length_eq] at hsum
  rw [size, live]
  omega

/-- The free slots are exactly those without a live node, each of them once, and the size is the
number of live nodes.  What a live node is linked to is live, a node has its parent as the node that
has it as a child, and it is a child no more than once. -/
structure Consistent (d : Document) : Prop where
  free_nodup : d.free.Nodup
  mem_free : ∀ id, id ∈ d.free ↔ id < d.nodes.size ∧ d.contains id = false
  size : d.size = d.live.length
  child_live : ∀ p c, c ∈ d.children p → d.contains c = true
  parent_live : ∀ c p, d.parent? c = some p → d.contains p = true
  parent_iff : ∀ p c, d.contains p = true → d.contains c = true →
    (d.parent? c = some p ↔ c ∈ d.children p)
  once : ∀ p c, c ∈ d.children p → (d.children p).count c = 1

theorem Consistent.slotted (h : d.Consistent) : d.Slotted :=
  ⟨h.free_nodup, fun id => by rw [h.mem_free, contains_eq_false_iff]⟩

/-- A node is a child of its parent, and of no other node. -/
theorem Consistent.mem_children_iff (h : d.Consistent) {p c : NodeId} :
    c ∈ d.children p ↔ d.parent? c = some p := by
  refine ⟨fun hc => ?_, fun hp => ?_⟩
  · exact (h.parent_iff p c (contains_of_child hc) (h.child_live p c hc)).2 hc
  · exact (h.parent_iff p c (h.parent_live c p hp) (contains_of_parent? hp)).1 hp

theorem Consistent.distinct (h : d.Consistent) (p : NodeId) : (d.children p).Nodup :=
  List.nodup_iff_count_eq_one.2 (h.once p)

/-- A consistent document in which no node is its own parent is linked. -/
theorem Consistent.linked (h : d.Consistent) (hirrefl : ∀ c, d.parent? c ≠ some c) :
    d.Linked [] where
  slots := h.slotted
  child _ _ hc := h.mem_children_iff.1 hc
  distinct := h.distinct
  parent _ _ hp _ := h.mem_children_iff.2 hp
  irrefl := hirrefl
  nodup := .nil
  orphan := by simp

theorem Linked.consistent (h : d.Linked []) : d.Consistent where
  free_nodup := h.slots.nodup
  mem_free id := by rw [h.slots.mem_free, contains_eq_false_iff]
  size := h.slots.size_eq
  child_live p c hc := contains_of_parent? (h.child p c hc)
  parent_live c p hc := contains_of_child (h.parent c p hc List.not_mem_nil)
  parent_iff p c _ _ := ⟨fun hc => h.parent c p hc List.not_mem_nil, h.child p c⟩
  once p c hc := List.count_eq_one_of_mem (h.distinct p) hc

/-- **What every run leaves is consistent, and no operation gives out the slot of a live node.** -/
theorem reachable_consistent (h : Reachable d) :
    d.Consistent ∧ ∀ (op : Operation) (e : Document) (id : NodeId),
      op.apply d = some (e, some id) → d.contains id = false := by
  refine ⟨h.linked.consistent, fun op e id happly => ?_⟩
  rw [contains_eq_false_iff]
  exact h.linked.slots.get?_of_apply happly

/-- Two nodes are put below each other, and one of them is removed. -/
def loopRemoved : Document := ⟨#[some (Node.loose .document none), none, none], [1, 2]⟩

theorem reachable_loopRemoved : Reachable loopRemoved := by
  have hnodes := (Reachable.start.step (.createElement ⟨"a", []⟩) trivial rfl).step
    (.createElement ⟨"b", []⟩) trivial rfl
  have hloop := (hnodes.step (.append 1 2) trivial rfl).step (.append 2 1) trivial rfl
  exact hloop.step (.remove 2) trivial rfl

theorem reachable_consistent_loopRemoved :
    Reachable loopRemoved ∧ loopRemoved.Consistent ∧
      ∀ (op : Operation) (e : Document) (id : NodeId),
        op.apply loopRemoved = some (e, some id) → loopRemoved.contains id = false :=
  ⟨reachable_loopRemoved, reachable_consistent reachable_loopRemoved⟩

end PageTemplate.Document
