/-
**Freeing and copying whole trees.**

To remove a held tree empties exactly its slots, and takes it from the children of its parent.  To
clone one puts the same tree into slots that were free.  Both walk along the children that the nodes
record, with rounds or levels enough for any tree that a document can hold.

Main definitions:

* `PageTemplate.Document.Freed` — a document has lost some nodes;
* `PageTemplate.Document.Gained` — a document has got a tree.

Main results:

* `PageTemplate.Document.Slotted.releaseAll` — the trees on the stack, and only these, are freed;
* `PageTemplate.Document.Slotted.remove`, `PageTemplate.Document.Sound.remove` — what removing a tree
  leaves in each slot;
* `PageTemplate.Document.Slotted.clone` — the copy of a tree, and what copying leaves alone.
-/

import PageTemplate.Proofs.Document.Effects
import PageTemplate.Proofs.Document.Placed

set_option relaxedAutoImplicit false
set_option autoImplicit false

namespace PageTemplate

namespace Document

open PageTemplate.Text

variable {d : Document}

/-! ### Freeing -/

theorem get?_release (d : Document) (id x : NodeId) :
    (d.release id).get? x = if x = id then none else d.get? x := by
  by_cases hx : x = id
  · subst hx
    by_cases hlt : x < d.nodes.size
    · simp [get?, release, hlt]
    · simp [get?, release, hlt]
  · have hx' : id ≠ x := fun e => hx e.symm
    simp [get?, release, hx, hx']

/-- A slot whose node goes is free. -/
theorem Slotted.release (h : d.Slotted) {id : NodeId} {n : Node} (hid : d.get? id = some n) :
    (d.release id).Slotted := by
  have hlt := lt_size_of_get? hid
  have hfree : id ∉ d.free := by
    intro hmem
    rw [h.mem_free, hid] at hmem
    cases hmem.2
  refine ⟨List.nodup_cons.2 ⟨hfree, h.nodup⟩, fun x => ?_⟩
  have hsize : (d.release id).nodes.size = d.nodes.size := by simp [Document.release]
  have hmem : x ∈ (d.release id).free ↔ x = id ∨ x ∈ d.free := List.mem_cons
  rw [hmem, hsize, get?_release, h.mem_free]
  by_cases hx : x = id
  · subst hx
    simp [hlt]
  · simp [hx]

/-- The document `e` is what `d` is without the nodes `xs`, whose slots are the next to be used. -/
structure Freed (d e : Document) (xs : List NodeId) : Prop where
  slots : e.Slotted
  get? : ∀ x, e.get? x = if x ∈ xs then none else d.get? x
  stack : ∃ freed, e.free = freed ++ d.free ∧ freed.Perm xs
  size : e.nodes.size = d.nodes.size

theorem Slotted.freed_nil (h : d.Slotted) : Freed d d [] :=
  ⟨h, by simp, ⟨[], rfl, .nil⟩, rfl⟩

/-- One more node is freed first. -/
theorem Freed.cons {e : Document} {id : NodeId} {xs ys : List NodeId}
    (h : Freed (d.release id) e xs) (hperm : xs.Perm ys) : Freed d e (id :: ys) where
  slots := h.slots
  get? x := by
    rw [h.get?, get?_release]
    by_cases hx : x = id
    · simp [hx]
    · simp [hx, hperm.mem_iff]
  stack := by
    obtain ⟨freed, hfree, hfreed⟩ := h.stack
    refine ⟨freed ++ [id], by rw [hfree]; simp [Document.release], ?_⟩
    exact (List.perm_append_singleton id freed).trans ((hfreed.trans hperm).cons id)
  size := by rw [h.size, Document.release, Array.size_setIfInBounds]

/-- The children of a freed node take its place on the stack. -/
theorem perm_ids_reverse (cs ts : List Placed) :
    ((cs.reverse ++ ts).flatMap Placed.ids).Perm ((cs ++ ts).flatMap Placed.ids) :=
  (List.Perm.append_right ts (List.reverse_perm cs)).flatMap_right _

/-- **The trees on the stack, and only these, are freed.** -/
theorem Slotted.releaseAll (fuel : Nat) (ts : List Placed) (h : d.Slotted)
    (hts : ∀ t ∈ ts, ∃ p, d.Holds p t) (hn : (ts.flatMap Placed.ids).Nodup)
    (hf : (ts.flatMap Placed.ids).length ≤ fuel) :
    Freed d (Document.releaseAll fuel (ts.map Placed.id) d) (ts.flatMap Placed.ids) := by
  induction fuel generalizing ts d with
  | zero =>
      rw [List.length_eq_zero_iff.1 (Nat.le_zero.1 hf)]
      exact h.freed_nil
  | succ fuel ih =>
      cases ts with
      | nil => exact h.freed_nil
      | cons t ts =>
          obtain ⟨i, k, s, cs⟩ := t
          obtain ⟨p, ht⟩ := hts _ (List.mem_cons_self ..)
          have hget := ht.get?
          rw [Placed.id_node] at hget
          rw [List.flatMap_cons, Placed.ids_node, List.cons_append, ← List.flatMap_append] at hn hf ⊢
          have hperm := perm_ids_reverse cs ts
          have hi : i ∉ (cs ++ ts).flatMap Placed.ids := (List.nodup_cons.1 hn).1
          -- a tree on the stack does not have the slot that is freed first
          have hstay : ∀ t ∈ cs ++ ts, ∀ q, d.Holds q t → (d.release i).Holds q t := by
            intro t ht' q hq
            refine hq.congr fun x hx => ?_
            rw [get?_release, if_neg]
            rintro rfl
            exact hi (List.mem_flatMap.2 ⟨t, ht', hx⟩)
          have hrest := ih (cs.reverse ++ ts) (h.release hget) (by
              intro t ht'
              rcases List.mem_append.1 ht' with hc | hc
              · have hc := List.mem_reverse.1 hc
                exact ⟨some i, hstay t (List.mem_append_left _ hc) _ (ht.child hc)⟩
              · obtain ⟨q, hq⟩ := hts t (List.mem_cons_of_mem _ hc)
                exact ⟨q, hstay t (List.mem_append_right _ hc) q hq⟩)
            (hperm.nodup_iff.2 (List.nodup_cons.1 hn).2) (by
              rw [hperm.length_eq]
              simpa using hf)
          have hstep : Document.releaseAll (fuel + 1) ((Placed.node i k s cs :: ts).map Placed.id) d =
              Document.releaseAll fuel ((cs.reverse ++ ts).map Placed.id) (d.release i) := by
            rw [List.map_cons, Placed.id_node, Document.releaseAll, hget]
            simp
          rw [hstep]
          exact hrest.cons hperm

/-- A tree that is taken from its parent is as it was. -/
theorem Holds.detach {t : Placed} {p : Option NodeId} (ht : d.Holds p t) (hn : t.ids.Nodup)
    (hp : ∀ q, p = some q → q ∉ t.ids) : (d.detach t.id).Holds none t := by
  have hparent : d.parent? t.id = p := parent?_of_get? ht.get?
  refine ht.move hn ?_ fun x hx hxi => ?_
  · rw [get?_detach_self fun hself => hp _ (hparent.symm.trans hself) t.id_mem_ids, ht.get?]
    rfl
  · exact get?_detach_of_apart hxi fun hx' => hp x (hparent.symm.trans hx') hx

/-- **To remove a tree frees its slots**, once it is taken from its parent. -/
theorem Slotted.remove (h : d.Slotted) {t : Placed} {p : Option NodeId} (ht : d.Holds p t)
    (hn : t.ids.Nodup) (hp : ∀ q, p = some q → q ∉ t.ids) (hne : t.id ≠ root) :
    Freed (d.detach t.id) (d.remove t.id) t.ids := by
  have hlen : t.ids.length ≤ d.nodes.size := length_le_size hn fun _ hx => ht.live hx
  have hall := Slotted.releaseAll (d.nodes.size + 1) [t] (h.detach t.id)
    (by simpa using ⟨none, ht.detach hn hp⟩) (by simpa using hn)
    (by simpa using Nat.le_succ_of_le hlen)
  rw [Document.remove, if_pos (by simp [hne, contains_of_get? ht.get?])]
  simpa using hall

/-- The children of a node of a held tree are nodes of the tree. -/
theorem Holds.mem_of_child {p : Option NodeId} {t : Placed} {x c : NodeId} (h : d.Holds p t)
    (hx : x ∈ t.ids) (hc : c ∈ d.children x) : c ∈ t.ids := by
  induction h with
  | @node p id kind span cs hget hcs ih =>
      rw [Placed.ids_node] at hx ⊢
      refine List.mem_cons_of_mem _ ?_
      rcases List.mem_cons.1 hx with rfl | hx
      · rw [children_of_get? hget] at hc
        obtain ⟨u, hu, rfl⟩ := List.mem_map.1 hc
        exact List.mem_flatMap.2 ⟨u, hu, u.id_mem_ids⟩
      · obtain ⟨u, hu, hxu⟩ := List.mem_flatMap.1 hx
        exact List.mem_flatMap.2 ⟨u, hu, ih u hu hxu⟩

/-- The nodes of a held tree are below its topmost node, each as a child of another one. -/
theorem Holds.child_of_parent {p : Option NodeId} {t : Placed} (h : d.Holds p t) {x : NodeId}
    (hx : x ∈ t.ids) : x = t.id ∨ ∃ q, d.parent? x = some q ∧ x ∈ d.children q := by
  induction h with
  | @node p id kind span cs hget hcs ih =>
      rw [Placed.ids_node] at hx
      rcases List.mem_cons.1 hx with rfl | hx
      · exact .inl rfl
      · obtain ⟨c, hc, hxc⟩ := List.mem_flatMap.1 hx
        rcases ih c hc hxc with rfl | hbelow
        · refine .inr ⟨id, parent?_of_get? (hcs c hc).get?, ?_⟩
          rw [children_of_get? hget]
          exact List.mem_map.2 ⟨c, hc, rfl⟩
        · exact .inr hbelow

/-- What removing a tree below another node leaves in each slot. -/
theorem Sound.remove (h : d.Sound) {t : Placed} {p : NodeId} {m : Node} (ht : d.Holds (some p) t)
    (hn : t.ids.Nodup) (hp : d.get? p = some m) (hpt : p ∉ t.ids) :
    (d.remove t.id).Sound ∧ ∀ x, (d.remove t.id).get? x =
      if x ∈ t.ids then none
      else if x = p then some { m with children := m.children.filter (· != t.id) }
      else d.get? x := by
  have hne : t.id ≠ root := h.ne_root_of_parent ht.get? rfl
  have hpid : p ≠ t.id := fun e => hpt (e ▸ t.id_mem_ids)
  have hfreed := h.slotted.remove ht hn (by simpa using hpt) hne
  have hroot : root ∉ t.ids := by
    intro hmem
    rcases ht.child_of_parent hmem with heq | ⟨q, hq, -⟩
    · exact hne heq.symm
    · obtain ⟨n, hn, htop⟩ := h.top
      rw [parent?_of_get? hn, htop] at hq
      cases hq
  obtain ⟨n, hn, htop⟩ := (h.detach t.id).top
  refine ⟨⟨hfreed.slots.nodup, hfreed.slots.mem_free, n, ?_, htop⟩, fun x => ?_⟩
  · rw [hfreed.get?, if_neg hroot, hn]
  · rw [hfreed.get?, get?_detach ht.get? rfl hp hpid]
    by_cases hxt : x ∈ t.ids
    · rw [if_pos hxt, if_pos hxt]
    · have hxi : x ≠ t.id := fun e => hxt (e ▸ t.id_mem_ids)
      rw [if_neg hxt, if_neg hxt, if_neg hxi]

/-! ### Copying -/

/-- The document `e` has what `d` has, and the tree `t` loose in slots that were free. -/
structure Gained (d e : Document) (t : Placed) : Prop where
  slots : e.Slotted
  holds : e.Holds none t
  nodup : t.ids.Nodup
  free : ∀ x ∈ t.ids, d.get? x = none
  keeps : ∀ x, x ∉ t.ids → e.get? x = d.get? x

/-- What was live is as it was. -/
theorem Gained.get? {e : Document} {t : Placed} (h : Gained d e t) {x : NodeId} {n : Node}
    (hx : d.get? x = some n) : e.get? x = some n := by
  rw [h.keeps x fun hmem => ?_, hx]
  rw [h.free x hmem] at hx
  cases hx

theorem Gained.holds_of {e : Document} {t u : Placed} {p : Option NodeId} (h : Gained d e t)
    (hu : d.Holds p u) : e.Holds p u := by
  refine hu.congr fun x hx => ?_
  obtain ⟨n, hn⟩ := hu.live hx
  rw [h.get? hn, hn]

theorem Gained.sound {e : Document} {t : Placed} (h : Gained d e t) (hd : d.Sound) : e.Sound := by
  obtain ⟨n, hn, hparent⟩ := hd.top
  exact ⟨h.slots.nodup, h.slots.mem_free, n, h.get? hn, hparent⟩

/-- A new node without links is a tree. -/
theorem Slotted.gained_alloc (h : d.Slotted) (kind : NodeKind) (span : Option Span) :
    Gained d (d.alloc kind span).1 (.node (d.alloc kind span).2 kind span []) := by
  obtain ⟨hdead, hnew, hslots⟩ := h.get?_alloc kind span
  refine ⟨hslots, .node hnew (by simp), by simp, ?_, ?_⟩
  · intro x hx
    rw [Placed.ids_node, List.flatMap_nil, List.mem_singleton] at hx
    rw [hx, hdead]
  · intro x hx
    rw [Placed.ids_node, List.flatMap_nil, List.mem_singleton] at hx
    exact get?_alloc_of_ne d kind span hx

/-- A loose tree becomes the last child of another one. -/
theorem Gained.append {e f : Document} {i : NodeId} {k : NodeKind} {s : Option Span}
    {cs : List Placed} {c : Placed} (h : Gained d e (.node i k s cs)) (hc : Gained e f c) :
    Gained d (f.append i c.id) (.node i k s (cs ++ [c])) := by
  have hi : f.get? i = some ⟨k, none, cs.map Placed.id, s⟩ := hc.get? h.holds.get?
  have hci : i ∉ c.ids := by
    intro hmem
    have := hc.free i hmem
    rw [show e.get? i = _ from h.holds.get?] at this
    cases this
  have hne : i ≠ c.id := fun e => hci (e ▸ c.id_mem_ids)
  have hget := get?_insertBefore hc.holds.get? rfl hi hne none
  have hids : (Placed.node i k s (cs ++ [c])).ids = (Placed.node i k s cs).ids ++ c.ids := by
    simp
  -- the slots of the old tree are live before the new one comes
  have hold : ∀ x ∈ (Placed.node i k s cs).ids, x ∉ c.ids := by
    intro x hx hxc
    obtain ⟨n, hn⟩ := h.holds.live hx
    rw [hc.free x hxc] at hn
    cases hn
  have hnodup : (Placed.node i k s (cs ++ [c])).ids.Nodup := by
    rw [hids]
    refine List.nodup_append.2 ⟨h.nodup, hc.nodup, fun x hx y hy e => ?_⟩
    exact hold x hx (e ▸ hy)
  refine ⟨hc.slots.insertBefore _ _ _, ?_, hnodup, ?_, ?_⟩
  · refine .node ?_ fun x hx => ?_
    · rw [Document.append, hget, if_neg hne, if_pos rfl]
      simp [place]
    · rcases List.mem_append.1 hx with hx | hx
      · refine (hc.holds_of (h.holds.child hx)).congr fun y hy => ?_
        have hyt : y ∈ (Placed.node i k s cs).ids := Placed.mem_ids_of_child hx hy
        have hyi : y ≠ i := by
          rintro rfl
          have := h.nodup
          rw [Placed.ids_node, List.nodup_cons] at this
          exact this.1 (List.mem_flatMap.2 ⟨x, hx, hy⟩)
        have hyc : y ≠ c.id := fun e => hold y hyt (e ▸ c.id_mem_ids)
        rw [Document.append, hget, if_neg hyc, if_neg hyi]
      · rw [List.mem_singleton] at hx
        subst hx
        refine hc.holds.move hc.nodup (by rw [Document.append, hget, if_pos rfl]) fun y hy hyx => ?_
        have hyi : y ≠ i := fun e => hci (e ▸ hy)
        rw [Document.append, hget, if_neg hyx, if_neg hyi]
  · intro x hx
    rw [hids] at hx
    rcases List.mem_append.1 hx with hx | hx
    · exact h.free x hx
    · have hxt : x ∉ (Placed.node i k s cs).ids := fun hmem => hold x hmem hx
      rw [← h.keeps x hxt, hc.free x hx]
  · intro x hx
    rw [hids, List.mem_append, not_or] at hx
    have hxi : x ≠ i := fun e => hx.1 (e ▸ (Placed.node i k s cs).id_mem_ids)
    have hxc : x ≠ c.id := fun e => hx.2 (e ▸ c.id_mem_ids)
    rw [Document.append, hget, if_neg hxc, if_neg hxi, hc.keeps x hx.2, h.keeps x hx.1]

section Children

variable {clone clone' : NodeId → Document → Document × NodeId} {e : Document} {i new : NodeId}
  {k : NodeKind} {s : Option Span} {todo done : List Placed}

/-- **The children of a node are copied one by one**, behind those that are copied already, if each of
them is copied wherever it is held. -/
theorem Gained.copies (he : Gained d e (.node new k s done))
    (hheld : ∀ c ∈ todo, d.Holds (some i) c)
    (hclone : ∀ c ∈ todo, ∀ e : Document, e.Slotted → e.Holds (some i) c →
      ∃ u, u.id = (clone c.id e).2 ∧ u.tree = c.tree ∧ Gained e (clone c.id e).1 u) :
    ∃ us : List Placed, us.map Placed.tree = todo.map Placed.tree ∧
      Gained d ((todo.map Placed.id).foldl (fun d child =>
        (clone child d).1.append new (clone child d).2) e) (.node new k s (done ++ us)) := by
  induction todo generalizing done e with
  | nil => exact ⟨[], rfl, by simpa using he⟩
  | cons c todo ih =>
      obtain ⟨hc, hheld⟩ := List.forall_mem_cons.1 hheld
      obtain ⟨hfirst, hclone⟩ := List.forall_mem_cons.1 hclone
      obtain ⟨u, hid, htree, hu⟩ := hfirst e he.slots (he.holds_of hc)
      have hnext := he.append hu
      rw [hid] at hnext
      obtain ⟨us, hus, hrest⟩ := ih hnext hheld hclone
      refine ⟨u :: us, by rw [List.map_cons, List.map_cons, htree, hus], ?_⟩
      rw [List.append_assoc] at hrest
      exact hrest

/-- What copies each child the same way copies all of them the same way. -/
theorem Gained.copies_congr (he : Gained d e (.node new k s done))
    (hheld : ∀ c ∈ todo, d.Holds (some i) c)
    (hclone : ∀ c ∈ todo, ∀ e : Document, e.Slotted → e.Holds (some i) c →
      clone c.id e = clone' c.id e ∧ ∃ u, u.id = (clone c.id e).2 ∧ Gained e (clone c.id e).1 u) :
    (todo.map Placed.id).foldl (fun d child => (clone child d).1.append new (clone child d).2) e =
      (todo.map Placed.id).foldl (fun d child => (clone' child d).1.append new (clone' child d).2)
        e := by
  induction todo generalizing done e with
  | nil => rfl
  | cons c todo ih =>
      obtain ⟨hc, hheld⟩ := List.forall_mem_cons.1 hheld
      obtain ⟨hfirst, hclone⟩ := List.forall_mem_cons.1 hclone
      obtain ⟨hsame, u, hid, hu⟩ := hfirst e he.slots (he.holds_of hc)
      have hnext := he.append hu
      rw [hid] at hnext
      rw [List.map_cons, List.foldl_cons, List.foldl_cons, ← hsame]
      exact ih hnext hheld hclone

end Children

/-- With levels for its depth, a tree is copied. -/
theorem Slotted.cloneTo {fuel : Nat} {t : Placed} {p : Option NodeId} (h : d.Slotted)
    (ht : d.Holds p t) (hf : t.depth ≤ fuel) :
    ∃ u, u.id = (Document.cloneTo fuel t.id d).2 ∧ u.tree = t.tree ∧
      Gained d (Document.cloneTo fuel t.id d).1 u := by
  induction t generalizing fuel d p with
  | node i k s cs ih =>
      obtain ⟨fuel, rfl⟩ : ∃ n, fuel = n + 1 := by
        rw [Placed.depth_node] at hf
        exact ⟨fuel - 1, by omega⟩
      have hdepth : ∀ c ∈ cs, c.depth ≤ fuel := fun c hc =>
        Nat.le_of_lt_succ (Nat.lt_of_lt_of_le (Placed.depth_lt_of_child hc) hf)
      have hheld : ∀ c ∈ cs, d.Holds (some i) c := fun c hc => ht.child hc
      obtain ⟨us, hus, hall⟩ := (h.gained_alloc k s).copies hheld
        fun c hc e he hce => ih c hc he hce (hdepth c hc)
      have hget : d.get? i = some ⟨k, p, cs.map Placed.id, s⟩ := ht.get?
      refine ⟨.node (d.alloc k s).2 k s us, ?_, ?_, ?_⟩
      · simp only [Placed.id_node, Document.cloneTo, hget]
      · rw [Placed.tree_node, Placed.tree_node, hus]
      · simp only [Placed.id_node, Document.cloneTo, hget]
        exact hall

/-- Levels beyond the depth of a tree do not change its copy. -/
theorem Slotted.cloneTo_eq {fuel fuel' : Nat} {t : Placed} {p : Option NodeId} (h : d.Slotted)
    (ht : d.Holds p t) (hf : t.depth ≤ fuel) (hf' : t.depth ≤ fuel') :
    Document.cloneTo fuel t.id d = Document.cloneTo fuel' t.id d := by
  induction t generalizing fuel fuel' d p with
  | node i k s cs ih =>
      have hpos := Placed.depth_node i k s cs
      obtain ⟨fuel, rfl⟩ : ∃ n, fuel = n + 1 := ⟨fuel - 1, by omega⟩
      obtain ⟨fuel', rfl⟩ : ∃ n, fuel' = n + 1 := ⟨fuel' - 1, by omega⟩
      have hheld : ∀ c ∈ cs, d.Holds (some i) c := fun c hc => ht.child hc
      have hsame : ∀ c ∈ cs, ∀ e : Document, e.Slotted → e.Holds (some i) c →
          Document.cloneTo fuel c.id e = Document.cloneTo fuel' c.id e ∧
            ∃ u, u.id = (Document.cloneTo fuel c.id e).2 ∧
              Gained e (Document.cloneTo fuel c.id e).1 u := by
        intro c hc e he hce
        have hdepth : c.depth < (Placed.node i k s cs).depth := Placed.depth_lt_of_child hc
        have hfuel : c.depth ≤ fuel := by omega
        obtain ⟨u, hid, -, hu⟩ := he.cloneTo hce hfuel
        exact ⟨ih c hc he hce hfuel (by omega), u, hid, hu⟩
      have hall := (h.gained_alloc k s).copies_congr hheld hsame
      have hget : d.get? i = some ⟨k, p, cs.map Placed.id, s⟩ := ht.get?
      simp only [Placed.id_node, Document.cloneTo, hget]
      rw [hall]

/-- **A held tree is copied into slots that were free.** -/
theorem Slotted.clone {t : Placed} {p : Option NodeId} (h : d.Slotted) (ht : d.Holds p t)
    (hn : t.ids.Nodup) :
    ∃ u, u.id = (d.clone t.id).2 ∧ u.tree = t.tree ∧ Gained d (d.clone t.id).1 u :=
  h.cloneTo ht (Nat.le_succ_of_le (ht.depth_le hn))

end Document

end PageTemplate
