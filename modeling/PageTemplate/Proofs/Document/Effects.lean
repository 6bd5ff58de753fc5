/-
**What the operations on a document do to its slots.**

Each operation is described by what it leaves in every slot.  The list of free slots only matters
through one invariant: it names, once each, exactly the slots without a node.  A new node then never
takes the slot of a live one.  The invariant also keeps the document node where it is, on top.

Main definitions:

* `PageTemplate.Document.Slotted` — the list of free slots is right;
* `PageTemplate.Document.Sound` — it is right, and the document node is on top.

Main results:

* `PageTemplate.Document.Slotted.get?_alloc` — a new node comes into a slot that was free;
* `PageTemplate.Document.get?_detach`, `PageTemplate.Document.get?_insertBefore` — changes of links;
* `PageTemplate.Document.Slotted.divide`, `PageTemplate.Document.Sound.divide` — a text node is split
  into two neighbours.
-/

import Mathlib.Data.List.Nodup
import PageTemplate.Document.Edit

set_option relaxedAutoImplicit false
set_option autoImplicit false

namespace PageTemplate

namespace Document

open PageTemplate.Markup PageTemplate.Text

/-- The list of free slots names exactly the slots without a node, and each of them once.  There is
a node in the slot of the document node, and it has no parent. -/
structure Sound (d : Document) : Prop where
  nodup : d.free.Nodup
  mem_free : ∀ id, id ∈ d.free ↔ id < d.nodes.size ∧ d.get? id = none
  top : ∃ n, d.get? root = some n ∧ n.parent = none

/-- The list of free slots names exactly the slots without a node, and each of them once. -/
structure Slotted (d : Document) : Prop where
  nodup : d.free.Nodup
  mem_free : ∀ id, id ∈ d.free ↔ id < d.nodes.size ∧ d.get? id = none

variable {d : Document}

theorem Sound.slotted (h : d.Sound) : d.Slotted := ⟨h.nodup, h.mem_free⟩

theorem slotted_empty : Slotted empty := by
  refine ⟨by simp [empty], fun id => ?_⟩
  cases id with
  | zero => simp [empty, get?]
  | succ id => simp [empty]

theorem sound_empty : Sound empty :=
  ⟨slotted_empty.nodup, slotted_empty.mem_free, Node.loose .document none, rfl, rfl⟩

/-- A slot that is free is not that of the document node. -/
theorem Sound.ne_root_of_free (h : d.Sound) {id : NodeId} (hid : d.get? id = none) : id ≠ root := by
  obtain ⟨n, hn, _⟩ := h.top
  rintro rfl
  rw [hn] at hid
  cases hid

/-- A node with a parent is not the document node. -/
theorem Sound.ne_root_of_parent (h : d.Sound) {id p : NodeId} {n : Node} (hid : d.get? id = some n)
    (hn : n.parent = some p) : id ≠ root := by
  obtain ⟨m, hm, htop⟩ := h.top
  rintro rfl
  rw [hm] at hid
  cases hid
  rw [htop] at hn
  cases hn

theorem get?_empty_root : empty.get? root = some (Node.loose .document none) := rfl

/-! ### Changes of one node -/

/-- Changing a node frees no slot and takes none. -/
theorem Slotted.update (h : d.Slotted) (id : NodeId) (f : Node → Node) : (d.update id f).Slotted := by
  refine ⟨h.nodup, fun x => ?_⟩
  rw [free_update, size_nodes_update, h.mem_free, get?_update]
  by_cases hx : x = id
  · simp [hx]
  · simp [hx]

/-- The document node must stay on top. -/
theorem Sound.update (h : d.Sound) (id : NodeId) (f : Node → Node)
    (hf : id = root → ∀ n, n.parent = none → (f n).parent = none) : (d.update id f).Sound := by
  have hslots := h.slotted.update id f
  refine ⟨hslots.nodup, hslots.mem_free, ?_⟩
  obtain ⟨n, hn, htop⟩ := h.top
  by_cases hroot : id = root
  · subst hroot
    exact ⟨f n, by simp [get?_update, hn], hf rfl n htop⟩
  · exact ⟨n, by rw [get?_update, if_neg (Ne.symm hroot), hn], htop⟩

theorem get?_update_self {id : NodeId} {n : Node} (h : d.get? id = some n) (f : Node → Node) :
    (d.update id f).get? id = some (f n) := by
  simp [get?_update, h]

theorem get?_update_of_ne {id x : NodeId} (h : x ≠ id) (f : Node → Node) :
    (d.update id f).get? x = d.get? x := by
  simp [get?_update, h]

theorem Sound.setText (h : d.Sound) (id : NodeId) (text : String) :
    (d.setText id text).Sound := by
  refine h.update id _ fun _ n hn => ?_
  split <;> exact hn

theorem get?_setText_of_ne {id x : NodeId} (h : x ≠ id) (text : String) :
    (d.setText id text).get? x = d.get? x :=
  get?_update_of_ne h _

theorem get?_setText_self {id : NodeId} {old : String} {p : Option NodeId} {cs : List NodeId}
    {span : Option Span} (h : d.get? id = some ⟨.text old, p, cs, span⟩) (text : String) :
    (d.setText id text).get? id = some ⟨.text text, p, cs, span⟩ :=
  get?_update_self h _

theorem Sound.eraseAttribute (h : d.Sound) (id : NodeId) (name : String) :
    (d.eraseAttribute id name).Sound := by
  refine h.update id _ fun _ n hn => ?_
  split <;> exact hn

theorem get?_eraseAttribute_of_ne {id x : NodeId} (h : x ≠ id) (name : String) :
    (d.eraseAttribute id name).get? x = d.get? x :=
  get?_update_of_ne h _

theorem get?_eraseAttribute_self {id : NodeId} {e : Element} {p : Option NodeId}
    {cs : List NodeId} {span : Option Span} (h : d.get? id = some ⟨.element e, p, cs, span⟩)
    (name : String) :
    (d.eraseAttribute id name).get? id =
      some ⟨.element (e.eraseAttribute name), p, cs, span⟩ :=
  get?_update_self h _

/-! ### New nodes -/

/-- A new node comes into a slot that was free, and no other slot changes. -/
theorem Slotted.get?_alloc (h : d.Slotted) (kind : NodeKind) (span : Option Span) :
    d.get? (d.alloc kind span).2 = none ∧
      (d.alloc kind span).1.get? (d.alloc kind span).2 = some (Node.loose kind span) ∧
      (d.alloc kind span).1.Slotted := by
  unfold alloc
  split
  · rename_i id free hfree
    have hid := (h.mem_free id).1 (by simp [hfree])
    have hnodup : (id :: free).Nodup := hfree ▸ h.nodup
    refine ⟨hid.2, by simp [get?, hid.1], (List.nodup_cons.1 hnodup).2, fun x => ?_⟩
    have hmem := h.mem_free x
    rw [hfree, List.mem_cons] at hmem
    by_cases hx : x = id
    · subst hx
      simp [get?, hid.1, (List.nodup_cons.1 hnodup).1]
    · have hx' : id ≠ x := fun e => hx e.symm
      simpa [get?, hx, hx', Array.getElem?_setIfInBounds] using hmem
  · rename_i hfree
    refine ⟨by simp [get?], by simp [get?], by simp, fun x => ?_⟩
    have hmem := h.mem_free x
    rw [hfree] at hmem
    simp only [List.not_mem_nil, false_iff, not_and, Array.size_push] at hmem ⊢
    intro hx
    by_cases hs : x = d.nodes.size
    · simp [get?, hs]
    · have := hmem (Nat.lt_of_le_of_ne (Nat.le_of_lt_succ hx) hs)
      simpa [get?, Array.getElem?_push, hs] using this

/-- The document node stays on top. -/
theorem Sound.get?_alloc (h : d.Sound) (kind : NodeKind) (span : Option Span) :
    d.get? (d.alloc kind span).2 = none ∧
      (d.alloc kind span).1.get? (d.alloc kind span).2 = some (Node.loose kind span) ∧
      (d.alloc kind span).1.Sound := by
  obtain ⟨hdead, hnew, hslots⟩ := h.slotted.get?_alloc kind span
  obtain ⟨m, hm, htop⟩ := h.top
  have hne : root ≠ (d.alloc kind span).2 := (h.ne_root_of_free hdead).symm
  exact ⟨hdead, hnew, hslots.nodup, hslots.mem_free, m, (get?_alloc_of_ne d kind span hne).trans hm,
    htop⟩

/-- A new node leaves the live slots alone. -/
theorem Slotted.get?_alloc_of_live (h : d.Slotted) (kind : NodeKind) (span : Option Span)
    {x : NodeId} {n : Node} (hx : d.get? x = some n) : (d.alloc kind span).1.get? x = some n := by
  rw [get?_alloc_of_ne, hx]
  rintro rfl
  rw [(h.get?_alloc kind span).1] at hx
  cases hx

/-! ### Links -/

theorem parent?_of_get? {id : NodeId} {n : Node} (h : d.get? id = some n) :
    d.parent? id = n.parent := by
  simp [parent?, h]

theorem children_of_get? {id : NodeId} {n : Node} (h : d.get? id = some n) :
    d.children id = n.children := by
  simp [children, h]

theorem contains_of_get? {id : NodeId} {n : Node} (h : d.get? id = some n) :
    d.contains id = true := by
  simp [contains, h]

theorem Sound.detach (h : d.Sound) (id : NodeId) : (d.detach id).Sound := by
  unfold Document.detach
  split
  · exact h
  · refine Sound.update (Sound.update h _ _ ?_) _ _ ?_
    · exact fun _ _ hn => hn
    · exact fun _ _ _ => rfl

theorem detach_of_loose {id : NodeId} {n : Node} (h : d.get? id = some n) (hn : n.parent = none) :
    d.detach id = d := by
  rw [Document.detach, parent?_of_get? h, hn]

/-- Whatever node is taken, and wherever from, of the others only its parent changes. -/
theorem get?_detach_of_ne {id x : NodeId} (hx : x ≠ id) : (d.detach id).get? x =
    (d.get? x).map fun n =>
      if d.parent? id = some x then { n with children := n.children.filter (· != id) } else n := by
  unfold Document.detach
  split
  · rename_i hnone
    simp [hnone]
  · rename_i p hp
    rw [get?_update_of_ne hx, get?_update, hp]
    by_cases hxp : x = p
    · simp [hxp]
    · simp [hxp, Ne.symm hxp]

theorem get?_detach_of_apart {id x : NodeId} (hx : x ≠ id) (hp : d.parent? id ≠ some x) :
    (d.detach id).get? x = d.get? x := by
  simp [get?_detach_of_ne hx, hp]

/-- A node that is not its own parent keeps its children. -/
theorem get?_detach_self {id : NodeId} (hne : d.parent? id ≠ some id) :
    (d.detach id).get? id = (d.get? id).map fun n => { n with parent := none } := by
  unfold Document.detach
  split
  · rename_i hnone
    cases hid : d.get? id with
    | none => rfl
    | some n =>
        rw [parent?_of_get? hid] at hnone
        rw [Option.map_some, ← hnone]
  · rename_i p hp
    rw [get?_update, if_pos rfl, get?_update_of_ne]
    rintro rfl
    exact hne hp

/-- Taking a node from its parent changes these two nodes. -/
theorem get?_detach {id p : NodeId} {n m : Node} (h : d.get? id = some n)
    (hn : n.parent = some p) (hp : d.get? p = some m) (hne : p ≠ id) (x : NodeId) :
    (d.detach id).get? x =
      if x = id then some { n with parent := none }
      else if x = p then some { m with children := m.children.filter (· != id) }
      else d.get? x := by
  have hparent : d.parent? id = some p := by rw [parent?_of_get? h, hn]
  by_cases hx : x = id
  · rw [if_pos hx, hx, get?_detach_self (by simpa [hparent] using hne), h, Option.map_some]
  · rw [if_neg hx, get?_detach_of_ne hx, hparent]
    by_cases hxp : x = p
    · simp [hxp, hp]
    · simp [hxp, Ne.symm hxp]

@[simp] theorem free_detach (d : Document) (id : NodeId) : (d.detach id).free = d.free := by
  unfold Document.detach
  split <;> rfl

@[simp] theorem size_nodes_detach (d : Document) (id : NodeId) :
    (d.detach id).nodes.size = d.nodes.size := by
  unfold Document.detach
  split <;> simp

theorem Slotted.detach (h : d.Slotted) (id : NodeId) : (d.detach id).Slotted := by
  unfold Document.detach
  split
  · exact h
  · exact (h.update _ _).update _ _

theorem Slotted.insertBefore (h : d.Slotted) (p c : NodeId) (a : Option NodeId) :
    (d.insertBefore p c a).Slotted := by
  unfold Document.insertBefore
  split
  · exact ((h.detach c).update _ _).update _ _
  · exact h

theorem Sound.insertBefore (h : d.Sound) (p : NodeId) {c : NodeId} (hc : c ≠ root)
    (a : Option NodeId) : (d.insertBefore p c a).Sound := by
  unfold Document.insertBefore
  split
  · refine Sound.update (Sound.update (h.detach c) _ _ ?_) _ _ ?_
    · exact fun _ _ hn => hn
    · exact fun e => absurd e hc
  · exact h

/-- Putting a loose node somewhere changes it and its new parent. -/
theorem get?_insertBefore {p c : NodeId} {n m : Node} (hc : d.get? c = some n)
    (hn : n.parent = none) (hp : d.get? p = some m) (hne : p ≠ c) (a : Option NodeId)
    (x : NodeId) :
    (d.insertBefore p c a).get? x =
      if x = c then some { n with parent := some p }
      else if x = p then some { m with children := place c a m.children }
      else d.get? x := by
  have hcond : (d.contains p && d.contains c && p != c) = true := by
    simp [contains_of_get? hp, contains_of_get? hc, hne]
  rw [Document.insertBefore, if_pos hcond, detach_of_loose hc hn]
  simp only [get?_update]
  by_cases hx : x = c
  · subst hx
    simp [Ne.symm hne, hc]
  · by_cases hxp : x = p
    · subst hxp
      simp [hx, hp]
    · simp [hx, hxp]

theorem placeBefore_append {c a : NodeId} {xs ys : List NodeId} (h : a ∉ xs) :
    placeBefore c a (xs ++ a :: ys) = xs ++ c :: a :: ys := by
  induction xs with
  | nil => simp [placeBefore]
  | cons x xs ih =>
      rw [List.mem_cons, not_or] at h
      rw [List.cons_append, placeBefore, if_neg (Ne.symm h.1), ih h.2, List.cons_append]

/-- A node is put right before its anchor, if what comes before does not have the anchor. -/
theorem place_append {c : NodeId} {xs ys : List NodeId} (h : ∀ a ∈ ys.head?, a ∉ xs) :
    place c ys.head? (xs ++ ys) = xs ++ c :: ys := by
  cases ys with
  | nil => simp [place]
  | cons y ys =>
      rw [List.head?_cons, place]
      exact placeBefore_append (h y (by simp))

theorem following?_append {id : NodeId} {xs ys : List NodeId} (h : id ∉ xs) :
    following? id (xs ++ id :: ys) = ys.head? := by
  induction xs with
  | nil => simp [following?]
  | cons x xs ih =>
      rw [List.mem_cons, not_or] at h
      rw [List.cons_append, following?, if_neg (Ne.symm h.1), ih h.2]

theorem nextSibling?_eq {id p : NodeId} {n m : Node} {xs ys : List NodeId}
    (h : d.get? id = some n) (hn : n.parent = some p) (hp : d.get? p = some m)
    (hm : m.children = xs ++ id :: ys) (hid : id ∉ xs) : d.nextSibling? id = ys.head? := by
  rw [nextSibling?, parent?_of_get? h, hn, Option.bind_some, children_of_get? hp, hm,
    following?_append hid]

/-- What is placed before the first sibling behind a node comes right behind the node. -/
theorem place_behind {id new : NodeId} {xs ys : List NodeId} (hn : (xs ++ id :: ys).Nodup) :
    place new ys.head? (xs ++ id :: ys) = xs ++ id :: new :: ys := by
  obtain ⟨_, hnodup, hdis⟩ := List.nodup_append.1 hn
  have hsplit : xs ++ id :: ys = (xs ++ [id]) ++ ys := by simp
  rw [hsplit, place_append]
  · simp
  · intro a ha hax
    have hays : a ∈ ys := List.mem_of_head? ha
    rcases List.mem_append.1 hax with hax | hax
    · exact hdis a hax a (List.mem_cons_of_mem _ hays) rfl
    · rw [List.mem_singleton] at hax
      subst hax
      exact (List.nodup_cons.1 hnodup).1 hays

/-! ### Splitting text -/

/-- Dividing a text node puts a new text node right behind it.  Both have its parent and its
span. -/
theorem Slotted.divide (h : d.Slotted) {id p : NodeId} {old : String} {span : Option Span} {m : Node}
    {cs xs ys : List NodeId} (hid : d.get? id = some ⟨.text old, some p, cs, span⟩)
    (hp : d.get? p = some m) (hm : m.children = xs ++ id :: ys)
    (hn : (xs ++ id :: ys).Nodup) (hne : p ≠ id) (head tail : String) :
    let e := (d.divide id head tail).1
    let new := (d.divide id head tail).2
    e.Slotted ∧ d.get? new = none ∧ e.get? id = some ⟨.text head, some p, cs, span⟩ ∧
      e.get? new = some ⟨.text tail, some p, [], span⟩ ∧
      e.get? p = some { m with children := xs ++ id :: new :: ys } ∧
      ∀ x, x ≠ id → x ≠ new → x ≠ p → e.get? x = d.get? x := by
  have hs : (d.setText id head).Slotted := h.update _ _
  have hid₁ := get?_setText_self hid head
  have hp₁ : (d.setText id head).get? p = some m := by rw [get?_setText_of_ne hne, hp]
  obtain ⟨hdead, hnew, hs₂⟩ := hs.get?_alloc (.text tail) (d.span? id)
  have hspan : d.span? id = span := by simp [span?, hid]
  have hid₂ := hs.get?_alloc_of_live (.text tail) (d.span? id) hid₁
  have hp₂ := hs.get?_alloc_of_live (.text tail) (d.span? id) hp₁
  have hother : ∀ x, x ≠ id → x ≠ ((d.setText id head).alloc (.text tail) (d.span? id)).2 →
      ((d.setText id head).alloc (.text tail) (d.span? id)).1.get? x = d.get? x := by
    intro x hx hxnew
    rw [get?_alloc_of_ne _ _ _ hxnew, get?_setText_of_ne hx]
  have hdiv : d.divide id head tail =
      (((d.setText id head).alloc (.text tail) (d.span? id)).1.insertBefore p
        ((d.setText id head).alloc (.text tail) (d.span? id)).2
        (((d.setText id head).alloc (.text tail) (d.span? id)).1.nextSibling? id),
        ((d.setText id head).alloc (.text tail) (d.span? id)).2) := by
    simp only [Document.divide, parent?_of_get? hid₂]
  rw [hdiv]
  generalize ((d.setText id head).alloc (.text tail) (d.span? id)).1 = e at *
  generalize ((d.setText id head).alloc (.text tail) (d.span? id)).2 = new at *
  have hpnew : p ≠ new := by
    rintro rfl
    rw [hp₁] at hdead
    cases hdead
  have hidnew : id ≠ new := by
    rintro rfl
    rw [hid₁] at hdead
    cases hdead
  have hidxs : id ∉ xs := fun hx => (List.nodup_append.1 hn).2.2 id hx id (List.mem_cons_self ..) rfl
  have hanchor : e.nextSibling? id = ys.head? := nextSibling?_eq hid₂ rfl hp₂ hm hidxs
  simp only [hanchor]
  refine ⟨hs₂.insertBefore _ _ _, ?_, ?_, ?_, ?_, ?_⟩
  · rwa [get?_setText_of_ne (Ne.symm hidnew)] at hdead
  · rw [get?_insertBefore hnew rfl hp₂ hpnew, if_neg hidnew, if_neg (Ne.symm hne), hid₂]
  · rw [get?_insertBefore hnew rfl hp₂ hpnew, if_pos rfl, hspan]
    rfl
  · rw [get?_insertBefore hnew rfl hp₂ hpnew, if_neg hpnew, if_pos rfl, hm, place_behind hn]
  · intro x hx hxnew hxp
    rw [get?_insertBefore hnew rfl hp₂ hpnew, if_neg hxnew, if_neg hxp, hother x hx hxnew]

/-- The document node stays on top. -/
theorem Sound.divide (h : d.Sound) {id p : NodeId} {old : String} {span : Option Span} {m : Node}
    {cs xs ys : List NodeId} (hid : d.get? id = some ⟨.text old, some p, cs, span⟩)
    (hp : d.get? p = some m) (hm : m.children = xs ++ id :: ys)
    (hn : (xs ++ id :: ys).Nodup) (hne : p ≠ id) (head tail : String) :
    let e := (d.divide id head tail).1
    let new := (d.divide id head tail).2
    e.Sound ∧ d.get? new = none ∧ e.get? id = some ⟨.text head, some p, cs, span⟩ ∧
      e.get? new = some ⟨.text tail, some p, [], span⟩ ∧
      e.get? p = some { m with children := xs ++ id :: new :: ys } ∧
      ∀ x, x ≠ id → x ≠ new → x ≠ p → e.get? x = d.get? x := by
  obtain ⟨hslots, hdead, hid', hnew, hp', hother⟩ := h.slotted.divide hid hp hm hn hne head tail
  refine ⟨⟨hslots.nodup, hslots.mem_free, ?_⟩, hdead, hid', hnew, hp', hother⟩
  obtain ⟨n, hn, htop⟩ := h.top
  have hrid : root ≠ id := (h.ne_root_of_parent hid rfl).symm
  have hrnew : root ≠ (d.divide id head tail).2 := (h.ne_root_of_free hdead).symm
  by_cases hrp : root = p
  · subst hrp
    rw [hn] at hp
    cases hp
    exact ⟨_, hp', htop⟩
  · exact ⟨n, by rw [hother root hrid hrnew hrp, hn], htop⟩

end Document

end PageTemplate
