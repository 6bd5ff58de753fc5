/-
**Runs that keep a document a forest.**

No operation but an insertion gives a node that was there a parent that it did not have.  An
insertion asks that the node and its new parent be live and not the same, and nothing else, so a node
may be put below one of the nodes below it, and the document node below another node.  These two are
the only ways in which a document stops being a forest with the document node on top.

Main definitions:

* `PageTemplate.Document.Entangling`, `PageTemplate.Document.Operation.Entangles` — the insertions
  that a forest does not survive;
* `PageTemplate.Document.Orderly` — the documents that runs without them lead to.

Main results:

* `PageTemplate.Document.Forest.remove`, `PageTemplate.Document.Forest.clone` — freeing and copying;
* `PageTemplate.Document.Forest.insertBefore_iff`, `PageTemplate.Document.Forest.apply_iff` — an
  operation keeps a forest exactly if it is none of these insertions;
* `PageTemplate.Document.Sound.linked_forest` — a document that is one tree is a forest;
* `PageTemplate.Document.orderly_forest` — what holds at the end of every orderly run;
* `PageTemplate.Document.reachable_entangled` — what other runs may come to.
-/

import PageTemplate.Proofs.Document.Forest

set_option relaxedAutoImplicit false
set_option autoImplicit false

namespace PageTemplate.Document

open PageTemplate.Text Relation

variable {d e : Document} {x y a : NodeId}

/-! ### What keeps a forest -/

theorem kind?_update {id : NodeId} {f : Node → Node} (hf : ∀ n, (f n).kind = n.kind) (x : NodeId) :
    (d.update id f).kind? x = d.kind? x := by
  rw [kind?, kind?, get?_update]
  split
  · rename_i hx
    rw [hx, Option.map_map]
    exact congrArg (Option.map · _) (funext hf)
  · rfl

theorem kind?_detach (d : Document) (id x : NodeId) : (d.detach id).kind? x = d.kind? x := by
  unfold Document.detach
  split
  · rfl
  · rw [kind?_update, kind?_update] <;> exact fun _ => rfl

theorem kind?_insertBefore (d : Document) (p c : NodeId) (a : Option NodeId) (x : NodeId) :
    (d.insertBefore p c a).kind? x = d.kind? x := by
  unfold Document.insertBefore
  split
  · rw [kind?_update, kind?_update, kind?_detach] <;> exact fun _ => rfl
  · rfl

/-- A change of the document node that only other kinds of nodes would notice. -/
theorem Forest.update (hf : d.Forest) {id : NodeId} {f : Node → Node}
    (hlinks : SameLinks d (d.update id f)) (hdoc : ∀ n, n.kind = .document → f n = n) :
    (d.update id f).Forest := by
  refine hf.of_parents ?_ fun c p hc => by rwa [hlinks.parent?] at hc
  rw [kind?, get?_update]
  split
  · rename_i hroot
    obtain ⟨n, hn⟩ := contains_iff.1 hf.live
    have hkind := hf.kind
    rw [kind?, hn, Option.map_some, Option.some.injEq] at hkind
    rw [← hroot, hn, Option.map_some, hdoc n hkind, Option.map_some, kind?, hn, Option.map_some]
  · rfl

theorem Forest.setText (hf : d.Forest) (id : NodeId) (text : String) :
    (d.setText id text).Forest := by
  refine hf.update (sameLinks_setText d id text) fun n hn => ?_
  rw [hn]

theorem Forest.eraseAttribute (hf : d.Forest) (id : NodeId) (name : String) :
    (d.eraseAttribute id name).Forest := by
  refine hf.update (sameLinks_eraseAttribute d id name) fun n hn => ?_
  rw [hn]

theorem Forest.alloc (hf : d.Forest) (h : d.Slotted) (kind : NodeKind) (span : Option Span) :
    (d.alloc kind span).1.Forest := by
  have hdead := (h.get?_alloc kind span).1
  have hne : root ≠ (d.alloc kind span).2 := by
    intro heq
    have := contains_eq_false_iff.2 hdead
    rw [← heq, hf.live] at this
    cases this
  refine hf.of_parents ?_ fun c p hc => by rwa [(h.sameLinks_alloc kind span).parent?] at hc
  rw [kind?, get?_alloc_of_ne d kind span hne, kind?]

theorem Forest.detach (hf : d.Forest) (id : NodeId) : (d.detach id).Forest := by
  refine hf.of_parents (kind?_detach d id root) fun c p hc => ?_
  rw [parent?_detach] at hc
  split at hc
  · cases hc
  · exact hc

/-- Freeing gives no node a parent. -/
theorem parent?_of_releaseAll (fuel : Nat) (stack : List NodeId) {c p : NodeId}
    (h : (Document.releaseAll fuel stack d).parent? c = some p) : d.parent? c = some p := by
  induction fuel generalizing stack d with
  | zero => exact h
  | succ fuel ih =>
      cases stack with
      | nil => exact h
      | cons id stack =>
          rw [Document.releaseAll] at h
          split at h
          · exact ih stack h
          · have := ih _ h
            rw [parent?_release] at this
            split at this
            · cases this
            · exact this

/-- The document node is not freed if it is on top and not on the stack. -/
theorem Linked.get?_root_releaseAll (fuel : Nat) (stack : List NodeId) (h : d.Linked stack)
    (htop : d.parent? root = none) (hstack : root ∉ stack) :
    (Document.releaseAll fuel stack d).get? root = d.get? root := by
  induction fuel generalizing stack d with
  | zero => rfl
  | succ fuel ih =>
      cases stack with
      | nil => rfl
      | cons id stack =>
          obtain ⟨n, hn⟩ := contains_iff.1 (h.orphan id (List.mem_cons_self ..)).1
          rw [List.mem_cons, not_or] at hstack
          have hnext := h.release
          rw [children_of_get? hn] at hnext
          have hchild : root ∉ n.children := by
            intro hmem
            have := h.child id root (by rwa [children_of_get? hn])
            rw [htop] at this
            cases this
          rw [Document.releaseAll, hn]
          simp only
          rw [ih _ hnext ?_ ?_, get?_release, if_neg hstack.1]
          · rw [parent?_release, if_neg hstack.1, htop]
          · rw [List.mem_append, List.mem_reverse, not_or]
            exact ⟨hchild, hstack.2⟩

theorem Forest.remove (hf : d.Forest) (h : d.Linked []) (id : NodeId) : (d.remove id).Forest := by
  unfold Document.remove
  split
  · rename_i hcond
    rw [Bool.and_eq_true, bne_iff_ne] at hcond
    have hd := hf.detach id
    have hloose : (d.detach id).Linked [id] := by
      refine (h.detach id).of_loose ?_ ?_
      · rw [contains_detach, hcond.2]
      · rw [parent?_detach, if_pos rfl]
    have hroot : root ∉ [id] := by
      rw [List.mem_singleton]
      exact Ne.symm hcond.1
    refine hd.of_parents ?_ fun c p => parent?_of_releaseAll _ _
    rw [kind?, hloose.get?_root_releaseAll _ _ hd.top hroot, kind?]
  · exact hf

/-- The way up from a node of a held tree leads to its topmost node. -/
theorem Holds.up {p : Option NodeId} {t : Placed} (h : d.Holds p t) (hx : x ∈ t.ids) :
    ReflTransGen d.ChildOf x t.id := by
  induction h with
  | @node p id kind span cs _ hcs ih =>
      rw [Placed.ids_node] at hx
      rcases List.mem_cons.1 hx with rfl | hx
      · exact .refl
      · obtain ⟨c, hc, hxc⟩ := List.mem_flatMap.1 hx
        have htop : d.ChildOf c.id id := parent?_of_get? (hcs c hc).get?
        exact (ih c hc hxc).tail htop

/-- What is below the topmost node of a held tree is a node of the tree. -/
theorem Holds.mem_of_up {p : Option NodeId} {t : Placed} (h : d.Holds p t) (hd : d.Linked [])
    (hup : ReflTransGen d.ChildOf x t.id) : x ∈ t.ids := by
  induction hup using ReflTransGen.head_induction_on with
  | refl => exact t.id_mem_ids
  | head hstep _ ih => exact h.mem_of_child ih (hd.parent _ _ hstep List.not_mem_nil)

/-- **A document that is one tree, with the document node on top, is a forest**, and each link is on
both of its sides. -/
theorem Sound.linked_forest (hs : d.Sound) {span : Option Span} {cs : List Placed}
    (h : d.Holds none (.node root .document span cs))
    (hn : (Placed.node root .document span cs).ids.Nodup)
    (hall : ∀ x, d.contains x = true → x ∈ (Placed.node root .document span cs).ids) :
    d.Linked [] ∧ d.Forest := by
  have htop : d.parent? root = none := parent?_of_get? h.get?
  have hforest : d.Forest := by
    refine ⟨fun y hy => ?_, contains_iff.2 ⟨_, h.get?⟩, ?_, htop⟩
    · obtain ⟨p, hp, -⟩ := TransGen.head'_iff.1 hy
      exact not_below_self (h.up (hall y (contains_of_parent? hp))) htop hy
    · have hget : d.get? root = some ⟨.document, none, cs.map Placed.id, span⟩ := h.get?
      rw [kind?, hget, Option.map_some]
  have hlive : ∀ p c, c ∈ d.children p → ∃ n, d.get? p = some n ∧ c ∈ n.children := by
    intro p c hc
    obtain ⟨n, hn⟩ := contains_iff.1 (contains_of_child hc)
    exact ⟨n, hn, by rwa [children_of_get? hn] at hc⟩
  refine ⟨⟨hs.slotted, fun p c hc => ?_, fun p => ?_, fun c p hp _ => ?_, fun c hc => ?_, .nil,
    by simp⟩, hforest⟩
  · obtain ⟨n, hget, hmem⟩ := hlive p c hc
    obtain ⟨m, hm, hparent⟩ := h.parent_of_child (hall p (contains_of_child hc)) hget hmem
    rw [parent?_of_get? hm, hparent]
  · cases hp : d.get? p with
    | none =>
        rw [children_eq_nil_of_dead hp]
        exact .nil
    | some n =>
        rw [children_of_get? hp]
        exact h.nodup_children hn (hall p (contains_iff.2 ⟨n, hp⟩)) hp
  · rcases h.child_of_parent (hall c (contains_of_parent? hp)) with rfl | ⟨q, hq, hmem⟩
    · rw [Placed.id_node, htop] at hp
      cases hp
    · rw [hq] at hp
      cases hp
      exact hmem
  · exact hforest.acyclic c (TransGen.single hc)

/-- **The copy of a tree in a forest is a tree of its own.** -/
theorem Forest.clone (hf : d.Forest) (h : d.Linked []) (id : NodeId) : (d.clone id).1.Forest := by
  cases hlive : d.contains id with
  | false =>
      rw [Document.clone, Document.cloneTo, contains_eq_false_iff.1 hlive]
      exact hf
  | true =>
      obtain ⟨t, rfl, ht, hn, -⟩ := hf.exists_held h hlive
      obtain ⟨u, -, -, hu⟩ := h.slots.clone ht hn
      generalize (d.clone t.id).1 = e at hu ⊢
      have hfree : ∀ y, d.contains y = true → y ∉ u.ids := by
        intro y hy hmem
        rw [contains, hu.free y hmem] at hy
        cases hy
      -- the way up from a node outside the copy does not enter it
      have hout : ∀ y b, e.Below y b → y ∉ u.ids → d.Below y b := by
        intro y b hyb
        have hstep : ∀ c p, c ∉ u.ids → e.parent? c = some p → d.parent? c = some p := by
          intro c p hc hp
          rwa [parent?, hu.keeps c hc] at hp
        induction hyb using TransGen.head_induction_on with
        | single hp => exact fun hy => TransGen.single (hstep _ _ hy hp)
        | head hp _ ih =>
            intro hy
            have hp' := hstep _ _ hy hp
            have hlivep := contains_of_child (h.parent _ _ hp' List.not_mem_nil)
            exact TransGen.head hp' (ih (hfree _ hlivep))
      have hroot : e.get? root = d.get? root := hu.keeps root (hfree root hf.live)
      refine ⟨fun y => ?_, ?_, ?_, ?_⟩
      · by_cases hy : y ∈ u.ids
        · exact not_below_self (hu.holds.up hy) (parent?_of_get? hu.holds.get?)
        · exact fun hyy => hf.acyclic y (hout y y hyy hy)
      · rw [contains, hroot]
        exact hf.live
      · rw [kind?, hroot]
        exact hf.kind
      · rw [parent?, hroot]
        exact hf.top

/-! ### Insertions -/

/-- An insertion that is done, and that puts the document node below another node, or a node below
one of those that are below it. -/
def Entangling (d : Document) (p c : NodeId) : Prop :=
  d.contains p = true ∧ d.contains c = true ∧ p ≠ c ∧ (c = root ∨ d.Below p c)

/-- The way up after an insertion either is one from before, or it passes through the new link. -/
theorem below_insertBefore {p c : NodeId} {b : Option NodeId}
    (hlink : ∀ x, (d.insertBefore p c b).parent? x = if x = c then some p else d.parent? x)
    (h : (d.insertBefore p c b).Below x a) :
    d.Below x a ∨ ReflTransGen d.ChildOf x c ∧ ReflTransGen d.ChildOf p a := by
  have hstep : ∀ y z, (d.insertBefore p c b).ChildOf y z → d.ChildOf y z ∨ y = c ∧ p = z := by
    intro y z hyz
    rw [ChildOf, hlink] at hyz
    split at hyz
    · rename_i hy
      exact .inr ⟨hy, Option.some.inj hyz⟩
    · exact .inl hyz
  induction h with
  | single hxy =>
      rcases hstep _ _ hxy with hold | ⟨rfl, rfl⟩
      · exact .inl (TransGen.single hold)
      · exact .inr ⟨.refl, .refl⟩
  | tail _ hyz ih =>
      rcases ih, hstep _ _ hyz with ⟨hold | ⟨hxc, hpy⟩, hold' | ⟨rfl, rfl⟩⟩
      · exact .inl (hold.tail hold')
      · exact .inr ⟨hold.to_reflTransGen, .refl⟩
      · exact .inr ⟨hxc, hpy.tail hold'⟩
      · exact .inr ⟨hxc, .refl⟩

/-- The way up to a node does not use the link that this node gets. -/
theorem up_insertBefore {p c : NodeId} {b : Option NodeId}
    (hlink : ∀ x, (d.insertBefore p c b).parent? x = if x = c then some p else d.parent? x)
    (h : ReflTransGen d.ChildOf x c) : ReflTransGen (d.insertBefore p c b).ChildOf x c := by
  induction h using ReflTransGen.head_induction_on with
  | refl => exact .refl
  | @head y z hyz _ ih =>
      by_cases hy : y = c
      · rw [hy]
      · refine .head ?_ ih
        rw [ChildOf, hlink, if_neg hy]
        exact hyz

/-- **An insertion keeps a forest exactly if it does not entangle it.** -/
theorem Forest.insertBefore_iff (hf : d.Forest) (p c : NodeId) (b : Option NodeId) :
    (d.insertBefore p c b).Forest ↔ ¬d.Entangling p c := by
  by_cases hdone : d.contains p = true ∧ d.contains c = true ∧ p ≠ c
  · obtain ⟨hp, hc, hne⟩ := hdone
    have hlink := parent?_insertBefore hp hc hne b
    constructor
    · rintro hforest ⟨-, -, -, rfl | hbelow⟩
      · have htop := hforest.top
        rw [hlink, if_pos rfl] at htop
        cases htop
      · -- the way up from the new parent to the node, behind the new link, is a loop
        have hnew : (d.insertBefore p c b).ChildOf c p := by rw [ChildOf, hlink, if_pos rfl]
        exact hforest.acyclic c (TransGen.head' hnew (up_insertBefore hlink hbelow.to_reflTransGen))
    · intro hsafe
      have hroot : c ≠ root := fun heq => hsafe ⟨hp, hc, hne, .inl heq⟩
      have habove : ¬ReflTransGen d.ChildOf p c := by
        rw [reflTransGen_iff_eq_or_transGen, not_or]
        exact ⟨Ne.symm hne, fun hbelow => hsafe ⟨hp, hc, hne, .inr hbelow⟩⟩
      refine ⟨fun x hx => ?_, ?_, ?_, ?_⟩
      · rcases below_insertBefore hlink hx with hold | ⟨hxc, hpx⟩
        · exact hf.acyclic x hold
        · exact habove (hpx.trans hxc)
      · rw [contains_insertBefore, hf.live]
      · rw [kind?_insertBefore, hf.kind]
      · rw [hlink, if_neg (Ne.symm hroot), hf.top]
  · have hsame : d.insertBefore p c b = d := by
      rw [Document.insertBefore, if_neg]
      simpa [and_assoc] using hdone
    rw [hsame]
    refine iff_of_true hf ?_
    rintro ⟨hp, hc, hne, -⟩
    exact hdone ⟨hp, hc, hne⟩

theorem Forest.divide (hf : d.Forest) (h : d.Linked []) (id : NodeId) (head tail : String) :
    (d.divide id head tail).1.Forest := by
  have hset := h.setText id head
  have hnew := hset.alloc (.text tail) (d.span? id)
  have hforest := (hf.setText id head).alloc hset.slots (.text tail) (d.span? id)
  obtain ⟨hdead, hloose, -⟩ := hset.slots.get?_alloc (.text tail) (d.span? id)
  have hroot := (hset.sound (hf.setText id head)).ne_root_of_free hdead
  unfold Document.divide
  simp only
  split
  · exact hforest
  · refine (hforest.insertBefore_iff _ _ _).2 ?_
    -- the new node is not the document node, and there is nothing below it
    rintro ⟨-, -, -, hnode | hbelow⟩
    · exact hroot hnode
    · exact hnew.not_below_of_childless (children_of_get? hloose) hbelow

/-! ### Orderly runs -/

/-- The insertions that a forest does not survive. -/
def Operation.Entangles (d : Document) : Operation → Prop
  | append p c => d.Entangling p c
  | insertBefore p c _ => d.Entangling p c
  | _ => False

/-- **An operation keeps a forest exactly if it does not entangle it.** -/
theorem Forest.apply_iff (hf : d.Forest) (h : d.Linked []) {op : Operation}
    {result : Option NodeId} (happly : op.apply d = some (e, result)) :
    e.Forest ↔ ¬op.Entangles d := by
  cases op with
  | append p c =>
      cases happly
      exact hf.insertBefore_iff p c none
  | insertBefore p c b =>
      cases happly
      exact hf.insertBefore_iff p c b
  | createElement element =>
      cases happly
      exact iff_of_true (hf.alloc h.slots _ _) not_false
  | createText text =>
      cases happly
      exact iff_of_true (hf.alloc h.slots _ _) not_false
  | setText id text =>
      cases happly
      exact iff_of_true (hf.setText id text) not_false
  | eraseAttribute id name =>
      cases happly
      exact iff_of_true (hf.eraseAttribute id name) not_false
  | splitText id offset =>
      obtain ⟨head, tail, rfl, -⟩ := exists_divide_of_apply_splitText happly
      exact iff_of_true (hf.divide h id head tail) not_false
  | detach id =>
      cases happly
      exact iff_of_true (hf.detach id) not_false
  | remove id =>
      cases happly
      exact iff_of_true (hf.remove h id) not_false
  | clone id =>
      cases happly
      exact iff_of_true (hf.clone h id) not_false

/-- The documents that runs of operations lead to, if none of these entangles the document. -/
inductive Orderly : Document → Prop
  | start : Orderly empty
  | step {d e : Document} {result : Option NodeId} (h : Orderly d) (op : Operation)
      (hop : ¬op.Entangles d) (happly : op.apply d = some (e, result)) : Orderly e

theorem Orderly.linked_forest (h : Orderly d) : d.Linked [] ∧ d.Forest := by
  induction h with
  | start => exact ⟨linked_empty, forest_empty⟩
  | step _ op hop happly ih => exact ⟨ih.1.apply happly, (ih.2.apply_iff ih.1 happly).2 hop⟩

/-- **Every orderly run leaves a forest, in which all walks end.**  The next operation leaves one
again exactly if it does not entangle the document. -/
theorem orderly_forest (h : Orderly d) :
    d.Forest ∧ (∀ id, d.Traversable id) ∧
      ∀ (op : Operation) (e : Document) (result : Option NodeId),
        op.apply d = some (e, result) → (e.Forest ↔ ¬op.Entangles d) := by
  obtain ⟨hlinked, hforest⟩ := h.linked_forest
  exact ⟨hforest, hforest.traversable hlinked, fun _ _ _ happly => hforest.apply_iff hlinked happly⟩

/-- `a` below the document node, with a copy of it below. -/
def nested : Document :=
  let a := NodeKind.element ⟨"a", []⟩
  ⟨#[some ⟨.document, none, [1], none⟩, some ⟨a, some 0, [2], none⟩, some ⟨a, some 1, [], none⟩],
    []⟩

theorem orderly_nested : Orderly nested := by
  have hnew := Orderly.start.step (.createElement ⟨"a", []⟩) not_false rfl
  have hput := hnew.step (.append 0 1) (fun ⟨_, _, _, hin⟩ => hin.elim nofun
    (not_below_of_loose rfl)) rfl
  have hcopy := hput.step (.clone 1) not_false rfl
  exact hcopy.step (.append 1 2) (fun ⟨_, _, _, hin⟩ => hin.elim nofun
    (hcopy.linked_forest.1.not_below_of_childless rfl)) rfl

theorem orderly_forest_nested :
    Orderly nested ∧ nested.Forest ∧ (∀ id, nested.Traversable id) ∧
      ∀ (op : Operation) (e : Document) (result : Option NodeId),
        op.apply nested = some (e, result) → (e.Forest ↔ ¬op.Entangles nested) :=
  ⟨orderly_nested, orderly_forest orderly_nested⟩

/-! ### Runs that are not orderly -/

/-- The document node below a new element. -/
def rootBelow : Document :=
  ⟨#[some ⟨.document, some 1, [], none⟩, some ⟨.element ⟨"a", []⟩, none, [0], none⟩], []⟩

/-- What is left when that element is removed. -/
def rootFreed : Document := ⟨#[none, none], [0, 1]⟩

/-- Two new elements below each other. -/
def looped : Document :=
  let a := NodeKind.element ⟨"a", []⟩
  ⟨#[some ⟨.document, none, [], none⟩, some ⟨a, some 2, [2], none⟩, some ⟨a, some 1, [1], none⟩],
    []⟩

/-- **Runs may put the document node below another node, and free it so, or put nodes below
themselves.** -/
theorem reachable_entangled :
    (Reachable rootBelow ∧ rootBelow.parent? root = some 1) ∧
      (Reachable rootFreed ∧ rootFreed.contains root = false) ∧
      (Reachable looped ∧ looped.Below 1 1 ∧ ¬looped.FiniteBelow 1) := by
  have hnew := Reachable.start.step (.createElement ⟨"a", []⟩) trivial rfl
  have hroot : Reachable rootBelow := hnew.step (.append 1 0) trivial rfl
  have hfreed : Reachable rootFreed := hroot.step (.remove 1) trivial rfl
  have htwo := hnew.step (.createElement ⟨"a", []⟩) trivial rfl
  have hput := htwo.step (.append 1 2) trivial rfl
  have hloop : Reachable looped := hput.step (.append 2 1) trivial rfl
  have hbelow : looped.Below 1 1 := (TransGen.single (show looped.ChildOf 1 2 from rfl)).tail rfl
  exact ⟨⟨hroot, rfl⟩, ⟨hfreed, rfl⟩, hloop, hbelow, hloop.linked.not_finiteBelow hbelow⟩

end PageTemplate.Document
