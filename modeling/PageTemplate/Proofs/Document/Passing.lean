/-
**What operations pass through, and what they spare.**

Operations that are performed one after the other take a document through one document after the
other.  No single operation frees a slot and uses it again, so a slot that is live in each of these
documents holds the same node all the time.

The operations here come in three kinds of moves: a node from a list is removed, a node is copied and
the copy is put somewhere and listed, or a text is overwritten.  A selection of nodes that has the
parent of each of its nodes, and none that is listed, is a shelter: a removal would have to come from
above, and there is nothing listed above a node of the shelter.

Main definitions:

* `PageTemplate.Document.passes`, `PageTemplate.Document.performAll` — the documents on the way, and
  the last one;
* `PageTemplate.Document.Ends` — all copying on the way ends;
* `PageTemplate.Document.lasts` — a slot is live in all documents on the way;
* `PageTemplate.Document.Spared` — a slot holds the same node in two documents;
* `PageTemplate.Document.Shelter` — nodes with nothing listed above them;
* `PageTemplate.Document.Moves` — the moves.

Main results:

* `PageTemplate.Document.Shelter.remove`, `PageTemplate.Document.Shelter.copy`,
  `PageTemplate.Document.spared_setText` — what one move spares;
* `PageTemplate.Document.Moves.spares` — moves spare a shelter on the whole way;
* `PageTemplate.Document.Moves.lasts_of_listed` — what moves list has been free on the way;
* `PageTemplate.Document.Moves.forest` — moves into a shelter keep a forest.
-/

import PageTemplate.Proofs.Document.Orderly

set_option relaxedAutoImplicit false
set_option autoImplicit false

namespace PageTemplate

open PageTemplate.Text

/-- What a node is, but for its text. -/
def NodeKind.blank : NodeKind → NodeKind
  | text _ => text ""
  | k => k

/-- What a node is, but for its text, where it belongs, and where it was read. -/
def Node.outline (n : Node) : NodeKind × Option NodeId × Option Span :=
  (n.kind.blank, n.parent, n.span)

namespace Document

open Relation

/-! ### Operations one after the other -/

/-- The document behind an operation.  Without a result it stays as it is. -/
def Operation.outcome (d : Document) (op : Operation) : Document :=
  ((op.apply d).map (·.1)).getD d

/-- The documents that operations pass through, from the first one to the last. -/
def passes (d : Document) : List Operation → List Document
  | [] => [d]
  | op :: ops => d :: passes (op.outcome d) ops

/-- The document behind operations. -/
def performAll (d : Document) (ops : List Operation) : Document :=
  ops.foldl Operation.outcome d

/-- Every copy is one of a node with finitely many nodes below it. -/
def Ends (d : Document) : List Operation → Prop
  | [] => True
  | op :: ops => op.Allowed d ∧ Ends (op.outcome d) ops

/-- Whether a slot is live in all documents on the way, so that it holds the same node in all of
them. -/
def lasts (d : Document) (ops : List Operation) (x : NodeId) : Bool :=
  (d.passes ops).all (·.contains x)

variable {d e f : Document} {x y c p : NodeId}

/-- The last document is one of those that are passed through. -/
theorem performAll_mem_passes (d : Document) (ops : List Operation) :
    d.performAll ops ∈ d.passes ops := by
  induction ops generalizing d with
  | nil => exact List.mem_singleton_self d
  | cons op ops ih => exact List.mem_cons_of_mem _ (ih (op.outcome d))

theorem lasts_iff {ops : List Operation} :
    d.lasts ops x = true ↔ ∀ e ∈ d.passes ops, e.contains x = true :=
  List.all_eq_true

theorem lasts_cons (d : Document) (op : Operation) (ops : List Operation) (x : NodeId) :
    d.lasts (op :: ops) x = (d.contains x && (op.outcome d).lasts ops x) := rfl

/-- A slot that is free at the start is not live on the whole way. -/
theorem lasts_of_free (ops : List Operation) (hx : d.contains x = false) :
    d.lasts ops x = false := by
  cases ops <;> simp [lasts, passes, hx]

/-! ### The outline of a node -/

/-- What a live node is, but for its text, where it belongs, and where it was read. -/
def outline? (d : Document) (id : NodeId) : Option (NodeKind × Option NodeId × Option Span) :=
  (d.get? id).map Node.outline

theorem contains_eq_isSome_outline? (d : Document) (id : NodeId) :
    d.contains id = (d.outline? id).isSome := by
  rw [contains, outline?, Option.isSome_map]

theorem parent?_eq_outline? (d : Document) (id : NodeId) :
    d.parent? id = (d.outline? id).bind fun o => o.2.1 := by
  rw [parent?, outline?, Option.bind_map]
  rfl

theorem outline?_update_of_ne {g : Node → Node} (hx : x ≠ y) :
    (d.update y g).outline? x = d.outline? x := by
  rw [outline?, get?_update, if_neg hx, outline?]

theorem outline?_update {g : Node → Node} (hg : ∀ n, (g n).outline = n.outline) (x y : NodeId) :
    (d.update y g).outline? x = d.outline? x := by
  rw [outline?, get?_update]
  split
  · next hx =>
      rw [hx, Option.map_map, outline?]
      exact congrArg (Option.map · _) (funext hg)
  · rfl

theorem outline?_detach_of_ne (hx : x ≠ c) : (d.detach c).outline? x = d.outline? x := by
  unfold Document.detach
  split
  · rfl
  · rw [outline?_update_of_ne hx, outline?_update]
    exact fun _ => rfl

/-- An insertion leaves all outlines but that of the node that is put somewhere. -/
theorem outline?_insertBefore_of_ne (hx : x ≠ c) (a : Option NodeId) :
    (d.insertBefore p c a).outline? x = d.outline? x := by
  unfold Document.insertBefore
  split
  · rw [outline?_update_of_ne hx, outline?_update, outline?_detach_of_ne hx]
    exact fun _ => rfl
  · rfl

theorem outline?_setText (d : Document) (id : NodeId) (text : String) (x : NodeId) :
    (d.setText id text).outline? x = d.outline? x := by
  refine outline?_update (fun n => ?_) x id
  split
  · next hkind => simp [Node.outline, hkind, NodeKind.blank]
  · rfl

theorem kind?_setText_of_ne (hx : x ≠ y) (text : String) :
    (d.setText y text).kind? x = d.kind? x := by
  rw [kind?, get?_setText_of_ne hx, kind?]

/-! ### Nodes that are spared -/

/-- The slot holds the same node in both documents, which has the same text if it is none of those
that may be overwritten. -/
structure Spared (writes : List NodeId) (d e : Document) (x : NodeId) : Prop where
  outline : e.outline? x = d.outline? x
  kind : x ∉ writes → e.kind? x = d.kind? x

variable {writes : List NodeId}

theorem Spared.refl (writes : List NodeId) (d : Document) (x : NodeId) : Spared writes d d x :=
  ⟨rfl, fun _ => rfl⟩

theorem Spared.trans (h : Spared writes d e x) (k : Spared writes e f x) : Spared writes d f x :=
  ⟨k.outline.trans h.outline, fun hx => (k.kind hx).trans (h.kind hx)⟩

theorem Spared.contains (h : Spared writes d e x) : e.contains x = d.contains x := by
  rw [contains_eq_isSome_outline?, h.outline, contains_eq_isSome_outline?]

theorem Spared.parent? (h : Spared writes d e x) : e.parent? x = d.parent? x := by
  rw [parent?_eq_outline?, h.outline, parent?_eq_outline?]

/-- A slot that is left alone. -/
theorem Spared.of_get? (h : e.get? x = d.get? x) : Spared writes d e x := by
  refine ⟨?_, fun _ => ?_⟩
  · rw [outline?, h, outline?]
  · rw [kind?, h, kind?]

/-- Freeing nodes leaves alone what is not below them. -/
theorem get?_releaseAll (fuel : Nat) (stack : List NodeId)
    (hx : ∀ y ∈ stack, ¬ReflTransGen (fun p c => c ∈ d.children p) y x) :
    (Document.releaseAll fuel stack d).get? x = d.get? x := by
  induction fuel generalizing stack d with
  | zero => rfl
  | succ fuel ih =>
      cases stack with
      | nil => rfl
      | cons y stack =>
          have hrest : ∀ z ∈ stack, ¬ReflTransGen (fun p c => c ∈ d.children p) z x :=
            fun z hz => hx z (List.mem_cons_of_mem _ hz)
          rw [Document.releaseAll]
          split
          · exact ih stack hrest
          · next n hn =>
              have hy := hx y (List.mem_cons_self ..)
              have hxy : x ≠ y := by
                rintro rfl
                exact hy .refl
              -- a way down that is left was there before
              have hway : ∀ z, ReflTransGen (fun p c => c ∈ (d.release y).children p) z x →
                  ReflTransGen (fun p c => c ∈ d.children p) z x := by
                intro z hz
                refine ReflTransGen.mono (fun p c hc => ?_) _ _ hz
                rw [children_release] at hc
                split at hc
                · cases hc
                · exact hc
              rw [ih, get?_release, if_neg hxy]
              intro z hz
              rcases List.mem_append.1 hz with hz | hz
              · intro hdown
                refine hy (.head ?_ (hway z hdown))
                rw [children_of_get? hn]
                exact List.mem_reverse.1 hz
              · exact fun hdown => hrest z hz (hway z hdown)

/-- Freeing nodes makes no slot live. -/
theorem get?_releaseAll_of_dead (fuel : Nat) (stack : List NodeId) (hx : d.get? x = none) :
    (Document.releaseAll fuel stack d).get? x = none := by
  induction fuel generalizing stack d with
  | zero => exact hx
  | succ fuel ih =>
      cases stack with
      | nil => exact hx
      | cons y stack =>
          rw [Document.releaseAll]
          split
          · exact ih stack hx
          · refine ih _ ?_
            rw [get?_release]
            split
            · rfl
            · exact hx

/-- A node that has been removed is gone, unless it is the document node. -/
theorem contains_remove_self (hc : c ≠ root) : (d.remove c).contains c = false := by
  rw [contains_eq_false_iff]
  unfold Document.remove
  split
  · next hcond =>
      have hlive : (d.detach c).contains c = true := by
        rw [contains_detach]
        exact (Bool.and_eq_true_iff.1 hcond).2
      obtain ⟨n, hn⟩ := contains_iff.1 hlive
      rw [Document.releaseAll, hn]
      exact get?_releaseAll_of_dead _ _ (by rw [get?_release, if_pos rfl])
  · next hcond =>
      rw [← contains_eq_false_iff]
      simpa [hc] using hcond

/-- What is removed on the way is not live on the whole way. -/
theorem lasts_of_remove {ops : List Operation} (hc : c ≠ root) (hmem : .remove c ∈ ops) :
    d.lasts ops c = false := by
  induction ops generalizing d with
  | nil => cases hmem
  | cons op ops ih =>
      rw [lasts_cons, Bool.and_eq_false_iff]
      rcases List.mem_cons.1 hmem with rfl | hmem
      · exact .inr (lasts_of_free ops (contains_remove_self hc))
      · exact .inr (ih hmem)

/-- **To remove a node spares what is not below it.** -/
theorem Linked.spared_remove (h : d.Linked []) (hx : ¬ReflTransGen d.ChildOf x c) :
    Spared writes d (d.remove c) x := by
  have hxc : x ≠ c := by
    rintro rfl
    exact hx .refl
  unfold Document.remove
  split
  · have hdetach : Spared writes d (d.detach c) x :=
      ⟨outline?_detach_of_ne hxc, fun _ => kind?_detach d c x⟩
    refine hdetach.trans (.of_get? (get?_releaseAll _ _ fun y hy => ?_))
    rw [List.mem_singleton.1 hy, ← reflTransGen_swap]
    intro hup
    refine hx (ReflTransGen.mono (fun a b hab => ?_) _ _ hup)
    replace hab : a ∈ (d.detach c).children b := hab
    rw [children_detach] at hab
    split at hab
    · exact h.child b a (List.mem_filter.1 hab).1
    · exact h.child b a hab
  · exact .refl writes d x

/-- **To copy a node from which every way down ends spares all live nodes.** -/
theorem Linked.spared_clone (h : d.Linked []) (hp : d.FiniteBelow p) (hx : d.contains x = true) :
    Spared writes d (d.clone p).1 x := by
  refine .of_get? ?_
  cases hlive : d.contains p with
  | false => rw [Document.clone, Document.cloneTo, contains_eq_false_iff.1 hlive]
  | true =>
      obtain ⟨t, rfl, ht, hn, -⟩ := h.exists_held hp hlive
      obtain ⟨u, -, -, hu⟩ := h.slots.clone ht hn
      obtain ⟨n, hget⟩ := contains_iff.1 hx
      rw [hu.get? hget, hget]

/-- The slot of a copy was free. -/
theorem Slotted.get?_clone_snd (h : d.Slotted) (p : NodeId) : d.get? (d.clone p).2 = none := by
  have happly : (Operation.clone p).apply d = some ((d.clone p).1, some (d.clone p).2) := rfl
  exact h.get?_of_apply happly

theorem spared_insertBefore (hx : x ≠ c) (a : Option NodeId) :
    Spared writes d (d.insertBefore p c a) x :=
  ⟨outline?_insertBefore_of_ne hx a, fun _ => kind?_insertBefore d p c a x⟩

theorem spared_setText (hy : y ∈ writes) (text : String) : Spared writes d (d.setText y text) x := by
  refine ⟨outline?_setText d y text x, fun hx => kind?_setText_of_ne ?_ text⟩
  rintro rfl
  exact hx hy

/-! ### Shelters -/

/-- Live nodes, with the parent of each of them, that are not listed. -/
structure Shelter (d : Document) (listed : List NodeId) (A : NodeId → Prop) : Prop where
  live : ∀ x, A x → d.contains x = true
  up : ∀ x p, A x → d.parent? x = some p → A p
  apart : ∀ x, A x → x ∉ listed

variable {listed : List NodeId} {A : NodeId → Prop}

/-- All nodes that are not at or below listed ones are a shelter. -/
theorem Linked.shelter (h : d.Linked []) (listed : List NodeId) :
    d.Shelter listed fun x =>
      d.contains x = true ∧ ∀ c ∈ listed, ¬ReflTransGen d.ChildOf x c where
  live x hx := hx.1
  up x p hx hp := by
    refine ⟨contains_of_child (h.parent x p hp List.not_mem_nil), fun c hc hup => ?_⟩
    exact hx.2 c hc (.head hp hup)
  apart x hx hmem := hx.2 x hmem .refl

/-- The way up from a node of a shelter stays in it. -/
theorem Shelter.above (h : d.Shelter listed A) (hx : A x) (hup : ReflTransGen d.ChildOf x y) :
    A y := by
  induction hup with
  | refl => exact hx
  | tail _ hstep ih => exact h.up _ _ ih hstep

/-- A node of a shelter is not below a listed one. -/
theorem Shelter.not_below (h : d.Shelter listed A) (hx : A x) (hc : c ∈ listed) :
    ¬ReflTransGen d.ChildOf x c :=
  fun hup => h.apart c (h.above hx hup) hc

/-- A shelter whose nodes are spared stays one. -/
theorem Shelter.of_spared {listed' : List NodeId} (h : d.Shelter listed A)
    (hspared : ∀ x, A x → Spared writes d e x) (hlisted : ∀ x, A x → x ∉ listed') :
    e.Shelter listed' A where
  live x hx := by rw [(hspared x hx).contains, h.live x hx]
  up x p hx hp := h.up x p hx (by rwa [(hspared x hx).parent?] at hp)
  apart := hlisted

/-- **To remove a listed node spares a shelter.** -/
theorem Shelter.remove (h : d.Shelter listed A) (hd : d.Linked []) (hc : c ∈ listed) (hx : A x) :
    Spared writes d (d.remove c) x :=
  hd.spared_remove (h.not_below hx hc)

/-- The slot of a copy is in no shelter. -/
theorem Shelter.ne_clone_snd (h : d.Shelter listed A) (hd : d.Linked []) (p : NodeId) (hx : A x) :
    x ≠ (d.clone p).2 := by
  rintro rfl
  have hlive := h.live _ hx
  rw [contains, hd.slots.get?_clone_snd p] at hlive
  cases hlive

/-- **A copy that is put somewhere spares a shelter.** -/
theorem Shelter.copy (h : d.Shelter listed A) (hd : d.Linked []) (writes : List NodeId)
    (hp : d.FiniteBelow p) (q : NodeId) (a : Option NodeId) (hx : A x) :
    Spared writes d (d.clone p).1 x ∧
      Spared writes d ((d.clone p).1.insertBefore q (d.clone p).2 a) x := by
  have hclone : Spared writes d (d.clone p).1 x := hd.spared_clone hp (h.live x hx)
  exact ⟨hclone, hclone.trans (spared_insertBefore (h.ne_clone_snd hd p hx) a)⟩

/-- The copy is then listed. -/
theorem Shelter.list_copy (h : d.Shelter listed A) (hd : d.Linked []) (p : NodeId) (hx : A x) :
    x ∉ listed ++ [(d.clone p).2] := by
  rw [List.mem_append, List.mem_singleton, not_or]
  exact ⟨h.apart x hx, h.ne_clone_snd hd p hx⟩

/-- **A copy that is put into a shelter keeps a forest.** -/
theorem Shelter.forest_copy (h : d.Shelter listed A) (hd : d.Linked []) (hf : d.Forest)
    {q : NodeId} (hq : A q) (p : NodeId) (a : Option NodeId) :
    ((d.clone p).1.insertBefore q (d.clone p).2 a).Forest := by
  have hspared : ∀ x, A x → Spared [] d (d.clone p).1 x :=
    fun x hx => hd.spared_clone (hf.finiteBelow hd p) (h.live x hx)
  refine ((hf.clone hd p).insertBefore_iff _ _ _).2 ?_
  rintro ⟨-, -, -, hroot | hbelow⟩
  · have hdead := hd.slots.get?_clone_snd p
    rw [hroot, ← contains_eq_false_iff, hf.live] at hdead
    cases hdead
  · -- the way up from the new parent leads through the shelter alone
    have hmem := (h.of_spared hspared h.apart).above hq hbelow.to_reflTransGen
    exact h.ne_clone_snd hd p hmem rfl

/-! ### Moves -/

/-- What is copied, and where the copies are put. -/
structure Site where
  pattern : NodeId
  container : NodeId
  anchor : Option NodeId
  deriving DecidableEq, Repr

/-- Moves with the listed nodes: one of them is removed, or there is a new one, which is a copy that
has been put somewhere, or a text is overwritten. -/
inductive Moves (sites : List Site) (writes : List NodeId) :
    Document → List NodeId → List Operation → Document → List NodeId → Prop
  | nil (d : Document) (listed : List NodeId) : Moves sites writes d listed [] d listed
  | remove {d e : Document} {listed listed' : List NodeId} {ops : List Operation} {c : NodeId}
      (hc : c ∈ listed) (hrest : Moves sites writes (d.remove c) listed ops e listed') :
      Moves sites writes d listed (.remove c :: ops) e listed'
  | copy {d e : Document} {listed listed' : List NodeId} {ops : List Operation} {k : Site}
      (hk : k ∈ sites)
      (hrest : Moves sites writes
        ((d.clone k.pattern).1.insertBefore k.container (d.clone k.pattern).2 k.anchor)
        (listed ++ [(d.clone k.pattern).2]) ops e listed') :
      Moves sites writes d listed
        (.clone k.pattern :: .insertBefore k.container (d.clone k.pattern).2 k.anchor :: ops) e
        listed'
  | write {d e : Document} {listed listed' : List NodeId} {ops : List Operation} {i : NodeId}
      {text : String} (hi : i ∈ writes)
      (hrest : Moves sites writes (d.setText i text) listed ops e listed') :
      Moves sites writes d listed (.setText i text :: ops) e listed'

variable {sites : List Site} {listed' listed'' : List NodeId} {ops ops' : List Operation}

theorem Moves.trans (h : Moves sites writes d listed ops e listed')
    (k : Moves sites writes e listed' ops' f listed'') :
    Moves sites writes d listed (ops ++ ops') f listed'' := by
  induction h with
  | nil => exact k
  | remove hc _ ih => exact .remove hc (ih k)
  | copy hk _ ih => exact .copy hk (ih k)
  | write hi _ ih => exact .write hi (ih k)

/-- Moves are operations that are performed one after the other. -/
theorem Moves.performAll_eq (h : Moves sites writes d listed ops e listed') :
    d.performAll ops = e := by
  induction h with
  | nil => rfl
  | remove _ _ ih => exact ih
  | copy _ _ ih => exact ih
  | write _ _ ih => exact ih

/-- What is listed stays listed. -/
theorem Moves.subset (h : Moves sites writes d listed ops e listed') : listed ⊆ listed' := by
  induction h with
  | nil => exact List.Subset.refl _
  | remove _ _ ih => exact ih
  | copy _ _ ih => exact List.Subset.trans (List.subset_append_left _ _) ih
  | write _ _ ih => exact ih

/-- **Moves spare a shelter on the whole way**, and what they list is not in it. -/
theorem Moves.spares (h : Moves sites writes d listed ops e listed') (hd : d.Linked [])
    (hends : d.Ends ops) (hA : d.Shelter listed A) :
    (∀ f ∈ d.passes ops, ∀ x, A x → Spared writes d f x) ∧ e.Linked [] ∧ e.Shelter listed' A := by
  induction h with
  | nil d listed =>
      refine ⟨fun f hf x _ => ?_, hd, hA⟩
      rw [List.mem_singleton.1 hf]
      exact .refl writes d x
  | @remove d e listed listed' ops c hc _ ih =>
      have hspared : ∀ x, A x → Spared writes d (d.remove c) x := fun x hx => hA.remove hd hc hx
      obtain ⟨hpasses, hafter⟩ := ih (hd.remove c) hends.2 (hA.of_spared hspared hA.apart)
      refine ⟨fun f hf x hx => ?_, hafter⟩
      rcases List.mem_cons.1 hf with rfl | hf
      · exact .refl writes _ x
      · exact (hspared x hx).trans (hpasses f hf x hx)
  | @copy d e listed listed' ops k _ _ ih =>
      have hspared := fun x (hx : A x) => hA.copy hd writes hends.1 k.container k.anchor hx
      have hlinked : (d.clone k.pattern).1.Linked [] := hd.cloneTo _ _
      obtain ⟨hpasses, hafter⟩ := ih (hlinked.insertBefore _ _ _) hends.2.2
        (hA.of_spared (fun x hx => (hspared x hx).2) fun x hx => hA.list_copy hd k.pattern hx)
      refine ⟨fun f hf x hx => ?_, hafter⟩
      rcases List.mem_cons.1 hf with rfl | hf
      · exact .refl writes _ x
      · rcases List.mem_cons.1 hf with rfl | hf
        · exact (hspared x hx).1
        · exact (hspared x hx).2.trans (hpasses f hf x hx)
  | @write d e listed listed' ops i text hi _ ih =>
      have hspared : ∀ x, A x → Spared writes d (d.setText i text) x :=
        fun x _ => spared_setText hi text
      obtain ⟨hpasses, hafter⟩ := ih (hd.setText i text) hends.2 (hA.of_spared hspared hA.apart)
      refine ⟨fun f hf x hx => ?_, hafter⟩
      rcases List.mem_cons.1 hf with rfl | hf
      · exact .refl writes _ x
      · exact (hspared x hx).trans (hpasses f hf x hx)

/-- **What moves list has been free on the way**, unless it was listed before. -/
theorem Moves.lasts_of_listed (h : Moves sites writes d listed ops e listed') (hd : d.Linked [])
    (hc : c ∈ listed') (hnew : c ∉ listed) : d.lasts ops c = false := by
  induction h with
  | nil => exact absurd hc hnew
  | @remove d e listed listed' ops c' _ _ ih =>
      rw [lasts_cons, Bool.and_eq_false_iff]
      exact .inr (ih (hd.remove c') hc hnew)
  | @copy d e listed listed' ops k _ _ ih =>
      by_cases hcopy : c = (d.clone k.pattern).2
      · refine lasts_of_free _ ?_
        rw [hcopy, contains_eq_false_iff]
        exact hd.slots.get?_clone_snd k.pattern
      · have hlinked : (d.clone k.pattern).1.Linked [] := hd.cloneTo _ _
        rw [lasts_cons, lasts_cons, Bool.and_eq_false_iff, Bool.and_eq_false_iff]
        refine .inr (.inr (ih (hlinked.insertBefore _ _ _) hc ?_))
        rw [List.mem_append, List.mem_singleton, not_or]
        exact ⟨hnew, hcopy⟩
  | @write d e listed listed' ops i text _ _ ih =>
      rw [lasts_cons, Bool.and_eq_false_iff]
      exact .inr (ih (hd.setText i text) hc hnew)

/-- **Moves that put copies into a shelter keep a forest**, and all of their copying ends. -/
theorem Moves.forest (h : Moves sites writes d listed ops e listed') (hd : d.Linked [])
    (hf : d.Forest) (hA : d.Shelter listed A) (hsites : ∀ k ∈ sites, A k.container) :
    d.Ends ops ∧ e.Forest := by
  induction h with
  | nil => exact ⟨trivial, hf⟩
  | @remove d e listed listed' ops c hc _ ih =>
      have hspared : ∀ x, A x → Spared writes d (d.remove c) x := fun x hx => hA.remove hd hc hx
      obtain ⟨hends, hforest⟩ := ih (hd.remove c) (hf.remove hd c) (hA.of_spared hspared hA.apart)
      exact ⟨⟨trivial, hends⟩, hforest⟩
  | @copy d e listed listed' ops k hk _ ih =>
      have hfinite : d.FiniteBelow k.pattern := hf.finiteBelow hd k.pattern
      have hlinked : (d.clone k.pattern).1.Linked [] := hd.cloneTo _ _
      obtain ⟨hends, hforest⟩ := ih (hlinked.insertBefore _ _ _)
        (hA.forest_copy hd hf (hsites k hk) k.pattern k.anchor)
        (hA.of_spared
          (fun x hx => (hA.copy hd writes hfinite k.container k.anchor hx).2)
          fun x hx => hA.list_copy hd k.pattern hx)
      exact ⟨⟨hfinite, trivial, hends⟩, hforest⟩
  | @write d e listed listed' ops i text hi _ ih =>
      have hspared : ∀ x, A x → Spared writes d (d.setText i text) x :=
        fun x _ => spared_setText hi text
      obtain ⟨hends, hforest⟩ := ih (hd.setText i text) (hf.setText i text)
        (hA.of_spared hspared hA.apart)
      exact ⟨⟨trivial, hends⟩, hforest⟩

end Document

end PageTemplate
