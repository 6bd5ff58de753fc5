/-
**The repeat directives of a part of a document.**

Compiling a part of a document takes its repeated elements out, those that are not inside others, and
binds each of them by itself.  For each one it matters where it stands, what siblings are behind it and
what is below it; all this is read off the placed tree.  What is left is the tree without them.

A part of a document is bindable if only elements have children in it and each of its directives can be
read.  Then nothing that compiling does can fail.

Main definitions:

* `PageTemplate.Binding.Bindable` — trees side by side that can be bound;
* `PageTemplate.Binding.Mark`, `PageTemplate.Binding.marksAll` — their outermost repeated elements;
* `PageTemplate.Binding.pruneAll` — the trees without these.

Main results:

* `PageTemplate.Binding.marked_induction` — induction on trees, as the search for repeated elements goes;
* `PageTemplate.Binding.perm_ids` — a slot is that of a node that is left, or in a repeated element;
* `PageTemplate.Binding.repeated_eq` — the repeated elements are found in document order;
* `PageTemplate.Binding.invalidRepeat?_eq_none_iff` — nothing is wrong with a bindable tree, and with
  no other proper one.
-/

import PageTemplate.Binding.Stage
import PageTemplate.Proofs.Binding.Meaning
import PageTemplate.Proofs.Document.Growth

set_option relaxedAutoImplicit false
set_option autoImplicit false

namespace PageTemplate.Binding

open PageTemplate.Markup PageTemplate.Text

variable {mark : String}

/-! ### Elements with a directive -/

theorem repeat?_of_not_hasAttribute {e : Element} (h : e.hasAttribute mark = false) :
    e.repeat? mark = none := by
  simp [Element.repeat?, h]

theorem hasAttribute_of_repeat? {e : Element} {x : RepeatExpression}
    (h : e.repeat? mark = some x) : e.hasAttribute mark = true := by
  by_contra hno
  rw [repeat?_of_not_hasAttribute (by simpa using hno)] at h
  cases h

theorem parse?_of_repeat? {e : Element} {x : RepeatExpression} (h : e.repeat? mark = some x) :
    RepeatExpression.parse? ((e.attribute? mark).getD "") = some x := by
  rwa [Element.repeat?, if_pos (hasAttribute_of_repeat? h)] at h

theorem repeat?_of_parse? {e : Element} {x : RepeatExpression} (he : e.hasAttribute mark = true)
    (h : RepeatExpression.parse? ((e.attribute? mark).getD "") = some x) :
    e.repeat? mark = some x := by
  rw [Element.repeat?, if_pos he, h]

/-- Trees side by side in which only elements have children, and each directive can be read. -/
inductive Bindable (mark : String) : List Placed → Prop
  | nil : Bindable mark []
  | leaf (id : NodeId) {kind : NodeKind} (span : Option Span) {rest : List Placed}
      (he : kind.element? = none) (h : Bindable mark rest) :
      Bindable mark (.node id kind span [] :: rest)
  | plain (id : NodeId) {e : Element} (span : Option Span) {cs rest : List Placed}
      (he : e.hasAttribute mark = false) (hcs : Bindable mark cs) (h : Bindable mark rest) :
      Bindable mark (.node id (.element e) span cs :: rest)
  | marked (id : NodeId) {e : Element} {x : RepeatExpression} (span : Option Span)
      {cs rest : List Placed} (he : e.repeat? mark = some x) (hcs : Bindable mark cs)
      (h : Bindable mark rest) : Bindable mark (.node id (.element e) span cs :: rest)

/-! ### Repeated elements -/

/-- A repeated element with its place: the node that contains it, and the siblings behind it. -/
structure Mark where
  id : NodeId
  element : Element
  span : Option Span
  children : List Placed
  container : NodeId
  later : List NodeId

/-- The tree of a repeated element. -/
def Mark.tree (m : Mark) : Placed := .node m.id (.element m.element) m.span m.children

mutual

/-- The outermost repeated elements of a tree below the node `c`, with the siblings `later` behind
it. -/
def marks (mark : String) (c : NodeId) (later : List NodeId) : Placed → List Mark
  | .node id (.element e) span cs =>
      if e.hasAttribute mark then [⟨id, e, span, cs, c, later⟩] else marksAll mark id cs
  | _ => []

/-- The outermost repeated elements of trees that stand side by side below the node `c`. -/
def marksAll (mark : String) (c : NodeId) : List Placed → List Mark
  | [] => []
  | t :: ts => marks mark c (ts.map Placed.id) t ++ marksAll mark c ts

end

mutual

/-- A tree without its repeated elements. -/
def prune (mark : String) : Placed → List Placed
  | .node id (.element e) span cs =>
      if e.hasAttribute mark then [] else [.node id (.element e) span (pruneAll mark cs)]
  | t => [t]

/-- Trees side by side without their repeated elements. -/
def pruneAll (mark : String) : List Placed → List Placed
  | [] => []
  | t :: ts => prune mark t ++ pruneAll mark ts

end

section Equations

variable (c id : NodeId) {e : Element} {kind : NodeKind} (span : Option Span)
  (cs rest : List Placed)

theorem marksAll_leaf (h : kind.element? = none) :
    marksAll mark c (.node id kind span cs :: rest) = marksAll mark c rest := by
  rw [marksAll]
  cases kind with
  | element e => cases h
  | document | text _ | comment _ | doctype _ => rw [marks, List.nil_append]; simp

theorem marksAll_plain (h : e.hasAttribute mark = false) :
    marksAll mark c (.node id (.element e) span cs :: rest) =
      marksAll mark id cs ++ marksAll mark c rest := by
  rw [marksAll, marks, if_neg (by simp [h])]

theorem marksAll_marked (h : e.hasAttribute mark = true) :
    marksAll mark c (.node id (.element e) span cs :: rest) =
      ⟨id, e, span, cs, c, rest.map Placed.id⟩ :: marksAll mark c rest := by
  rw [marksAll, marks, if_pos h, List.singleton_append]

theorem pruneAll_leaf (h : kind.element? = none) :
    pruneAll mark (.node id kind span cs :: rest) =
      .node id kind span cs :: pruneAll mark rest := by
  rw [pruneAll]
  cases kind with
  | element e => cases h
  | document | text _ | comment _ | doctype _ => rw [prune, List.singleton_append]; simp

theorem pruneAll_plain (h : e.hasAttribute mark = false) :
    pruneAll mark (.node id (.element e) span cs :: rest) =
      .node id (.element e) span (pruneAll mark cs) :: pruneAll mark rest := by
  rw [pruneAll, prune, if_neg (by simp [h]), List.singleton_append]

theorem pruneAll_marked (h : e.hasAttribute mark = true) :
    pruneAll mark (.node id (.element e) span cs :: rest) = pruneAll mark rest := by
  rw [pruneAll, prune, if_pos h, List.nil_append]

end Equations

/-- To prove something of all lists of placed trees, prove it of a tree before others: one without an
element on its top, one with an element that is not repeated, and one with an element that is. -/
@[elab_as_elim]
theorem marked_induction (mark : String) {P : List Placed → Prop} (nil : P [])
    (leaf : ∀ id (kind : NodeKind) span cs ts, kind.element? = none → P ts →
      P (.node id kind span cs :: ts))
    (plain : ∀ id (e : Element) span cs ts, e.hasAttribute mark = false → P cs → P ts →
      P (.node id (.element e) span cs :: ts))
    (marked : ∀ id (e : Element) span cs ts, e.hasAttribute mark = true → P cs → P ts →
      P (.node id (.element e) span cs :: ts)) (ts : List Placed) : P ts := by
  induction ts using Placed.forest_induction with
  | nil => exact nil
  | cons id kind span cs ts ihcs ihts =>
      cases kind with
      | element e =>
          cases he : e.hasAttribute mark with
          | false => exact plain id e span cs ts he ihcs ihts
          | true => exact marked id e span cs ts he ihcs ihts
      | document | text _ | comment _ | doctype _ => exact leaf id _ span cs ts rfl ihts

variable {c : NodeId} {ts : List Placed} {d e : Document}

/-- **A slot is that of a node that is left, or in a repeated element.** -/
theorem perm_ids (h : Bindable mark ts) (c : NodeId) :
    (ts.flatMap Placed.ids).Perm ((pruneAll mark ts).flatMap Placed.ids ++
      (marksAll mark c ts).flatMap fun m => m.tree.ids) := by
  induction h generalizing c with
  | nil => simp [pruneAll, marksAll]
  | leaf id span he _ ih =>
      rw [pruneAll_leaf _ _ _ _ he, marksAll_leaf _ _ _ _ _ he]
      simpa using (ih c).cons id
  | @plain id e span cs rest he _ _ ihcs ih =>
      rw [pruneAll_plain _ _ _ _ he, marksAll_plain _ _ _ _ _ he, List.flatMap_cons,
        List.flatMap_cons, List.flatMap_append, Placed.ids_node, Placed.ids_node, List.cons_append,
        List.cons_append, List.cons_append]
      refine List.Perm.cons id (((ihcs id).append (ih c)).trans ?_)
      -- the repeated elements of the children move behind what is left of the siblings
      simp only [List.append_assoc]
      exact List.Perm.append_left _ (List.perm_append_comm_assoc ..)
  | @marked id e x span cs rest he _ _ _ ih =>
      rw [pruneAll_marked _ _ _ _ (hasAttribute_of_repeat? he),
        marksAll_marked _ _ _ _ _ (hasAttribute_of_repeat? he), List.flatMap_cons, List.flatMap_cons]
      exact ((ih c).append_left _).trans (List.perm_append_comm_assoc ..)

/-- The directive of a repeated element can be read, and what is below it can be bound. -/
theorem Bindable.of_mem_marks (h : Bindable mark ts) {m : Mark} (hm : m ∈ marksAll mark c ts) :
    (∃ x, m.element.repeat? mark = some x) ∧ Bindable mark m.children := by
  induction h generalizing c with
  | nil => simp [marksAll] at hm
  | leaf id span he _ ih =>
      rw [marksAll_leaf _ _ _ _ _ he] at hm
      exact ih hm
  | plain id span he _ _ ihcs ih =>
      rw [marksAll_plain _ _ _ _ _ he] at hm
      rcases List.mem_append.1 hm with hm | hm
      · exact ihcs hm
      · exact ih hm
  | @marked id e x span cs rest he hcs _ _ ih =>
      rw [marksAll_marked _ _ _ _ _ (hasAttribute_of_repeat? he)] at hm
      rcases List.mem_cons.1 hm with rfl | hm
      · exact ⟨⟨x, he⟩, hcs⟩
      · exact ih hm

/-- What holds of trees and goes down to children holds of repeated elements in them. -/
theorem mark_of_trees {Q : NodeId → Placed → Prop}
    (hQ : ∀ c id kind span cs, Q c (.node id kind span cs) → ∀ t ∈ cs, Q id t)
    (hts : ∀ t ∈ ts, Q c t) {m : Mark} (hm : m ∈ marksAll mark c ts) : Q m.container m.tree := by
  induction ts using marked_induction mark generalizing c with
  | nil => simp [marksAll] at hm
  | leaf id kind span cs ts he ih =>
      rw [marksAll_leaf _ _ _ _ _ he] at hm
      exact ih (fun t ht => hts t (List.mem_cons_of_mem _ ht)) hm
  | plain id e span cs ts he ihcs ih =>
      rw [marksAll_plain _ _ _ _ _ he] at hm
      rcases List.mem_append.1 hm with hm | hm
      · exact ihcs (hQ _ _ _ _ _ (hts _ (List.mem_cons_self ..))) hm
      · exact ih (fun t ht => hts t (List.mem_cons_of_mem _ ht)) hm
  | marked id e span cs ts he _ ih =>
      rw [marksAll_marked _ _ _ _ _ he] at hm
      rcases List.mem_cons.1 hm with rfl | hm
      · exact hts _ (List.mem_cons_self ..)
      · exact ih (fun t ht => hts t (List.mem_cons_of_mem _ ht)) hm

/-- A repeated element is in the document where its tree is. -/
theorem holds_mark (hts : ∀ t ∈ ts, d.Holds (some c) t) {m : Mark} (hm : m ∈ marksAll mark c ts) :
    d.Holds (some m.container) m.tree :=
  mark_of_trees (Q := fun c t => d.Holds (some c) t) (fun _ _ _ _ _ h _ ht => h.child ht) hts hm

/-- The slots of a repeated element occur once. -/
theorem nodup_mark (hn : (ts.flatMap Placed.ids).Nodup) {m : Mark} (hm : m ∈ marksAll mark c ts) :
    m.tree.ids.Nodup :=
  mark_of_trees (Q := fun _ t => t.ids.Nodup) (fun _ _ _ _ _ h _ ht => Placed.nodup_child h ht)
    (List.nodup_flatMap.1 hn).1 hm

/-- Repeated elements are no deeper than the trees that they are in. -/
theorem depth_mark {n : Nat} (hts : ∀ t ∈ ts, t.depth ≤ n) {m : Mark}
    (hm : m ∈ marksAll mark c ts) : m.tree.depth ≤ n :=
  mark_of_trees (Q := fun _ t => t.depth ≤ n)
    (fun _ _ _ _ _ h _ ht => Nat.le_trans (Nat.le_of_lt (Placed.depth_lt_of_child ht)) h) hts hm

/-- A repeated element in proper trees is proper. -/
theorem proper_mark (hts : ∀ t ∈ ts, t.Proper) {m : Mark} (hm : m ∈ marksAll mark c ts) :
    m.tree.Proper := by
  refine mark_of_trees (Q := fun _ t => t.Proper) (fun _ _ _ _ _ h t ht => ?_) hts hm
  cases h with
  | text | comment | doctype => cases ht
  | element _ _ _ hcs => exact hcs t ht

/-- A repeated element stands among the given trees, or below a node that is left. -/
theorem container_mark (h : Bindable mark ts) (hts : ∀ t ∈ ts, d.Holds (some c) t) {m : Mark}
    (hm : m ∈ marksAll mark c ts) :
    (m.container = c ∧ ∃ pre, ts.map Placed.id = pre ++ m.id :: m.later) ∨
      (m.container ∈ (pruneAll mark ts).flatMap Placed.ids ∧ ∃ n pre,
        d.get? m.container = some n ∧ n.children = pre ++ m.id :: m.later) := by
  induction h generalizing c with
  | nil => simp [marksAll] at hm
  | leaf id span he _ ih =>
      rw [marksAll_leaf _ _ _ _ _ he] at hm
      rw [pruneAll_leaf _ _ _ _ he, List.map_cons, List.flatMap_cons]
      rcases ih (fun t ht => hts t (List.mem_cons_of_mem _ ht)) hm with ⟨hc, pre, hpre⟩ | ⟨hc, hn⟩
      · exact .inl ⟨hc, id :: pre, by rw [hpre]; rfl⟩
      · exact .inr ⟨List.mem_append_right _ hc, hn⟩
  | @plain id e span cs rest he _ _ ihcs ih =>
      rw [marksAll_plain _ _ _ _ _ he] at hm
      rw [pruneAll_plain _ _ _ _ he, List.map_cons, List.flatMap_cons, Placed.ids_node]
      rcases List.mem_append.1 hm with hm | hm
      · have hheld := hts _ (List.mem_cons_self ..)
        refine .inr ?_
        rcases ihcs (fun t ht => hheld.child ht) hm with ⟨hc, pre, hpre⟩ | ⟨hc, hn⟩
        · refine ⟨by simp [hc], ⟨.element e, some c, cs.map Placed.id, span⟩, pre, ?_, hpre⟩
          rw [hc]
          exact hheld.get?
        · exact ⟨List.mem_append_left _ (List.mem_cons_of_mem _ hc), hn⟩
      · rcases ih (fun t ht => hts t (List.mem_cons_of_mem _ ht)) hm with ⟨hc, pre, hpre⟩ | ⟨hc, hn⟩
        · exact .inl ⟨hc, id :: pre, by rw [hpre]; rfl⟩
        · exact .inr ⟨List.mem_append_right _ hc, hn⟩
  | @marked id e x span cs rest he _ _ _ ih =>
      rw [marksAll_marked _ _ _ _ _ (hasAttribute_of_repeat? he)] at hm
      rw [pruneAll_marked _ _ _ _ (hasAttribute_of_repeat? he), List.map_cons]
      rcases List.mem_cons.1 hm with rfl | hm
      · exact .inl ⟨rfl, [], rfl⟩
      · rcases ih (fun t ht => hts t (List.mem_cons_of_mem _ ht)) hm with ⟨hc, pre, hpre⟩ | hn
        · exact .inl ⟨hc, id :: pre, by rw [hpre]; rfl⟩
        · exact .inr hn

theorem filter_cons {out : List NodeId} {id : NodeId} (h : id ∉ out) (xs : List NodeId) :
    (id :: xs).filter (· ∉ out) = id :: xs.filter (· ∉ out) :=
  List.filter_cons_of_pos (by simpa using h)

/-- **If the repeated elements are taken from the children of each node, what is left is the tree
without them.** -/
theorem holds_pruneAll (h : Bindable mark ts) (hts : ∀ t ∈ ts, d.Holds (some c) t)
    {out : List NodeId} (hout : ∀ m ∈ marksAll mark c ts, m.id ∈ out)
    (hin : ∀ i ∈ (pruneAll mark ts).flatMap Placed.ids, i ∉ out ∧ e.get? i =
      (d.get? i).map fun n => { n with children := n.children.filter (· ∉ out) }) :
    (ts.map Placed.id).filter (· ∉ out) = (pruneAll mark ts).map Placed.id ∧
      ∀ t ∈ pruneAll mark ts, e.Holds (some c) t := by
  induction h generalizing c with
  | nil => simp [pruneAll]
  | @leaf id kind span rest he _ ih =>
      rw [marksAll_leaf _ _ _ _ _ he] at hout
      rw [pruneAll_leaf _ _ _ _ he] at hin ⊢
      obtain ⟨hfilter, hheld⟩ := ih (fun t ht => hts t (List.mem_cons_of_mem _ ht)) hout
        fun i hi => hin i (by rw [List.flatMap_cons]; exact List.mem_append_right _ hi)
      obtain ⟨hid, hget⟩ := hin id (by simp)
      refine ⟨by rw [List.map_cons, Placed.id_node, filter_cons hid, hfilter]; rfl, fun t ht => ?_⟩
      rcases List.mem_cons.1 ht with rfl | ht
      · refine .node ?_ (by simp)
        rw [hget, show d.get? id = _ from (hts _ (List.mem_cons_self ..)).get?]
        rfl
      · exact hheld t ht
  | @plain id e' span cs rest he _ _ ihcs ih =>
      rw [marksAll_plain _ _ _ _ _ he] at hout
      rw [pruneAll_plain _ _ _ _ he] at hin ⊢
      have hnode := hts _ (List.mem_cons_self ..)
      obtain ⟨hfilter, hheld⟩ := ih (fun t ht => hts t (List.mem_cons_of_mem _ ht))
        (fun m hm => hout m (List.mem_append_right _ hm))
        fun i hi => hin i (by rw [List.flatMap_cons]; exact List.mem_append_right _ hi)
      obtain ⟨hfilter', hheld'⟩ := ihcs (fun t ht => hnode.child ht)
        (fun m hm => hout m (List.mem_append_left _ hm)) fun i hi => hin i (by
          rw [List.flatMap_cons, Placed.ids_node]
          exact List.mem_append_left _ (List.mem_cons_of_mem _ hi))
      obtain ⟨hid, hget⟩ := hin id (by simp)
      refine ⟨by rw [List.map_cons, Placed.id_node, filter_cons hid, hfilter]; rfl, fun t ht => ?_⟩
      rcases List.mem_cons.1 ht with rfl | ht
      · refine .node ?_ hheld'
        rw [hget, show d.get? id = _ from hnode.get?, ← hfilter']
        rfl
      · exact hheld t ht
  | @marked id e' x span cs rest he _ _ _ ih =>
      rw [marksAll_marked _ _ _ _ _ (hasAttribute_of_repeat? he)] at hout
      rw [pruneAll_marked _ _ _ _ (hasAttribute_of_repeat? he)] at hin ⊢
      obtain ⟨hfilter, hheld⟩ := ih (fun t ht => hts t (List.mem_cons_of_mem _ ht))
        (fun m hm => hout m (List.mem_cons_of_mem _ hm)) hin
      have hid := hout _ (List.mem_cons_self ..)
      refine ⟨?_, hheld⟩
      rw [List.map_cons, Placed.id_node, List.filter_cons_of_neg (by simpa using hid), hfilter]

/-! ### The search for repeated elements -/

/-- Which elements are found does not depend on where they stand. -/
theorem map_id_marks (t : Placed) (c c' : NodeId) (later later' : List NodeId) :
    (marks mark c later t).map Mark.id = (marks mark c' later' t).map Mark.id := by
  obtain ⟨id, kind, span, cs⟩ := t
  cases kind with
  | element e =>
      rw [marks, marks]
      split <;> rfl
  | document | text _ | comment _ | doctype _ => rfl

theorem map_id_marksAll (c : NodeId) (ts : List Placed) :
    (marksAll mark c ts).map Mark.id = ts.flatMap fun t => (marks mark 0 [] t).map Mark.id := by
  induction ts with
  | nil => rfl
  | cons t ts ih =>
      rw [marksAll, List.map_append, ih, List.flatMap_cons, map_id_marks t c 0 _ []]

/-- The search from a stack of trees, with a round for each of their nodes. -/
theorem repeatedFrom_eq (fuel : Nat) (ts : List Placed) (hts : ∀ t ∈ ts, ∃ p, d.Holds p t)
    (hf : (ts.flatMap Placed.ids).length ≤ fuel) :
    repeatedFrom d mark fuel (ts.map Placed.id) =
      ts.flatMap fun t => (marks mark 0 [] t).map Mark.id := by
  induction fuel generalizing ts with
  | zero =>
      cases ts with
      | nil => rfl
      | cons t ts =>
          have hpos := List.length_pos_iff.2 t.ids_ne_nil
          rw [List.flatMap_cons, List.length_append] at hf
          omega
  | succ fuel ih =>
      cases ts with
      | nil => rfl
      | cons t ts =>
          obtain ⟨id, kind, span, cs⟩ := t
          obtain ⟨p, ht⟩ := hts _ (List.mem_cons_self ..)
          have hget : d.get? id = some ⟨kind, p, cs.map Placed.id, span⟩ := ht.get?
          have hrest := fun t ht => hts t (List.mem_cons_of_mem _ ht)
          rw [List.flatMap_cons, Placed.ids_node, List.cons_append, List.length_cons,
            List.length_append] at hf
          have helement : d.element? id = kind.element? := by
            simp [Document.element?, Document.kind?, hget]
          have hskip : (ts.flatMap Placed.ids).length ≤ fuel := by omega
          rw [List.map_cons, Placed.id_node, repeatedFrom, helement, List.flatMap_cons]
          cases kind with
          | element e =>
              simp only [NodeKind.element?]
              rw [marks]
              by_cases he : e.hasAttribute mark = true
              · rw [if_pos he, if_pos he, ih ts hrest hskip]
                rfl
              · have hheld : ∀ t ∈ cs ++ ts, ∃ p, d.Holds p t := by
                  intro t ht'
                  rcases List.mem_append.1 ht' with h | h
                  · exact ⟨_, ht.child h⟩
                  · exact hrest t h
                have hlen : ((cs ++ ts).flatMap Placed.ids).length ≤ fuel := by
                  rw [List.flatMap_append, List.length_append]
                  omega
                rw [if_neg he, if_neg he, Document.children_of_get? hget, ← List.map_append,
                  ih (cs ++ ts) hheld hlen, List.flatMap_append, map_id_marksAll]
          | document | text _ | comment _ | doctype _ => exact ih ts hrest hskip

/-- **The repeated elements below a node are found in document order.** -/
theorem repeated_eq {p : Option NodeId} {t : Placed} (ht : d.Holds p t) (hn : t.ids.Nodup) :
    repeated d mark t.id = (marksAll mark t.id t.children).map Mark.id := by
  obtain ⟨id, kind, span, cs⟩ := t
  have hsize := Document.length_le_size hn fun _ hx => ht.live hx
  rw [Placed.ids_node, List.length_cons] at hsize
  rw [repeated, Document.children_of_get? ht.get?, Placed.children_node, map_id_marksAll,
    repeatedFrom_eq _ cs (fun t h => ⟨_, ht.child h⟩) (by omega)]

/-- The directive of a repeated element. -/
theorem directive_mark {p : Option NodeId} {m : Mark} (h : d.Holds p m.tree) :
    directive d mark m.id = (m.element.attribute? mark).getD "" := by
  have hget : d.get? m.id = some ⟨.element m.element, p, m.children.map Placed.id, m.span⟩ := h.get?
  simp [directive, Document.attribute?, Document.element?, Document.kind?, hget, NodeKind.element?]

/-! ### Directives that cannot be read -/

/-- Nothing is wrong with a bindable tree. -/
theorem Bindable.invalidTo_eq_none (fuel : Nat) {p : Option NodeId} {id : NodeId} {kind : NodeKind}
    {span : Option Span} (h : Bindable mark ts) (ht : d.Holds p (.node id kind span ts))
    (hn : (Placed.node id kind span ts).ids.Nodup) : invalidTo d mark fuel id = none := by
  induction fuel generalizing p id kind span ts with
  | zero => rfl
  | succ fuel ih =>
      have hrepeated : repeated d mark id = (marksAll mark id ts).map Mark.id := repeated_eq ht hn
      have hnodup : (ts.flatMap Placed.ids).Nodup := by
        rw [Placed.ids_node] at hn
        exact (List.nodup_cons.1 hn).2
      rw [invalidTo, hrepeated, List.findSome?_eq_none_iff]
      intro i hi
      obtain ⟨m, hm, rfl⟩ := List.mem_map.1 hi
      obtain ⟨⟨x, hx⟩, hcs⟩ := h.of_mem_marks hm
      have hheld := holds_mark (fun t ht' => ht.child ht') hm
      rw [directive_mark hheld, parse?_of_repeat? hx]
      exact ih hcs hheld (nodup_mark hnodup hm)

/-- Proper trees are bindable if their repeated elements are. -/
theorem bindable_of_marks (hts : ∀ t ∈ ts, t.Proper)
    (hm : ∀ m ∈ marksAll mark c ts,
      (∃ x, RepeatExpression.parse? ((m.element.attribute? mark).getD "") = some x) ∧
        Bindable mark m.children) : Bindable mark ts := by
  induction ts using marked_induction mark generalizing c with
  | nil => exact .nil
  | leaf id kind span cs ts he ih =>
      rw [marksAll_leaf _ _ _ _ _ he] at hm
      have hrest := ih (fun t ht => hts t (List.mem_cons_of_mem _ ht)) hm
      cases hts _ (List.mem_cons_self ..) with
      | text | comment | doctype => exact .leaf id span rfl hrest
      | element => cases he
  | plain id e span cs ts he ihcs ih =>
      rw [marksAll_plain _ _ _ _ _ he] at hm
      have hrest := ih (fun t ht => hts t (List.mem_cons_of_mem _ ht))
        fun m h => hm m (List.mem_append_right _ h)
      cases hts _ (List.mem_cons_self ..) with
      | element _ _ _ hcs =>
          exact .plain id span he (ihcs hcs fun m h => hm m (List.mem_append_left _ h)) hrest
  | marked id e span cs ts he _ ih =>
      rw [marksAll_marked _ _ _ _ _ he] at hm
      have hrest := ih (fun t ht => hts t (List.mem_cons_of_mem _ ht))
        fun m h => hm m (List.mem_cons_of_mem _ h)
      obtain ⟨⟨x, hx⟩, hchildren⟩ := hm _ (List.mem_cons_self ..)
      exact .marked id span (repeat?_of_parse? he hx) hchildren hrest

/-- If nothing is wrong with a proper tree, it is bindable. -/
theorem bindable_of_invalidTo {fuel : Nat} {p : Option NodeId} {id : NodeId} {kind : NodeKind}
    {span : Option Span} (hts : ∀ t ∈ ts, t.Proper) (ht : d.Holds p (.node id kind span ts))
    (hn : (Placed.node id kind span ts).ids.Nodup)
    (hf : (Placed.node id kind span ts).depth ≤ fuel) (h : invalidTo d mark fuel id = none) :
    Bindable mark ts := by
  induction fuel generalizing p id kind span ts with
  | zero =>
      rw [Placed.depth_node] at hf
      omega
  | succ fuel ih =>
      have hrepeated : repeated d mark id = (marksAll mark id ts).map Mark.id := repeated_eq ht hn
      have hnodup : (ts.flatMap Placed.ids).Nodup := by
        rw [Placed.ids_node] at hn
        exact (List.nodup_cons.1 hn).2
      have hdepth : ∀ t ∈ ts, t.depth ≤ fuel := fun t ht' =>
        Nat.le_of_lt_succ (Nat.lt_of_lt_of_le (Placed.depth_lt_of_child ht') hf)
      rw [invalidTo, hrepeated, List.findSome?_eq_none_iff] at h
      refine bindable_of_marks (c := id) hts fun m hm => ?_
      have hheld := holds_mark (fun t ht' => ht.child ht') hm
      have hmark := h m.id (List.mem_map.2 ⟨m, hm, rfl⟩)
      rw [directive_mark hheld] at hmark
      cases hx : RepeatExpression.parse? ((m.element.attribute? mark).getD "") with
      | none =>
          rw [hx] at hmark
          cases hmark
      | some x =>
          rw [hx] at hmark
          refine ⟨⟨x, rfl⟩, ih (fun t ht' => ?_) hheld (nodup_mark hnodup hm) (depth_mark hdepth hm)
            hmark⟩
          cases proper_mark hts hm with
          | element _ _ _ hcs => exact hcs t ht'

/-- **Nothing is wrong with a proper tree exactly if it is bindable.** -/
theorem invalidRepeat?_eq_none_iff {p : Option NodeId} {id : NodeId} {kind : NodeKind}
    {span : Option Span} (hts : ∀ t ∈ ts, t.Proper) (ht : d.Holds p (.node id kind span ts))
    (hn : (Placed.node id kind span ts).ids.Nodup) :
    invalidRepeat? d mark id = none ↔ Bindable mark ts := by
  rw [invalidRepeat?, Option.map_eq_none_iff]
  constructor
  · exact bindable_of_invalidTo hts ht hn (ht.depth_le hn)
  · exact fun h => h.invalidTo_eq_none _ ht hn

end PageTemplate.Binding
