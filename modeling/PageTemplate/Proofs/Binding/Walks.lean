/-
**The walks below a node are orders by recursion.**

The walk over the nodes below a node and the search for repeated elements are loops over a stack.  What
such a loop finds is what a recursion finds that treats the node and then, one by one, the nodes that the
loop puts on the stack for it.  In a document in which no node is below itself this gives all nodes below
a node, each of them once and in document order; and the search gives those of them that are repeated and
that no repeated element and no node of another kind hides.

Main definitions:

* `PageTemplate.Document.Visits` — a loop over a stack, without a bound on its rounds;
* `PageTemplate.Binding.found`, `PageTemplate.Binding.within` — what the search for repeated elements
  finds at a node, and where it goes on;
* `PageTemplate.Binding.Recursive` — what the two walks below a node come to.

Main results:

* `PageTemplate.Document.Visits.of_order` — what a loop over a stack finds is what the recursion finds;
* `PageTemplate.Document.Consistent.descendants_eq`, `PageTemplate.Binding.repeated_flatMap` — the two
  recursions;
* `PageTemplate.Binding.mem_repeated_iff` — which repeated elements the search finds;
* `PageTemplate.Binding.walks_recursive` — **both walks are the orders by recursion**.
-/

import Mathlib.Data.List.Flatten
import PageTemplate.Proofs.Binding.Directives
import PageTemplate.Proofs.Document.Removal
import PageTemplate.Proofs.Document.Tidy

set_option relaxedAutoImplicit false
set_option autoImplicit false

namespace PageTemplate

namespace Document

open Relation

variable {d : Document} {p : Option NodeId} {t : Placed} {id x y c : NodeId}

/-! ### Loops over a stack -/

section Loops

variable {gives leads : NodeId → List NodeId}

/-- A loop takes the node on top of its stack, adds what this node gives to what has been found, and puts
what the node leads to on the stack.  It ends when the stack is empty. -/
inductive Visits (gives leads : NodeId → List NodeId) : List NodeId → List NodeId → Prop
  | done : Visits gives leads [] []
  | visit {id : NodeId} {stack out : List NodeId} (h : Visits gives leads (leads id ++ stack) out) :
      Visits gives leads (id :: stack) (gives id ++ out)

/-- A loop ends in one way only. -/
theorem Visits.unique {stack out out' : List NodeId} (h : Visits gives leads stack out)
    (h' : Visits gives leads stack out') : out = out' := by
  induction h generalizing out' with
  | done =>
      cases h'
      rfl
  | visit _ ih =>
      cases h' with
      | visit h' => rw [ih h']

/-- If each of some nodes on top of a stack is done before the rest, so are all of them. -/
theorem Visits.append {order : NodeId → List NodeId} {cs stack out : List NodeId}
    (hfirst : ∀ c ∈ cs, ∀ stack out, Visits gives leads stack out →
      Visits gives leads (c :: stack) (order c ++ out))
    (hout : Visits gives leads stack out) :
    Visits gives leads (cs ++ stack) (cs.flatMap order ++ out) := by
  induction cs with
  | nil => exact hout
  | cons c cs ih =>
      rw [List.flatMap_cons, List.append_assoc]
      exact hfirst c (List.mem_cons_self ..) _ _
        (ih fun b hb => hfirst b (List.mem_cons_of_mem _ hb))

/-- With a node on top, a loop does this node before what it would do otherwise. -/
theorem Visits.cons {order : NodeId → List NodeId}
    (horder : ∀ x, order x = gives x ++ (leads x).flatMap order) {x : NodeId}
    (hends : Acc (fun c p => c ∈ leads p) x) (stack out : List NodeId)
    (hout : Visits gives leads stack out) : Visits gives leads (x :: stack) (order x ++ out) := by
  induction hends generalizing stack out with
  | intro x _ ih =>
      rw [horder, List.append_assoc]
      exact .visit (Visits.append ih hout)

/-- **A loop over a stack finds what the recursion finds** that treats a node before those that it leads
to, where every way that the loop can go has an end. -/
theorem Visits.of_order {order : NodeId → List NodeId}
    (horder : ∀ x, order x = gives x ++ (leads x).flatMap order) {stack : List NodeId}
    (hends : ∀ x ∈ stack, Acc (fun c p => c ∈ leads p) x) :
    Visits gives leads stack (stack.flatMap order) := by
  have hloop := Visits.append (fun x hx => Visits.cons horder (hends x hx)) .done
  rwa [List.append_nil, List.append_nil] at hloop

end Loops

/-! ### The order of the document -/

/-- The recursion down to a depth sees all of a tree that is not deeper. -/
theorem Holds.preorder (h : d.Holds p t) (fuel : Nat) (hf : t.depth ≤ fuel) :
    d.preorder fuel t.id = t.ids := by
  induction h generalizing fuel with
  | @node p id kind span cs hget _ ih =>
      rw [Placed.id_node, Placed.ids_node]
      cases fuel with
      | zero =>
          rw [Placed.depth_node] at hf
          omega
      | succ fuel =>
          rw [Document.preorder, children_of_get? hget, List.flatMap_map]
          congr 1
          refine List.flatMap_congr fun c hc => ih c hc fuel ?_
          exact Nat.le_of_lt_succ (Nat.lt_of_lt_of_le (Placed.depth_lt_of_child hc) hf)

/-- **The nodes below a node are, for each of its children, the child and the nodes below it.** -/
theorem Consistent.descendants_eq (h : d.Consistent) (hfinite : d.FiniteBelow id) :
    d.descendants id = (d.children id).flatMap d.branch := by
  cases hlive : d.contains id with
  | false =>
      rw [contains_eq_false_iff] at hlive
      rw [descendants_of_dead hlive, children_eq_nil_of_dead hlive, List.flatMap_nil]
  | true =>
      obtain ⟨t, rfl, ht, hn, -⟩ := h.exists_held hfinite hlive
      obtain ⟨id, kind, span, cs⟩ := t
      rw [ht.descendants hn, Placed.children_node, children_of_get? ht.get?, List.flatMap_map]
      refine List.flatMap_congr fun c hc => ?_
      exact ((ht.child hc).branch (h.nodup_of_holds (ht.child hc))).symm

/-- Below a node are those of which it is a proper ancestor, each of them once. -/
theorem Consistent.mem_descendants (h : d.Consistent) (hacyclic : ∀ x, ¬d.Below x x)
    (id : NodeId) : (d.descendants id).Nodup ∧ ∀ x, x ∈ d.descendants id ↔ d.Below x id := by
  have hfinite := h.finiteBelow hacyclic id
  cases hlive : d.contains id with
  | false =>
      rw [contains_eq_false_iff] at hlive
      rw [descendants_of_dead hlive]
      refine ⟨.nil, fun x => iff_of_false List.not_mem_nil fun hx => ?_⟩
      obtain ⟨c, -, hc⟩ := TransGen.tail'_iff.1 hx
      have hmem := h.mem_children_iff.2 hc
      rw [children_eq_nil_of_dead hlive] at hmem
      cases hmem
  | true =>
      obtain ⟨t, rfl, -, hn, hbranch, hmem, -⟩ := h.branch_eq hfinite hlive
      rw [← hbranch, branch, List.nodup_cons] at hn
      refine ⟨hn.2, fun x => ⟨fun hx => ?_, fun hx => ?_⟩⟩
      · have := (hmem x).1 (by rw [← hbranch]; exact List.mem_cons_of_mem _ hx)
        exact this.resolve_left fun heq => hn.1 (heq ▸ hx)
      · have hx' := (hmem x).2 (.inr hx)
        rw [← hbranch, branch, List.mem_cons] at hx'
        exact hx'.resolve_left fun heq => hacyclic t.id (heq ▸ hx)

/-- A node that is above one of the nodes below `c`, and below the parent of `c`, is not above `c`. -/
theorem le_child_of_between (hid : ¬d.Below id id) (hc : d.ChildOf c id)
    (hx : ReflTransGen d.ChildOf x c) (hxy : ReflTransGen d.ChildOf x y) (hy : d.Below y id) :
    ReflTransGen d.ChildOf y c := by
  obtain ⟨b, hyb, hb⟩ := TransGen.tail'_iff.1 hy
  rwa [eq_of_siblings hid hc hb hx (hxy.trans hyb)]

end Document

namespace Binding

open Document Relation

variable {d : Document} {mark : String} {p : Option NodeId} {t : Placed} {id x : NodeId}

/-! ### The search for repeated elements -/

/-- A repeated element is found. -/
def found (d : Document) (mark : String) (id : NodeId) : List NodeId :=
  if d.hasAttribute id mark then [id] else []

/-- The search goes on in elements that are not repeated. -/
def within (d : Document) (mark : String) (id : NodeId) : List NodeId :=
  if (d.element? id).isSome ∧ d.hasAttribute id mark = false then d.children id else []

/-- The repeated elements that are found at a node or below it. -/
def reached (d : Document) (mark : String) (id : NodeId) : List NodeId :=
  if d.hasAttribute id mark then [id]
  else if (d.element? id).isSome then repeated d mark id else []

theorem Holds.reached (h : d.Holds p t) (hn : t.ids.Nodup) :
    (marks mark 0 [] t).map Mark.id = reached d mark t.id := by
  rw [Binding.reached, hasAttribute, h.element?]
  obtain ⟨id, kind, span, cs⟩ := t
  cases kind with
  | element e =>
      cases he : e.hasAttribute mark with
      | true => simp [marks, NodeKind.element?, he]
      | false =>
          rw [repeated_eq h hn]
          simp [marks, NodeKind.element?, he, map_id_marksAll]
  | document | text _ | comment _ | doctype _ => rfl

/-- **The repeated elements below a node are found child by child.** -/
theorem repeated_flatMap (h : d.Consistent) (hfinite : d.FiniteBelow id) :
    repeated d mark id = (d.children id).flatMap (reached d mark) := by
  cases hlive : d.contains id with
  | false =>
      rw [contains_eq_false_iff] at hlive
      rw [repeated, children_eq_nil_of_dead hlive, List.flatMap_nil]
      cases d.nodes.size <;> rfl
  | true =>
      obtain ⟨t, rfl, ht, hn, -⟩ := h.exists_held hfinite hlive
      rw [repeated_eq ht hn, map_id_marksAll]
      obtain ⟨id, kind, span, cs⟩ := t
      rw [Placed.children_node, children_of_get? ht.get?, List.flatMap_map]
      exact List.flatMap_congr fun c hc =>
        Holds.reached (ht.child hc) (h.nodup_of_holds (ht.child hc))

/-- A node gives itself, or it leads to what is below it, or neither. -/
theorem reached_eq (h : d.Consistent) (hfinite : d.FiniteBelow id) :
    reached d mark id = found d mark id ++ (within d mark id).flatMap (reached d mark) := by
  rw [reached, found, within]
  cases d.hasAttribute id mark with
  | true => simp
  | false =>
      by_cases he : (d.element? id).isSome
      · simp [he, repeated_flatMap h hfinite]
      · simp [he]

/-- What is found at or below a node is a part of what is there, in the same order. -/
theorem repeated_sublist (h : d.Consistent) (hfinite : d.FiniteBelow id) :
    (repeated d mark id).Sublist (d.descendants id) := by
  induction hfinite with
  | intro id hacc ih =>
      rw [repeated_flatMap h (.intro id hacc), h.descendants_eq (.intro id hacc)]
      refine List.Sublist.flatMap_right _ fun c hc => ?_
      rw [reached, branch]
      split
      · exact List.singleton_sublist.2 (List.mem_cons_self ..)
      · split
        · exact (ih c hc).cons c
        · exact List.nil_sublist _

/-- **Which repeated elements are found**: those that are reached through elements that are not
repeated. -/
theorem mem_repeated_iff (h : d.Consistent) (hacyclic : ∀ x, ¬d.Below x x) :
    x ∈ repeated d mark id ↔ d.Below x id ∧ d.hasAttribute x mark = true ∧
      ∀ y, d.Below x y → d.Below y id → (d.element? y).isSome ∧ d.hasAttribute y mark = false := by
  have hfinite := h.finiteBelow hacyclic id
  induction hfinite with
  | intro id hacc ih =>
      rw [repeated_flatMap h (.intro id hacc), List.mem_flatMap]
      constructor
      · rintro ⟨c, hc, hx⟩
        have hup : d.ChildOf c id := h.mem_children_iff.1 hc
        rw [reached] at hx
        split at hx
        · next hmark =>
            obtain rfl := List.mem_singleton.1 hx
            refine ⟨.single hup, hmark, fun y hy hyid => ?_⟩
            -- there is nothing between a node and its child
            exact absurd (hy.trans_left (le_child_of_between (hacyclic id) hup .refl
              hy.to_reflTransGen hyid)) (hacyclic x)
        · next hmark =>
            split at hx
            · next helement =>
                obtain ⟨hbelow, hxmark, hway⟩ := (ih c hc).1 hx
                refine ⟨hbelow.tail hup, hxmark, fun y hy hyid => ?_⟩
                have hyc := le_child_of_between (hacyclic id) hup hbelow.to_reflTransGen
                  hy.to_reflTransGen hyid
                rcases reflTransGen_iff_eq_or_transGen.1 hyc with rfl | hyc
                · exact ⟨helement, by simpa using hmark⟩
                · exact hway y hy hyc
            · cases hx
      · rintro ⟨hbelow, hxmark, hway⟩
        obtain ⟨c, hxc, hup⟩ := TransGen.tail'_iff.1 hbelow
        have hc : c ∈ d.children id := h.mem_children_iff.2 hup
        refine ⟨c, hc, ?_⟩
        rw [reached]
        rcases reflTransGen_iff_eq_or_transGen.1 hxc with rfl | hxc
        · rw [if_pos hxmark]
          exact List.mem_singleton_self _
        · obtain ⟨helement, hmark⟩ := hway c hxc (.single hup)
          rw [hmark, if_neg Bool.false_ne_true, if_pos helement]
          exact (ih c hc).2 ⟨hxc, hxmark, fun y hy hyc => hway y hy (hyc.tail hup)⟩

/-! ### Both walks -/

/-- The walks below a node `id`.  The nodes below it come as the recursion on the document has them
behind `id`, and as the loop finds them; they are the nodes of which `id` is a proper ancestor, each of
them once.  The repeated elements are some of them, in the same order, namely those that are reached
through elements that are not repeated. -/
structure Recursive (d : Document) (mark : String) (id : NodeId) : Prop where
  preorder : ∀ fuel, d.nodes.size < fuel → d.preorder fuel id = id :: d.descendants id
  order : ∀ order : NodeId → List NodeId,
    (∀ x, order x = (d.children x).flatMap fun c => c :: order c) ↔ order = d.descendants
  loop : Visits (fun x => [x]) d.children (d.children id) (d.descendants id)
  nodup : (d.descendants id).Nodup
  mem_descendants : ∀ x, x ∈ d.descendants id ↔ d.Below x id
  search : Visits (found d mark) (within d mark) (d.children id) (repeated d mark id)
  sublist : (repeated d mark id).Sublist (d.descendants id)
  mem_repeated : ∀ x, x ∈ repeated d mark id ↔ x ∈ d.descendants id ∧
    d.hasAttribute x mark = true ∧
      ∀ y, d.Below x y → d.Below y id → (d.element? y).isSome ∧ d.hasAttribute y mark = false

/-- **The loops over a stack are the orders by recursion**, for each node of a document in which no
node is below itself. -/
theorem walks_recursive (h : d.Consistent) (hacyclic : ∀ x, ¬d.Below x x) (mark : String)
    (id : NodeId) : Recursive d mark id := by
  have hfinite := h.finiteBelow hacyclic
  obtain ⟨hnodup, hmem⟩ := h.mem_descendants hacyclic id
  have hwithin : ∀ x, Acc (fun c p => c ∈ within d mark p) x := by
    refine fun x => Subrelation.accessible (fun {c p} hc => ?_) (hfinite x)
    rw [within] at hc
    split at hc
    · exact hc
    · cases hc
  refine ⟨fun fuel hfuel => ?_, fun order => ⟨fun horder => funext fun x => ?_, ?_⟩, ?_, hnodup,
    hmem, ?_, repeated_sublist h (hfinite id), fun x => ?_⟩
  · cases hlive : d.contains id with
    | false =>
        rw [contains_eq_false_iff] at hlive
        obtain ⟨fuel, rfl⟩ := Nat.exists_eq_succ_of_ne_zero (Nat.ne_zero_of_lt hfuel)
        rw [preorder, children_eq_nil_of_dead hlive, descendants_of_dead hlive, List.flatMap_nil]
    | true =>
        obtain ⟨t, rfl, ht, hn, -⟩ := h.exists_held (hfinite id) hlive
        exact (ht.preorder fuel ((ht.depth_le hn).trans hfuel.le)).trans (ht.branch hn).symm
  · -- down to the nodes without children, the equation leaves no choice
    induction hfinite x with
    | intro x hacc ih =>
        rw [horder, h.descendants_eq (.intro x hacc)]
        exact List.flatMap_congr fun c hc => by rw [ih c hc, branch]
  · rintro rfl x
    exact h.descendants_eq (hfinite x)
  · rw [h.descendants_eq (hfinite id)]
    refine .of_order (fun x => ?_) fun x _ => hfinite x
    rw [branch, h.descendants_eq (hfinite x), List.singleton_append]
  · rw [repeated_flatMap h (hfinite id)]
    exact .of_order (fun x => reached_eq h (hfinite x)) fun x _ => hwithin x
  · rw [hmem]
    exact mem_repeated_iff h hacyclic

/-- A repeated element around another one, and an element with a text and two repeated elements. -/
def hedgeSource : String :=
  "<p hb-repeat='a'><b hb-repeat='b'></b></p><i>t<u hb-repeat='c'></u><s hb-repeat></s></i>"

/-- Of the four repeated elements the search finds three, as it does not look into the first one. -/
theorem walks_recursive_hedge : ∃ d, parse hedgeSource = .ok d ∧ d.Consistent ∧
    (∀ x, ¬d.Below x x) ∧ Recursive d "hb-repeat" root ∧
      d.descendants root = [1, 2, 3, 4, 5, 6] ∧ repeated d "hb-repeat" root = [1, 5, 6] := by
  have hwalks : (parse hedgeSource).toOption.map
      (fun d => (d.descendants root, repeated d "hb-repeat" root)) =
        some ([1, 2, 3, 4, 5, 6], [1, 5, 6]) := by
    decide +kernel
  cases hparse : parse hedgeSource with
  | error e =>
      rw [hparse] at hwalks
      cases hwalks
  | ok d =>
      rw [hparse] at hwalks
      obtain ⟨hdescendants, hrepeated⟩ := Prod.mk.inj (Option.some.inj hwalks)
      have hsturdy := sturdy_of_parse hparse
      have hconsistent := hsturdy.linked.consistent
      exact ⟨d, rfl, hconsistent, hsturdy.forest.acyclic,
        walks_recursive hconsistent hsturdy.forest.acyclic "hb-repeat" root, hdescendants, hrepeated⟩

end Binding

end PageTemplate
