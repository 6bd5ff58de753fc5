/-
**The directives that cannot be read.**

Before anything is bound, the directives below a node are looked through, those of an element before
those inside it.  This search goes from repeated element to repeated element, and yet it meets the
directives in document order: what it finds is the first one that cannot be read, wherever it is among
the nodes that are reached through elements.

Main definitions:

* `PageTemplate.Placed.faults` — the elements of a placed tree whose directive cannot be read;
* `PageTemplate.Tree.flaws` — what these directives say, and where they are written;
* `PageTemplate.Binding.unreadable` — a node is an element with a directive that cannot be read.

Main results:

* `PageTemplate.Binding.head?_faults` — the first one is that of an outermost repeated element, or
  inside one;
* `PageTemplate.Binding.invalidTo_eq` — the search meets directives in document order;
* `PageTemplate.Binding.invalidRepeat?_eq` — it finds the first directive that cannot be read;
* `PageTemplate.Binding.invalidRepeat?_eq_flaws` — so the fault depends on the trees alone.
-/

import PageTemplate.Proofs.Binding.Directives
import PageTemplate.Proofs.Document.Exposure

set_option relaxedAutoImplicit false
set_option autoImplicit false

namespace PageTemplate

open PageTemplate.Binding PageTemplate.Markup PageTemplate.Text

/-- Whether a node is an element with a directive that cannot be read. -/
def NodeKind.unreadable (mark : String) (kind : NodeKind) : Bool :=
  kind.element?.any fun e =>
    e.hasAttribute mark && (RepeatExpression.parse? ((e.attribute? mark).getD "")).isNone

/-- The elements of a placed tree that are reached through elements and whose directive cannot be
read, in document order. -/
def Placed.faults (mark : String) : Placed → List NodeId
  | node id kind _ cs =>
      if kind.element?.isSome then
        (if kind.unreadable mark then [id] else []) ++ cs.flatMap (faults mark)
      else []

namespace Tree

mutual

/-- The directives of a tree that cannot be read, in document order: what each says, and where it is
written. -/
def flaws (mark : String) : Tree → List (String × Option Span)
  | node (.element e) span ts =>
      (if (NodeKind.element e).unreadable mark then [((e.attribute? mark).getD "", span)] else []) ++
        flawsAll mark ts
  | _ => []

/-- Those of trees that stand side by side. -/
def flawsAll (mark : String) : List Tree → List (String × Option Span)
  | [] => []
  | t :: ts => flaws mark t ++ flawsAll mark ts

end

theorem flawsAll_eq_flatMap (mark : String) (ts : List Tree) :
    flawsAll mark ts = ts.flatMap (flaws mark) := by
  induction ts with
  | nil => rw [flawsAll, List.flatMap_nil]
  | cons t ts ih => rw [flawsAll, ih, List.flatMap_cons]

theorem flaws_leaf {kind : NodeKind} (h : kind.element? = none) (mark : String)
    (span : Option Span) (ts : List Tree) : flaws mark (node kind span ts) = [] := by
  cases kind with
  | element e => cases h
  | document | text _ | comment _ | doctype _ => rw [flaws]; simp

end Tree

theorem Placed.faults_node (mark : String) (id : NodeId) (kind : NodeKind) (span : Option Span)
    (cs : List Placed) : (node id kind span cs).faults mark =
      if kind.element?.isSome then
        (if kind.unreadable mark then [id] else []) ++ cs.flatMap (faults mark)
      else [] := by
  rw [faults]

namespace Binding

open PageTemplate.Diagnostic

/-- Whether the node in a slot is an element with a directive that cannot be read. -/
def unreadable (d : Document) (mark : String) (id : NodeId) : Bool :=
  d.hasAttribute id mark && (RepeatExpression.parse? (directive d mark id)).isNone

variable {mark : String} {d : Document} {p : Option NodeId} {t : Placed} {ts : List Placed}
  {c id : NodeId}

theorem unreadable_eq (d : Document) (mark : String) (id : NodeId) :
    unreadable d mark id = (d.kind? id).any (·.unreadable mark) := by
  rw [unreadable, directive, Document.attribute?, Document.hasAttribute, Document.element?]
  cases d.kind? id with
  | none => rfl
  | some kind =>
      rw [Option.bind_some, Option.any_some, NodeKind.unreadable]
      cases kind.element? <;> rfl

/-- The directives of a held tree that cannot be read. -/
theorem filter_exposed (h : d.Holds p t) :
    t.exposed.filter (unreadable d mark) = t.faults mark := by
  induction h with
  | @node parent id kind span cs hget hcs ih =>
      have hself : unreadable d mark id = kind.unreadable mark := by
        rw [unreadable_eq, Document.kind?, hget]
        rfl
      rw [Placed.exposed_node, Placed.faults_node, List.filter_cons, hself]
      cases he : kind.element? with
      | none =>
          have hnone : kind.unreadable mark = false := by rw [NodeKind.unreadable, he, Option.any_none]
          rw [hnone]
          rfl
      | some e =>
          rw [Option.isSome_some, if_pos rfl, if_pos rfl, List.filter_flatMap, List.flatMap_congr ih]
          split <;> rfl

/-- The directives below the topmost node of a held tree that cannot be read. -/
theorem filter_exposed_below (h : d.Holds p t) (hn : t.ids.Nodup) :
    (d.exposed t.id).filter (unreadable d mark) = t.children.flatMap (Placed.faults mark) := by
  rw [h.exposed hn, List.filter_flatMap]
  obtain ⟨i, kind, span, cs⟩ := t
  exact List.flatMap_congr fun c hc => filter_exposed (h.child hc)

/-- **The first directive that cannot be read is that of a repeated element, or inside one.** -/
theorem head?_faults (ts : List Placed) (c : NodeId) :
    (ts.flatMap (Placed.faults mark)).head? = (marksAll mark c ts).findSome? fun m =>
      match RepeatExpression.parse? ((m.element.attribute? mark).getD "") with
      | none => some m.id
      | some _ => (m.children.flatMap (Placed.faults mark)).head? := by
  induction ts using marked_induction mark generalizing c with
  | nil => rw [marksAll]; rfl
  | leaf id kind span cs ts he ih =>
      rw [List.flatMap_cons, List.head?_append, Placed.faults_node, ih c, he,
        marksAll_leaf _ _ _ _ _ he]
      rfl
  | plain id e span cs ts he ihcs ih =>
      have hself : (NodeKind.element e).unreadable mark = false := by
        rw [NodeKind.unreadable, NodeKind.element?, Option.any_some, he, Bool.false_and]
      rw [List.flatMap_cons, List.head?_append, Placed.faults_node, ih c,
        marksAll_plain _ _ _ _ _ he, List.findSome?_append, ← ihcs id, hself]
      rfl
  | marked id e span cs ts he _ ih =>
      have hself : (NodeKind.element e).unreadable mark =
          (RepeatExpression.parse? ((e.attribute? mark).getD "")).isNone := by
        rw [NodeKind.unreadable, NodeKind.element?, Option.any_some, he, Bool.true_and]
      rw [List.flatMap_cons, List.head?_append, Placed.faults_node, ih c,
        marksAll_marked _ _ _ _ _ he, List.findSome?_cons, hself, if_pos (by rfl)]
      cases RepeatExpression.parse? ((e.attribute? mark).getD "") with
      | none => rfl
      | some x =>
          rw [Option.isNone_some, if_neg (by simp), List.nil_append]
          cases (cs.flatMap (Placed.faults mark)).head? <;> rfl

/-- Functions that agree on a list find the same in it. -/
theorem findSome?_congr {α β : Type} {f g : α → Option β} {l : List α} (h : ∀ a ∈ l, f a = g a) :
    l.findSome? f = l.findSome? g := by
  induction l with
  | nil => rfl
  | cons a l ih =>
      rw [List.findSome?_cons, List.findSome?_cons, h a (List.mem_cons_self ..),
        ih fun b hb => h b (List.mem_cons_of_mem _ hb)]

/-- **The search meets directives in document order**, with a round for each level. -/
theorem invalidTo_eq {fuel : Nat} (h : d.Holds p t) (hn : t.ids.Nodup) (hf : t.depth ≤ fuel) :
    invalidTo d mark fuel t.id = (t.children.flatMap (Placed.faults mark)).head? := by
  induction fuel generalizing p t with
  | zero =>
      obtain ⟨id, kind, span, cs⟩ := t
      rw [Placed.depth_node] at hf
      omega
  | succ fuel ih =>
      rw [invalidTo, repeated_eq h hn, List.findSome?_map, head?_faults t.children t.id]
      refine findSome?_congr fun m hm => ?_
      obtain ⟨id, kind, span, cs⟩ := t
      have hheld := holds_mark (fun c hc => h.child hc) hm
      rw [Placed.ids_node, List.nodup_cons] at hn
      have hdepth : m.tree.depth ≤ fuel := depth_mark (fun c hc =>
        Nat.le_of_lt_succ (Nat.lt_of_lt_of_le (Placed.depth_lt_of_child hc) hf)) hm
      have hbelow := ih hheld (nodup_mark hn.2 hm) hdepth
      rw [Function.comp_apply, directive_mark hheld]
      cases RepeatExpression.parse? ((m.element.attribute? mark).getD "") with
      | none => rfl
      | some x => exact hbelow

/-- Nothing cannot be read below a slot without a node. -/
theorem invalidTo_of_dead (fuel : Nat) (hdead : d.get? id = none) : invalidTo d mark fuel id = none := by
  cases fuel with
  | zero => rfl
  | succ fuel =>
      have hnone : repeated d mark id = [] := by
        rw [repeated, Document.children_eq_nil_of_dead hdead]
        cases d.nodes.size <;> rfl
      rw [invalidTo, hnone, List.findSome?_nil]

/-- The first directive that the search finds is the first of those that are reached through
elements. -/
theorem invalidTo_eq_find? (h : d.Linked []) (hfinite : d.FiniteBelow id) :
    invalidTo d mark d.nodes.size id = (d.exposed id).find? (unreadable d mark) := by
  cases hlive : d.contains id with
  | false =>
      rw [Document.contains_eq_false_iff] at hlive
      rw [invalidTo_of_dead _ hlive, Document.exposed_of_dead hlive, List.find?_nil]
  | true =>
      obtain ⟨t, rfl, ht, hn, -⟩ := h.exists_held hfinite hlive
      rw [invalidTo_eq ht hn (ht.depth_le hn), ← filter_exposed_below ht hn, List.head?_filter]

/-- **The fault of compiling is that of the first directive that cannot be read.** -/
theorem invalidRepeat?_eq (h : d.Linked []) (hfinite : d.FiniteBelow id) :
    invalidRepeat? d mark id = ((d.exposed id).find? (unreadable d mark)).map fun x =>
      .invalidRepeat (directive d mark x) (d.span? x) := by
  rw [invalidRepeat?, invalidTo_eq_find? h hfinite]

/-- Where only elements have children, this is the first one of all elements below the node. -/
theorem find?_exposed (h : d.Linked []) (hfinite : d.FiniteBelow id)
    (hplain : ∀ x, d.Below x id → d.children x ≠ [] → d.element? x ≠ none) :
    (d.exposed id).find? (unreadable d mark) = (d.elementsWithAttribute id mark).find? fun x =>
      (RepeatExpression.parse? (directive d mark x)).isNone := by
  rw [Document.exposed_eq_descendants h hfinite hplain, Document.elementsWithAttribute,
    List.find?_filter]
  congr 1
  funext x
  rw [unreadable, Bool.decide_and, Bool.decide_eq_true, Bool.decide_eq_true]

/-! ### What the directives say -/

/-- What the elements of a held tree say whose directive cannot be read. -/
theorem map_faults (h : d.Holds p t) :
    (t.faults mark).map (fun i => (directive d mark i, d.span? i)) = t.tree.flaws mark := by
  induction h with
  | @node parent id kind span cs hget hcs ih =>
      rw [Placed.faults_node, Placed.tree_node]
      cases he : kind.element? with
      | none => rw [Tree.flaws_leaf he]; rfl
      | some e =>
          cases kind with
          | element e' =>
              have hself : (directive d mark id, d.span? id) = ((e'.attribute? mark).getD "", span) := by
                rw [directive, Document.attribute?, Document.element?, Document.kind?, Document.span?,
                  hget]
                rfl
              have hbelow : (cs.flatMap (Placed.faults mark)).map
                  (fun i => (directive d mark i, d.span? i)) =
                    Tree.flawsAll mark (cs.map Placed.tree) := by
                rw [Tree.flawsAll_eq_flatMap, List.flatMap_map, List.map_flatMap]
                exact List.flatMap_congr ih
              rw [Tree.flaws, Option.isSome_some, if_pos rfl, List.map_append, hbelow]
              split
              · rw [List.map_singleton, hself]
              · rfl
          | document | text _ | comment _ | doctype _ => cases he

/-- **The fault of compiling depends on the trees below the node alone.** -/
theorem invalidRepeat?_eq_flaws (mark : String) (h : d.Holds p t) (hn : t.ids.Nodup) :
    invalidRepeat? d mark t.id =
      (Tree.flawsAll mark (t.children.map Placed.tree)).head?.map fun flaw =>
        .invalidRepeat flaw.1 flaw.2 := by
  have hbelow : Tree.flawsAll mark (t.children.map Placed.tree) =
      (t.children.flatMap (Placed.faults mark)).map fun i => (directive d mark i, d.span? i) := by
    obtain ⟨id, kind, span, cs⟩ := t
    rw [Tree.flawsAll_eq_flatMap, List.flatMap_map, List.map_flatMap]
    exact List.flatMap_congr fun c hc => (map_faults (h.child hc)).symm
  rw [invalidRepeat?, invalidTo_eq h hn (h.depth_le hn), hbelow, List.head?_map, Option.map_map]
  rfl

end Binding

end PageTemplate
