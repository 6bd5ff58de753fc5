/-
**Splitting a text cannot be seen.**

To split a text node puts a new text node right behind it, with what lies behind some offset of the
text.  The two parts are written one behind the other, and escaping goes character by character, so they
are written as the text was, whether it is escaped there or not.  What is below a node is written child
by child, so the markup is the same below every node, down from the parent of the two and up to the
document.

Main definitions:

* `PageTemplate.Document.Divided` — a document with a text node divided into two;
* `PageTemplate.Document.nodeMarkup` — the markup of one node;
* `PageTemplate.Document.WrittenAlike` — two documents with the same markup.

Main results:

* `PageTemplate.Document.splitText?_isSome_iff` — where a text can be split;
* `PageTemplate.Document.Linked.divided` — what dividing a text leaves in each slot;
* `PageTemplate.Document.Consistent.tree?_eq`, `PageTemplate.Document.markupAll_subtrees` — the tree of a
  node, and the markup below it, are made of those of its children;
* `PageTemplate.Document.Divided.markupAll_subtrees` — the markup below each node stays;
* `PageTemplate.Document.splitText?_invisible` — what splitting a text does, and what it does not.
-/

import Mathlib.Data.List.Flatten
import PageTemplate.Proofs.Document.Orderly

set_option relaxedAutoImplicit false
set_option autoImplicit false

namespace PageTemplate

open PageTemplate.Markup PageTemplate.Text Relation

/-- The node with other nodes in the place of each of its children. -/
def Node.spread (f : NodeId → List NodeId) (n : Node) : Node :=
  { n with children := n.children.flatMap f }

/-- Where each child stays, the node does. -/
theorem Node.spread_eq_self {f : NodeId → List NodeId} {n : Node}
    (h : ∀ c ∈ n.children, f c = [c]) : n.spread f = n := by
  rw [Node.spread, List.flatMap_congr h, List.flatMap_singleton']

theorem Node.spread_spread {f g : NodeId → List NodeId} (n : Node) :
    (n.spread f).spread g = n.spread fun x => (f x).flatMap g := by
  rw [Node.spread, Node.spread, Node.spread, List.flatMap_assoc]

theorem Node.spread_congr {f g : NodeId → List NodeId} {n : Node}
    (h : ∀ c ∈ n.children, f c = g c) : n.spread f = n.spread g := by
  rw [Node.spread, Node.spread, List.flatMap_congr h]

/-- Characters take as many bytes as the string that they make up. -/
theorem Text.utf8ByteSize_ofList (cs : List Char) :
    (String.ofList cs).utf8ByteSize = byteSize cs := by
  induction cs with
  | nil => rfl
  | cons c cs ih => simp [String.ofList_cons, ih]

/-- Putting other nodes in the place of one child leaves those around it. -/
theorem flatMap_replaced {c : NodeId} {xs ys : List NodeId} (h : (xs ++ c :: ys).Nodup)
    (zs : List NodeId) :
    (xs ++ c :: ys).flatMap (fun y => if y = c then zs else [y]) = xs ++ (zs ++ ys) := by
  rw [List.nodup_middle, List.nodup_cons, List.mem_append, not_or] at h
  have hstay : ∀ ws : List NodeId, c ∉ ws →
      ws.flatMap (fun y => if y = c then zs else [y]) = ws := by
    intro ws hc
    have hne : ∀ y ∈ ws, y ≠ c := fun y hy heq => hc (heq ▸ hy)
    rw [List.flatMap_congr fun y hy => if_neg (hne y hy), List.flatMap_singleton']
  rw [List.flatMap_append, List.flatMap_cons, if_pos rfl, hstay xs h.1.1, hstay ys h.1.2]

namespace Document

variable {d : Document} {id x : NodeId}

/-! ### Where a text can be split -/

/-- A text can be split behind the bytes of any of its beginnings. -/
theorem splitBytes?_byteSize (xs ys : List Char) :
    splitBytes? (byteSize xs) (xs ++ ys) = some (xs, ys) := by
  induction xs with
  | nil => rw [byteSize_nil, List.nil_append, splitBytes?]
  | cons x xs ih =>
      have hpos := x.utf8Size_pos
      obtain ⟨n, hn⟩ : ∃ n, x.utf8Size + byteSize xs = n + 1 := ⟨_, (Nat.succ_pred (by omega)).symm⟩
      have hsub : n + 1 - x.utf8Size = byteSize xs := by omega
      rw [byteSize_cons, List.cons_append, hn, splitBytes?, if_pos (by omega), hsub, ih]
      rfl

theorem splitText?_eq {xs ys : List Char} (h : d.text? id = some (String.ofList (xs ++ ys))) :
    d.splitText? id (byteSize xs) = some (d.divide id (String.ofList xs) (String.ofList ys)) := by
  rw [splitText?, h]
  simp only
  rw [String.toList_ofList, splitBytes?_byteSize]
  rfl

theorem exists_of_text? {t : String} (h : d.text? id = some t) :
    ∃ n, d.get? id = some n ∧ n.kind = .text t := by
  obtain ⟨kind, hkind, ht⟩ := Option.bind_eq_some_iff.1 h
  obtain ⟨n, hn, rfl⟩ := Option.map_eq_some_iff.1 hkind
  refine ⟨n, hn, ?_⟩
  cases hk : n.kind with
  | text u =>
      rw [hk] at ht
      cases ht
      rfl
  | document | element _ | comment _ | doctype _ =>
      rw [hk] at ht
      cases ht

/-- A text is split into any two strings that make it up. -/
theorem splitText?_append {head tail : String} (h : d.text? id = some (head ++ tail)) :
    d.splitText? id head.utf8ByteSize = some (d.divide id head tail) := by
  have htext : d.text? id = some (String.ofList (head.toList ++ tail.toList)) := by
    rw [h, String.ofList_append, String.ofList_toList, String.ofList_toList]
  have hsplit := splitText?_eq htext
  rwa [← utf8ByteSize_ofList, String.ofList_toList, String.ofList_toList] at hsplit

/-- **A text can be split exactly where one of its characters starts, and at its end.** -/
theorem splitText?_isSome_iff {text : String} (h : d.text? id = some text) (offset : Nat) :
    (d.splitText? id offset).isSome ↔ String.Pos.Raw.IsValid text ⟨offset⟩ := by
  rw [String.Pos.Raw.isValid_iff_exists_append]
  constructor
  · intro hsome
    rw [splitText?, h, Option.isSome_map, Option.isSome_iff_exists] at hsome
    obtain ⟨p, hp⟩ := hsome
    obtain ⟨htext, hsize⟩ := splitBytes?_append hp
    refine ⟨String.ofList p.1, String.ofList p.2, ?_, ?_⟩
    · rw [← String.ofList_append, htext, String.ofList_toList]
    · rw [String.rawEndPos, utf8ByteSize_ofList, hsize]
  · rintro ⟨head, tail, rfl, hoffset⟩
    obtain rfl : offset = head.utf8ByteSize := congrArg String.Pos.Raw.byteIdx hoffset
    rw [splitText?_append h, Option.isSome_some]

/-! ### What dividing a text leaves in each slot -/

/-- The document `e` is `d` with the text of the node `id` divided between it and the node `new`. -/
structure Divided (d e : Document) (id new : NodeId) (head tail : String) : Prop where
  /-- The node keeps the first part, its links and its span. -/
  first : ∃ n text, d.get? id = some n ∧ n.kind = .text text ∧
    e.get? id = some { n with kind := .text head }
  /-- The new node has the second part, and no children.  It has the same parent, or none if the
  node has none, and the same span. -/
  second : e.get? new = some ⟨.text tail, d.parent? id, [], d.span? id⟩
  /-- Its slot was free. -/
  fresh : d.get? new = none
  /-- It stands right behind the node.  The other children of their parent are in the same order. -/
  behind : ∀ p, d.parent? id = some p → ∃ n before after, d.get? p = some n ∧
    n.children = before ++ id :: after ∧
      e.get? p = some { n with children := before ++ id :: new :: after }
  /-- All other slots are as they were. -/
  kept : ∀ x, x ≠ id → x ≠ new → d.parent? id ≠ some x → e.get? x = d.get? x

/-- The new node is on its own if the one that is divided has no parent. -/
theorem Slotted.divided_of_loose (h : d.Slotted) {old : String} {cs : List NodeId}
    {span : Option Span} (hid : d.get? id = some ⟨.text old, none, cs, span⟩) (head tail : String) :
    Divided d (d.divide id head tail).1 id (d.divide id head tail).2 head tail := by
  have hs : (d.setText id head).Slotted := h.update _ _
  have hid₁ := get?_setText_self hid head
  obtain ⟨hdead, hnew, -⟩ := hs.get?_alloc (.text tail) (d.span? id)
  have hid₂ := hs.get?_alloc_of_live (.text tail) (d.span? id) hid₁
  have hparent : d.parent? id = none := parent?_of_get? hid
  have hdiv : d.divide id head tail = (d.setText id head).alloc (.text tail) (d.span? id) := by
    simp only [Document.divide, parent?_of_get? hid₂]
  rw [hdiv]
  have hne : ((d.setText id head).alloc (.text tail) (d.span? id)).2 ≠ id := by
    intro heq
    rw [heq, hid₁] at hdead
    cases hdead
  refine ⟨⟨_, old, hid, rfl, hid₂⟩, ?_, ?_, fun p hp => ?_, fun x hx hxnew _ => ?_⟩
  · rw [hnew, hparent]
    rfl
  · rwa [get?_setText_of_ne hne] at hdead
  · rw [hparent] at hp
    cases hp
  · rw [get?_alloc_of_ne _ _ _ hxnew, get?_setText_of_ne hx]

/-- **A text that is divided has the new node right behind it**, and nothing else changes. -/
theorem Linked.divided (h : d.Linked []) {text : String} (htext : d.text? id = some text)
    (head tail : String) :
    Divided d (d.divide id head tail).1 id (d.divide id head tail).2 head tail := by
  obtain ⟨⟨kind, parent, cs, span⟩, hget, rfl⟩ := exists_of_text? htext
  have hparent : d.parent? id = parent := parent?_of_get? hget
  have hspan : d.span? id = span := by rw [span?, hget, Option.bind_some]
  cases parent with
  | none => exact h.slots.divided_of_loose hget head tail
  | some p =>
      have hchild := h.parent id p hparent List.not_mem_nil
      obtain ⟨n, hn⟩ := contains_iff.1 (contains_of_child hchild)
      have hdistinct := h.distinct p
      have hne : p ≠ id := fun heq => h.irrefl id (heq ▸ hparent)
      rw [children_of_get? hn] at hchild hdistinct
      obtain ⟨before, after, hsplit⟩ := List.append_of_mem hchild
      rw [hsplit] at hdistinct
      obtain ⟨-, hdead, hid, hnew, hp, hother⟩ :=
        h.slots.divide hget hn hsplit hdistinct hne head tail
      refine ⟨⟨_, text, hget, rfl, hid⟩, ?_, hdead, fun q hq => ?_, fun x hx hxnew hxp => ?_⟩
      · rw [hnew, hparent, hspan]
      · obtain rfl : p = q := Option.some.inj (hparent.symm.trans hq)
        exact ⟨n, before, after, hn, hsplit, hp⟩
      · exact hother x hx hxnew fun heq => hxp (heq ▸ hparent)

section Divided

variable {e : Document} {new : NodeId} {head tail : String}

/-- Wherever the node stands, the new one stands right behind it. -/
theorem Divided.get?_of_ne (hd : Divided d e id new head tail) (h : d.Linked []) (hx : x ≠ id)
    (hxnew : x ≠ new) : e.get? x =
      (d.get? x).map (Node.spread fun y => if y = id then [id, new] else [y]) := by
  by_cases hp : d.parent? id = some x
  · obtain ⟨n, before, after, hn, hsplit, hnew⟩ := hd.behind x hp
    have hdistinct := h.distinct x
    rw [children_of_get? hn, hsplit] at hdistinct
    rw [hnew, hn, Option.map_some, Node.spread, hsplit, flatMap_replaced hdistinct]
    rfl
  · rw [hd.kept x hx hxnew hp]
    cases hn : d.get? x with
    | none => rfl
    | some n =>
        rw [Option.map_some, Node.spread_eq_self]
        intro y hy
        rw [if_neg]
        rintro rfl
        exact hp (h.child x y (by rwa [children_of_get? hn]))

theorem Divided.ne_of_live (hd : Divided d e id new head tail) {n : Node} (hn : d.get? x = some n) :
    x ≠ new := by
  rintro rfl
  rw [hd.fresh] at hn
  cases hn

theorem Divided.children (hd : Divided d e id new head tail) (h : d.Linked []) (hx : x ≠ new) :
    e.children x = (d.children x).flatMap fun y => if y = id then [id, new] else [y] := by
  by_cases hxid : x = id
  · obtain ⟨n, text, hn, -, hid⟩ := hd.first
    have hself : ∀ c ∈ n.children, c ≠ id := by
      rintro c hc rfl
      exact h.irrefl c (h.child c c (by rwa [children_of_get? hn]))
    rw [hxid, children_of_get? hid, children_of_get? hn,
      List.flatMap_congr fun c hc => if_neg (hself c hc), List.flatMap_singleton']
  · rw [Document.children, Document.children, hd.get?_of_ne h hxid hx]
    cases d.get? x <;> rfl

theorem Divided.parent? (hd : Divided d e id new head tail) (h : d.Linked []) (hx : x ≠ new) :
    e.parent? x = d.parent? x := by
  by_cases hxid : x = id
  · obtain ⟨n, text, hn, -, hid⟩ := hd.first
    rw [hxid, parent?_of_get? hid, parent?_of_get? hn]
  · rw [Document.parent?, Document.parent?, hd.get?_of_ne h hxid hx]
    cases d.get? x <;> rfl

/-- No node comes below itself. -/
theorem Divided.acyclic (hd : Divided d e id new head tail) (h : d.Linked []) (he : e.Linked [])
    (hacyclic : ∀ x, ¬d.Below x x) (x : NodeId) : ¬e.Below x x := by
  have hchildless : ∀ y, ¬e.Below y new := fun y =>
    he.not_below_of_childless (children_of_get? hd.second)
  -- the way up does not pass through the new node, as nothing is below it
  have hold : ∀ y a, y ≠ new → e.Below y a → d.Below y a := by
    intro y a hy hbelow
    induction hbelow with
    | single hstep => exact .single ((hd.parent? h hy).symm.trans hstep)
    | tail hyb hstep ih =>
        exact ih.tail ((hd.parent? h fun heq => hchildless y (heq ▸ hyb)).symm.trans hstep)
  intro hx
  by_cases hxnew : x = new
  · exact hchildless x (hxnew ▸ hx)
  · exact hacyclic x (hold x x hxnew hx)

end Divided

/-! ### Markup below a node -/

/-- **The tree of a node is made of the trees right below it**, where no way down is endless. -/
theorem Consistent.tree?_eq (h : d.Consistent) (hfinite : d.FiniteBelow id) :
    d.tree? id = (d.get? id).map fun n => .node n.kind n.span (d.subtrees id) := by
  cases hget : d.get? id with
  | none =>
      rw [tree?]
      cases d.nodes.size with
      | zero => rfl
      | succ fuel => rw [treeTo, hget, Option.map_none, Option.map_none]
  | some n =>
      obtain ⟨t, rfl, ht, hn, -⟩ := h.exists_held hfinite (contains_of_get? hget)
      rw [ht.tree? hn, ht.subtrees hn]
      obtain ⟨i, kind, span, cs⟩ := t
      cases hget.symm.trans ht.get?
      rw [Option.map_some, Placed.tree_node, Placed.children_node]
      rfl

/-- The markup of a node.  A slot without one has none. -/
def nodeMarkup (d : Document) (raw : Bool) (id : NodeId) : List Char :=
  Tree.markupAll raw (d.tree? id).toList

/-- The markup below a node is that of its children, one behind the other. -/
theorem markupAll_subtrees (d : Document) (raw : Bool) (id : NodeId) :
    Tree.markupAll raw (d.subtrees id) = (d.children id).flatMap (d.nodeMarkup raw) := by
  rw [subtrees, Tree.markupAll_eq_flatMap, List.filterMap_eq_flatMap_toList, List.flatMap_assoc]
  exact List.flatMap_congr fun c _ => (Tree.markupAll_eq_flatMap raw _).symm

theorem Consistent.nodeMarkup_eq (h : d.Consistent) (hfinite : d.FiniteBelow id) {n : Node}
    (hget : d.get? id = some n) (raw : Bool) :
    d.nodeMarkup raw id = Tree.markup raw (.node n.kind n.span (d.subtrees id)) := by
  rw [nodeMarkup, h.tree?_eq hfinite, hget, Option.map_some, Option.toList_some,
    Tree.markupAll_cons, Tree.markupAll_nil, List.append_nil]

theorem Consistent.nodeMarkup_text (h : d.Consistent) (hfinite : d.FiniteBelow id) {text : String}
    (htext : d.text? id = some text) (raw : Bool) :
    d.nodeMarkup raw id = if raw then text.toList else escapeText text.toList := by
  obtain ⟨n, hn, hkind⟩ := exists_of_text? htext
  rw [h.nodeMarkup_eq hfinite hn, hkind, Tree.markup]

/-! ### What does not change -/

/-- The documents are written alike: as a whole, below each node, and this whether text is escaped
there or not. -/
structure WrittenAlike (d e : Document) : Prop where
  whole : e.markup = d.markup
  inner : ∀ x, e.innerMarkup x = d.innerMarkup x
  below : ∀ raw x, Tree.markupAll raw (e.subtrees x) = Tree.markupAll raw (d.subtrees x)

section Divided

variable {e : Document} {new : NodeId} {head tail : String}

/-- The two parts are written as the text that they make up. -/
theorem Divided.nodeMarkup_append (hd : Divided d e id new head tail) (h : d.Linked [])
    (he : e.Linked []) (hacyclic : ∀ x, ¬d.Below x x) (htext : d.text? id = some (head ++ tail))
    (raw : Bool) : e.nodeMarkup raw id ++ e.nodeMarkup raw new = d.nodeMarkup raw id := by
  have hfinite := h.consistent.finiteBelow hacyclic
  have hfinite' := he.consistent.finiteBelow (hd.acyclic h he hacyclic)
  obtain ⟨n, text, -, -, hid⟩ := hd.first
  have hhead : e.text? id = some head := by rw [text?, kind?, hid, Option.map_some]; rfl
  have htail : e.text? new = some tail := by rw [text?, kind?, hd.second, Option.map_some]; rfl
  rw [he.consistent.nodeMarkup_text (hfinite' id) hhead,
    he.consistent.nodeMarkup_text (hfinite' new) htail,
    h.consistent.nodeMarkup_text (hfinite id) htext, String.toList_append, escapeText_append]
  split <;> rfl

/-- **Dividing a text leaves the markup below each node as it was.** -/
theorem Divided.markupAll_subtrees (hd : Divided d e id new head tail) (h : d.Linked [])
    (he : e.Linked []) (hacyclic : ∀ x, ¬d.Below x x) (htext : d.text? id = some (head ++ tail))
    (raw : Bool) (x : NodeId) :
    Tree.markupAll raw (e.subtrees x) = Tree.markupAll raw (d.subtrees x) := by
  have hfinite := h.consistent.finiteBelow hacyclic
  have hfinite' := he.consistent.finiteBelow (hd.acyclic h he hacyclic)
  -- down to the nodes without children, and for both ways of writing text, as a child may be a script
  induction hfinite x generalizing raw with
  | intro x _ ih =>
      rw [Document.markupAll_subtrees, Document.markupAll_subtrees]
      by_cases hx : x = new
      · rw [hx, children_of_get? hd.second, children_eq_nil_of_dead hd.fresh]
        rfl
      · rw [hd.children h hx, List.flatMap_assoc]
        refine List.flatMap_congr fun c hc => ?_
        by_cases hcid : c = id
        · rw [if_pos hcid, List.flatMap_cons, List.flatMap_singleton, hcid,
            hd.nodeMarkup_append h he hacyclic htext]
        · -- any other child is what it was, but for the trees below it
          obtain ⟨n, hn⟩ := contains_iff.1 (contains_of_parent? (h.child x c hc))
          have hn' := hd.get?_of_ne h hcid (hd.ne_of_live hn)
          rw [hn, Option.map_some] at hn'
          rw [if_neg hcid, List.flatMap_singleton, he.consistent.nodeMarkup_eq (hfinite' c) hn',
            h.consistent.nodeMarkup_eq (hfinite c) hn]
          exact Tree.markup_congr fun raw => ih c hc raw

/-- Text is escaped where it was. -/
theorem Divided.holdsRawText (hd : Divided d e id new head tail) (h : d.Linked []) (x : NodeId) :
    e.holdsRawText x = d.holdsRawText x := by
  have helement : e.element? x = d.element? x := by
    by_cases hx : x = id
    · obtain ⟨n, text, hn, hkind, hid⟩ := hd.first
      rw [hx, element?, element?, kind?, kind?, hid, hn, Option.map_some, Option.map_some, hkind]
      rfl
    · by_cases hxnew : x = new
      · rw [hxnew, element?, element?, kind?, kind?, hd.second, hd.fresh]
        rfl
      · rw [element?, element?, kind?, kind?, hd.get?_of_ne h hx hxnew, Option.map_map]
        rfl
  rw [Document.holdsRawText, Document.holdsRawText, helement]

theorem Divided.writtenAlike (hd : Divided d e id new head tail) (h : d.Linked [])
    (he : e.Linked []) (hacyclic : ∀ x, ¬d.Below x x)
    (htext : d.text? id = some (head ++ tail)) : WrittenAlike d e := by
  have hbelow := hd.markupAll_subtrees h he hacyclic htext
  have hinner : ∀ x, e.innerMarkup x = d.innerMarkup x := by
    intro x
    rw [innerMarkup, innerMarkup, hd.holdsRawText h, hbelow]
  exact ⟨hinner root, hinner, hbelow⟩

end Divided

/-- **Splitting a text cannot be seen in the markup.**  A text of a document without loops can be split
in front of each of its characters and at its end.  Then two nodes side by side have the two parts,
nothing else is changed, and the document is written as before. -/
theorem splitText?_invisible (h : d.Consistent) (hacyclic : ∀ x, ¬d.Below x x) {text : String}
    (htext : d.text? id = some text) {offset : Nat}
    (hoffset : String.Pos.Raw.IsValid text ⟨offset⟩) :
    ∃ e new head tail, d.splitText? id offset = some (e, new) ∧ head ++ tail = text ∧
      head.utf8ByteSize = offset ∧ Divided d e id new head tail ∧ WrittenAlike d e := by
  obtain ⟨head, tail, rfl, hsize⟩ := String.Pos.Raw.isValid_iff_exists_append.1 hoffset
  obtain rfl : offset = head.utf8ByteSize := congrArg String.Pos.Raw.byteIdx hsize
  have hlinked := h.linked fun c hc => hacyclic c (.single hc)
  have hd := hlinked.divided htext head tail
  exact ⟨_, _, head, tail, splitText?_append htext, rfl, rfl, hd,
    hd.writtenAlike hlinked (hlinked.divide id head tail) hacyclic htext⟩

/-- A script with a text whose first character takes two bytes, and a slot that is free again. -/
def scripted : Document :=
  ⟨#[some ⟨.document, none, [1], none⟩, some ⟨.element ⟨"script", []⟩, some 0, [2], none⟩,
    some ⟨.text "é<b", some 1, [], none⟩, none], [3]⟩

theorem orderly_scripted : Orderly scripted := by
  have hscript := Orderly.start.step (.createElement ⟨"script", []⟩) not_false rfl
  have hput := hscript.step (.append 0 1) (fun ⟨_, _, _, hin⟩ => hin.elim nofun
    (not_below_of_loose rfl)) rfl
  have htext := hput.step (.createText "é<b") not_false rfl
  have hfilled := htext.step (.append 1 2) (fun ⟨_, _, _, hin⟩ => hin.elim nofun
    (htext.linked_forest.1.not_below_of_childless rfl)) rfl
  have hother := hfilled.step (.createText "") not_false rfl
  exact hother.step (.remove 3) not_false rfl

theorem splitText?_invisible_scripted :
    scripted.Consistent ∧ (∀ x, ¬scripted.Below x x) ∧ scripted.text? 2 = some "é<b" ∧
      String.Pos.Raw.IsValid "é<b" ⟨2⟩ ∧
        ∃ e new head tail, scripted.splitText? 2 2 = some (e, new) ∧ head ++ tail = "é<b" ∧
          head.utf8ByteSize = 2 ∧ Divided scripted e 2 new head tail ∧ WrittenAlike scripted e := by
  obtain ⟨hlinked, hforest⟩ := orderly_scripted.linked_forest
  have hoffset : String.Pos.Raw.IsValid "é<b" ⟨2⟩ :=
    String.Pos.Raw.isValid_iff_exists_append.2 ⟨"é", "<b", by decide, by decide⟩
  exact ⟨hlinked.consistent, hforest.acyclic, rfl, hoffset,
    splitText?_invisible hlinked.consistent hforest.acyclic rfl hoffset⟩

end Document

end PageTemplate
