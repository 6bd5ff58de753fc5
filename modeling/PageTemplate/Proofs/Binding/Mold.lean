/-
**What a part of a document is bound to.**

Binding a part of a document leaves three kinds of things in it: nodes that stay as they are, text
nodes that are overwritten, and places where copies of a pattern are put.  A `Mold` is a tree of these.
It does not change when the part is rendered, whatever copies there are and whatever the text nodes
hold, so everything about rendering can be said in terms of it: what it shows, and which nodes there
are when it has been shown.

A pattern is bound to a scope of its own.  The parts of a mold are those that belong to its own scope,
in document order, where each repeat directive is one part and its pattern is left aside.

Main definitions:

* `PageTemplate.Binding.Mold` — a bound part of a document;
* `PageTemplate.Binding.Mold.shownAll` — what molds side by side show in an environment;
* `PageTemplate.Binding.Mold.placedAll` — the nodes of a document that shows them;
* `PageTemplate.Binding.Spot`, `PageTemplate.Binding.Part` — a place for copies, and the parts of a
  mold;
* `PageTemplate.Binding.Mold.partsAll` — the parts of molds side by side.

Main results:

* `PageTemplate.Binding.Mold.still_of_each` — a place for copies is among the items of a node;
* `PageTemplate.Binding.Mold.heads_sublist` — the children of a node are among its parts' nodes;
* `PageTemplate.Binding.Mold.ordered_spots` — places with the same anchor come in order.
-/

import PageTemplate.Proofs.Binding.Meaning
import PageTemplate.Proofs.Document.Placed

set_option relaxedAutoImplicit false
set_option autoImplicit false

namespace PageTemplate.Binding

open PageTemplate.Data PageTemplate.Text

/-- A bound part of a document: a node that stays, a text node that is overwritten with what a path
leads to, or a place where a pattern is repeated. -/
inductive Mold where
  | still (id : NodeId) (kind : NodeKind) (span : Option Span) (items : List Mold)
  | slot (id : NodeId) (span : Option Span) (path : String)
  | each (expression : RepeatExpression) (scope : ScopeId) (pattern : Mold)

namespace Mold

/-- To prove something of all lists of molds, prove it of a mold before others. -/
@[elab_as_elim]
theorem forest_induction {P : List Mold → Prop} (nil : P [])
    (still : ∀ id kind span items rest, P items → P rest → P (still id kind span items :: rest))
    (slot : ∀ id span path rest, P rest → P (slot id span path :: rest))
    (each : ∀ x s pattern rest, P [pattern] → P rest → P (each x s pattern :: rest)) :
    ∀ ms, P ms
  | [] => nil
  | .still id kind span items :: rest =>
      still id kind span items rest (forest_induction nil still slot each items)
        (forest_induction nil still slot each rest)
  | .slot id span path :: rest =>
      slot id span path rest (forest_induction nil still slot each rest)
  | .each x s pattern :: rest =>
      each x s pattern rest (forest_induction nil still slot each [pattern])
        (forest_induction nil still slot each rest)
termination_by ms => sizeOf ms
decreasing_by
  all_goals
    have hrest : 0 < sizeOf rest := by
      cases rest with
      | nil => exact Nat.one_pos
      | cons m ms =>
          rw [List.cons.sizeOf_spec]
          omega
    simp only [List.cons.sizeOf_spec, List.nil.sizeOf_spec, Mold.still.sizeOf_spec,
      Mold.slot.sizeOf_spec, Mold.each.sizeOf_spec]
    omega

/-! ### What a mold shows -/

mutual

/-- What a mold shows in an environment. -/
def shown (env : Env) : Mold → List Tree
  | still _ kind span items => [.node kind span (shownAll env items)]
  | slot _ span path => [.node (.text (display (env.get? path))) span []]
  | each x _ pattern =>
      (env.items x.collection).flatMap fun v => shown (Env.frame x.item v :: env) pattern

/-- What molds side by side show in an environment. -/
def shownAll (env : Env) : List Mold → List Tree
  | [] => []
  | m :: rest => shown env m ++ shownAll env rest

end

mutual

/-- The nodes of a document that shows a mold, where the text nodes hold `text` and the copies of
each pattern are `copies`. -/
def placed (text : NodeId → String) (copies : ScopeId → List Placed) : Mold → List Placed
  | still id kind span items => [.node id kind span (placedAll text copies items)]
  | slot id span _ => [.node id (.text (text id)) span []]
  | each _ s _ => copies s

/-- The nodes of a document that shows molds side by side. -/
def placedAll (text : NodeId → String) (copies : ScopeId → List Placed) : List Mold → List Placed
  | [] => []
  | m :: rest => placed text copies m ++ placedAll text copies rest

end

/-- The topmost nodes of a document that shows a mold. -/
def heads (copies : ScopeId → List Placed) : Mold → List NodeId
  | still id _ _ _ => [id]
  | slot id _ _ => [id]
  | each _ s _ => (copies s).map Placed.id

/-- The topmost nodes of the copies alone. -/
def copyHeads (copies : ScopeId → List Placed) : Mold → List NodeId
  | each _ s _ => (copies s).map Placed.id
  | _ => []

theorem map_id_placedAll (text : NodeId → String) (copies : ScopeId → List Placed)
    (ms : List Mold) : (placedAll text copies ms).map Placed.id = ms.flatMap (heads copies) := by
  induction ms with
  | nil => rfl
  | cons m ms ih =>
      rw [placedAll, List.map_append, ih, List.flatMap_cons]
      cases m <;> simp [placed, heads]

/-! ### Places and their order -/

/-- The topmost node of a mold. -/
def id : Mold → NodeId
  | still id _ _ _ => id
  | slot id _ _ => id
  | each _ _ pattern => pattern.id

/-- The node that a mold always has in its place. -/
def node? : Mold → Option NodeId
  | still id _ _ _ => some id
  | slot id _ _ => some id
  | each _ _ _ => none

/-- The first node that molds side by side always have in their place. -/
def anchor (ms : List Mold) : Option NodeId :=
  ms.findSome? node?

/-- The scopes of the patterns that are repeated before that node. -/
def run : List Mold → List ScopeId
  | each _ s _ :: rest => s :: run rest
  | _ => []

mutual

/-- The scopes of the patterns in a mold, those of patterns in patterns included. -/
def scopes : Mold → List ScopeId
  | still _ _ _ items => scopesAll items
  | slot _ _ _ => []
  | each _ s pattern => s :: scopes pattern

/-- The scopes of the patterns in molds side by side. -/
def scopesAll : List Mold → List ScopeId
  | [] => []
  | m :: rest => scopes m ++ scopesAll rest

end

theorem scopesAll_append (ms ns : List Mold) :
    scopesAll (ms ++ ns) = scopesAll ms ++ scopesAll ns := by
  induction ms with
  | nil => rfl
  | cons m ms ih => rw [List.cons_append, scopesAll, scopesAll, ih, List.append_assoc]

theorem mem_scopesAll {x : RepeatExpression} {s : ScopeId} {pattern : Mold} {ms : List Mold}
    (h : each x s pattern ∈ ms) : s ∈ scopesAll ms := by
  induction ms with
  | nil => simp at h
  | cons m ms ih =>
      rw [scopesAll]
      rcases List.mem_cons.1 h with h | h
      · subst h
        exact List.mem_append_left _ (by simp [scopes])
      · exact List.mem_append_right _ (ih h)

/-- If nothing is repeated before the anchor, the anchor comes first. -/
theorem head?_heads {copies : ScopeId → List Placed} {ms : List Mold}
    (h : ∀ s ∈ run ms, copies s = []) : (ms.flatMap (heads copies)).head? = anchor ms := by
  induction ms with
  | nil => rfl
  | cons m ms ih =>
      cases m with
      | still id kind span items => rfl
      | slot id span path => rfl
      | each x s pattern =>
          have hs := h s (by simp [run])
          have hrest := ih fun s hs => h s (by simp [run, hs])
          rw [List.flatMap_cons, heads, hs, List.map_nil, List.nil_append, hrest]
          rfl

end Mold

/-! ### Parts -/

/-- A place where a pattern is repeated. -/
structure Spot where
  expression : RepeatExpression
  scope : ScopeId
  pattern : Mold
  /-- The node that the copies are put into. -/
  container : NodeId
  /-- The node that the copies are put before. -/
  anchor : Option NodeId
  /-- The scopes of the patterns whose copies come between these and the anchor. -/
  run : List ScopeId

/-- A part of a mold that belongs to the scope of the mold itself. -/
inductive Part where
  | still (parent : Option NodeId) (id : NodeId) (kind : NodeKind) (span : Option Span)
      (items : List Mold)
  | slot (parent : NodeId) (id : NodeId) (span : Option Span) (path : String)
  | each (e : Spot)

namespace Part

/-- The place that a part is. -/
def spot? : Part → Option Spot
  | each e => some e
  | _ => none

/-- The path and the node of a part that is a slot. -/
def slot? : Part → Option (String × NodeId)
  | slot _ id _ path => some (path, id)
  | _ => none

/-- The scopes of a part that is repeated. -/
def scopes : Part → List ScopeId
  | each e => e.scope :: e.pattern.scopes
  | _ => []

/-- The slots of a part: that of its node, or those that belong to a place. -/
def ids (foot : ScopeId → List NodeId) : Part → List NodeId
  | still _ id _ _ _ => [id]
  | slot _ id _ _ => [id]
  | each e => foot e.scope

end Part

namespace Mold

mutual

/-- The parts of a mold below the node `c` that has the molds `later` behind it. -/
def parts (c : NodeId) (later : List Mold) : Mold → List Part
  | still id kind span items => .still (some c) id kind span items :: partsAll id items
  | slot id span path => [.slot c id span path]
  | each x s pattern => [.each ⟨x, s, pattern, c, anchor later, run later⟩]

/-- The parts of molds that stand side by side below the node `c`. -/
def partsAll (c : NodeId) : List Mold → List Part
  | [] => []
  | m :: rest => parts c rest m ++ partsAll c rest

end

theorem partsAll_still (c id : NodeId) (kind : NodeKind) (span : Option Span)
    (items rest : List Mold) :
    partsAll c (still id kind span items :: rest) =
      .still (some c) id kind span items :: (partsAll id items ++ partsAll c rest) := by
  rw [partsAll, parts, List.cons_append]

theorem partsAll_slot (c id : NodeId) (span : Option Span) (path : String) (rest : List Mold) :
    partsAll c (slot id span path :: rest) = .slot c id span path :: partsAll c rest := by
  rw [partsAll, parts, List.singleton_append]

theorem partsAll_each (c : NodeId) (x : RepeatExpression) (s : ScopeId) (pattern : Mold)
    (rest : List Mold) :
    partsAll c (each x s pattern :: rest) =
      .each ⟨x, s, pattern, c, anchor rest, run rest⟩ :: partsAll c rest := by
  rw [partsAll, parts, List.singleton_append]

/-- The parts of a mold are those of its topmost node and of the items of this node. -/
def level (parent : Option NodeId) (id : NodeId) (kind : NodeKind) (span : Option Span)
    (items : List Mold) : List Part :=
  .still parent id kind span items :: partsAll id items

/-- The parts below a node are among the parts. -/
theorem partsAll_sublist {c id : NodeId} {p : Option NodeId} {kind : NodeKind}
    {span : Option Span} {items ms : List Mold}
    (h : Part.still p id kind span items ∈ partsAll c ms) :
    (partsAll id items).Sublist (partsAll c ms) := by
  induction ms using forest_induction generalizing c with
  | nil => simp [partsAll] at h
  | still id' kind' span' items' rest ihitems ihrest =>
      rw [partsAll_still] at h ⊢
      rcases List.mem_cons.1 h with h | h
      · cases h
        exact (List.sublist_append_left _ _).cons _
      · rcases List.mem_append.1 h with h | h
        · exact ((ihitems h).trans (List.sublist_append_left _ _)).cons _
        · exact ((ihrest h).trans (List.sublist_append_right _ _)).cons _
  | slot id' span' path rest ih =>
      rw [partsAll_slot] at h ⊢
      rcases List.mem_cons.1 h with h | h
      · cases h
      · exact (ih h).cons _
  | each x s pattern rest _ ih =>
      rw [partsAll_each] at h ⊢
      rcases List.mem_cons.1 h with h | h
      · cases h
      · exact (ih h).cons _

theorem level_sublist {id j : NodeId} {p q : Option NodeId} {kind k : NodeKind}
    {span t : Option Span} {items ms : List Mold}
    (h : Part.still p id kind span items ∈ level q j k t ms) :
    (partsAll id items).Sublist (level q j k t ms) := by
  rcases List.mem_cons.1 h with h | h
  · cases h
    exact List.sublist_cons_self ..
  · exact (partsAll_sublist h).cons _

/-- What is repeated among the items of a node is a part. -/
theorem each_of_mem {c : NodeId} {x : RepeatExpression} {s : ScopeId} {pattern : Mold}
    {ms : List Mold} (h : each x s pattern ∈ ms) :
    ∃ e, Part.each e ∈ partsAll c ms ∧ e.scope = s ∧ e.container = c := by
  induction ms with
  | nil => simp at h
  | cons m ms ih =>
      rw [partsAll]
      rcases List.mem_cons.1 h with h | h
      · subst h
        exact ⟨⟨x, s, pattern, c, anchor ms, run ms⟩, by simp [parts], rfl, rfl⟩
      · obtain ⟨e, he, hs, hc⟩ := ih h
        exact ⟨e, List.mem_append_right _ he, hs, hc⟩

/-- A place for copies is among the items of a node, either the node `c` or one that is a part. -/
theorem exists_items_of_each {c : NodeId} {e : Spot} {ms : List Mold}
    (h : Part.each e ∈ partsAll c ms) :
    ∃ pre post, e.anchor = anchor post ∧ e.run = run post ∧
      ((e.container = c ∧ ms = pre ++ each e.expression e.scope e.pattern :: post) ∨
        ∃ p kind span, Part.still p e.container kind span
          (pre ++ each e.expression e.scope e.pattern :: post) ∈ partsAll c ms) := by
  induction ms using forest_induction generalizing c with
  | nil => simp [partsAll] at h
  | still id kind span items rest ihitems ihrest =>
      rw [partsAll_still] at h ⊢
      rcases List.mem_cons.1 h with h | h
      · cases h
      · rcases List.mem_append.1 h with h | h
        · obtain ⟨pre, post, ha, hr, ⟨hc, hitems⟩ | ⟨p, k, s, hp⟩⟩ := ihitems h
          · refine ⟨pre, post, ha, hr, .inr ⟨some c, kind, span, ?_⟩⟩
            rw [← hitems, hc]
            exact List.mem_cons_self ..
          · refine ⟨pre, post, ha, hr, .inr ⟨p, k, s, ?_⟩⟩
            exact List.mem_cons_of_mem _ (List.mem_append_left _ hp)
        · obtain ⟨pre, post, ha, hr, ⟨hc, hitems⟩ | ⟨p, k, s, hp⟩⟩ := ihrest h
          · exact ⟨still id kind span items :: pre, post, ha, hr, .inl ⟨hc, by rw [hitems]; rfl⟩⟩
          · refine ⟨pre, post, ha, hr, .inr ⟨p, k, s, ?_⟩⟩
            exact List.mem_cons_of_mem _ (List.mem_append_right _ hp)
  | slot id span path rest ih =>
      rw [partsAll_slot] at h ⊢
      rcases List.mem_cons.1 h with h | h
      · cases h
      · obtain ⟨pre, post, ha, hr, ⟨hc, hitems⟩ | ⟨p, k, s, hp⟩⟩ := ih h
        · exact ⟨slot id span path :: pre, post, ha, hr, .inl ⟨hc, by rw [hitems]; rfl⟩⟩
        · exact ⟨pre, post, ha, hr, .inr ⟨p, k, s, List.mem_cons_of_mem _ hp⟩⟩
  | each x s pattern rest _ ih =>
      rw [partsAll_each] at h ⊢
      rcases List.mem_cons.1 h with h | h
      · cases h
        exact ⟨[], rest, rfl, rfl, .inl ⟨rfl, rfl⟩⟩
      · obtain ⟨pre, post, ha, hr, ⟨hc, hitems⟩ | ⟨p, k, s', hp⟩⟩ := ih h
        · exact ⟨each x s pattern :: pre, post, ha, hr, .inl ⟨hc, by rw [hitems]; rfl⟩⟩
        · exact ⟨pre, post, ha, hr, .inr ⟨p, k, s', List.mem_cons_of_mem _ hp⟩⟩

/-- **A place for copies is among the items of a node.** -/
theorem still_of_each {q : Option NodeId} {j : NodeId} {k : NodeKind} {t : Option Span}
    {ms : List Mold} {e : Spot} (h : Part.each e ∈ level q j k t ms) :
    ∃ p kind span pre post, e.anchor = anchor post ∧ e.run = run post ∧
      Part.still p e.container kind span (pre ++ each e.expression e.scope e.pattern :: post) ∈
        level q j k t ms := by
  rcases List.mem_cons.1 h with h | h
  · cases h
  · obtain ⟨pre, post, ha, hr, ⟨hc, hitems⟩ | ⟨p, kind, span, hp⟩⟩ := exists_items_of_each h
    · refine ⟨q, k, t, pre, post, ha, hr, ?_⟩
      rw [hc, ← hitems]
      exact List.mem_cons_self ..
    · exact ⟨p, kind, span, pre, post, ha, hr, List.mem_cons_of_mem _ hp⟩

/-- **The children of a node are among the slots of the parts.** -/
theorem heads_sublist {copies : ScopeId → List Placed} {foot : ScopeId → List NodeId}
    (hfoot : ∀ s, ((copies s).map Placed.id).Sublist (foot s)) (c : NodeId) (ms : List Mold) :
    (ms.flatMap (heads copies)).Sublist ((partsAll c ms).flatMap (Part.ids foot)) := by
  induction ms with
  | nil => simp
  | cons m ms ih =>
      rw [List.flatMap_cons, partsAll, List.flatMap_append]
      refine List.Sublist.append ?_ ih
      cases m with
      | still id kind span items => simp [heads, parts, Part.ids]
      | slot id span path => simp [heads, parts, Part.ids]
      | each x s pattern => simpa [heads, parts, Part.ids] using hfoot s

/-- The nodes of a document that shows molds are among the slots of the parts. -/
theorem ids_placedAll_sublist (text : NodeId → String) {copies : ScopeId → List Placed}
    {foot : ScopeId → List NodeId} (hfoot : ∀ s, ((copies s).flatMap Placed.ids).Sublist (foot s))
    (c : NodeId) (ms : List Mold) :
    ((placedAll text copies ms).flatMap Placed.ids).Sublist
      ((partsAll c ms).flatMap (Part.ids foot)) := by
  induction ms using forest_induction generalizing c with
  | nil => simp [placedAll]
  | still id kind span items rest ihitems ihrest =>
      rw [partsAll_still, placedAll, placed]
      simp only [List.flatMap_cons, List.flatMap_append, Placed.ids_node, Part.ids,
        List.cons_append, List.nil_append]
      exact ((ihitems id).append (ihrest c)).cons_cons _
  | slot id span path rest ih =>
      rw [partsAll_slot, placedAll, placed, List.flatMap_append, List.flatMap_cons]
      simpa [Part.ids] using ih c
  | each x s pattern rest _ ih =>
      rw [partsAll_each, placedAll, placed, List.flatMap_append, List.flatMap_cons, Part.ids]
      exact (hfoot s).append (ih c)

/-- The scopes of the parts are those of the molds. -/
theorem flatMap_scopes_partsAll (c : NodeId) (ms : List Mold) :
    (partsAll c ms).flatMap Part.scopes = scopesAll ms := by
  induction ms using forest_induction generalizing c with
  | nil => rfl
  | still id kind span items rest ihitems ihrest =>
      rw [partsAll_still, List.flatMap_cons, List.flatMap_append, ihitems, ihrest, scopesAll, scopes]
      rfl
  | slot id span path rest ih =>
      rw [partsAll_slot, List.flatMap_cons, ih, scopesAll, scopes]
      rfl
  | each x s pattern rest _ ih =>
      rw [partsAll_each, List.flatMap_cons, ih, scopesAll, scopes]
      rfl

/-! ### The places of a mold -/

/-- The places among parts. -/
def spots (ps : List Part) : List Spot := ps.filterMap Part.spot?

theorem mem_spots {e : Spot} {ps : List Part} : e ∈ spots ps ↔ Part.each e ∈ ps := by
  rw [spots, List.mem_filterMap]
  constructor
  · rintro ⟨x, hx, he⟩
    cases x with
    | each e' =>
        cases he
        exact hx
    | still _ _ _ _ _ => cases he
    | slot _ _ _ _ => cases he
  · intro h
    exact ⟨_, h, rfl⟩

/-- Whatever comes between the copies of a place and their anchor belongs to a later place. -/
def Ordered : List Spot → Prop
  | [] => True
  | e :: es => (∀ s ∈ e.run, s ∈ es.map Spot.scope) ∧ Ordered es

theorem Ordered.append {es fs : List Spot} (he : Ordered es) (hf : Ordered fs) :
    Ordered (es ++ fs) := by
  induction es with
  | nil => exact hf
  | cons e es ih =>
      rw [List.cons_append]
      refine ⟨fun s hs => ?_, ih he.2⟩
      rw [List.map_append]
      exact List.mem_append_left _ (he.1 s hs)

theorem run_subset (c : NodeId) (ms : List Mold) {s : ScopeId} (hs : s ∈ run ms) :
    s ∈ (spots (partsAll c ms)).map Spot.scope := by
  induction ms with
  | nil => simp [run] at hs
  | cons m ms ih =>
      cases m with
      | still id kind span items => simp [run] at hs
      | slot id span path => simp [run] at hs
      | each x s' pattern =>
          rw [run] at hs
          rw [partsAll_each]
          rcases List.mem_cons.1 hs with rfl | hs
          · exact List.mem_cons_self ..
          · exact List.mem_cons_of_mem _ (ih hs)

/-- **Places with the same anchor come in order.** -/
theorem ordered_spots (c : NodeId) (ms : List Mold) : Ordered (spots (partsAll c ms)) := by
  induction ms using forest_induction generalizing c with
  | nil => trivial
  | still id kind span items rest ihitems ihrest =>
      rw [partsAll_still]
      have h : spots (.still (some c) id kind span items :: (partsAll id items ++ partsAll c rest)) =
          spots (partsAll id items) ++ spots (partsAll c rest) := by
        rw [spots, List.filterMap_cons_none rfl, List.filterMap_append]
        rfl
      rw [h]
      exact (ihitems id).append (ihrest c)
  | slot id span path rest ih =>
      rw [partsAll_slot]
      exact ih c
  | each x s pattern rest _ ih =>
      rw [partsAll_each]
      exact ⟨fun s hs => run_subset c rest hs, ih c⟩

theorem ordered_level (p : Option NodeId) (id : NodeId) (kind : NodeKind) (span : Option Span)
    (items : List Mold) : Ordered (spots (level p id kind span items)) :=
  ordered_spots id items

end Mold

end PageTemplate.Binding
