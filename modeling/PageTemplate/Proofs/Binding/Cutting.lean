/-
**Cutting the text of a part of a document.**

When the repeated elements are out of the way, the text nodes that are left are cut into pieces: the
first piece stays in the slot of the node, and the others come into new slots right behind it.  Where
the pieces are placeholders the nodes become slots.  Nothing else changes, so each node keeps its
children, with more text nodes among them.

Main definitions:

* `PageTemplate.Binding.Laid` — how trees are bound, where the patterns of their repeated elements are
  bound already;
* `PageTemplate.Binding.Mark.Fits` — a repeated element and its pattern, at every depth;
* `PageTemplate.Binding.Mold.bareAll` — the nodes of molds with nothing shown in them;
* `PageTemplate.Binding.Cut` — a document after the text of some trees has been cut.

Main results:

* `PageTemplate.Binding.Laid.shownAll` — what is laid out means what the trees mean;
* `PageTemplate.Binding.cut_layOut` — the pieces of one text;
* `PageTemplate.Binding.Bindable.extract` — cutting all text below a node.
-/

import PageTemplate.Proofs.Binding.Directives
import PageTemplate.Proofs.Binding.Settled

set_option relaxedAutoImplicit false
set_option autoImplicit false

namespace PageTemplate.Binding

open PageTemplate.Data PageTemplate.Markup PageTemplate.Text

/-! ### Pieces -/

/-- The pieces of a text, where the empty text is one piece. -/
def textPieces (t : String) : List Piece :=
  match pieces t.toList with
  | [] => [.literal []]
  | ps => ps

theorem textPieces_ne_nil (t : String) : textPieces t ≠ [] := by
  unfold textPieces
  split
  · simp
  · assumption

/-- The text for a text shows its pieces. -/
theorem splitText_eq (env : Env) (t : String) :
    splitText env t = (textPieces t).map fun p => String.ofList (p.shown env) := by
  unfold splitText textPieces
  cases hp : pieces t.toList with
  | nil =>
      have ht : t = "" := by
        rw [← String.toList_inj, pieces_eq_nil_iff.1 hp]
        rfl
      subst ht
      rfl
  | cons p ps => rfl

/-- The mold of a piece. -/
def Piece.mold (span : Option Span) : NodeId → Piece → Mold
  | id, literal cs => .still id (.text (String.ofList cs)) span []
  | id, slot path => .slot id span (String.ofList path)

/-- The path of a placeholder is not empty. -/
theorem path_ne_nil_of_placeholderAt? {cs : List Char} {p : List Char × List Char}
    (h : placeholderAt? cs = some p) : p.1 ≠ [] := by
  unfold placeholderAt? at h
  split at h
  · simp only at h
    split at h
    · split at h
      · cases h
      · rename_i hne
        cases h
        exact hne
    · cases h
  · cases h

theorem path_ne_nil_of_findPlaceholder? {cs : List Char} {p : Placeholder}
    (h : findPlaceholder? cs = some p) : p.path ≠ [] := by
  induction cs generalizing p with
  | nil => cases h
  | cons c cs ih =>
      rw [findPlaceholder?] at h
      split at h
      · rename_i path rest hp
        cases h
        exact path_ne_nil_of_placeholderAt? hp
      · obtain ⟨q, hq, rfl⟩ := Option.map_eq_some_iff.1 h
        exact ih (p := q) hq

theorem path_ne_nil_of_mem_pieces {cs path : List Char} (h : Piece.slot path ∈ pieces cs) :
    path ≠ [] := by
  have hliteral : ∀ cs : List Char, Piece.slot path ∉ Piece.ofLiteral cs := by
    intro cs
    unfold Piece.ofLiteral
    split <;> simp
  induction hlen : cs.length using Nat.strong_induction_on generalizing cs with
  | _ n ih =>
      subst hlen
      cases hp : findPlaceholder? cs with
      | none =>
          rw [pieces_of_none hp] at h
          exact absurd h (hliteral cs)
      | some p =>
          rw [pieces_of_some hp] at h
          rcases List.mem_append.1 h with h | h
          · exact absurd h (hliteral _)
          · rcases List.mem_cons.1 h with h | h
            · cases h
              exact path_ne_nil_of_findPlaceholder? hp
            · exact ih _ (length_of_findPlaceholder? hp) h rfl

/-! ### Laying out -/

/-- How trees are bound, where the pattern of a repeated element is known from its slot, and so is the
scope of the pattern: text becomes the molds of its pieces, in slots of which the first is that of the
text. -/
inductive Laid (mark : String) (scope : NodeId → ScopeId) (pattern : NodeId → Mold) :
    List Placed → List Mold → Prop
  | nil : Laid mark scope pattern [] []
  | text (id : NodeId) (t : String) (span : Option Span) (ids : List NodeId) {rest : List Placed}
      {ms : List Mold} (hids : ids.length + 1 = (textPieces t).length)
      (h : Laid mark scope pattern rest ms) :
      Laid mark scope pattern (.node id (.text t) span [] :: rest)
        ((id :: ids).zipWith (Piece.mold span) (textPieces t) ++ ms)
  | leaf (id : NodeId) {kind : NodeKind} (span : Option Span) {rest : List Placed}
      {ms : List Mold} (ht : kind.text? = none) (he : kind.element? = none)
      (h : Laid mark scope pattern rest ms) :
      Laid mark scope pattern (.node id kind span [] :: rest) (.still id kind span [] :: ms)
  | plain (id : NodeId) {e : Element} (span : Option Span) {cs rest : List Placed}
      {items ms : List Mold} (he : e.hasAttribute mark = false)
      (hcs : Laid mark scope pattern cs items) (h : Laid mark scope pattern rest ms) :
      Laid mark scope pattern (.node id (.element e) span cs :: rest)
        (.still id (.element e) span items :: ms)
  | marked (id : NodeId) {e : Element} {x : RepeatExpression} (span : Option Span)
      {cs rest : List Placed} {ms : List Mold} (he : e.repeat? mark = some x)
      (h : Laid mark scope pattern rest ms) :
      Laid mark scope pattern (.node id (.element e) span cs :: rest)
        (.each x (scope id) (pattern id) :: ms)

variable {mark : String} {scope : NodeId → ScopeId} {pattern : NodeId → Mold}

theorem Mold.shownAll_append (env : Env) (ms ns : List Mold) :
    Mold.shownAll env (ms ++ ns) = Mold.shownAll env ms ++ Mold.shownAll env ns := by
  induction ms with
  | nil => rfl
  | cons m ms ih => rw [List.cons_append, Mold.shownAll, Mold.shownAll, ih, List.append_assoc]

/-- The pieces of a text show what is put for it. -/
theorem shownAll_pieces (env : Env) (span : Option Span) (ids : List NodeId) (ps : List Piece)
    (h : ids.length = ps.length) :
    Mold.shownAll env (ids.zipWith (Piece.mold span) ps) =
      (ps.map fun p => String.ofList (p.shown env)).map fun u => .node (.text u) span [] := by
  induction ps generalizing ids with
  | nil =>
      cases ids with
      | nil => rfl
      | cons i ids => cases h
  | cons p ps ih =>
      cases ids with
      | nil => cases h
      | cons i ids =>
          rw [List.zipWith_cons_cons, Mold.shownAll, ih ids (Nat.succ.inj h)]
          cases p with
          | literal cs => rfl
          | slot path =>
              rw [Piece.mold, Mold.shown, List.map_cons, List.map_cons, Piece.shown]
              simp

/-- What a repeated element means, if its pattern is bound as it should be. -/
def Mark.Means (mark : String) (m : Mark) (pattern : Mold) : Prop :=
  ∀ env, pattern.shown env = [.node (.element (m.element.eraseAttribute mark)) m.span
    (Tree.expandAll splitText mark env (m.children.map Placed.tree))]

/-- **What is laid out means what the trees mean.** -/
theorem Laid.shownAll {ts : List Placed} {ms : List Mold} (h : Laid mark scope pattern ts ms)
    {c : NodeId} (hp : ∀ m ∈ marksAll mark c ts, m.Means mark (pattern m.id)) (env : Env) :
    Mold.shownAll env ms = Tree.expandAll splitText mark env (ts.map Placed.tree) := by
  induction h generalizing c with
  | nil => rfl
  | @text id t span ids rest ms hids _ ih =>
      rw [marksAll_leaf _ _ _ _ _ rfl] at hp
      rw [Mold.shownAll_append, ih hp, List.map_cons, Placed.tree_node, Tree.expandAll,
        Tree.expand_text, splitText_eq, shownAll_pieces env span (id :: ids) _ hids]
  | @leaf id kind span rest ms ht he _ ih =>
      rw [marksAll_leaf _ _ _ _ _ he] at hp
      rw [Mold.shownAll, Mold.shown, ih hp, List.map_cons, Placed.tree_node, Tree.expandAll]
      cases kind with
      | element e => cases he
      | text t => cases ht
      | document | comment _ | doctype _ => rfl
  | @plain id e span cs rest items ms he _ _ ihcs ih =>
      rw [marksAll_plain _ _ _ _ _ he] at hp
      rw [Mold.shownAll, Mold.shown, ihcs fun m hm => hp m (List.mem_append_left _ hm),
        ih fun m hm => hp m (List.mem_append_right _ hm), List.map_cons, Placed.tree_node,
        Tree.expandAll, Tree.expand_element_of_none _ _ (repeat?_of_not_hasAttribute he)]
  | @marked id e x span cs rest ms he _ ih =>
      rw [marksAll_marked _ _ _ _ _ (hasAttribute_of_repeat? he)] at hp
      have hmeans := hp _ (List.mem_cons_self ..)
      have hitems : ((env.items x.collection).flatMap fun v =>
          (pattern id).shown (Env.frame x.item v :: env)) =
          (env.items x.collection).map fun v => .node (.element (e.eraseAttribute mark)) span
            (Tree.expandAll splitText mark (Env.frame x.item v :: env) (cs.map Placed.tree)) := by
        rw [List.map_eq_flatMap]
        exact List.flatMap_congr fun v _ => hmeans _
      rw [Mold.shownAll, Mold.shown, ih fun m hm => hp m (List.mem_cons_of_mem _ hm), List.map_cons,
        Placed.tree_node, Tree.expandAll, Tree.expand_element_of_some _ _ he, hitems]

/-- A repeated element fits its pattern: this is the element without its directive, and in it the
content is laid out, where repeated elements fit their patterns in turn. -/
inductive Mark.Fits (mark : String) : Mark → Mold → Prop
  | intro {m : Mark} {items : List Mold} {scope : NodeId → ScopeId} {pattern : NodeId → Mold}
      (hlaid : Laid mark scope pattern m.children items)
      (h : ∀ m' ∈ marksAll mark m.id m.children, Fits mark m' (pattern m'.id)) :
      Fits mark m (.still m.id (.element (m.element.eraseAttribute mark)) m.span items)

/-- A pattern that its element fits means what the element means. -/
theorem Mark.Fits.means {m : Mark} {pattern : Mold} (h : m.Fits mark pattern) :
    m.Means mark pattern := by
  induction h with
  | intro hlaid _ ih =>
      intro env
      rw [Mold.shown, hlaid.shownAll ih]

/-! ### Documents with text that has been cut -/

theorem Mold.placedAll_append (text : NodeId → String) (copies : ScopeId → List Placed)
    (ms ns : List Mold) :
    Mold.placedAll text copies (ms ++ ns) =
      Mold.placedAll text copies ms ++ Mold.placedAll text copies ns := by
  induction ms with
  | nil => rfl
  | cons m ms ih => rw [List.cons_append, Mold.placedAll, Mold.placedAll, ih, List.append_assoc]

/-- The nodes of molds with nothing shown in them. -/
abbrev Mold.bareAll (ms : List Mold) : List Placed :=
  Mold.placedAll (fun _ => "") (fun _ => []) ms

/-- The slots of the nodes of molds with nothing shown in them. -/
abbrev Mold.bareIds (ms : List Mold) : List NodeId := (Mold.bareAll ms).flatMap Placed.ids

theorem Mold.bareIds_append (ms ns : List Mold) :
    Mold.bareIds (ms ++ ns) = Mold.bareIds ms ++ Mold.bareIds ns := by
  rw [Mold.bareIds, Mold.bareAll, Mold.placedAll_append, List.flatMap_append]

theorem Mold.bareIds_still (id : NodeId) (kind : NodeKind) (span : Option Span) (ms : List Mold) :
    Mold.bareIds [.still id kind span ms] = id :: Mold.bareIds ms := by
  simp [Mold.bareIds, Mold.placedAll, Mold.placed]

theorem Mold.bareAll_mold (span : Option Span) (id : NodeId) (p : Piece) (ms : List Mold) :
    Mold.bareAll (p.mold span id :: ms) =
      .node id (.text (String.ofList p.text)) span [] :: Mold.bareAll ms := by
  cases p <;> rfl

theorem Mold.bareIds_mold (span : Option Span) (id : NodeId) (p : Piece) (ms : List Mold) :
    Mold.bareIds (p.mold span id :: ms) = id :: Mold.bareIds ms := by
  rw [Mold.bareIds, Mold.bareAll_mold, List.flatMap_cons, Placed.ids_node]
  rfl

/-- A node has these children, each of them once, and they are live. -/
structure Row (d : Document) (c : NodeId) (n : Node) (xs : List NodeId) : Prop where
  get? : d.get? c = some { n with children := xs }
  nodup : xs.Nodup
  live : ∀ i ∈ xs, ∃ m, d.get? i = some m

/-- The document `e` comes from `d` when the text of the trees `us` is cut, which stand below `c`
between the siblings `pre` and `post`. -/
structure Cut (d e : Document) (c : NodeId) (n : Node) (pre : List NodeId) (us : List Placed)
    (post : List NodeId) (ms : List Mold) : Prop where
  sound : e.Sound
  before : Row d c n (pre ++ us.map Placed.id ++ post)
  after : Row e c n (pre ++ (Mold.bareAll ms).map Placed.id ++ post)
  holds : ∀ t ∈ Mold.bareAll ms, e.Holds (some c) t
  nodup : (Mold.bareIds ms).Nodup
  within : ∀ i ∈ Mold.bareIds ms, i ∈ us.flatMap Placed.ids ∨ d.get? i = none
  covers : ∀ i ∈ us.flatMap Placed.ids, i ∈ Mold.bareIds ms
  keeps : ∀ i, i ≠ c → i ∉ Mold.bareIds ms → e.get? i = d.get? i

section Cut

variable {d e f : Document} {c : NodeId} {n : Node} {pre post pre' post' : List NodeId}
  {us vs : List Placed} {ms ns : List Mold}

/-- A live node that was in none of the trees is in none of the new nodes. -/
theorem Cut.notMem (h : Cut d e c n pre us post ms) {i : NodeId} {m : Node}
    (hi : d.get? i = some m) (hus : i ∉ us.flatMap Placed.ids) : i ∉ Mold.bareIds ms := by
  intro hmem
  rcases h.within i hmem with h' | h'
  · exact hus h'
  · rw [hi] at h'
    cases h'

/-- A held tree that shares no slot with the trees stays where it is. -/
theorem Cut.holds_of (h : Cut d e c n pre us post ms) {p : Option NodeId} {t : Placed}
    (ht : d.Holds p t) (hc : c ∉ t.ids) (hdis : ∀ i ∈ t.ids, i ∉ us.flatMap Placed.ids) :
    e.Holds p t := by
  refine ht.congr fun i hi => ?_
  obtain ⟨m, hm⟩ := ht.live hi
  refine h.keeps i ?_ (h.notMem hm (hdis i hi))
  rintro rfl
  exact hc hi

/-- New nodes are live. -/
theorem Cut.live (h : Cut d e c n pre us post ms) {i : NodeId} (hi : i ∈ Mold.bareIds ms) :
    ∃ m, e.get? i = some m := by
  obtain ⟨t, ht, hit⟩ := List.mem_flatMap.1 hi
  exact (h.holds t ht).live hit

/-- What is dead after cutting was dead before. -/
theorem Cut.dead (h : Cut d e c n pre us post ms) {i : NodeId} (hi : e.get? i = none) :
    d.get? i = none := by
  have hic : i ≠ c := by
    rintro rfl
    rw [h.after.get?] at hi
    cases hi
  have hims : i ∉ Mold.bareIds ms := by
    intro hmem
    obtain ⟨m, hm⟩ := h.live hmem
    rw [hi] at hm
    cases hm
  rw [← h.keeps i hic hims, hi]

/-- The nodes of trees that stand behind those that are cut are not cut with them. -/
theorem Cut.disjoint (h : Cut d e c n pre us post ms) (k : Cut e f c n pre' vs post' ns)
    (hvs : ∀ t ∈ vs, d.Holds (some c) t)
    (hdis : ∀ i ∈ us.flatMap Placed.ids, i ∉ vs.flatMap Placed.ids) :
    ∀ i ∈ Mold.bareIds ms, i ∉ Mold.bareIds ns := by
  intro i hi hi'
  rcases k.within i hi' with hv | hnone
  · obtain ⟨t, ht, hit⟩ := List.mem_flatMap.1 hv
    obtain ⟨m, hm⟩ := (hvs t ht).live hit
    exact h.notMem hm (fun hu => hdis i hu hv) hi
  · obtain ⟨m, hm⟩ := h.live hi
    rw [hm] at hnone
    cases hnone

/-- **Cutting some trees and then those behind them.** -/
theorem Cut.append (h : Cut d e c n pre us (vs.map Placed.id ++ post) ms)
    (k : Cut e f c n (pre ++ (Mold.bareAll ms).map Placed.id) vs post ns)
    (hn : (c :: (us ++ vs).flatMap Placed.ids).Nodup) (hvs : ∀ t ∈ vs, d.Holds (some c) t) :
    Cut d f c n pre (us ++ vs) post (ms ++ ns) := by
  rw [List.flatMap_append, List.nodup_cons, List.mem_append, not_or] at hn
  obtain ⟨⟨hcus, _⟩, hn⟩ := hn
  obtain ⟨_, _, hdis⟩ := List.nodup_append.1 hn
  have hnew := h.disjoint k hvs fun i hu hv => hdis i hu i hv rfl
  have hc : c ∉ Mold.bareIds ms := h.notMem h.before.get? hcus
  refine ⟨k.sound, ?before, ?after, ?holds, ?nodup, ?within, ?covers, ?keeps⟩
  case before =>
    simpa using h.before
  case after =>
    have hafter := k.after
    simpa [Mold.placedAll_append] using hafter
  case holds =>
    intro t ht
    rw [Mold.bareAll, Mold.placedAll_append] at ht
    rcases List.mem_append.1 ht with ht | ht
    · refine (h.holds t ht).congr fun i hi => ?_
      have hmem : i ∈ Mold.bareIds ms := List.mem_flatMap.2 ⟨t, ht, hi⟩
      exact k.keeps i (fun hic => hc (hic ▸ hmem)) (hnew i hmem)
    · exact k.holds t ht
  case nodup =>
    rw [Mold.bareIds_append]
    exact List.nodup_append.2 ⟨h.nodup, k.nodup, fun i hi j hj e => hnew i hi (e ▸ hj)⟩
  case within =>
    intro i hi
    rw [Mold.bareIds_append] at hi
    rw [List.flatMap_append, List.mem_append]
    rcases List.mem_append.1 hi with hi | hi
    · exact (h.within i hi).imp_left .inl
    · exact (k.within i hi).imp .inr h.dead
  case covers =>
    intro i hi
    rw [Mold.bareIds_append]
    rw [List.flatMap_append] at hi
    exact List.mem_append.2 ((List.mem_append.1 hi).imp (h.covers i) (k.covers i))
  case keeps =>
    intro i hic hi
    rw [Mold.bareIds_append, List.mem_append, not_or] at hi
    rw [k.keeps i hic hi.2, h.keeps i hic hi.1]

/-- Where there is nothing to cut, nothing changes. -/
theorem cut_nil (hd : d.Sound) (h : Row d c n (pre ++ post)) : Cut d d c n pre [] post [] where
  sound := hd
  before := by simpa using h
  after := by simpa [Mold.placedAll] using h
  holds := by simp [Mold.placedAll]
  nodup := by simp [Mold.bareIds, Mold.placedAll]
  within := by simp [Mold.placedAll]
  covers := by simp
  keeps _ _ _ := rfl

/-- A leaf that is no text stays as it is. -/
theorem cut_leaf {id : NodeId} {kind : NodeKind} {span : Option Span} (hd : d.Sound)
    (h : Row d c n (pre ++ id :: post)) (ht : d.Holds (some c) (.node id kind span [])) :
    Cut d d c n pre [.node id kind span []] post [.still id kind span []] where
  sound := hd
  before := by simpa using h
  after := by simpa [Mold.placedAll, Mold.placed] using h
  holds := by simpa [Mold.placedAll, Mold.placed] using ht
  nodup := by simp [Mold.bareIds, Mold.placedAll, Mold.placed]
  within := by simp [Mold.placedAll, Mold.placed]
  covers := by simp [Mold.placedAll, Mold.placed]
  keeps _ _ _ := rfl

/-- A place for copies has no nodes. -/
theorem Cut.each (h : Cut d e c n pre us post ms) (x : RepeatExpression) (s : ScopeId) (m : Mold) :
    Cut d e c n pre us post (.each x s m :: ms) :=
  ⟨h.sound, h.before, h.after, h.holds, h.nodup, h.within, h.covers, h.keeps⟩

/-- The text below a node has been cut. -/
theorem Cut.still {id : NodeId} {kind : NodeKind} {span : Option Span}
    (h : Cut d e id ⟨kind, some c, [], span⟩ [] us [] ms) (hrow : Row d c n (pre ++ id :: post))
    (hn : (c :: (Placed.node id kind span us).ids).Nodup) :
    Cut d e c n pre [.node id kind span us] post [.still id kind span ms] := by
  rw [List.nodup_cons, Placed.ids_node, List.mem_cons, not_or, List.nodup_cons] at hn
  obtain ⟨⟨hcid, hcus⟩, hid, _⟩ := hn
  have hbare : Mold.bareAll [.still id kind span ms] =
      [.node id kind span (Mold.bareAll ms)] := rfl
  have hids := Mold.bareIds_still id kind span ms
  have hcms : c ∉ Mold.bareIds ms := h.notMem hrow.get? hcus
  have hget : e.get? id = some ⟨kind, some c, (Mold.bareAll ms).map Placed.id, span⟩ := by
    simpa using h.after.get?
  have hrow' : Row e c n (pre ++ id :: post) := by
    refine ⟨?_, hrow.nodup, fun i hi => ?_⟩
    · rw [h.keeps c hcid hcms, hrow.get?]
    · by_cases hiid : i = id
      · exact ⟨_, hiid ▸ hget⟩
      · by_cases hims : i ∈ Mold.bareIds ms
        · exact h.live hims
        · rw [h.keeps i hiid hims]
          exact hrow.live i hi
  refine ⟨h.sound, by simpa using hrow, by simpa [hbare] using hrow', ?holds, ?nodup, ?within,
    ?covers, ?keeps⟩
  case holds =>
    intro t ht
    rw [hbare, List.mem_singleton] at ht
    subst ht
    exact .node hget h.holds
  case nodup =>
    rw [hids, List.nodup_cons]
    exact ⟨h.notMem h.before.get? hid, h.nodup⟩
  case within =>
    intro i hi
    rw [hids] at hi
    simp only [List.flatMap_cons, List.flatMap_nil, List.append_nil, Placed.ids_node]
    rcases List.mem_cons.1 hi with rfl | hi
    · exact .inl (List.mem_cons_self ..)
    · exact (h.within i hi).imp_left (List.mem_cons_of_mem _)
  case covers =>
    intro i hi
    rw [hids]
    simp only [List.flatMap_cons, List.flatMap_nil, List.append_nil, Placed.ids_node] at hi
    rcases List.mem_cons.1 hi with rfl | hi
    · exact List.mem_cons_self ..
    · exact List.mem_cons_of_mem _ (h.covers i hi)
  case keeps =>
    intro i _ hi
    rw [hids, List.mem_cons, not_or] at hi
    exact h.keeps i hi.1 hi.2

/-! ### One text -/

theorem slotList_append (ps qs : List Part) : slotList (ps ++ qs) = slotList ps ++ slotList qs :=
  List.filterMap_append ..

theorem Slots.ofList_append_singleton (l : List (String × NodeId)) (p : String × NodeId) :
    Slots.ofList (l ++ [p]) = (Slots.ofList l).add p.1 p.2 := by
  rw [Slots.ofList, List.foldl_append]
  rfl

theorem Mold.partsAll_append_slots (c : NodeId) (ms ns : List Mold) :
    slotList (Mold.partsAll c (ms ++ ns)) =
      slotList (Mold.partsAll c ms) ++ slotList (Mold.partsAll c ns) := by
  induction ms with
  | nil => rfl
  | cons m ms ih =>
      rw [List.cons_append, Mold.partsAll, Mold.partsAll, slotList_append, slotList_append, ih,
        List.append_assoc]
      cases m <;> rfl

/-- The slot that a piece makes of its node. -/
def Piece.slots (id : NodeId) : Piece → List (String × NodeId)
  | literal _ => []
  | slot path => [(String.ofList path, id)]

theorem slotList_mold (c : NodeId) (span : Option Span) (id : NodeId) (p : Piece) (ms : List Mold) :
    slotList (Mold.partsAll c (p.mold span id :: ms)) =
      p.slots id ++ slotList (Mold.partsAll c ms) := by
  cases p with
  | literal cs =>
      rw [Piece.mold, Mold.partsAll_still]
      rfl
  | slot path =>
      rw [Piece.mold, Mold.partsAll_slot]
      rfl

/-- What laying out pieces does with the first one. -/
theorem layOut_cons (d : Document) (l : List (String × NodeId)) (id : NodeId) (p q : Piece)
    (rest : List Piece) :
    layOut d (.ofList l) id (p :: q :: rest) =
      layOut (d.divide id (String.ofList p.text) "").1 (.ofList (l ++ p.slots id))
        (d.divide id (String.ofList p.text) "").2 (q :: rest) := by
  cases p with
  | literal cs =>
      rw [layOut, Piece.slots, List.append_nil]
  | slot path =>
      rw [layOut, Piece.slots, Slots.ofList_append_singleton]

theorem layOut_singleton (d : Document) (l : List (String × NodeId)) (id : NodeId) (p : Piece) :
    layOut d (.ofList l) id [p] =
      (d.setText id (String.ofList p.text), .ofList (l ++ p.slots id)) := by
  cases p with
  | literal cs =>
      rw [layOut, Piece.slots, List.append_nil]
  | slot path =>
      rw [layOut, Piece.slots, Slots.ofList_append_singleton]

/-- One piece stays in the node of the text. -/
theorem cut_setText (hd : d.Sound) (p : Piece) {id : NodeId} {t : String} {span : Option Span}
    (hid : d.get? id = some ⟨.text t, some c, [], span⟩) (hrow : Row d c n (pre ++ id :: post))
    (hc : c ≠ id) :
    Cut d (d.setText id (String.ofList p.text)) c n pre [.node id (.text t) span []] post
      [p.mold span id] := by
  have hget := Document.get?_setText_self hid (String.ofList p.text)
  have hkeep : ∀ i, i ≠ id → (d.setText id (String.ofList p.text)).get? i = d.get? i :=
    fun i hi => Document.get?_setText_of_ne hi _
  have hbare : Mold.bareAll [p.mold span id] =
      [.node id (.text (String.ofList p.text)) span []] := Mold.bareAll_mold span id p []
  have hids : Mold.bareIds [p.mold span id] = [id] := Mold.bareIds_mold span id p []
  refine ⟨hd.setText _ _, by simpa using hrow, ?after, ?holds, ?nodup, ?within, ?covers, ?keeps⟩
  case after =>
    rw [hbare]
    refine ⟨?_, by simpa using hrow.nodup, fun i hi => ?_⟩
    · rw [hkeep c hc, hrow.get?]
      simp
    · by_cases hi' : i = id
      · rw [hi']
        exact ⟨_, hget⟩
      · rw [hkeep i hi']
        exact hrow.live i (by simpa using hi)
  case holds =>
    intro u hu
    rw [hbare, List.mem_singleton] at hu
    subst hu
    exact .node hget (by simp)
  case nodup =>
    rw [hids]
    exact List.nodup_singleton id
  case within =>
    rw [hids]
    exact fun i hi => .inl (by simpa using hi)
  case covers =>
    rw [hids]
    exact fun i hi => by simpa using hi
  case keeps =>
    rw [hids]
    exact fun i _ hi => hkeep i (by simpa using hi)

/-- The node that a text is divided from has siblings again. -/
theorem Row.divide {id next : NodeId} (hrow : Row d c n (pre ++ id :: post))
    (hnew : d.get? next = none) (hget : ∃ m, e.get? id = some m) (hgetnew : ∃ m, e.get? next = some m)
    (hgetc : e.get? c = some { n with children := pre ++ id :: next :: post })
    (hkeep : ∀ i, i ≠ id → i ≠ next → i ≠ c → e.get? i = d.get? i) :
    Row e c n ((pre ++ [id]) ++ next :: post) := by
  refine ⟨by simpa using hgetc, ?_, fun i hi => ?_⟩
  · have hnotMem : next ∉ pre ++ id :: post := by
      intro hmem
      obtain ⟨m, hm⟩ := hrow.live next hmem
      rw [hnew] at hm
      cases hm
    have hperm : ((pre ++ [id]) ++ next :: post).Perm (next :: (pre ++ id :: post)) := by
      have hmiddle : ((pre ++ [id]) ++ next :: post).Perm (next :: ((pre ++ [id]) ++ post)) :=
        List.perm_middle
      simpa using hmiddle
    exact hperm.nodup_iff.2 (List.nodup_cons.2 ⟨hnotMem, hrow.nodup⟩)
  · by_cases hinext : i = next
    · exact hinext ▸ hgetnew
    · by_cases hiid : i = id
      · exact hiid ▸ hget
      · by_cases hic : i = c
        · exact ⟨_, hic ▸ hgetc⟩
        · rw [hkeep i hiid hinext hic]
          refine hrow.live i ?_
          simpa [hinext] using hi

/-- The first piece stays in the node of the text, and the others come into a new one behind it,
which is cut itself. -/
theorem Cut.divide {p : Piece} {id next : NodeId} {t : String} {span : Option Span}
    (h : Cut e f c n (pre ++ [id]) [.node next (.text "") span []] post ms)
    (hrow : Row d c n (pre ++ id :: post)) (hid : ∃ m, d.get? id = some m) (hc : c ≠ id)
    (hnew : d.get? next = none)
    (hget : e.get? id = some ⟨.text (String.ofList p.text), some c, [], span⟩)
    (hkeep : ∀ i, i ≠ id → i ≠ next → i ≠ c → e.get? i = d.get? i) :
    Cut d f c n pre [.node id (.text t) span []] post (p.mold span id :: ms) := by
  have hids := Mold.bareIds_mold span id p ms
  have hne : id ≠ next := by
    rintro rfl
    obtain ⟨m, hm⟩ := hid
    rw [hnew] at hm
    cases hm
  have hidms : id ∉ Mold.bareIds ms := h.notMem hget (by simpa using hne)
  have hnext : next ∈ Mold.bareIds ms := h.covers next (by simp)
  -- what is dead behind the division was dead before it
  have hdead : ∀ i ∈ Mold.bareIds ms, i ≠ next → e.get? i = none → d.get? i = none := by
    intro i hims hinext hnone
    rw [← hkeep i (ne_of_mem_of_not_mem hims hidms) hinext ?_, hnone]
    rintro rfl
    rw [h.before.get?] at hnone
    cases hnone
  refine ⟨h.sound, by simpa using hrow, ?after, ?holds, ?nodup, ?within, ?covers, ?keeps⟩
  case after =>
    rw [Mold.bareAll_mold]
    simpa using h.after
  case holds =>
    intro u hu
    rw [Mold.bareAll_mold] at hu
    rcases List.mem_cons.1 hu with rfl | hu
    · refine .node ?_ (by simp)
      rw [h.keeps id (Ne.symm hc) hidms, hget]
      rfl
    · exact h.holds u hu
  case nodup =>
    rw [hids]
    exact List.nodup_cons.2 ⟨hidms, h.nodup⟩
  case within =>
    intro i hi
    rw [hids] at hi
    rcases List.mem_cons.1 hi with rfl | hims
    · exact .inl (by simp)
    · by_cases hinext : i = next
      · exact .inr (hinext ▸ hnew)
      · have hnone : e.get? i = none := (h.within i hims).resolve_left (by simpa using hinext)
        exact .inr (hdead i hims hinext hnone)
  case covers =>
    intro i hi
    have hi : i = id := by simpa using hi
    rw [hids, hi]
    exact List.mem_cons_self ..
  case keeps =>
    intro i hic hi
    rw [hids, List.mem_cons, not_or] at hi
    have hinext : i ≠ next := (ne_of_mem_of_not_mem hnext hi.2).symm
    rw [h.keeps i hic hi.2, hkeep i hi.1 hinext hic]

/-- **The pieces of one text.** -/
theorem cut_layOut (hd : d.Sound) (ps : List Piece) (hps : ps ≠ []) {id : NodeId} {t : String}
    {span : Option Span} (l : List (String × NodeId))
    (hid : d.get? id = some ⟨.text t, some c, [], span⟩) (hrow : Row d c n (pre ++ id :: post))
    (hc : c ≠ id) :
    ∃ ids e, ids.length + 1 = ps.length ∧
      layOut d (.ofList l) id ps = (e, .ofList (l ++ slotList
        (Mold.partsAll c ((id :: ids).zipWith (Piece.mold span) ps)))) ∧
      Cut d e c n pre [.node id (.text t) span []] post
        ((id :: ids).zipWith (Piece.mold span) ps) := by
  induction ps generalizing d id t pre l with
  | nil => exact absurd rfl hps
  | cons p ps ih =>
      cases ps with
      | nil =>
          refine ⟨[], _, rfl, ?_, cut_setText hd p hid hrow hc⟩
          rw [layOut_singleton, List.zipWith_cons_cons, List.zipWith_nil_right, slotList_mold]
          simp [Mold.partsAll, slotList]
      | cons q rest =>
          obtain ⟨hsound, hnew, hget, hgetnew, hgetc, hkeep⟩ := hd.divide hid hrow.get? rfl
            hrow.nodup hc (String.ofList p.text) ""
          rw [layOut_cons]
          have hcnext : c ≠ (d.divide id (String.ofList p.text) "").2 := by
            intro h
            rw [← h, hrow.get?] at hnew
            cases hnew
          have hrow' := hrow.divide hnew ⟨_, hget⟩ ⟨_, hgetnew⟩ hgetc hkeep
          obtain ⟨ids, e, hlen, hlay, hcut⟩ :=
            ih hsound (by simp) (l ++ p.slots id) hgetnew hrow' hcnext
          generalize (d.divide id (String.ofList p.text) "").2 = next at *
          have hslots : slotList (Mold.partsAll c
              ((id :: next :: ids).zipWith (Piece.mold span) (p :: q :: rest))) =
              p.slots id ++ slotList
                (Mold.partsAll c ((next :: ids).zipWith (Piece.mold span) (q :: rest))) :=
            slotList_mold c span id p _
          refine ⟨next :: ids, e, congrArg Nat.succ hlen, ?_,
            hcut.divide hrow ⟨_, hid⟩ hc hnew hget hkeep⟩
          rw [hslots, hlay, List.append_assoc]

end Cut

/-! ### All text below a node -/

/-- What is done for one child, behind the slots of the children before it. -/
def cutRound (fuel : Nat) : Document × Slots → NodeId → Document × Slots := fun (d, slots) child =>
  match d.kind? child with
  | some (.text _) => cutText d slots child
  | some (.element _) => extractTo fuel d slots child
  | _ => (d, slots)

theorem extractTo_succ (fuel : Nat) (d : Document) (slots : Slots) (node : NodeId) :
    extractTo (fuel + 1) d slots node = (d.children node).foldl (cutRound fuel) (d, slots) := rfl

/-- A change that leaves the node as it is. -/
theorem update_eq_self {d : Document} {id : NodeId} {n : Node} (h : d.get? id = some n)
    {f : Node → Node} (hf : f n = n) : d.update id f = d := by
  have hnodes : d.nodes.modify id (Option.map f) = d.nodes := by
    refine Array.ext_getElem? fun i => ?_
    rw [Array.getElem?_modify]
    split
    · rename_i hi
      subst hi
      rw [Document.get?_eq_some_iff.1 h]
      simp [hf]
    · rfl
  rw [Document.update, hnodes]

variable {mark : String} {scope : NodeId → ScopeId} {pattern : NodeId → Mold} {d : Document}

/-- A text is cut into its pieces, where the empty text is one piece. -/
theorem cutText_eq_layOut {id : NodeId} {t : String} {p : Option NodeId} {cs : List NodeId}
    {span : Option Span} (h : d.get? id = some ⟨.text t, p, cs, span⟩)
    (l : List (String × NodeId)) :
    cutText d (.ofList l) id = layOut d (.ofList l) id (textPieces t) := by
  have htext : d.text? id = some t := by simp [Document.text?, Document.kind?, h, NodeKind.text?]
  rw [cutText, htext, textPieces]
  cases hp : pieces t.toList with
  | cons p ps => simp only [hp]
  | nil =>
      -- the empty text is written once more
      have ht : t = "" := by
        rw [← String.toList_inj, pieces_eq_nil_iff.1 hp]
        rfl
      subst ht
      have hsame : d.setText id "" = d := update_eq_self h rfl
      simp only [hp]
      rw [layOut, layOut_singleton]
      simp [Piece.text, Piece.slots, hsame]

theorem cutRound_text {id : NodeId} {t : String} {p : Option NodeId} {cs : List NodeId}
    {span : Option Span} (h : d.get? id = some ⟨.text t, p, cs, span⟩) (fuel : Nat)
    (l : List (String × NodeId)) :
    cutRound fuel (d, .ofList l) id = layOut d (.ofList l) id (textPieces t) := by
  rw [← cutText_eq_layOut h]
  simp [cutRound, Document.kind?, h]

theorem cutRound_leaf {id : NodeId} {n : Node} (h : d.get? id = some n) (ht : n.kind.text? = none)
    (he : n.kind.element? = none) (fuel : Nat) (slots : Slots) :
    cutRound fuel (d, slots) id = (d, slots) := by
  obtain ⟨kind, p, cs, span⟩ := n
  cases kind with
  | text t => cases ht
  | element e => cases he
  | document | comment _ | doctype _ => simp [cutRound, Document.kind?, h]

theorem cutRound_element {id : NodeId} {e : Element} {p : Option NodeId} {cs : List NodeId}
    {span : Option Span} (h : d.get? id = some ⟨.element e, p, cs, span⟩) (fuel : Nat)
    (slots : Slots) :
    cutRound (fuel + 1) (d, slots) id = cs.foldl (cutRound fuel) (d, slots) := by
  simp [cutRound, Document.kind?, h, extractTo_succ, Document.children_of_get? h]

/-- The children of a node are a row. -/
theorem row_of_holds {c : NodeId} {n : Node} {ts : List Placed}
    (hget : d.get? c = some { n with children := ts.map Placed.id })
    (hts : ∀ t ∈ ts, d.Holds (some c) t) (hn : (ts.flatMap Placed.ids).Nodup) :
    Row d c n ([] ++ ts.map Placed.id ++ []) := by
  rw [List.nil_append, List.append_nil]
  refine ⟨hget, hn.sublist (Placed.map_id_sublist _), fun i hi => ?_⟩
  obtain ⟨t, ht, rfl⟩ := List.mem_map.1 hi
  exact ⟨_, (hts t ht).get?⟩

/-- The text of the tree `u` is cut, which is what is left of the tree `t` without its repeated
elements, and the tree `t` has become the molds `ms`. -/
structure CutsFirst (mark : String) (scope : NodeId → ScopeId) (pattern : NodeId → Mold) (fuel : Nat)
    (d e : Document) (c : NodeId) (n : Node) (pre : List NodeId) (t u : Placed) (post : List NodeId)
    (l : List (String × NodeId)) (ms : List Mold) : Prop where
  round : cutRound fuel (d, .ofList l) u.id = (e, .ofList (l ++ slotList (Mold.partsAll c ms)))
  cut : Cut d e c n pre [u] post ms
  laid : ∀ rest ns, Laid mark scope pattern rest ns →
    Laid mark scope pattern (t :: rest) (ms ++ ns)

section CutsFirst

variable {e : Document} {c id : NodeId} {n : Node} {pre post : List NodeId} {t u : Placed}
  {l : List (String × NodeId)} {ms items : List Mold} {fuel : Nat} {us cs rest : List Placed}
  {kind : NodeKind} {a : Element} {span : Option Span}

/-- The first tree is cut, and then those behind it. -/
theorem CutsFirst.cons
    (h : CutsFirst mark scope pattern fuel d e c n pre t u (us.map Placed.id ++ post) l ms)
    (hts : ∀ t ∈ us, d.Holds (some c) t) (hn : (c :: (u :: us).flatMap Placed.ids).Nodup)
    (hrest : ∀ (l : List (String × NodeId)) (pre : List NodeId),
      Row e c n (pre ++ us.map Placed.id ++ post) → (∀ t ∈ us, e.Holds (some c) t) →
      ∃ ns f, (us.map Placed.id).foldl (cutRound fuel) (e, .ofList l) =
          (f, .ofList (l ++ slotList (Mold.partsAll c ns))) ∧
        Laid mark scope pattern rest ns ∧ Cut e f c n pre us post ns) :
    ∃ ns f, ((u :: us).map Placed.id).foldl (cutRound fuel) (d, .ofList l) =
        (f, .ofList (l ++ slotList (Mold.partsAll c ns))) ∧
      Laid mark scope pattern (t :: rest) ns ∧ Cut d f c n pre (u :: us) post ns := by
  have hn' := hn
  rw [List.nodup_cons, List.flatMap_cons, List.mem_append, not_or] at hn'
  obtain ⟨⟨_, hcus⟩, hids⟩ := hn'
  obtain ⟨_, _, hdis⟩ := List.nodup_append.1 hids
  have hheld : ∀ t ∈ us, e.Holds (some c) t := by
    intro t ht
    refine h.cut.holds_of (hts t ht) ?_ fun i hi hu => ?_
    · exact fun hc => hcus (List.mem_flatMap.2 ⟨t, ht, hc⟩)
    · exact hdis i (by simpa using hu) i (List.mem_flatMap.2 ⟨t, ht, hi⟩) rfl
  obtain ⟨ns, f, hfold, hlaid, hcut⟩ := hrest (l ++ slotList (Mold.partsAll c ms))
    (pre ++ (Mold.bareAll ms).map Placed.id) (by simpa using h.cut.after) hheld
  refine ⟨ms ++ ns, f, ?_, h.laid rest ns hlaid, h.cut.append hcut hn hts⟩
  rw [List.map_cons, List.foldl_cons, h.round, hfold, Mold.partsAll_append_slots, List.append_assoc]

variable (mark scope pattern l fuel) in
/-- A tree without an element is a text, which is cut, or stays as it is. -/
theorem exists_cutsFirst_leaf (hd : d.Sound) (he : kind.element? = none)
    (hheld : d.Holds (some c) (.node id kind span [])) (hrow : Row d c n (pre ++ id :: post))
    (hc : c ≠ id) :
    ∃ e ms, CutsFirst mark scope pattern fuel d e c n pre (.node id kind span [])
      (.node id kind span []) post l ms := by
  have hget : d.get? id = some ⟨kind, some c, [], span⟩ := hheld.get?
  cases ht : kind.text? with
  | some t =>
      obtain rfl : kind = .text t := by
        cases kind with
        | text u =>
            cases ht
            rfl
        | _ => cases ht
      obtain ⟨ids, e, hlen, hlay, hcut⟩ :=
        cut_layOut hd (textPieces t) (textPieces_ne_nil t) l hget hrow hc
      exact ⟨e, _, (cutRound_text hget fuel l).trans hlay, hcut,
        fun rest ns hlaid => .text id t span ids hlen hlaid⟩
  | none =>
      have hslots : slotList (Mold.partsAll c [.still id kind span []]) = [] := rfl
      refine ⟨d, [.still id kind span []], ?_, cut_leaf hd hrow hheld,
        fun rest ns hlaid => .leaf id span ht he hlaid⟩
      rw [hslots, List.append_nil]
      exact cutRound_leaf hget ht he fuel _

/-- An element that is not repeated is cut if its children are. -/
theorem cutsFirst_plain (ha : a.hasAttribute mark = false)
    (hheld : d.Holds (some c) (.node id (.element a) span us))
    (hrow : Row d c n (pre ++ id :: post))
    (hn : (c :: (Placed.node id (.element a) span us).ids).Nodup)
    (hfold : (us.map Placed.id).foldl (cutRound fuel) (d, .ofList l) =
      (e, .ofList (l ++ slotList (Mold.partsAll id items))))
    (hlaid : Laid mark scope pattern cs items)
    (hcut : Cut d e id ⟨.element a, some c, [], span⟩ [] us [] items) :
    CutsFirst mark scope pattern (fuel + 1) d e c n pre (.node id (.element a) span cs)
      (.node id (.element a) span us) post l [.still id (.element a) span items] := by
  refine ⟨?_, hcut.still hrow hn, fun rest ns hrest => .plain id span ha hlaid hrest⟩
  have hslots : slotList (Mold.partsAll c [.still id (.element a) span items]) =
      slotList (Mold.partsAll id items) := by
    rw [Mold.partsAll_still, Mold.partsAll, List.append_nil]
    exact List.filterMap_cons_none rfl
  rw [hslots, ← hfold]
  exact cutRound_element hheld.get? fuel _

end CutsFirst

variable (scope pattern) in
/-- **The text of trees side by side is cut one tree after the other.** -/
theorem Bindable.cut {ts : List Placed} (h : Bindable mark ts) {fuel : Nat} {c : NodeId} {n : Node}
    {pre post : List NodeId} (l : List (String × NodeId)) (hd : d.Sound)
    (hrow : Row d c n (pre ++ (pruneAll mark ts).map Placed.id ++ post))
    (hts : ∀ t ∈ pruneAll mark ts, d.Holds (some c) t)
    (hn : (c :: (pruneAll mark ts).flatMap Placed.ids).Nodup)
    (hf : ∀ t ∈ pruneAll mark ts, t.depth ≤ fuel) :
    ∃ ms e, ((pruneAll mark ts).map Placed.id).foldl (cutRound fuel) (d, .ofList l) =
        (e, .ofList (l ++ slotList (Mold.partsAll c ms))) ∧
      Laid mark scope pattern ts ms ∧ Cut d e c n pre (pruneAll mark ts) post ms := by
  induction h generalizing fuel c d n pre post l with
  | nil =>
      refine ⟨[], d, ?_, .nil, cut_nil hd (by simpa [pruneAll] using hrow)⟩
      simp [pruneAll, Mold.partsAll, slotList]
  | @leaf id kind span rest he _ ih =>
      rw [pruneAll_leaf _ _ _ _ he] at *
      have hrest := fun t ht => hts t (List.mem_cons_of_mem _ ht)
      have hn' : (c :: (pruneAll mark rest).flatMap Placed.ids).Nodup :=
        hn.sublist (List.Sublist.cons_cons _ (by simp))
      have hc : c ≠ id := by
        rintro rfl
        simp at hn
      obtain ⟨e, ms, hfirst⟩ := exists_cutsFirst_leaf mark scope pattern l fuel hd he
        (hts _ (List.mem_cons_self ..)) (by simpa using hrow) hc
      exact hfirst.cons hrest hn fun l pre hrow hts => ih l hfirst.cut.sound hrow hts hn'
        fun t ht => hf t (List.mem_cons_of_mem _ ht)
  | @plain id e span cs rest he _ _ ihcs ih =>
      rw [pruneAll_plain _ _ _ _ he] at *
      have hheld := hts _ (List.mem_cons_self ..)
      have hrest := fun t ht => hts t (List.mem_cons_of_mem _ ht)
      have hn' : (c :: (pruneAll mark rest).flatMap Placed.ids).Nodup :=
        hn.sublist (List.Sublist.cons_cons _ (by simp))
      have hnode : (c :: (Placed.node id (.element e) span (pruneAll mark cs)).ids).Nodup :=
        hn.sublist (List.Sublist.cons_cons _ (by simp))
      have hnin : (id :: (pruneAll mark cs).flatMap Placed.ids).Nodup := by
        rw [Placed.ids_node] at hnode
        exact (List.nodup_cons.1 hnode).2
      -- what is below the element is less deep
      have hdepth := hf _ (List.mem_cons_self ..)
      obtain ⟨fuel, rfl⟩ : ∃ k, fuel = k + 1 := by
        rw [Placed.depth_node] at hdepth
        exact ⟨fuel - 1, by omega⟩
      have hbelow : ∀ t ∈ pruneAll mark cs, t.depth ≤ fuel := fun t ht =>
        Nat.le_of_lt_succ (Nat.lt_of_lt_of_le (Placed.depth_lt_of_child ht) hdepth)
      obtain ⟨items, d₁, hfold, hlaid, hcut⟩ := ihcs l hd
        (row_of_holds (n := ⟨.element e, some c, [], span⟩) hheld.get? (fun t ht => hheld.child ht)
          (List.nodup_cons.1 hnin).2) (fun t ht => hheld.child ht) hnin hbelow
      have hfirst := cutsFirst_plain he hheld (by simpa using hrow) hnode hfold hlaid hcut
      exact hfirst.cons hrest hn fun l pre hrow hts => ih l hfirst.cut.sound hrow hts hn'
        fun t ht => hf t (List.mem_cons_of_mem _ ht)
  | @marked id e x span cs rest he _ _ _ ih =>
      rw [pruneAll_marked _ _ _ _ (hasAttribute_of_repeat? he)] at *
      obtain ⟨ms, e, hfold, hlaid, hcut⟩ := ih l hd hrow hts hn hf
      refine ⟨.each x (scope id) (pattern id) :: ms, e, ?_, .marked id span he hlaid,
        hcut.each x (scope id) (pattern id)⟩
      rw [hfold, Mold.partsAll_each]
      rfl

variable (scope pattern) in
/-- **Cutting all text below a node** gives molds that are laid out, and lists their slots. -/
theorem Bindable.extract {ts : List Placed} (h : Bindable mark ts) {c : NodeId} {n : Node}
    (hd : d.Sound) (hc : d.get? c = some { n with children := (pruneAll mark ts).map Placed.id })
    (hts : ∀ t ∈ pruneAll mark ts, d.Holds (some c) t)
    (hn : (c :: (pruneAll mark ts).flatMap Placed.ids).Nodup) :
    ∃ ms e, Binding.extract d c = (e, .ofList (slotList (Mold.partsAll c ms))) ∧
      Laid mark scope pattern ts ms ∧ Cut d e c n [] (pruneAll mark ts) [] ms := by
  have hids := (List.nodup_cons.1 hn).2
  have hdepth : ∀ t ∈ pruneAll mark ts, t.depth ≤ d.nodes.size := fun t ht =>
    (hts t ht).depth_le ((List.nodup_flatMap.1 hids).1 t ht)
  obtain ⟨ms, e, hfold, hlaid, hcut⟩ :=
    h.cut scope pattern [] hd (row_of_holds hc hts hids) hts hn hdepth
  refine ⟨ms, e, ?_, hlaid, hcut⟩
  have hempty : Slots.empty = Slots.ofList [] := rfl
  rw [Binding.extract, extractTo_succ, Document.children_of_get? hc, hempty, hfold, List.nil_append]

end PageTemplate.Binding
