/-
**What extraction makes of a document.**

Extraction cuts the texts that are reached from a node through elements, in document order.  Each of them
becomes a run of text nodes in its place, in which every marker has a node of its own, and all else stays
as it is.  The loop that splits nodes at byte offsets does the same, and no split of it fails.

Main definitions:

* `PageTemplate.Document.Reached` — a node is reached from another one through elements;
* `PageTemplate.Placed.texts` — the texts of a tree that are;
* `PageTemplate.Binding.Extracts` — what cutting some nodes one after the other comes to, by both loops;
* `PageTemplate.Binding.Relaid` — trees with runs in the place of texts;
* `PageTemplate.Binding.Partition` — what extraction leaves.

Main results:

* `PageTemplate.Binding.exists_extracts` — all text of trees that stand side by side;
* `PageTemplate.Document.Holds.mem_texts_iff` — the texts that are cut are those that are reached;
* `PageTemplate.Binding.Spread.exists_relaid` — the runs stand in document order;
* `PageTemplate.Binding.extract_partition` — extraction as a whole.
-/

import PageTemplate.Proofs.Binding.Bindings
import PageTemplate.Proofs.Binding.Offsets
import PageTemplate.Proofs.Document.Orderly

set_option relaxedAutoImplicit false
set_option autoImplicit false

namespace PageTemplate

open PageTemplate.Markup PageTemplate.Text

/-! ### Texts that are reached -/

/-- The texts of a placed tree that are reached through elements, in document order. -/
def Placed.texts : Placed → List NodeId
  | node id kind _ cs =>
      match kind with
      | .text _ => [id]
      | .element _ => cs.flatMap texts
      | _ => []

theorem Placed.texts_node (id : NodeId) (kind : NodeKind) (span : Option Span) (cs : List Placed) :
    (node id kind span cs).texts =
      match kind with
      | .text _ => [id]
      | .element _ => cs.flatMap texts
      | _ => [] := by
  cases kind <;> rw [texts] <;> simp

theorem Placed.texts_sublist (ts : List Placed) : (ts.flatMap texts).Sublist (ts.flatMap ids) := by
  induction ts using forest_induction with
  | nil => exact .slnil
  | cons id kind span cs ts ihcs ihts =>
      rw [List.flatMap_cons, List.flatMap_cons, texts_node, ids_node]
      refine List.Sublist.append ?_ ihts
      cases kind with
      | text t => exact (List.nil_sublist _).cons_cons id
      | element e => exact ihcs.cons id
      | document | comment t | doctype t => exact List.nil_sublist _

namespace Document

variable {d : Document} {node : NodeId}

/-- A node is reached from `node` if it is one of its children, or one of those of an element that is
reached. -/
inductive Reached (d : Document) (node : NodeId) : NodeId → Prop
  | child {c : NodeId} (hc : c ∈ d.children node) : Reached d node c
  | step {p c : NodeId} (hp : Reached d node p) (he : (d.element? p).isSome = true)
      (hc : c ∈ d.children p) : Reached d node c

/-- Nothing is reached from a node without children. -/
theorem not_reached_of_childless (h : d.children node = []) {x : NodeId} : ¬d.Reached node x := by
  intro hx
  induction hx with
  | child hc =>
      rw [h] at hc
      cases hc
  | step _ _ _ ih => exact ih

/-- The texts of trees whose topmost nodes are reached are reached. -/
theorem reached_of_mem_texts {p : Option NodeId} {ts : List Placed} (hts : ∀ t ∈ ts, d.Holds p t)
    (hreached : ∀ t ∈ ts, d.Reached node t.id) {x : NodeId} (hx : x ∈ ts.flatMap Placed.texts) :
    d.Reached node x ∧ (d.text? x).isSome = true := by
  induction ts using Placed.forest_induction generalizing p with
  | nil => cases hx
  | cons id kind span cs ts ihcs ihts =>
      have ht := hts _ (List.mem_cons_self ..)
      have htop := hreached _ (List.mem_cons_self ..)
      rw [List.flatMap_cons, List.mem_append, Placed.texts_node] at hx
      rcases hx with hx | hx
      · have hget : d.get? id = some ⟨kind, p, cs.map Placed.id, span⟩ := ht.get?
        cases kind with
        | text t =>
            rw [List.mem_singleton.1 hx]
            exact ⟨htop, by simp [text?, kind?, hget, NodeKind.text?]⟩
        | element e =>
            refine ihcs (fun c hc => ht.child hc) (fun c hc => ?_) hx
            refine .step htop (by simp [element?, kind?, hget, NodeKind.element?]) ?_
            rw [Placed.id_node, children_of_get? hget]
            exact List.mem_map.2 ⟨c, hc, rfl⟩
        | document | comment t | doctype t => cases hx
      · exact ihts (fun t ht => hts t (List.mem_cons_of_mem _ ht))
          (fun t ht => hreached t (List.mem_cons_of_mem _ ht)) hx

/-- A node that is reached is on top of a tree whose texts are among those that are reached. -/
theorem Holds.exists_of_reached {p : Option NodeId} {t : Placed} (h : d.Holds p t) {x : NodeId}
    (hx : d.Reached t.id x) : ∃ q u, u.id = x ∧ d.Holds q u ∧
      u.texts ⊆ t.children.flatMap Placed.texts := by
  induction hx with
  | child hc =>
      rw [children_of_get? h.get?] at hc
      obtain ⟨u, hu, rfl⟩ := List.mem_map.1 hc
      exact ⟨_, u, rfl, h.child hu, fun x hx => List.mem_flatMap.2 ⟨u, hu, hx⟩⟩
  | step _ he hc ih =>
      obtain ⟨q, u, rfl, hu, hsub⟩ := ih
      rw [children_of_get? hu.get?] at hc
      obtain ⟨v, hv, rfl⟩ := List.mem_map.1 hc
      refine ⟨_, v, rfl, hu.child hv, fun x hx => hsub ?_⟩
      obtain ⟨id, kind, span, cs⟩ := u
      rw [hu.element?] at he
      cases kind with
      | element e =>
          rw [Placed.texts_node]
          exact List.mem_flatMap.2 ⟨v, hv, hx⟩
      | text t | document | comment t | doctype t => cases he

/-- **The texts that a tree has below its topmost node are those that are reached from there.** -/
theorem Holds.mem_texts_iff {p : Option NodeId} {t : Placed} (h : d.Holds p t) {x : NodeId} :
    x ∈ t.children.flatMap Placed.texts ↔ d.Reached t.id x ∧ (d.text? x).isSome = true := by
  constructor
  · refine reached_of_mem_texts (fun c hc => h.child hc) fun c hc => .child ?_
    rw [children_of_get? h.get?]
    exact List.mem_map.2 ⟨c, hc, rfl⟩
  · rintro ⟨hx, ht⟩
    obtain ⟨q, u, rfl, hu, hsub⟩ := h.exists_of_reached hx
    obtain ⟨t, ht⟩ := Option.isSome_iff_exists.1 ht
    obtain ⟨n, hn, hkind⟩ := exists_of_text? ht
    rw [hu.get?, Option.some.injEq] at hn
    obtain ⟨id, kind, span, cs⟩ := u
    have : kind = .text t := by rw [← hkind, ← hn]; rfl
    subst this
    exact hsub (by rw [Placed.texts_node]; exact List.mem_singleton_self _)

end Document

namespace Binding

/-! ### Cutting the texts one after the other -/

/-- What the loop at byte offsets does for one child, behind the slots of the children before it. -/
def offsetRound (fuel : Nat) : Document × Slots → NodeId → Option (Document × Slots) :=
  fun (d, slots) child =>
    match d.kind? child with
    | some (.text t) => cutByOffsets? (t.length + 1) d slots child
    | some (.element _) => extractByOffsets? fuel d slots child
    | _ => some (d, slots)

theorem extractByOffsets?_succ (fuel : Nat) (d : Document) (slots : Slots) (node : NodeId) :
    extractByOffsets? (fuel + 1) d slots node =
      (d.children node).foldlM (offsetRound fuel) (d, slots) := rfl

/-- The slots of the runs of some texts. -/
def boundSlots (texts : List NodeId) (run : NodeId → Run) : List (String × NodeId) :=
  texts.flatMap fun c => (run c).slots

/-- **Cutting some nodes one after the other**, by either loop, leaves runs in the place of the texts
that are reached, and lists their slots behind `l`. -/
structure Extracts (fuel : Nat) (ids : List NodeId) (l : List (String × NodeId)) (d e : Document)
    (texts : List NodeId) (run : NodeId → Run) : Prop where
  fold : ids.foldl (cutRound fuel) (d, .ofList l) = (e, .ofList (l ++ boundSlots texts run))
  offsets : ids.foldlM (offsetRound fuel) (d, .ofList l) =
    some (e, .ofList (l ++ boundSlots texts run))
  spread : Spread d e texts run
  segmented : ∀ c ∈ texts, ∃ t, d.text? c = some t ∧ Segmented t.toList ((run c).map Prod.snd)

section Extracts

variable {fuel : Nat} {l : List (String × NodeId)} {d e f : Document} {ids ids' : List NodeId}
  {texts others : List NodeId} {run run' : NodeId → Run} {i p : NodeId} {cs : List NodeId}
  {span : Option Span}

theorem extracts_nil (h : d.Linked []) (fuel : Nat) (l : List (String × NodeId))
    (run : NodeId → Run) : Extracts fuel [] l d d [] run where
  fold := by simp [boundSlots]
  offsets := by simp [boundSlots]
  spread := spread_nil h run
  segmented := by simp

/-- A text becomes a run. -/
theorem extracts_text (h : d.Linked []) {t : String}
    (hget : d.get? i = some ⟨.text t, some p, cs, span⟩) (fuel : Nat)
    (l : List (String × NodeId)) : ∃ e run, Extracts fuel [i] l d e [i] run := by
  obtain ⟨segs, hsegs, hpieces⟩ := exists_segmented t
  have hne : segs ≠ [] := by
    rintro rfl
    exact textPieces_ne_nil t hpieces.symm
  obtain ⟨r, hr, e, hlay, hspread⟩ := spread_layOut h hget hne l
  rw [hpieces] at hlay
  have hbound : boundSlots [i] (fun _ => r) = r.slots := by simp [boundSlots]
  have htext : d.text? i = some t := by simp [Document.text?, Document.kind?, hget, NodeKind.text?]
  have hkind : d.kind? i = some (.text t) := by simp [Document.kind?, hget]
  refine ⟨e, fun _ => r, ?_, ?_, hspread, ?_⟩
  · rw [List.foldl_cons, List.foldl_nil, cutRound_text hget, hlay, hbound]
  · have hround : offsetRound fuel (d, .ofList l) i = some (e, .ofList (l ++ r.slots)) := by
      rw [offsetRound, hkind]
      simp only
      rw [cutByOffsets?_eq h.slots htext (Nat.lt_succ_self _), cutText_eq_layOut hget, hlay]
    rw [List.foldlM_cons, hround, hbound]
    rfl
  · intro c hc
    rw [List.mem_singleton.1 hc, hr]
    exact ⟨t, htext, hsegs⟩

/-- A node that is neither a text nor an element stays. -/
theorem extracts_leaf (h : d.Linked []) {n : Node} (hget : d.get? i = some n)
    (ht : n.kind.text? = none) (he : n.kind.element? = none) (fuel : Nat)
    (l : List (String × NodeId)) (run : NodeId → Run) : Extracts fuel [i] l d d [] run where
  fold := by simp [boundSlots, cutRound_leaf hget ht he]
  offsets := by
    obtain ⟨kind, p, cs, span⟩ := n
    cases kind with
    | text t => cases ht
    | element e => cases he
    | document | comment _ | doctype _ =>
        simp [boundSlots, offsetRound, Document.kind?, hget]
  spread := spread_nil h run
  segmented := by simp

/-- Of an element the texts below it are cut. -/
theorem Extracts.element {el : Element} (hget : d.get? i = some ⟨.element el, some p, ids, span⟩)
    (h : Extracts fuel ids l d e texts run) : Extracts (fuel + 1) [i] l d e texts run where
  fold := by rw [List.foldl_cons, List.foldl_nil, cutRound_element hget, h.fold]
  offsets := by
    have hkind : d.kind? i = some (.element el) := by simp [Document.kind?, hget]
    have hround : offsetRound (fuel + 1) (d, .ofList l) i =
        some (e, .ofList (l ++ boundSlots texts run)) := by
      rw [offsetRound, hkind]
      simp only
      rw [extractByOffsets?_succ, Document.children_of_get? hget, h.offsets]
    rw [List.foldlM_cons, hround]
    rfl
  spread := h.spread
  segmented := h.segmented

/-- **Some nodes are cut, and then others**, that have stayed as they were. -/
theorem Extracts.append (h : Extracts fuel ids l d e texts run)
    (k : Extracts fuel ids' (l ++ boundSlots texts run) e f others run')
    (hothers : ∀ c ∈ others, ∃ n, d.get? c = some n ∧ e.get? c = some n)
    (hdis : ∀ c ∈ texts, c ∉ others) (hbelow : ∀ c ∈ texts, ∀ b ∈ d.children c, b ∉ others) :
    Extracts fuel (ids ++ ids') l d f (texts ++ others)
      fun x => if x ∈ texts then run x else run' x := by
  have hbound : boundSlots (texts ++ others) (fun x => if x ∈ texts then run x else run' x) =
      boundSlots texts run ++ boundSlots others run' := flatMap_runs Run.slots hdis
  refine ⟨?_, ?_, h.spread.append k.spread hothers hdis hbelow, fun c hc => ?_⟩
  · rw [List.foldl_append, h.fold, k.fold, hbound, List.append_assoc]
  · rw [List.foldlM_append, h.offsets, hbound, ← List.append_assoc]
    exact k.offsets
  · rcases List.mem_append.1 hc with hc | hc
    · simp only [if_pos hc]
      exact h.segmented c hc
    · have hno : c ∉ texts := fun hc' => hdis c hc' hc
      obtain ⟨n, hn, hn'⟩ := hothers c hc
      obtain ⟨t, ht, hsegs⟩ := k.segmented c hc
      simp only [if_neg hno]
      refine ⟨t, ?_, hsegs⟩
      rw [← ht, Document.text?, Document.text?, Document.kind?, Document.kind?, hn, hn']

/-- **Of trees that stand side by side all text is cut that is reached through elements.** -/
theorem exists_extracts {ts : List Placed} (h : d.Linked []) (hts : ∀ t ∈ ts, d.Holds (some p) t)
    (hn : (ts.flatMap Placed.ids).Nodup) (hf : ∀ t ∈ ts, t.depth ≤ fuel)
    (l : List (String × NodeId)) :
    ∃ e run, Extracts fuel (ts.map Placed.id) l d e (ts.flatMap Placed.texts) run := by
  induction ts using Placed.forest_induction generalizing fuel p d l with
  | nil => exact ⟨d, fun _ => [], extracts_nil h fuel l _⟩
  | cons i kind span cs ts ihcs ihts =>
      have ht := hts _ (List.mem_cons_self ..)
      have hrest := fun t ht => hts t (List.mem_cons_of_mem _ ht)
      have hget : d.get? i = some ⟨kind, some p, cs.map Placed.id, span⟩ := ht.get?
      rw [List.flatMap_cons] at hn
      obtain ⟨hnode, hbehind, hapart⟩ := List.nodup_append.1 hn
      -- the first tree
      have hfirst : ∃ e run, Extracts fuel [i] l d e (Placed.node i kind span cs).texts run := by
        rw [Placed.texts_node]
        have hdepth := hf _ (List.mem_cons_self ..)
        cases kind with
        | text t => exact extracts_text h hget fuel l
        | element el =>
            obtain ⟨fuel, rfl⟩ : ∃ k, fuel = k + 1 := by
              rw [Placed.depth_node] at hdepth
              exact ⟨fuel - 1, by omega⟩
            rw [Placed.ids_node, List.nodup_cons] at hnode
            obtain ⟨e, run, hcs⟩ := ihcs h (fun c hc => ht.child hc) hnode.2 (fun c hc =>
              Nat.le_of_lt_succ (Nat.lt_of_lt_of_le (Placed.depth_lt_of_child hc) hdepth)) l
            exact ⟨e, run, hcs.element hget⟩
        | document | comment t | doctype t =>
            exact ⟨d, fun _ => [], extracts_leaf h hget rfl rfl fuel l _⟩
      obtain ⟨e, run, hfirst⟩ := hfirst
      have hsub : (Placed.node i kind span cs).texts ⊆ (Placed.node i kind span cs).ids := by
        simpa using (Placed.texts_sublist [Placed.node i kind span cs]).subset
      have hout : ∀ t ∈ ts, ∀ x ∈ t.ids, x ∉ (Placed.node i kind span cs).texts :=
        fun t ht x hx hx' => hapart x (hsub hx') x (List.mem_flatMap.2 ⟨t, ht, hx⟩) rfl
      -- the others
      obtain ⟨f, run', hothers⟩ := ihts hfirst.spread.linked
        (fun t ht => hfirst.spread.holds_of (hrest t ht) (hout t ht)) hbehind
        (fun t ht => hf t (List.mem_cons_of_mem _ ht))
        (l ++ boundSlots (Placed.node i kind span cs).texts run)
      have hin : ∀ x ∈ ts.flatMap Placed.texts, ∃ t ∈ ts, x ∈ t.ids := fun x hx =>
        List.mem_flatMap.1 ((Placed.texts_sublist ts).subset hx)
      refine ⟨f, _, hfirst.append hothers (fun c hc => ?_) (fun c hc hc' => ?_)
        fun c hc b hb hb' => ?_⟩
      · obtain ⟨t, ht, hct⟩ := hin c hc
        obtain ⟨n, hn⟩ := (hrest t ht).live hct
        refine ⟨n, hn, hfirst.spread.keeps hn (hout t ht c hct) fun b hb => hout t ht b ?_⟩
        exact (hrest t ht).mem_of_child hct (by rwa [Document.children_of_get? hn])
      · obtain ⟨t, ht, hct⟩ := hin c hc'
        exact hout t ht c hct hc
      · obtain ⟨t, ht', hbt⟩ := hin b hb'
        exact hapart b (ht.mem_of_child (hsub hc) hb) b (List.mem_flatMap.2 ⟨t, ht', hbt⟩) rfl

end Extracts

/-! ### Runs in document order -/

section Order

variable {d e : Document} {texts : List NodeId} {run : NodeId → Run}

/-- The nodes of a run.  What was below the text is below the first of them. -/
def Run.placed (c : NodeId) (span : Option Span) (cs : List Placed) (r : Run) : List Placed :=
  r.map fun x => .node x.1 (.text (String.ofList x.2.piece.text)) span (if x.1 = c then cs else [])

theorem Run.map_id_placed (c : NodeId) (span : Option Span) (cs : List Placed) (r : Run) :
    (r.placed c span cs).map Placed.id = r.ids := by
  rw [placed, List.map_map]
  rfl

/-- The trees `us` are `ts` with runs in the place of texts, and have the runs in document order. -/
structure Relaid (e : Document) (p : Option NodeId) (texts : List NodeId) (run : NodeId → Run)
    (ts us : List Placed) : Prop where
  holds : ∀ u ∈ us, e.Holds p u
  ids : us.map Placed.id = (ts.map Placed.id).flatMap (inPlace texts run)
  runs : ((ts.flatMap Placed.texts).flatMap fun c => (run c).ids).Sublist (us.flatMap Placed.ids)

variable {p : Option NodeId} {i : NodeId} {kind : NodeKind} {span : Option Span}
  {cs ts ts' us us' : List Placed}

theorem Relaid.append (h : Relaid e p texts run ts us) (h' : Relaid e p texts run ts' us') :
    Relaid e p texts run (ts ++ ts') (us ++ us') where
  holds := List.forall_mem_append.2 ⟨h.holds, h'.holds⟩
  ids := by rw [List.map_append, List.map_append, List.flatMap_append, h.ids, h'.ids]
  runs := by
    rw [List.flatMap_append, List.flatMap_append, List.flatMap_append]
    exact h.runs.append h'.runs

/-- A text is followed by the other nodes of its run. -/
theorem Spread.relaid_text (h : Spread d e texts run) {t : String}
    (ht : d.Holds p (.node i (.text t) span cs)) (hi : i ∈ texts)
    (hcs : ∀ c ∈ cs, ∀ x ∈ c.ids, x ∉ texts) :
    Relaid e p texts run [.node i (.text t) span cs] ((run i).placed i span cs) where
  holds u hu := by
    obtain ⟨⟨x, s⟩, hx, rfl⟩ := List.mem_map.1 hu
    refine .node ?_ fun b hb => ?_
    · rw [h.cut i hi _ ht.get? x s hx, apply_ite (List.map Placed.id), List.map_nil]
      rfl
    · simp only at hb ⊢
      split at hb
      · rename_i hxi
        rw [hxi]
        exact h.holds_of (ht.child hb) (hcs b hb)
      · cases hb
  ids := by
    rw [Run.map_id_placed, List.map_singleton, List.flatMap_singleton, Placed.id_node, inPlace,
      if_pos hi]
  runs := by
    rw [List.flatMap_singleton, Placed.texts_node, List.flatMap_singleton,
      ← Run.map_id_placed i span cs]
    exact Placed.map_id_sublist _

/-- A node that is not cut is on top of the trees that its children have become. -/
theorem Spread.holds_node (h : Spread d e texts run) (ht : d.Holds p (.node i kind span cs))
    (hi : i ∉ texts) (hus : Relaid e (some i) texts run cs us) :
    e.Holds p (.node i kind span us) := by
  have hget : d.get? i = some ⟨kind, p, cs.map Placed.id, span⟩ := ht.get?
  refine .node ?_ hus.holds
  rw [h.rest i (h.notMem hget hi), hget, hus.ids]
  rfl

theorem Spread.relaid_element (h : Spread d e texts run) {el : Element}
    (ht : d.Holds p (.node i (.element el) span cs)) (hi : i ∉ texts)
    (hus : Relaid e (some i) texts run cs us) :
    Relaid e p texts run [.node i (.element el) span cs] [.node i (.element el) span us] where
  holds := List.forall_mem_singleton.2 (h.holds_node ht hi hus)
  ids := by
    rw [List.map_singleton, List.map_singleton, List.flatMap_singleton, Placed.id_node,
      Placed.id_node, inPlace, if_neg hi]
  runs := by
    rw [List.flatMap_singleton, List.flatMap_singleton, Placed.texts_node, Placed.ids_node]
    exact hus.runs.cons i

/-- A tree without texts that are cut stays. -/
theorem Spread.relaid_self (h : Spread d e texts run) {t : Placed} (ht : d.Holds p t)
    (hnone : t.texts = []) (hdis : ∀ x ∈ t.ids, x ∉ texts) : Relaid e p texts run [t] [t] where
  holds := List.forall_mem_singleton.2 (h.holds_of ht hdis)
  ids := by
    rw [List.map_singleton, List.flatMap_singleton, inPlace, if_neg (hdis _ t.id_mem_ids)]
  runs := by
    rw [List.flatMap_singleton, hnone]
    exact List.nil_sublist _

/-- **Where runs take the place of all texts of trees, they stand in document order.** -/
theorem Spread.exists_relaid (h : Spread d e texts run) (hts : ∀ t ∈ ts, d.Holds p t)
    (hn : (ts.flatMap Placed.ids).Nodup)
    (hmem : ∀ x ∈ ts.flatMap Placed.ids, x ∈ texts ↔ x ∈ ts.flatMap Placed.texts) :
    ∃ us, Relaid e p texts run ts us := by
  induction ts using Placed.forest_induction generalizing p with
  | nil => exact ⟨[], by simp, rfl, .slnil⟩
  | cons i kind span cs ts ihcs ihts =>
      have ht := hts _ (List.mem_cons_self ..)
      rw [List.flatMap_cons] at hn
      obtain ⟨hnode, hbehind, hapart⟩ := List.nodup_append.1 hn
      have hsub : (Placed.node i kind span cs).texts ⊆ (Placed.node i kind span cs).ids := by
        simpa using (Placed.texts_sublist [Placed.node i kind span cs]).subset
      simp only [List.flatMap_cons, List.mem_append] at hmem
      -- each tree has its own texts
      have hfirst : ∀ x ∈ (Placed.node i kind span cs).ids,
          x ∈ texts ↔ x ∈ (Placed.node i kind span cs).texts := by
        intro x hx
        rw [hmem x (.inl hx), or_iff_left]
        exact fun hx' => hapart x hx x ((Placed.texts_sublist ts).subset hx') rfl
      have hothers : ∀ x ∈ ts.flatMap Placed.ids, x ∈ texts ↔ x ∈ ts.flatMap Placed.texts := by
        intro x hx
        rw [hmem x (.inr hx), or_iff_right]
        exact fun hx' => hapart x (hsub hx') x hx rfl
      have htop : ∃ us, Relaid e p texts run [Placed.node i kind span cs] us := by
        rw [Placed.ids_node, List.nodup_cons] at hnode
        have hbelow : ∀ x ∈ cs.flatMap Placed.ids,
            x ∈ texts ↔ x ∈ (Placed.node i kind span cs).texts := fun x hx =>
          hfirst x (by rw [Placed.ids_node]; exact List.mem_cons_of_mem _ hx)
        have hself := hfirst i (Placed.id_mem_ids _)
        cases kind with
        | text t =>
            rw [Placed.texts_node] at hself hbelow
            refine ⟨_, h.relaid_text ht (hself.2 (List.mem_singleton_self i)) fun c hc x hx hx' => ?_⟩
            have hxcs := List.mem_flatMap.2 ⟨c, hc, hx⟩
            obtain rfl := List.mem_singleton.1 ((hbelow x hxcs).1 hx')
            exact hnode.1 hxcs
        | element el =>
            rw [Placed.texts_node] at hself hbelow
            obtain ⟨us, hus⟩ := ihcs (fun c hc => ht.child hc) hnode.2 hbelow
            exact ⟨_, h.relaid_element ht
              (fun hi => hnode.1 ((Placed.texts_sublist cs).subset (hself.1 hi))) hus⟩
        | document | comment t | doctype t =>
            refine ⟨_, h.relaid_self ht (Placed.texts_node ..) fun x hx hx' => ?_⟩
            rw [hfirst x hx, Placed.texts_node] at hx'
            cases hx'
      obtain ⟨us, hus⟩ := htop
      obtain ⟨vs, hvs⟩ := ihts (fun t ht => hts t (List.mem_cons_of_mem _ ht)) hbehind hothers
      exact ⟨us ++ vs, hus.append hvs⟩

end Order

/-! ### Bound nodes -/

/-- **The nodes of a path are those that were added for it**, in the same order. -/
theorem Slots.nodes_ofList (l : List (String × NodeId)) (path : String) :
    (Slots.ofList l).nodes path = (l.filter (·.1 = path)).map Prod.snd := by
  induction l using List.reverseRecOn with
  | nil => rfl
  | append_singleton l p ih =>
      rw [Slots.ofList_append_singleton, Slots.nodes_add, ih, List.filter_append, List.map_append]
      by_cases hp : p.1 = path
      · simp [hp]
      · simp [hp]

theorem Slots.mem_nodes_ofList {l : List (String × NodeId)} {path : String} {x : NodeId} :
    x ∈ (Slots.ofList l).nodes path ↔ (path, x) ∈ l := by
  rw [Slots.nodes_ofList]
  simp

theorem Slots.nodes_ofList_sublist (l : List (String × NodeId)) (path : String) :
    ((Slots.ofList l).nodes path).Sublist (l.map Prod.snd) := by
  rw [Slots.nodes_ofList]
  exact List.filter_sublist.map _

theorem Slots.nodup_paths_ofList (l : List (String × NodeId)) : (Slots.ofList l).paths.Nodup := by
  induction l using List.reverseRecOn with
  | nil => exact .nil
  | append_singleton l p ih =>
      rw [Slots.ofList_append_singleton, Slots.paths_add]
      split
      · exact ih
      · rename_i hp
        rw [← List.concat_eq_append]
        exact ih.concat hp

/-- If no node is added twice, none is in the slots twice. -/
theorem Slots.nodup_ofList {l : List (String × NodeId)} (h : (l.map Prod.snd).Nodup) :
    ((Slots.ofList l).paths.flatMap (Slots.ofList l).nodes).Nodup := by
  refine List.nodup_flatMap.2 ⟨fun path _ => h.sublist (Slots.nodes_ofList_sublist l path), ?_⟩
  refine (Slots.nodup_paths_ofList l).imp fun {path other} hne x hx hx' => hne ?_
  have heq := List.inj_on_of_nodup_map h (Slots.mem_nodes_ofList.1 hx) (Slots.mem_nodes_ofList.1 hx')
    rfl
  exact congrArg Prod.fst heq

/-- The slots of a run are among its nodes. -/
theorem Run.slots_sublist (r : Run) : (r.slots.map Prod.snd).Sublist r.ids := by
  induction r with
  | nil => exact .slnil
  | cons x r ih =>
      obtain ⟨c, s⟩ := x
      rw [Run.slots_cons, List.map_append, Run.ids_cons]
      cases s with
      | literal cs => exact ih.cons c
      | marker cs path => exact ih.cons_cons c

theorem boundSlots_sublist (texts : List NodeId) (run : NodeId → Run) :
    ((boundSlots texts run).map Prod.snd).Sublist (texts.flatMap fun c => (run c).ids) := by
  rw [boundSlots, List.map_flatMap]
  induction texts with
  | nil => exact .slnil
  | cons c texts ih => exact (Run.slots_sublist (run c)).append ih


/-- What is bound is a marker of a run. -/
theorem mem_boundSlots {texts : List NodeId} {run : NodeId → Run} {path : String} {x : NodeId} :
    (path, x) ∈ boundSlots texts run ↔
      ∃ c ∈ texts, ∃ cs p, (x, .marker cs p) ∈ run c ∧ path = String.ofList p := by
  simp only [boundSlots, Run.slots, List.mem_flatMap]
  constructor
  · rintro ⟨c, hc, ⟨y, s⟩, hy, hx⟩
    cases s with
    | literal cs => cases hx
    | marker cs p =>
        obtain ⟨rfl, rfl⟩ := Prod.mk.inj (List.mem_singleton.1 hx)
        exact ⟨c, hc, cs, p, hy, rfl⟩
  · rintro ⟨c, hc, cs, p, hx, rfl⟩
    exact ⟨c, hc, _, hx, List.mem_singleton_self _⟩

/-! ### Extraction -/

section Partition

variable {d e : Document} {texts : List NodeId} {run : NodeId → Run} {node : NodeId}

/-- A node of the runs has one segment. -/
theorem Spread.segment_unique (h : Spread d e texts run) {c c' x : NodeId} {s s' : Segment}
    (hc : c ∈ texts) (hx : (x, s) ∈ run c) (hc' : c' ∈ texts) (hx' : (x, s') ∈ run c') :
    s = s' := by
  have hnodup : ((texts.flatMap run).map Prod.fst).Nodup := by
    rw [List.map_flatMap]
    exact h.nodup
  exact congrArg Prod.snd (List.inj_on_of_nodup_map hnodup (List.mem_flatMap.2 ⟨c, hc, hx⟩)
    (List.mem_flatMap.2 ⟨c', hc', hx'⟩) rfl)

/-- What is in a node of a run. -/
theorem Spread.text? (h : Spread d e texts run) {c x : NodeId} {s : Segment} (hc : c ∈ texts)
    (hx : (x, s) ∈ run c) : e.text? x = some (String.ofList s.piece.text) := by
  obtain ⟨n, hn⟩ := h.live c hc
  simp [Document.text?, Document.kind?, h.cut c hc n hn x s hx, NodeKind.text?]

/-- **What extraction leaves.**  The document `e` is `d` with runs in the place of the texts that are
reached from `node`, and `slots` has their markers. -/
structure Partition (d e : Document) (slots : Slots) (node : NodeId) (texts : List NodeId)
    (run : NodeId → Run) : Prop where
  /-- The texts that become runs are those that are reached, in document order. -/
  reached : ∀ c, c ∈ texts ↔ d.Reached node c ∧ (d.text? c).isSome = true
  ordered : texts.Sublist (d.descendants node)
  /-- The runs take their place, all else is unchanged, and no other node is new. -/
  spread : Spread d e texts run
  live : ∀ x, e.contains x = true ↔ d.contains x = true ∨ ∃ c ∈ texts, x ∈ (run c).ids
  /-- A run has the segments of its text, which make up this text. -/
  segmented : ∀ c ∈ texts, ∃ t, d.text? c = some t ∧ Segmented t.toList ((run c).map Prod.snd) ∧
    (run c).flatMap (fun x => x.2.source) = t.toList
  /-- Each marker has a node of its own, which is empty, and is bound under its path only. -/
  marker : ∀ c ∈ texts, ∀ x cs path, (x, .marker cs path) ∈ run c →
    Marker cs path ∧ e.text? x = some "" ∧ ∀ p, x ∈ slots.nodes p ↔ p = String.ofList path
  /-- What stands between markers has none in it, and is not bound. -/
  literal : ∀ c ∈ texts, ∀ x cs, (x, .literal cs) ∈ run c →
    Bare cs ∧ e.text? x = some (String.ofList cs) ∧ ∀ p, x ∉ slots.nodes p
  /-- Nothing but markers is bound, and nothing is bound twice. -/
  bound : ∀ p x, x ∈ slots.nodes p →
    ∃ c ∈ texts, ∃ cs path, (x, .marker cs path) ∈ run c ∧ p = String.ofList path
  distinct : (slots.paths.flatMap slots.nodes).Nodup
  /-- The runs stand in document order.  The paths are listed where they first occur in them, each with
  its nodes in this order. -/
  inOrder : (texts.flatMap fun c => (run c).ids).Sublist (e.descendants node)
  paths : slots.paths = ((boundSlots texts run).map Prod.fst).eraseDups
  nodes : ∀ p, slots.nodes p = ((boundSlots texts run).filter (·.1 = p)).map Prod.snd

theorem Spread.partition (h : Spread d e texts run)
    (hsegs : ∀ c ∈ texts, ∃ t, d.text? c = some t ∧ Segmented t.toList ((run c).map Prod.snd))
    (hreached : ∀ c, c ∈ texts ↔ d.Reached node c ∧ (d.text? c).isSome = true)
    (hordered : texts.Sublist (d.descendants node))
    (hruns : (texts.flatMap fun c => (run c).ids).Sublist (e.descendants node)) :
    Partition d e (.ofList (boundSlots texts run)) node texts run := by
  have hfits : ∀ c ∈ texts, ∀ x s, (x, s) ∈ run c → s.Fits := by
    intro c hc x s hx
    obtain ⟨t, -, ht⟩ := hsegs c hc
    exact ht.fits (List.mem_map.2 ⟨_, hx, rfl⟩)
  have hbound : ∀ {p x}, x ∈ (Slots.ofList (boundSlots texts run)).nodes p ↔
      ∃ c ∈ texts, ∃ cs path, (x, .marker cs path) ∈ run c ∧ p = String.ofList path :=
    Slots.mem_nodes_ofList.trans mem_boundSlots
  refine ⟨hreached, hordered, h, h.contains_iff, ?_, ?_, ?_, fun _ _ => hbound.1,
    Slots.nodup_ofList (h.nodup.sublist (boundSlots_sublist texts run)), hruns,
    Slots.paths_ofList _, Slots.nodes_ofList _⟩
  · intro c hc
    obtain ⟨t, ht, hseg⟩ := hsegs c hc
    refine ⟨t, ht, hseg, ?_⟩
    rw [← hseg.source, List.flatMap_map]
  · intro c hc x cs path hx
    refine ⟨hfits c hc x _ hx, h.text? hc hx, fun p => hbound.trans ⟨?_, ?_⟩⟩
    · rintro ⟨c', hc', cs', path', hx', rfl⟩
      cases h.segment_unique hc hx hc' hx'
      rfl
    · rintro rfl
      exact ⟨c, hc, cs, path, hx, rfl⟩
  · intro c hc x cs hx
    refine ⟨hfits c hc x _ hx, h.text? hc hx, fun p hp => ?_⟩
    obtain ⟨c', hc', cs', path', hx', -⟩ := hbound.1 hp
    cases h.segment_unique hc hx hc' hx'

/-- **Extraction cuts a forest at its markers.**  The loop at byte offsets never fails and does the
same. -/
theorem extract_partition (h : d.Consistent) (hacyclic : ∀ x, ¬d.Below x x) (node : NodeId) :
    extractByOffsets? (d.nodes.size + 1) d .empty node = some (extract d node) ∧
      ∃ texts run, Partition d (extract d node).1 (extract d node).2 node texts run := by
  have hlinked : d.Linked [] := h.linked fun c hc => hacyclic c (.single hc)
  have hempty : Slots.empty = Slots.ofList [] := rfl
  rw [extract, extractTo_succ, extractByOffsets?_succ, hempty]
  cases hlive : d.contains node with
  | false =>
      have hdead := Document.contains_eq_false_iff.1 hlive
      have hchildless : d.children node = [] := Document.children_eq_nil_of_dead hdead
      rw [hchildless, List.foldl_nil, List.foldlM_nil]
      refine ⟨rfl, [], fun _ => [], (spread_nil hlinked _).partition (by simp) (fun c => ?_)
        (List.nil_sublist _) (List.nil_sublist _)⟩
      exact iff_of_false List.not_mem_nil fun hc => Document.not_reached_of_childless hchildless hc.1
  | true =>
      obtain ⟨t, rfl, ht, hn, -⟩ := h.exists_held (h.finiteBelow hacyclic node) hlive
      obtain ⟨i, kind, span, cs⟩ := t
      have hdepth : ∀ c ∈ cs, c.depth ≤ d.nodes.size := fun c hc =>
        Nat.le_trans (Nat.le_of_lt (Placed.depth_lt_of_child hc)) (ht.depth_le hn)
      have hnode := hn
      rw [Placed.ids_node, List.nodup_cons] at hnode
      have hcs : ∀ c ∈ cs, d.Holds (some i) c := fun c hc => ht.child hc
      obtain ⟨e, run, hcut⟩ := exists_extracts hlinked hcs hnode.2 hdepth []
      have hchildren : d.children i = cs.map Placed.id := Document.children_of_get? ht.get?
      rw [Placed.id_node, hchildren, hcut.fold, hcut.offsets, List.nil_append]
      refine ⟨rfl, _, run, hcut.spread.partition hcut.segmented (fun c => ht.mem_texts_iff) ?_ ?_⟩
      · have hdescendants := ht.descendants hn
        rw [Placed.id_node, Placed.children_node] at hdescendants
        rw [hdescendants]
        exact Placed.texts_sublist cs
      · obtain ⟨us, hus⟩ := hcut.spread.exists_relaid hcs hnode.2 fun _ _ => Iff.rfl
        have htop := hcut.spread.holds_node ht
          (fun hi => hnode.1 ((Placed.texts_sublist cs).subset hi)) hus
        have hdescendants := htop.descendants (hcut.spread.linked.consistent.nodup_of_holds htop)
        rw [Placed.id_node, Placed.children_node] at hdescendants
        rw [hdescendants]
        exact hus.runs

/-- A text with a marker below the document node. -/
def greeting : Document :=
  ⟨#[some ⟨.document, none, [1], none⟩, some ⟨.text "Hi {{ name }}!", some 0, [], none⟩], []⟩

theorem extract_partition_greeting :
    greeting.Consistent ∧ (∀ x, ¬greeting.Below x x) ∧
      extractByOffsets? (greeting.nodes.size + 1) greeting .empty Document.root =
        some (extract greeting Document.root) ∧
        ∃ texts run, Partition greeting (extract greeting Document.root).1
          (extract greeting Document.root).2 Document.root texts run := by
  have hnew := Document.Orderly.start.step (.createText "Hi {{ name }}!") not_false rfl
  have hput : Document.Orderly greeting := hnew.step (.append 0 1)
    (fun ⟨_, _, _, hin⟩ => hin.elim nofun (Document.not_below_of_loose rfl)) rfl
  obtain ⟨hlinked, hforest⟩ := hput.linked_forest
  exact ⟨hlinked.consistent, hforest.acyclic,
    extract_partition hlinked.consistent hforest.acyclic Document.root⟩

end Partition

end Binding

end PageTemplate
