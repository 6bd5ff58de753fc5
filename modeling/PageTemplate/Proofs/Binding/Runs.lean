/-
**Texts and the runs that take their place.**

To cut a text node lays out the segments of its text in a run of text nodes.  The first of these is the
node itself, and the others come into free slots right behind it.  Among the children of a node each text
that is cut is replaced by its run, and nothing else changes, whatever the nodes have below them.

Main definitions:

* `PageTemplate.Binding.Run` — text nodes with the segments that are in them;
* `PageTemplate.Binding.Spread` — a document in which runs have taken the place of some texts.

Main results:

* `PageTemplate.Document.Linked.divide_eq` — what dividing a text leaves in each slot;
* `PageTemplate.Binding.spread_layOut` — the run of one text;
* `PageTemplate.Binding.Spread.append` — the runs of some texts and then those of others.
-/

import PageTemplate.Proofs.Binding.Markers
import PageTemplate.Proofs.Document.Splitting

set_option relaxedAutoImplicit false
set_option autoImplicit false

namespace PageTemplate

open PageTemplate.Text

namespace Document

variable {d : Document}

/-- A free slot is among the children of no node. -/
theorem Linked.notMem_children_of_dead (h : d.Linked []) {x new : NodeId} {n : Node}
    (hn : d.get? x = some n) (hdead : d.get? new = none) : new ∉ n.children := by
  intro hmem
  have hlive := contains_of_parent? (h.child x new (by rwa [children_of_get? hn]))
  rw [contains_eq_false_iff.2 hdead] at hlive
  cases hlive

/-- **A text that is divided has the new node right behind it**, and nothing else changes. -/
theorem Linked.divide_eq (h : d.Linked []) {c p : NodeId} {t : String} {cs : List NodeId}
    {span : Option Span} (hget : d.get? c = some ⟨.text t, some p, cs, span⟩) (head tail : String) :
    let e := (d.divide c head tail).1
    let new := (d.divide c head tail).2
    d.get? new = none ∧ e.get? c = some ⟨.text head, some p, cs, span⟩ ∧
      e.get? new = some ⟨.text tail, some p, [], span⟩ ∧
      ∀ x, x ≠ c → x ≠ new → e.get? x = (d.get? x).map
        (Node.spread fun y => if y = c then [c, new] else [y]) := by
  have htext : d.text? c = some t := by
    rw [text?, kind?, hget]
    rfl
  have hd := h.divided htext head tail
  obtain ⟨n, u, hn, -, hc⟩ := hd.first
  obtain rfl : n = ⟨.text t, some p, cs, span⟩ := Option.some.inj (hn.symm.trans hget)
  refine ⟨hd.fresh, hc, ?_, fun x hxc hxnew => hd.get?_of_ne h hxc hxnew⟩
  rw [hd.second, parent?_of_get? hget, span?, hget, Option.bind_some]

end Document

namespace Binding

/-- Text nodes with the segments that are in them. -/
abbrev Run := List (NodeId × Segment)

namespace Run

/-- The nodes of a run. -/
def ids (r : Run) : List NodeId := r.map Prod.fst

/-- The markers of a run become slots. -/
def slots (r : Run) : List (String × NodeId) := r.flatMap fun x => x.2.piece.slots x.1

theorem ids_cons (c : NodeId) (s : Segment) (r : Run) : ids ((c, s) :: r) = c :: ids r := rfl

theorem exists_of_mem_ids {r : Run} {x : NodeId} (h : x ∈ r.ids) : ∃ s, (x, s) ∈ r := by
  obtain ⟨⟨_, s⟩, hmem, rfl⟩ := List.mem_map.1 h
  exact ⟨s, hmem⟩

theorem mem_ids {r : Run} {x : NodeId} {s : Segment} (h : (x, s) ∈ r) : x ∈ r.ids :=
  List.mem_map.2 ⟨(x, s), h, rfl⟩

theorem slots_cons (c : NodeId) (s : Segment) (r : Run) :
    slots ((c, s) :: r) = s.piece.slots c ++ slots r := rfl

end Run

/-- What stands in the place of a node when some texts have become runs. -/
def inPlace (texts : List NodeId) (run : NodeId → Run) (x : NodeId) : List NodeId :=
  if x ∈ texts then (run x).ids else [x]

/-- **The document `e` is `d` with runs in the place of some texts.** -/
structure Spread (d e : Document) (texts : List NodeId) (run : NodeId → Run) : Prop where
  linked : e.Linked []
  live : ∀ c ∈ texts, ∃ n, d.get? c = some n
  /-- A run starts in the node of its text, -/
  head : ∀ c ∈ texts, (run c).ids.head? = some c
  /-- and goes on in slots that were free. -/
  fresh : ∀ c ∈ texts, ∀ x ∈ (run c).ids.tail, d.get? x = none
  nodup : (texts.flatMap fun c => (run c).ids).Nodup
  /-- Its nodes have the parent and the span of the text.  What was below this stays there. -/
  cut : ∀ c ∈ texts, ∀ n, d.get? c = some n → ∀ x s, (x, s) ∈ run c → e.get? x =
    some ⟨.text (String.ofList s.piece.text), n.parent, if x = c then n.children else [], n.span⟩
  /-- Other nodes only have the runs among their children. -/
  rest : ∀ x, (x ∉ texts.flatMap fun c => (run c).ids) →
    e.get? x = (d.get? x).map (Node.spread (inPlace texts run))

variable {d e f : Document} {texts others : List NodeId} {run run' : NodeId → Run}

theorem spread_nil (h : d.Linked []) (run : NodeId → Run) : Spread d d [] run where
  linked := h
  live := by simp
  head := by simp
  fresh := by simp
  nodup := by simp
  cut := by simp
  rest x _ := by
    cases d.get? x with
    | none => rfl
    | some n =>
        rw [Option.map_some, Node.spread_eq_self]
        exact fun c _ => rfl

/-- What is in a run is its text, or it is new. -/
theorem Spread.eq_or_fresh (h : Spread d e texts run) {c x : NodeId} (hc : c ∈ texts)
    (hx : x ∈ (run c).ids) : x = c ∨ d.get? x = none := by
  have hhead := h.head c hc
  have hfresh := h.fresh c hc
  cases hids : (run c).ids with
  | nil =>
      rw [hids] at hx
      cases hx
  | cons y ys =>
      rw [hids] at hhead hfresh hx
      rcases List.mem_cons.1 hx with rfl | hx
      · exact .inl (Option.some.inj hhead)
      · exact .inr (hfresh x hx)

/-- A node that was there and is none of the texts is in none of the runs. -/
theorem Spread.notMem (h : Spread d e texts run) {x : NodeId} {n : Node} (hget : d.get? x = some n)
    (hx : x ∉ texts) : x ∉ texts.flatMap fun c => (run c).ids := by
  intro hmem
  obtain ⟨c, hc, hxc⟩ := List.mem_flatMap.1 hmem
  rcases h.eq_or_fresh hc hxc with rfl | hdead
  · exact hx hc
  · rw [hget] at hdead
    cases hdead

/-- **A node that is no text that is cut, and has none as its child, stays as it is.** -/
theorem Spread.keeps (h : Spread d e texts run) {x : NodeId} {n : Node} (hget : d.get? x = some n)
    (hx : x ∉ texts) (hchildren : ∀ c ∈ n.children, c ∉ texts) : e.get? x = some n := by
  rw [h.rest x (h.notMem hget hx), hget, Option.map_some, Node.spread_eq_self]
  exact fun c hc => if_neg (hchildren c hc)

theorem Spread.holds_of (h : Spread d e texts run) {p : Option NodeId} {t : Placed}
    (ht : d.Holds p t) (hdis : ∀ x ∈ t.ids, x ∉ texts) : e.Holds p t := by
  refine ht.congr fun x hx => ?_
  obtain ⟨n, hn⟩ := ht.live hx
  rw [hn]
  refine h.keeps hn (hdis x hx) fun c hc => hdis c (ht.mem_of_child hx ?_)
  rwa [Document.children_of_get? hn]

/-- No other nodes are new. -/
theorem Spread.contains_iff (h : Spread d e texts run) (x : NodeId) :
    e.contains x = true ↔ d.contains x = true ∨ ∃ c ∈ texts, x ∈ (run c).ids := by
  by_cases hx : x ∈ texts.flatMap fun c => (run c).ids
  · obtain ⟨c, hc, hxc⟩ := List.mem_flatMap.1 hx
    obtain ⟨n, hn⟩ := h.live c hc
    obtain ⟨s, hs⟩ := Run.exists_of_mem_ids hxc
    exact iff_of_true (Document.contains_of_get? (h.cut c hc n hn x s hs)) (.inr ⟨c, hc, hxc⟩)
  · rw [or_iff_left fun ⟨c, hc, hxc⟩ => hx (List.mem_flatMap.2 ⟨c, hc, hxc⟩), Document.contains,
      Document.contains, h.rest x hx, Option.isSome_map]

/-- A slot that is free then was free before. -/
theorem Spread.get?_eq_none (h : Spread d e texts run) {x : NodeId} (hdead : e.get? x = none) :
    d.get? x = none := by
  rw [← Document.contains_eq_false_iff, ← Bool.not_eq_true] at hdead ⊢
  exact fun hlive => hdead ((h.contains_iff x).2 (.inl hlive))

/-! ### One text -/

section One

variable {c p : NodeId} {t : String} {cs : List NodeId} {span : Option Span}

/-- One segment stays in the node of the text. -/
theorem spread_setText (h : d.Linked []) (hget : d.get? c = some ⟨.text t, p, cs, span⟩)
    (s : Segment) :
    Spread d (d.setText c (String.ofList s.piece.text)) [c] fun _ => [(c, s)] where
  linked := h.setText c _
  live := by simpa using ⟨_, hget⟩
  head := by simp [Run.ids]
  fresh := by simp [Run.ids]
  nodup := by simp [Run.ids]
  cut c' hc' n hn x s' hx := by
    rw [List.mem_singleton.1 hc', hget] at hn
    cases hn
    cases List.mem_singleton.1 hx
    rw [List.mem_singleton.1 hc', if_pos rfl]
    exact Document.get?_setText_self hget _
  rest x hx := by
    have hx : x ≠ c := by simpa [Run.ids] using hx
    rw [Document.get?_setText_of_ne hx]
    cases d.get? x with
    | none => rfl
    | some n =>
        rw [Option.map_some, Node.spread_eq_self]
        intro y _
        rw [inPlace]
        split
        · rename_i hy
          rw [List.mem_singleton.1 hy]
          rfl
        · rfl

/-- The first segment stays in the node of the text, and the others come into a new one behind it, which
becomes a run itself. -/
theorem Spread.divide (h : d.Linked []) (hget : d.get? c = some ⟨.text t, some p, cs, span⟩)
    (s : Segment) {r : Run}
    (hr : Spread (d.divide c (String.ofList s.piece.text) "").1 e
      [(d.divide c (String.ofList s.piece.text) "").2] fun _ => r) :
    Spread d e [c] fun _ => (c, s) :: r := by
  obtain ⟨hdead, hc, hnew, hother⟩ := h.divide_eq hget (String.ofList s.piece.text) ""
  generalize (d.divide c (String.ofList s.piece.text) "").1 = d₁ at *
  generalize (d.divide c (String.ofList s.piece.text) "").2 = new at *
  have hne : c ≠ new := by
    rintro rfl
    rw [hget] at hdead
    cases hdead
  have hchild : ∀ x n, d.get? x = some n → new ∉ n.children := fun x n hn =>
    h.notMem_children_of_dead hn hdead
  have hcr : c ∉ r.ids := by
    have := hr.notMem hc (by simpa using hne)
    simpa using this
  -- what was free before the text was divided is free behind it, but for the new node
  have hfresh : ∀ x ∈ r.ids, d.get? x = none := by
    intro x hx
    rcases hr.eq_or_fresh (List.mem_singleton_self _) hx with rfl | hx'
    · exact hdead
    · have hxc : x ≠ c := fun heq => hcr (heq ▸ hx)
      have hxnew : x ≠ new := by
        rintro rfl
        rw [hnew] at hx'
        cases hx'
      rw [hother x hxc hxnew, Option.map_eq_none_iff] at hx'
      exact hx'
  have hnodup : r.ids.Nodup := by simpa using hr.nodup
  refine ⟨hr.linked, by simpa using ⟨_, hget⟩, ?head, ?fresh, ?nodup, ?cut, ?rest⟩
  case head =>
    simp [Run.ids]
  case fresh =>
    simpa [Run.ids] using hfresh
  case nodup =>
    simpa [Run.ids_cons] using ⟨hcr, hnodup⟩
  case cut =>
    intro c' hc' n hn x s' hx
    rw [List.mem_singleton.1 hc', hget] at hn
    cases hn
    rw [List.mem_singleton.1 hc']
    rcases List.mem_cons.1 hx with heq | hxr
    · cases heq
      rw [if_pos rfl]
      refine hr.keeps hc (by simpa using hne) fun y hy => ?_
      rw [List.mem_singleton]
      rintro rfl
      exact hchild c _ hget hy
    · have hxc : x ≠ c := by
        rintro rfl
        exact hcr (Run.mem_ids hxr)
      rw [hr.cut new (List.mem_singleton_self _) _ hnew x s' hxr, if_neg hxc, ite_self]
  case rest =>
    intro x hx
    simp only [List.flatMap_cons, List.flatMap_nil, List.append_nil, Run.ids_cons, List.mem_cons,
      not_or] at hx
    have hxnew : x ≠ new := by
      rintro rfl
      have := hr.head x (List.mem_singleton_self _)
      exact hx.2 (List.mem_of_head? this)
    rw [hr.rest x (by simpa using hx.2), hother x hx.1 hxnew, Option.map_map]
    refine Option.map_congr fun n hn => ?_
    rw [Function.comp_apply, Node.spread_spread]
    refine Node.spread_congr fun y hy => ?_
    have hynew : y ≠ new := fun heq => hchild x n (Option.mem_def.1 hn) (heq ▸ hy)
    by_cases hyc : y = c
    · subst hyc
      simp [inPlace, hne, Run.ids_cons]
    · simp [inPlace, hyc, hynew]

/-- **The segments of one text are laid out in a run.** -/
theorem spread_layOut (h : d.Linked []) (hget : d.get? c = some ⟨.text t, some p, cs, span⟩)
    {segs : List Segment} (hsegs : segs ≠ []) (l : List (String × NodeId)) :
    ∃ r : Run, r.map Prod.snd = segs ∧ ∃ e, layOut d (.ofList l) c (segs.map Segment.piece) =
      (e, .ofList (l ++ r.slots)) ∧ Spread d e [c] fun _ => r := by
  induction segs generalizing d c t cs l with
  | nil => exact absurd rfl hsegs
  | cons s segs ih =>
      cases segs with
      | nil =>
          refine ⟨[(c, s)], rfl, _, ?_, spread_setText h hget s⟩
          rw [List.map_singleton, layOut_singleton, Run.slots_cons]
          simp [Run.slots]
      | cons s' segs =>
          obtain ⟨-, -, hnew, -⟩ := h.divide_eq hget (String.ofList s.piece.text) ""
          obtain ⟨r, hr, e, hlay, hspread⟩ := ih (h.divide c (String.ofList s.piece.text) "") hnew
            (List.cons_ne_nil _ _) (l ++ s.piece.slots c)
          refine ⟨(c, s) :: r, by rw [List.map_cons, hr], e, ?_, hspread.divide h hget s⟩
          rw [List.map_cons, List.map_cons, layOut_cons, ← List.map_cons, hlay, Run.slots_cons,
            List.append_assoc]

end One

/-! ### Several texts -/

/-- The runs of some texts and those of others. -/
theorem flatMap_runs {α : Type} (g : Run → List α) (hdis : ∀ c ∈ texts, c ∉ others) :
    ((texts ++ others).flatMap fun c => g (if c ∈ texts then run c else run' c)) =
      (texts.flatMap fun c => g (run c)) ++ others.flatMap fun c => g (run' c) := by
  rw [List.flatMap_append]
  congr 1
  · exact List.flatMap_congr fun c hc => by rw [if_pos hc]
  · exact List.flatMap_congr fun c hc => by rw [if_neg fun hc' => hdis c hc' hc]

/-- **Nodes that have stayed are apart from the runs**, where none of the texts is above one of them. -/
theorem Spread.apart (h : Spread d e texts run)
    (hothers : ∀ c ∈ others, ∃ n, d.get? c = some n ∧ e.get? c = some n)
    (hdis : ∀ c ∈ texts, c ∉ others) (hbelow : ∀ c ∈ texts, ∀ b ∈ d.children c, b ∉ others)
    {c x : NodeId} (hc : c ∈ texts) (hx : x ∈ (run c).ids) :
    ∃ n, e.get? x = some n ∧ x ∉ others ∧ ∀ b ∈ n.children, b ∉ others := by
  obtain ⟨n, hn⟩ := h.live c hc
  obtain ⟨s, hs⟩ := Run.exists_of_mem_ids hx
  refine ⟨_, h.cut c hc n hn x s hs, fun hx' => ?_, fun b hb => ?_⟩
  · rcases h.eq_or_fresh hc hx with rfl | hdead
    · exact hdis x hc hx'
    · obtain ⟨m, hm, -⟩ := hothers x hx'
      rw [hm] at hdead
      cases hdead
  · simp only at hb
    split at hb
    · exact hbelow c hc b (by rwa [Document.children_of_get? hn])
    · cases hb

/-- **Some texts become runs, and then others do** that were there already, where none of the first is
above one of the others. -/
theorem Spread.append (h : Spread d e texts run) (k : Spread e f others run')
    (hothers : ∀ c ∈ others, ∃ n, d.get? c = some n ∧ e.get? c = some n)
    (hdis : ∀ c ∈ texts, c ∉ others) (hbelow : ∀ c ∈ texts, ∀ b ∈ d.children c, b ∉ others) :
    Spread d f (texts ++ others) fun x => if x ∈ texts then run x else run' x := by
  have hfirst : ∀ c ∈ texts, (if c ∈ texts then run c else run' c) = run c := fun c hc => if_pos hc
  have hsecond : ∀ c ∈ others, (if c ∈ texts then run c else run' c) = run' c :=
    fun c hc => if_neg fun hc' => hdis c hc' hc
  have hids : ((texts ++ others).flatMap fun c => (if c ∈ texts then run c else run' c).ids) =
      (texts.flatMap fun c => (run c).ids) ++ others.flatMap fun c => (run' c).ids :=
    flatMap_runs Run.ids hdis
  have hrun : ∀ c ∈ texts, ∀ x ∈ (run c).ids, ∃ n, e.get? x = some n ∧ x ∉ others ∧
      ∀ b ∈ n.children, b ∉ others := fun c hc x hx => h.apart hothers hdis hbelow hc hx
  refine ⟨k.linked, ?live, ?head, ?fresh, ?nodup, ?cut, ?rest⟩
  case live =>
    intro c hc
    rcases List.mem_append.1 hc with hc | hc
    · exact h.live c hc
    · obtain ⟨n, hn, -⟩ := hothers c hc
      exact ⟨n, hn⟩
  case head =>
    intro c hc
    rcases List.mem_append.1 hc with hc | hc
    · rw [hfirst c hc, h.head c hc]
    · rw [hsecond c hc, k.head c hc]
  case fresh =>
    intro c hc x hx
    rcases List.mem_append.1 hc with hc | hc
    · rw [hfirst c hc] at hx
      exact h.fresh c hc x hx
    · rw [hsecond c hc] at hx
      exact h.get?_eq_none (k.fresh c hc x hx)
  case nodup =>
    rw [hids]
    refine List.nodup_append.2 ⟨h.nodup, k.nodup, ?_⟩
    rintro x hx _ hx' rfl
    obtain ⟨c, hc, hxc⟩ := List.mem_flatMap.1 hx
    obtain ⟨n, hn, hno, -⟩ := hrun c hc x hxc
    exact k.notMem hn hno hx'
  case cut =>
    intro c hc n hn x s hx
    rcases List.mem_append.1 hc with hc | hc
    · rw [hfirst c hc] at hx
      obtain ⟨m, hm, hno, hchildren⟩ := hrun c hc x (Run.mem_ids hx)
      rw [k.keeps hm hno hchildren, ← hm, h.cut c hc n hn x s hx]
    · rw [hsecond c hc] at hx
      obtain ⟨m, hm, hm'⟩ := hothers c hc
      rw [hn] at hm
      cases hm
      exact k.cut c hc n hm' x s hx
  case rest =>
    intro x hx
    rw [hids, List.mem_append, not_or] at hx
    rw [k.rest x hx.2, h.rest x hx.1, Option.map_map]
    refine Option.map_congr fun n _ => ?_
    rw [Function.comp_apply, Node.spread_spread]
    refine Node.spread_congr fun y _ => ?_
    by_cases hy : y ∈ texts
    · have hstay : ∀ x ∈ (run y).ids, inPlace others run' x = [x] := by
        intro x hx
        obtain ⟨-, -, hno, -⟩ := hrun y hy x hx
        exact if_neg hno
      rw [inPlace, if_pos hy, List.flatMap_congr hstay, List.flatMap_singleton', inPlace,
        if_pos (List.mem_append_left _ hy), hfirst y hy]
    · simp [inPlace, hy]

end Binding

end PageTemplate
