/-
**The nodes of a mold in a document.**

While a mold is rendered its places are filled one after the other.  At each moment some copies are
old, and will be removed, and others are new.  `Level` says what a document has for the parts of a mold
then: each node has its children, with old copies anywhere among them; each copy is where it belongs;
and no two parts share a slot.  The slots of a pattern are not looked into, they are only known to be
no other part's.

Main definitions:

* `PageTemplate.Document.Trades` — a document after some slots have been given up for others;
* `PageTemplate.Binding.Part.Holds`, `PageTemplate.Binding.Level` — what a document has for a part, and
  for all parts of a mold.

Main results:

* `PageTemplate.Binding.Level.remove` — an old copy goes;
* `PageTemplate.Binding.Level.insert` — a new copy comes to its place;
* `PageTemplate.Binding.Level.renew` — the slots of a pattern become others.
-/

import Mathlib.Data.List.Flatten
import Mathlib.Data.List.Infix
import Mathlib.Data.List.Lattice
import Mathlib.Data.List.Nodup
import Mathlib.Data.List.Pairwise
import Mathlib.Logic.Function.Basic
import PageTemplate.Proofs.Binding.Mold
import PageTemplate.Proofs.Document.Subtrees

set_option relaxedAutoImplicit false
set_option autoImplicit false

namespace PageTemplate

open PageTemplate.Text

namespace Document

/-! ### Giving up slots for others -/

/-- The document `e` comes from `d` when the slots `xs` are given up for the slots `ys`. -/
structure Trades (d e : Document) (xs ys : List NodeId) : Prop where
  within : ∀ x ∈ ys, x ∈ xs ∨ d.get? x = none
  dead : ∀ x ∈ xs, x ∉ ys → e.get? x = none
  keeps : ∀ x, x ∉ xs → x ∉ ys → e.get? x = d.get? x

theorem Trades.refl (d : Document) (xs : List NodeId) : Trades d d xs xs where
  within _ hx := .inl hx
  dead _ hx hx' := absurd hx hx'
  keeps _ _ _ := rfl

theorem Trades.trans {d e f : Document} {xs ys zs : List NodeId} (h : Trades d e xs ys)
    (k : Trades e f ys zs) : Trades d f xs zs where
  within x hx := by
    rcases k.within x hx with hy | hy
    · exact h.within x hy
    · by_cases hxx : x ∈ xs
      · exact .inl hxx
      · by_cases hxy : x ∈ ys
        · exact h.within x hxy
        · exact .inr (by rw [← h.keeps x hxx hxy, hy])
  dead x hx hz := by
    by_cases hy : x ∈ ys
    · exact k.dead x hy hz
    · rw [k.keeps x hy hz, h.dead x hx hy]
  keeps x hx hz := by
    by_cases hy : x ∈ ys
    · rw [k.dead x hy hz]
      exact ((h.within x hy).resolve_left hx).symm
    · rw [k.keeps x hy hz, h.keeps x hx hy]

/-- The same trade among more slots. -/
theorem Trades.mono {d e : Document} {xs ys xs' ys' : List NodeId} (h : Trades d e xs ys)
    (hx : ∀ x ∈ xs, x ∈ xs') (hy : ∀ x ∈ ys, x ∈ ys') (hin : ∀ x ∈ ys', x ∈ ys ∨ x ∈ xs')
    (hout : ∀ x ∈ xs', x ∉ ys' → x ∈ xs) : Trades d e xs' ys' where
  within x hx' := by
    rcases hin x hx' with hxy | hxx
    · exact (h.within x hxy).imp_left (hx x)
    · exact .inl hxx
  dead x hx' hy' := h.dead x (hout x hx' hy') fun hxy => hy' (hy x hxy)
  keeps x hx' hy' := h.keeps x (fun hxx => hx' (hx x hxx)) fun hxy => hy' (hy x hxy)

/-- What is live elsewhere stays. -/
theorem Trades.get? {d e : Document} {xs ys : List NodeId} (h : Trades d e xs ys) {x : NodeId}
    {n : Node} (hx : x ∉ xs) (hn : d.get? x = some n) : e.get? x = some n := by
  rw [h.keeps x hx fun hy => ?_, hn]
  rcases h.within x hy with hxx | hnone
  · exact hx hxx
  · rw [hn] at hnone
    cases hnone

/-- The same trade beside slots that stay. -/
theorem Trades.append_left {d e : Document} {xs ys : List NodeId} (h : Trades d e xs ys)
    (zs : List NodeId) : Trades d e (zs ++ xs) (zs ++ ys) := by
  refine h.mono (fun x hx => List.mem_append_right _ hx) (fun x hx => List.mem_append_right _ hx)
    (fun x hx => ?_) fun x hx hx' => ?_
  · rcases List.mem_append.1 hx with hx | hx
    · exact .inr (List.mem_append_left _ hx)
    · exact .inl hx
  · rw [List.mem_append, not_or] at hx'
    exact (List.mem_append.1 hx).resolve_left hx'.1

/-- Slots are given up for nothing, and one node is changed. -/
theorem Trades.of_freed {d e : Document} {c : NodeId} {xs : List NodeId}
    (hdead : ∀ x ∈ xs, e.get? x = none) (hkeep : ∀ x, x ∉ xs → x ≠ c → e.get? x = d.get? x)
    (ys : List NodeId) : Trades d e (c :: (xs ++ ys)) (c :: ys) where
  within x hx := by
    rcases List.mem_cons.1 hx with rfl | hx
    · exact .inl (List.mem_cons_self ..)
    · exact .inl (List.mem_cons_of_mem _ (List.mem_append_right _ hx))
  dead x hx hx' := by
    rw [List.mem_cons, not_or] at hx'
    have hxs : x ∈ xs ++ ys := (List.mem_cons.1 hx).resolve_left hx'.1
    exact hdead x ((List.mem_append.1 hxs).resolve_right hx'.2)
  keeps x hx _ := by
    rw [List.mem_cons, List.mem_append, not_or, not_or] at hx
    exact hkeep x hx.2.1 hx.1

/-- Free slots are taken besides others, and one node is changed. -/
theorem Trades.of_taken {d e : Document} {c : NodeId} {xs ys zs : List NodeId}
    (hzs : zs.Perm (xs ++ ys)) (hfree : ∀ x ∈ xs, d.get? x = none)
    (hkeep : ∀ x, x ∉ xs → x ≠ c → e.get? x = d.get? x) : Trades d e (c :: ys) (c :: zs) where
  within x hx := by
    rcases List.mem_cons.1 hx with rfl | hx
    · exact .inl (List.mem_cons_self ..)
    · rcases List.mem_append.1 (hzs.mem_iff.1 hx) with hx | hx
      · exact .inr (hfree x hx)
      · exact .inl (List.mem_cons_of_mem _ hx)
  dead x hx hx' := by
    rw [List.mem_cons, hzs.mem_iff, List.mem_append, not_or, not_or] at hx'
    rcases List.mem_cons.1 hx with rfl | hx
    · exact absurd rfl hx'.1
    · exact absurd hx hx'.2.2
  keeps x hx hx' := by
    rw [List.mem_cons, hzs.mem_iff, List.mem_append, not_or, not_or] at hx'
    exact hkeep x hx'.2.1 hx'.1

end Document

namespace Binding

/-! ### Lists -/

/-- Different members of a list whose images have no common element share none. -/
theorem eq_of_nodup_flatMap {α β : Type} {f : α → List β} {l : List α} (h : (l.flatMap f).Nodup)
    {x y : α} (hx : x ∈ l) (hy : y ∈ l) {i : β} (hi : i ∈ f x) (hj : i ∈ f y) : x = y := by
  by_contra hne
  have hp := (List.nodup_flatMap.1 h).2
  have hsymm : Std.Symm (Function.onFun List.Disjoint f) := ⟨fun _ _ => List.Disjoint.symm⟩
  exact hp.forall hx hy hne hi hj

/-- To put something before its anchor is to do so among those that pass a test, if the anchor is the
first one behind `xs` to pass it. -/
theorem filter_place {c : NodeId} {cs xs ys : List NodeId} {p : NodeId → Bool}
    (h : cs.filter p = xs ++ ys) (hn : (xs ++ ys).Nodup) (hc : p c = true) :
    (Document.place c ys.head? cs).filter p = xs ++ c :: ys := by
  cases ys with
  | nil => simp [Document.place, List.filter_append, h, hc]
  | cons a ys =>
      have ha : a ∈ cs.filter p := by simp [h]
      have hpa : p a = true := (List.mem_filter.1 ha).2
      obtain ⟨us, vs, rfl, hus⟩ := List.eq_append_cons_of_mem (List.mem_filter.1 ha).1
      obtain ⟨_, hays, hdis⟩ := List.nodup_append.1 hn
      have hxs : a ∉ xs := fun hax => hdis a hax a (List.mem_cons_self ..) rfl
      rw [List.filter_append, List.filter_cons_of_pos hpa] at h
      obtain ⟨h₁, _, h₂⟩ := (List.append_cons_inj_of_notMem hxs (List.nodup_cons.1 hays).1).1 h.symm
      rw [List.head?_cons, Document.place, Document.placeBefore_append hus, List.filter_append,
        List.filter_cons_of_pos hc, List.filter_cons_of_pos hpa, ← h₁, ← h₂]

/-! ### What a document has for parts -/

/-- What a document has for a part, where the copies `gone` are old and `new` are new. -/
def Part.Holds (d : Document) (gone new : ScopeId → List Placed) : Part → Prop
  | still p id kind span items =>
      ∃ cs, d.get? id = some ⟨kind, p, cs, span⟩ ∧
        cs.filter (fun x => decide (x ∉ items.flatMap (Mold.copyHeads gone))) =
          items.flatMap (Mold.heads new)
  | slot p id span _ => ∃ t, d.get? id = some ⟨.text t, some p, [], span⟩
  | each e => ∀ t ∈ gone e.scope ++ new e.scope, d.Holds (some e.container) t

/-- Without old copies, the children of a node are the topmost nodes of its items. -/
theorem Part.holds_still_iff {d : Document} {new : ScopeId → List Placed} {p : Option NodeId}
    {id : NodeId} {kind : NodeKind} {span : Option Span} {items : List Mold} :
    (Part.still p id kind span items).Holds d (fun _ => []) new ↔
      d.get? id = some ⟨kind, p, items.flatMap (Mold.heads new), span⟩ := by
  have hnil : items.flatMap (Mold.copyHeads fun _ => []) = [] := by
    rw [List.flatMap_eq_nil_iff]
    intro m _
    cases m <;> rfl
  rw [Part.Holds, hnil]
  simp

/-- The slots that belong to a place: those of the copies, and those of the pattern. -/
def foot (gone new : ScopeId → List Placed) (inner : ScopeId → List NodeId) (s : ScopeId) :
    List NodeId :=
  (gone s ++ new s).flatMap Placed.ids ++ inner s

/-- The slots of all parts. -/
abbrev occupied (ps : List Part) (gone new : ScopeId → List Placed)
    (inner : ScopeId → List NodeId) : List NodeId :=
  ps.flatMap (Part.ids (foot gone new inner))

/-- What a document has for parts that share no slot. -/
structure Level (d : Document) (ps : List Part) (gone new : ScopeId → List Placed)
    (inner : ScopeId → List NodeId) : Prop where
  holds : ∀ x ∈ ps, x.Holds d gone new
  nodup : (occupied ps gone new inner).Nodup
  live : ∀ e, Part.each e ∈ ps → ∀ i ∈ inner e.scope, ∃ n, d.get? i = some n

section Level

variable {d e : Document} {gone new gone' new' : ScopeId → List Placed}
  {inner inner' : ScopeId → List NodeId} {ps : List Part} {q : Option NodeId} {j : NodeId}
  {k : NodeKind} {sp : Option Span} {ms : List Mold} {a : Spot}

/-- The slots of a level are live. -/
theorem Level.exists_get? (h : Level d ps gone new inner) {x : Part} (hx : x ∈ ps) {i : NodeId}
    (hi : i ∈ x.ids (foot gone new inner)) : ∃ n, d.get? i = some n := by
  have hheld := h.holds x hx
  cases x with
  | still p id kind span items =>
      obtain ⟨cs, hget, _⟩ := hheld
      rw [Part.ids, List.mem_singleton] at hi
      exact ⟨_, hi ▸ hget⟩
  | slot p id span path =>
      obtain ⟨t, hget⟩ := hheld
      rw [Part.ids, List.mem_singleton] at hi
      exact ⟨_, hi ▸ hget⟩
  | each a =>
      rcases List.mem_append.1 hi with hi | hi
      · obtain ⟨t, ht, hit⟩ := List.mem_flatMap.1 hi
        exact (hheld t ht).live hit
      · exact h.live a hx i hi

/-- Parts that share a slot are the same. -/
theorem Level.eq_of_mem (h : Level d ps gone new inner) {x y : Part} (hx : x ∈ ps) (hy : y ∈ ps)
    {i : NodeId} (hi : i ∈ x.ids (foot gone new inner)) (hj : i ∈ y.ids (foot gone new inner)) :
    x = y :=
  eq_of_nodup_flatMap h.nodup hx hy hi hj

/-- Places with the same scope are the same. -/
theorem eq_of_scope (hs : (ps.flatMap Part.scopes).Nodup) {a b : Spot} (ha : Part.each a ∈ ps)
    (hb : Part.each b ∈ ps) (h : a.scope = b.scope) : a = b := by
  have hmem : a.scope ∈ (Part.each b).scopes := by simp [Part.scopes, h]
  have := eq_of_nodup_flatMap hs ha hb (List.mem_cons_self ..) hmem
  cases this
  rfl

/-- Other parts have the same slots if only those of one place change. -/
theorem ids_elsewhere {foot foot' : ScopeId → List NodeId}
    (hs : (ps.flatMap Part.scopes).Nodup) (ha : Part.each a ∈ ps)
    (hfoot : ∀ s, s ≠ a.scope → foot' s = foot s) {x : Part} (hx : x ∈ ps) (hne : x ≠ .each a) :
    x.ids foot' = x.ids foot := by
  cases x with
  | still _ _ _ _ _ => rfl
  | slot _ _ _ _ => rfl
  | each b => exact hfoot _ fun hscope => hne (congrArg Part.each (eq_of_scope hs hx ha hscope))

/-- A node that does not contain a place has nothing of its scope among its items. -/
theorem notMem_items (hs : ((Mold.level q j k sp ms).flatMap Part.scopes).Nodup)
    (ha : Part.each a ∈ Mold.level q j k sp ms) {p : Option NodeId} {id : NodeId}
    {kind : NodeKind} {span : Option Span} {items : List Mold}
    (hx : Part.still p id kind span items ∈ Mold.level q j k sp ms) (hid : id ≠ a.container)
    (x : RepeatExpression) (pattern : Mold) : Mold.each x a.scope pattern ∉ items := by
  intro hmem
  obtain ⟨b, hb, hscope, hc⟩ := Mold.each_of_mem hmem
  have hb' : Part.each b ∈ Mold.level q j k sp ms := (Mold.level_sublist hx).subset hb
  rw [eq_of_scope hs hb' ha hscope] at hc
  exact hid hc.symm

theorem flatMap_heads_congr {s : ScopeId} {items : List Mold}
    (h : ∀ x pattern, Mold.each x s pattern ∉ items) (hnew : ∀ s', s' ≠ s → new' s' = new s') :
    items.flatMap (Mold.heads new') = items.flatMap (Mold.heads new) := by
  refine List.flatMap_congr fun m hm => ?_
  cases m with
  | still _ _ _ _ => rfl
  | slot _ _ _ => rfl
  | each x s' pattern =>
      have hne : s' ≠ s := by
        rintro rfl
        exact h x pattern hm
      simp only [Mold.heads, hnew s' hne]

theorem flatMap_copyHeads_congr {s : ScopeId} {items : List Mold}
    (h : ∀ x pattern, Mold.each x s pattern ∉ items) (hgone : ∀ s', s' ≠ s → gone' s' = gone s') :
    items.flatMap (Mold.copyHeads gone') = items.flatMap (Mold.copyHeads gone) := by
  refine List.flatMap_congr fun m hm => ?_
  cases m with
  | still _ _ _ _ => rfl
  | slot _ _ _ => rfl
  | each x s' pattern =>
      have hne : s' ≠ s := by
        rintro rfl
        exact h x pattern hm
      simp only [Mold.copyHeads, hgone s' hne]

/-- If only the slots of one place change, and for free ones, parts still share none. -/
theorem nodup_of_change {foot foot' : ScopeId → List NodeId}
    (hs : (ps.flatMap Part.scopes).Nodup) (h : (ps.flatMap (Part.ids foot)).Nodup)
    (ha : Part.each a ∈ ps) (hfoot : ∀ s, s ≠ a.scope → foot' s = foot s)
    (hnodup : (foot' a.scope).Nodup)
    (hnew : ∀ i ∈ foot' a.scope, i ∈ foot a.scope ∨ i ∉ ps.flatMap (Part.ids foot)) :
    (ps.flatMap (Part.ids foot')).Nodup := by
  have hids : ∀ x ∈ ps, x ≠ .each a → x.ids foot' = x.ids foot :=
    fun x hx hne => ids_elsewhere hs ha hfoot hx hne
  -- a slot of two parts is one of the place and one that was elsewhere
  have hkey : ∀ x ∈ ps, x ≠ .each a → ∀ i ∈ x.ids foot', i ∉ foot' a.scope := by
    intro x hx hne i hi hia
    rw [hids x hx hne] at hi
    rcases hnew i hia with hold | hfree
    · exact hne (eq_of_nodup_flatMap h hx ha hi hold)
    · exact hfree (List.mem_flatMap.2 ⟨x, hx, hi⟩)
  have hpair := (List.nodup_flatMap.1 h).2
  have hscopes := (List.nodup_flatMap.1 hs).2
  refine List.nodup_flatMap.2 ⟨fun x hx => ?_, ?_⟩
  · by_cases hne : x = .each a
    · subst hne
      exact hnodup
    · rw [hids x hx hne]
      exact (List.nodup_flatMap.1 h).1 x hx
  · refine (hpair.and hscopes).imp_of_mem fun {x y} hx hy hxy i hi hj => ?_
    by_cases hxa : x = .each a
    · by_cases hya : y = .each a
      · subst hxa hya
        exact hxy.2 (List.mem_cons_self ..) (List.mem_cons_self ..)
      · subst hxa
        exact hkey y hy hya i hj hi
    · by_cases hya : y = .each a
      · subst hya
        exact hkey x hx hxa i hi hj
      · rw [hids x hx hxa] at hi
        rw [hids y hy hya] at hj
        exact hxy.1 hi hj

/-! ### Changes at one place -/

/-- The node that contains a place is a part. -/
theorem container_mem (ha : Part.each a ∈ Mold.level q j k sp ms)
    (foot : ScopeId → List NodeId) :
    a.container ∈ (Mold.level q j k sp ms).flatMap (Part.ids foot) := by
  obtain ⟨p, kind, span, pre, post, _, _, hstill⟩ := Mold.still_of_each ha
  exact List.mem_flatMap.2 ⟨_, hstill, by simp [Part.ids]⟩

/-- Only the node itself that contains a place has its slot. -/
theorem Level.ne_container (h : Level d (Mold.level q j k sp ms) gone new inner)
    (ha : Part.each a ∈ Mold.level q j k sp ms) {x : Part} (hx : x ∈ Mold.level q j k sp ms)
    (hstill : ∀ p id kind span items, x ≠ .still p id kind span items) {i : NodeId}
    (hi : i ∈ x.ids (foot gone new inner)) : i ≠ a.container := by
  rintro rfl
  obtain ⟨p, kind, span, pre, post, _, _, hcontainer⟩ := Mold.still_of_each ha
  exact hstill _ _ _ _ _ (h.eq_of_mem hx hcontainer hi (by simp [Part.ids]))

/-- The slots of a place do not include the node that contains it. -/
theorem Level.container_notMem (h : Level d (Mold.level q j k sp ms) gone new inner)
    (ha : Part.each a ∈ Mold.level q j k sp ms) : a.container ∉ foot gone new inner a.scope :=
  fun hmem => h.ne_container ha ha (by simp) hmem rfl

/-- What changes at one place leaves the slots of other parts alone. -/
theorem Level.keeps (h : Level d (Mold.level q j k sp ms) gone new inner)
    (ha : Part.each a ∈ Mold.level q j k sp ms) {ys : List NodeId}
    (ht : d.Trades e (a.container :: foot gone new inner a.scope) ys) {x : Part}
    (hx : x ∈ Mold.level q j k sp ms) (hne : x ≠ .each a) {i : NodeId}
    (hi : i ∈ x.ids (foot gone new inner)) (hic : i ≠ a.container) : e.get? i = d.get? i := by
  obtain ⟨n, hn⟩ := h.exists_get? hx hi
  have hmem : i ∉ a.container :: foot gone new inner a.scope := by
    rw [List.mem_cons, not_or]
    exact ⟨hic, fun hia => hne (h.eq_of_mem hx ha hi hia)⟩
  rw [ht.get? hmem hn, hn]

/-- What changes at one place leaves the patterns of other places alone. -/
theorem Level.keeps_inner (h : Level d (Mold.level q j k sp ms) gone new inner)
    (ha : Part.each a ∈ Mold.level q j k sp ms) {ys : List NodeId}
    (ht : d.Trades e (a.container :: foot gone new inner a.scope) ys) {b : Spot}
    (hb : Part.each b ∈ Mold.level q j k sp ms) (hne : b ≠ a) {i : NodeId}
    (hi : i ∈ inner b.scope) : e.get? i = d.get? i := by
  have hib : i ∈ (Part.each b).ids (foot gone new inner) := List.mem_append_right _ hi
  exact h.keeps ha ht hb (fun e => hne (Part.each.inj e)) hib (h.ne_container ha hb (by simp) hib)

/-- If the pattern of the place is left alone as well, all patterns are. -/
theorem Level.keeps_patterns (h : Level d (Mold.level q j k sp ms) gone new inner)
    (ha : Part.each a ∈ Mold.level q j k sp ms) {ys : List NodeId}
    (ht : d.Trades e (a.container :: foot gone new inner a.scope) ys)
    (hself : ∀ i ∈ inner a.scope, e.get? i = d.get? i) {b : Spot}
    (hb : Part.each b ∈ Mold.level q j k sp ms) {i : NodeId} (hi : i ∈ inner b.scope) :
    e.get? i = d.get? i := by
  by_cases hba : b = a
  · subst hba
    exact hself i hi
  · exact h.keeps_inner ha ht hb hba hi

/-- The copies and the patterns of all scopes are the same, but for those of one. -/
structure SameElsewhere (s : ScopeId) (gone new gone' new' : ScopeId → List Placed)
    (inner inner' : ScopeId → List NodeId) : Prop where
  gone : ∀ x, x ≠ s → gone' x = gone x
  new : ∀ x, x ≠ s → new' x = new x
  inner : ∀ x, x ≠ s → inner' x = inner x

theorem SameElsewhere.foot {s : ScopeId} (h : SameElsewhere s gone new gone' new' inner inner')
    (x : ScopeId) (hx : x ≠ s) : foot gone' new' inner' x = foot gone new inner x := by
  rw [Binding.foot, Binding.foot, h.gone x hx, h.new x hx, h.inner x hx]

/-- What a document has for a part stays what it is, if the part is neither the place that changes nor
the node that contains it. -/
theorem Level.holds_elsewhere (h : Level d (Mold.level q j k sp ms) gone new inner)
    (hs : ((Mold.level q j k sp ms).flatMap Part.scopes).Nodup)
    (ha : Part.each a ∈ Mold.level q j k sp ms)
    (hsame : SameElsewhere a.scope gone new gone' new' inner inner') {ys : List NodeId}
    (ht : d.Trades e (a.container :: foot gone new inner a.scope) ys) {x : Part}
    (hx : x ∈ Mold.level q j k sp ms) (hne : x ≠ .each a)
    (hstill : ∀ p kind span items, x ≠ .still p a.container kind span items) :
    x.Holds e gone' new' := by
  have hheld := h.holds x hx
  cases x with
  | still p id kind span items =>
      have hid : id ≠ a.container := by
        rintro rfl
        exact hstill _ _ _ _ rfl
      have hitems := notMem_items hs ha hx hid
      obtain ⟨cs, hget, hcs⟩ := hheld
      refine ⟨cs, ?_, ?_⟩
      · rw [h.keeps ha ht hx hne (by simp [Part.ids]) hid, hget]
      · rw [flatMap_heads_congr hitems hsame.new, flatMap_copyHeads_congr hitems hsame.gone, hcs]
  | slot p id span path =>
      have hid := h.ne_container ha hx (by simp) (i := id) (by simp [Part.ids])
      obtain ⟨t, hget⟩ := hheld
      exact ⟨t, by rw [h.keeps ha ht hx hne (by simp [Part.ids]) hid, hget]⟩
  | each b =>
      have hscope : b.scope ≠ a.scope := fun e => hne (congrArg Part.each (eq_of_scope hs hx ha e))
      intro t htmem
      rw [hsame.gone _ hscope, hsame.new _ hscope] at htmem
      refine (hheld t htmem).congr fun i hi => ?_
      have hib : i ∈ (Part.each b).ids (foot gone new inner) :=
        List.mem_append_left _ (List.mem_flatMap.2 ⟨t, htmem, hi⟩)
      exact h.keeps ha ht hx hne hib (h.ne_container ha hx (by simp) hib)

/-- The parts still share no slot. -/
theorem Level.nodup_elsewhere (h : Level d (Mold.level q j k sp ms) gone new inner)
    (hs : ((Mold.level q j k sp ms).flatMap Part.scopes).Nodup)
    (ha : Part.each a ∈ Mold.level q j k sp ms)
    (hsame : SameElsewhere a.scope gone new gone' new' inner inner')
    (hnodup : (a.container :: foot gone' new' inner' a.scope).Nodup)
    (ht : d.Trades e (a.container :: foot gone new inner a.scope)
      (a.container :: foot gone' new' inner' a.scope)) :
    (occupied (Mold.level q j k sp ms) gone' new' inner').Nodup := by
  obtain ⟨hcontainer, hfoot⟩ := List.nodup_cons.1 hnodup
  refine nodup_of_change hs h.nodup ha hsame.foot hfoot fun i hi => ?_
  by_cases hmem : i ∈ occupied (Mold.level q j k sp ms) gone new inner
  · -- a slot that was some part's was live, so it was not taken for the place
    obtain ⟨x, hx, hix⟩ := List.mem_flatMap.1 hmem
    obtain ⟨n, hn⟩ := h.exists_get? hx hix
    rcases ht.within i (List.mem_cons_of_mem _ hi) with hmem' | hnone
    · rcases List.mem_cons.1 hmem' with rfl | hmem'
      · exact absurd hi hcontainer
      · exact .inl hmem'
    · rw [hn] at hnone
      cases hnone
  · exact .inr hmem

/-- A trade at one place is one among the slots of all parts. -/
theorem trades_occupied (hs : ((Mold.level q j k sp ms).flatMap Part.scopes).Nodup)
    (ha : Part.each a ∈ Mold.level q j k sp ms)
    (hsame : SameElsewhere a.scope gone new gone' new' inner inner')
    (ht : d.Trades e (a.container :: foot gone new inner a.scope)
      (a.container :: foot gone' new' inner' a.scope)) :
    d.Trades e (occupied (Mold.level q j k sp ms) gone new inner)
      (occupied (Mold.level q j k sp ms) gone' new' inner') := by
  have hmem : ∀ (foot : ScopeId → List NodeId), ∀ x ∈ a.container :: foot a.scope,
      x ∈ (Mold.level q j k sp ms).flatMap (Part.ids foot) := by
    intro foot x hx
    rcases List.mem_cons.1 hx with rfl | hx
    · exact container_mem ha foot
    · exact List.mem_flatMap.2 ⟨_, ha, hx⟩
  refine ht.mono (hmem _) (hmem _) (fun x hx => ?_) fun x hx hx' => ?_
  all_goals
    obtain ⟨y, hy, hxy⟩ := List.mem_flatMap.1 hx
    have hids : y ≠ .each a → y.ids (Binding.foot gone' new' inner') =
        y.ids (Binding.foot gone new inner) := ids_elsewhere hs ha hsame.foot hy
    by_cases hya : y = .each a
  · subst hya
    exact .inl (List.mem_cons_of_mem _ hxy)
  · rw [hids hya] at hxy
    exact .inr (List.mem_flatMap.2 ⟨y, hy, hxy⟩)
  · subst hya
    exact List.mem_cons_of_mem _ hxy
  · rw [← hids hya] at hxy
    exact absurd (List.mem_flatMap.2 ⟨y, hy, hxy⟩) hx'

/-- **A change at one place**: if it is right at the place and at the node that contains it, it is
right for all parts. -/
theorem Level.change (h : Level d (Mold.level q j k sp ms) gone new inner)
    (hs : ((Mold.level q j k sp ms).flatMap Part.scopes).Nodup)
    (ha : Part.each a ∈ Mold.level q j k sp ms)
    (hsame : SameElsewhere a.scope gone new gone' new' inner inner')
    (hnodup : (a.container :: foot gone' new' inner' a.scope).Nodup)
    (ht : d.Trades e (a.container :: foot gone new inner a.scope)
      (a.container :: foot gone' new' inner' a.scope))
    (hstill : ∀ p kind span items,
      Part.still p a.container kind span items ∈ Mold.level q j k sp ms →
      Part.Holds e gone' new' (.still p a.container kind span items))
    (heach : Part.Holds e gone' new' (.each a))
    (hlive : ∀ i ∈ inner' a.scope, ∃ n, e.get? i = some n) :
    Level e (Mold.level q j k sp ms) gone' new' inner' ∧
      d.Trades e (occupied (Mold.level q j k sp ms) gone new inner)
        (occupied (Mold.level q j k sp ms) gone' new' inner') := by
  refine ⟨⟨fun x hx => ?_, h.nodup_elsewhere hs ha hsame hnodup ht, fun b hb i hi => ?_⟩,
    trades_occupied hs ha hsame ht⟩
  · by_cases hne : x = .each a
    · subst hne
      exact heach
    · by_cases hcontainer : ∃ p kind span items, x = .still p a.container kind span items
      · obtain ⟨p, kind, span, items, rfl⟩ := hcontainer
        exact hstill p kind span items hx
      · exact h.holds_elsewhere hs ha hsame ht hx hne fun p kind span items hx =>
          hcontainer ⟨p, kind, span, items, hx⟩
  · by_cases hba : b = a
    · subst hba
      exact hlive i hi
    · have hscope : b.scope ≠ a.scope := fun e => hba (eq_of_scope hs hb ha e)
      rw [hsame.inner _ hscope] at hi
      obtain ⟨n, hn⟩ := h.live b hb i hi
      exact ⟨n, by rw [h.keeps_inner ha ht hb hba hi, hn]⟩

/-- The items of the node that contains a place are those before it, the place, and those behind
it, and the scope of the place is that of no other item. -/
theorem items_of_each (hs : ((Mold.level q j k sp ms).flatMap Part.scopes).Nodup)
    (ha : Part.each a ∈ Mold.level q j k sp ms) :
    ∃ p kind span pre post, a.anchor = Mold.anchor post ∧ a.run = Mold.run post ∧
      Part.still p a.container kind span (pre ++ .each a.expression a.scope a.pattern :: post) ∈
        Mold.level q j k sp ms ∧
      (∀ x pattern, Mold.each x a.scope pattern ∉ pre) ∧
      ∀ x pattern, Mold.each x a.scope pattern ∉ post := by
  obtain ⟨p, kind, span, pre, post, hanchor, hrun, hstill⟩ := Mold.still_of_each ha
  have hnodup := List.Nodup.sublist ((Mold.level_sublist hstill).flatMap Part.scopes) hs
  rw [Mold.flatMap_scopes_partsAll, Mold.scopesAll_append, Mold.scopesAll, Mold.scopes] at hnodup
  obtain ⟨_, hpost, hdis⟩ := List.nodup_append.1 hnodup
  refine ⟨p, kind, span, pre, post, hanchor, hrun, hstill, fun x pattern hx => ?_,
    fun x pattern hx => ?_⟩
  · exact hdis _ (Mold.mem_scopesAll hx) a.scope (by simp) rfl
  · refine (List.nodup_cons.1 hpost).1 (List.mem_append_right _ (Mold.mem_scopesAll hx))

/-- The only node with the slot of the container is the container. -/
theorem Level.still_unique (h : Level d ps gone new inner) {p p' : Option NodeId} {id : NodeId}
    {kind kind' : NodeKind} {span span' : Option Span} {items items' : List Mold}
    (hx : Part.still p id kind span items ∈ ps) (hy : Part.still p' id kind' span' items' ∈ ps) :
    p = p' ∧ kind = kind' ∧ span = span' ∧ items = items' := by
  have := h.eq_of_mem hx hy (i := id) (by simp [Part.ids]) (by simp [Part.ids])
  cases this
  exact ⟨rfl, rfl, rfl, rfl⟩

/-- The slots of one place are different ones. -/
theorem Level.nodup_foot (h : Level d ps gone new inner) (ha : Part.each a ∈ ps) :
    (foot gone new inner a.scope).Nodup :=
  (List.nodup_flatMap.1 h.nodup).1 _ ha

/-- The slots of a place are those of its first old copy, and those without this copy. -/
theorem foot_eq_of_cons {s : ScopeId} {t : Placed} {rest : List Placed} (h : gone s = t :: rest) :
    foot gone new inner s = t.ids ++ foot (Function.update gone s rest) new inner s := by
  simp [foot, h]

/-- The old copies among the items of a node, without the first one at a place. -/
theorem mem_copyHeads_of_cons {s : ScopeId} {t : Placed} {rest : List Placed} {pre post : List Mold}
    (hgone : gone s = t :: rest) (hpre : ∀ x pattern, Mold.each x s pattern ∉ pre)
    (hpost : ∀ x pattern, Mold.each x s pattern ∉ post) (x : RepeatExpression) (pattern : Mold)
    (i : NodeId) :
    i ∈ (pre ++ .each x s pattern :: post).flatMap (Mold.copyHeads gone) ↔ i = t.id ∨
      i ∈ (pre ++ .each x s pattern :: post).flatMap
        (Mold.copyHeads (Function.update gone s rest)) := by
  have hne : ∀ s', s' ≠ s → Function.update gone s rest s' = gone s' :=
    fun s' hs => Function.update_of_ne hs _ _
  rw [List.flatMap_append, List.flatMap_append, List.flatMap_cons, List.flatMap_cons,
    flatMap_copyHeads_congr hpre hne, flatMap_copyHeads_congr hpost hne]
  simp only [Mold.copyHeads, hgone, Function.update_self, List.map_cons, List.mem_append,
    List.mem_cons]
  constructor
  · rintro (h | (h | h) | h)
    · exact .inr (.inl h)
    · exact .inl h
    · exact .inr (.inr (.inl h))
    · exact .inr (.inr (.inr h))
  · rintro (h | h | h | h)
    · exact .inr (.inl (.inl h))
    · exact .inl h
    · exact .inr (.inl (.inr h))
    · exact .inr (.inr h)

/-- **An old copy goes.** -/
theorem Level.remove (h : Level d (Mold.level q j k sp ms) gone new inner) (hd : d.Sound)
    (hs : ((Mold.level q j k sp ms).flatMap Part.scopes).Nodup)
    (ha : Part.each a ∈ Mold.level q j k sp ms) {t : Placed} {rest : List Placed}
    (hgone : gone a.scope = t :: rest) :
    (d.remove t.id).Sound ∧
      Level (d.remove t.id) (Mold.level q j k sp ms) (Function.update gone a.scope rest) new inner ∧
      d.Trades (d.remove t.id) (occupied (Mold.level q j k sp ms) gone new inner)
        (occupied (Mold.level q j k sp ms) (Function.update gone a.scope rest) new inner) ∧
      ∀ b, Part.each b ∈ Mold.level q j k sp ms → ∀ i ∈ inner b.scope,
        (d.remove t.id).get? i = d.get? i := by
  obtain ⟨p, kind, span, pre, post, _, _, hstill, hpre, hpost⟩ := items_of_each hs ha
  obtain ⟨cs, hget, hcs⟩ := h.holds _ hstill
  have hfoot : foot gone new inner a.scope =
      t.ids ++ foot (Function.update gone a.scope rest) new inner a.scope := foot_eq_of_cons hgone
  have hc := h.container_notMem ha
  have hnodup := h.nodup_foot ha
  rw [hfoot] at hc hnodup
  rw [List.mem_append, not_or] at hc
  obtain ⟨hnt, hnrest, hdis⟩ := List.nodup_append.1 hnodup
  have ht : d.Holds (some a.container) t := h.holds _ ha t (by simp [hgone])
  obtain ⟨hsound, hget'⟩ := hd.remove ht hnt hget hc.1
  have hkeep : ∀ i, i ∉ t.ids → i ≠ a.container → (d.remove t.id).get? i = d.get? i := by
    intro i hi hic
    rw [hget', if_neg hi, if_neg hic]
  -- what else belongs to the place stays where it is
  have hrest : ∀ i ∈ foot (Function.update gone a.scope rest) new inner a.scope,
      (d.remove t.id).get? i = d.get? i := by
    intro i hi
    refine hkeep i (fun hit => hdis i hit i hi rfl) ?_
    rintro rfl
    exact hc.2 hi
  have htrades : d.Trades (d.remove t.id) (a.container :: foot gone new inner a.scope)
      (a.container :: foot (Function.update gone a.scope rest) new inner a.scope) := by
    rw [hfoot]
    exact .of_freed (fun x hx => by rw [hget', if_pos hx]) hkeep _
  have hinner : ∀ b, Part.each b ∈ Mold.level q j k sp ms → ∀ i ∈ inner b.scope,
      (d.remove t.id).get? i = d.get? i := fun b hb i hi =>
    h.keeps_patterns ha htrades (fun i hi => hrest i (List.mem_append_right _ hi)) hb hi
  refine ⟨hsound, and_assoc.1 ⟨h.change hs ha
    ⟨fun s hne => Function.update_of_ne hne _ _, fun _ _ => rfl, fun _ _ => rfl⟩
    (List.nodup_cons.2 ⟨hc.2, hnrest⟩) htrades (fun p' kind' span' items' hx => ?_)
    (fun u hu => ?_) (fun i hi => ?_), hinner⟩⟩
  · obtain ⟨rfl, rfl, rfl, rfl⟩ := h.still_unique hstill hx
    refine ⟨cs.filter (· != t.id), by rw [hget', if_neg hc.1, if_pos rfl], ?_⟩
    rw [← hcs, List.filter_filter]
    refine List.filter_congr fun x _ => ?_
    simp only [mem_copyHeads_of_cons hgone hpre hpost, not_or, Bool.decide_and, decide_not,
      Bool.and_comm, bne, beq_eq_decide]
  · have hu' : u ∈ gone a.scope ++ new a.scope := by
      rw [Function.update_self] at hu
      rw [hgone]
      exact List.mem_cons_of_mem _ hu
    exact (h.holds _ ha u hu').congr fun i hi =>
      hrest i (List.mem_append_left _ (List.mem_flatMap.2 ⟨u, hu, hi⟩))
  · obtain ⟨n, hn⟩ := h.live a ha i hi
    exact ⟨n, by rw [hinner a ha i hi, hn]⟩

theorem map_id_new_sublist (gone new : ScopeId → List Placed) (inner : ScopeId → List NodeId)
    (s : ScopeId) : ((new s).map Placed.id).Sublist (foot gone new inner s) := by
  refine (Placed.map_id_sublist _).trans (List.Sublist.trans ?_ (List.sublist_append_left _ _))
  exact (List.sublist_append_right _ _).flatMap _

theorem map_id_gone_sublist (gone new : ScopeId → List Placed) (inner : ScopeId → List NodeId)
    (s : ScopeId) : ((gone s).map Placed.id).Sublist (foot gone new inner s) := by
  refine (Placed.map_id_sublist _).trans (List.Sublist.trans ?_ (List.sublist_append_left _ _))
  exact (List.sublist_append_left _ _).flatMap _

theorem copyHeads_subset {copies : ScopeId → List Placed} {items : List Mold} {i : NodeId}
    (h : i ∈ items.flatMap (Mold.copyHeads copies)) : i ∈ items.flatMap (Mold.heads copies) := by
  obtain ⟨m, hm, hi⟩ := List.mem_flatMap.1 h
  refine List.mem_flatMap.2 ⟨m, hm, ?_⟩
  cases m with
  | still _ _ _ _ => simp [Mold.copyHeads] at hi
  | slot _ _ _ => simp [Mold.copyHeads] at hi
  | each _ _ _ => exact hi

/-- The children of a node, new copies among them, share no slot. -/
theorem Level.nodup_heads (h : Level d (Mold.level q j k sp ms) gone new inner)
    {p : Option NodeId} {id : NodeId} {kind : NodeKind} {span : Option Span} {items : List Mold}
    (hx : Part.still p id kind span items ∈ Mold.level q j k sp ms) :
    (items.flatMap (Mold.heads new)).Nodup :=
  h.nodup.sublist ((Mold.heads_sublist (map_id_new_sublist gone new inner) id items).trans
    ((Mold.level_sublist hx).flatMap _))

/-- Old copies among the children of a node are live. -/
theorem Level.copyHeads_live (h : Level d (Mold.level q j k sp ms) gone new inner)
    {p : Option NodeId} {id : NodeId} {kind : NodeKind} {span : Option Span} {items : List Mold}
    (hx : Part.still p id kind span items ∈ Mold.level q j k sp ms) {i : NodeId}
    (hi : i ∈ items.flatMap (Mold.copyHeads gone)) : ∃ n, d.get? i = some n := by
  have hmem := ((Mold.heads_sublist (map_id_gone_sublist gone new inner) id items).trans
    ((Mold.level_sublist hx).flatMap _)).subset (copyHeads_subset hi)
  obtain ⟨y, hy, hiy⟩ := List.mem_flatMap.1 hmem
  exact h.exists_get? hy hiy

/-- The topmost nodes of items, with those of the copies at one place among them. -/
theorem flatMap_heads_each (x : RepeatExpression) (s : ScopeId) (pattern : Mold)
    (pre post : List Mold) :
    (pre ++ .each x s pattern :: post).flatMap (Mold.heads new) =
      pre.flatMap (Mold.heads new) ++ (new s).map Placed.id ++ post.flatMap (Mold.heads new) := by
  rw [List.flatMap_append, List.flatMap_cons, ← List.append_assoc]
  rfl

/-- The slots of a place with one copy more. -/
theorem foot_update_perm (s : ScopeId) (u : Placed) :
    (foot gone (Function.update new s (new s ++ [u])) inner s).Perm
      (u.ids ++ foot gone new inner s) := by
  rw [foot, foot, Function.update_self, ← List.append_assoc, List.flatMap_append,
    ← List.append_assoc]
  refine List.Perm.append_right _ ?_
  rw [List.flatMap_singleton]
  exact List.perm_append_comm

/-- The children of the node that contains a place, when a copy has come there, behind the copies that
are there. -/
theorem Level.filter_insert {u : Placed} {p : Option NodeId} {kind : NodeKind} {span : Option Span}
    {pre post : List Mold} {cs : List NodeId}
    (h : Level d (Mold.level q j k sp ms) gone new inner) (hu : ∀ i ∈ u.ids, d.get? i = none)
    (hrun : ∀ s ∈ Mold.run post, new s = [])
    (hstill : Part.still p a.container kind span
      (pre ++ .each a.expression a.scope a.pattern :: post) ∈ Mold.level q j k sp ms)
    (hpre : ∀ x pattern, Mold.each x a.scope pattern ∉ pre)
    (hpost : ∀ x pattern, Mold.each x a.scope pattern ∉ post)
    (hcs : cs.filter (fun x => decide (x ∉
      (pre ++ .each a.expression a.scope a.pattern :: post).flatMap (Mold.copyHeads gone))) =
        (pre ++ .each a.expression a.scope a.pattern :: post).flatMap (Mold.heads new)) :
    (Document.place u.id (Mold.anchor post) cs).filter (fun x => decide (x ∉
      (pre ++ .each a.expression a.scope a.pattern :: post).flatMap (Mold.copyHeads gone))) =
        (pre ++ .each a.expression a.scope a.pattern :: post).flatMap
          (Mold.heads (Function.update new a.scope (new a.scope ++ [u]))) := by
  have hne : ∀ s, s ≠ a.scope →
      Function.update new a.scope (new a.scope ++ [u]) s = new s :=
    fun s hs => Function.update_of_ne hs _ _
  have hheads := h.nodup_heads hstill
  rw [flatMap_heads_each] at hcs hheads
  rw [← Mold.head?_heads hrun, filter_place hcs hheads, flatMap_heads_each,
    flatMap_heads_congr hpre hne, flatMap_heads_congr hpost hne, Function.update_self]
  · simp
  · -- what is free is no old copy
    rw [decide_eq_true_eq]
    intro hmem
    obtain ⟨n, hn⟩ := h.copyHeads_live hstill hmem
    rw [hu _ u.id_mem_ids] at hn
    cases hn

/-- **A new copy comes to its place**, behind the copies that are there, if no place between has new
copies already. -/
theorem Level.insert {c : Document} {u : Placed}
    (h : Level d (Mold.level q j k sp ms) gone new inner) (hd : d.Sound)
    (hs : ((Mold.level q j k sp ms).flatMap Part.scopes).Nodup)
    (ha : Part.each a ∈ Mold.level q j k sp ms) (hu : d.Gained c u)
    (hrun : ∀ s ∈ a.run, new s = []) :
    let e := c.insertBefore a.container u.id a.anchor
    let new' := Function.update new a.scope (new a.scope ++ [u])
    e.Sound ∧ Level e (Mold.level q j k sp ms) gone new' inner ∧
      d.Trades e (occupied (Mold.level q j k sp ms) gone new inner)
        (occupied (Mold.level q j k sp ms) gone new' inner) ∧
      ∀ b, Part.each b ∈ Mold.level q j k sp ms → ∀ i ∈ inner b.scope,
        e.get? i = d.get? i := by
  intro e new'
  obtain ⟨p, kind, span, pre, post, hanchor, hrun', hstill, hpre, hpost⟩ := items_of_each hs ha
  obtain ⟨cs, hget, hcs⟩ := h.holds _ hstill
  have hc := h.container_notMem ha
  have hfree : ∀ {i n}, d.get? i = some n → i ∉ u.ids := by
    intro i n hn hi
    rw [hu.free i hi] at hn
    cases hn
  have hcu : a.container ≠ u.id := fun e => hfree hget (e ▸ u.id_mem_ids)
  have hget' := Document.get?_insertBefore hu.holds.get? rfl (hu.get? hget) hcu a.anchor
  have hperm : (foot gone new' inner a.scope).Perm (u.ids ++ foot gone new inner a.scope) :=
    foot_update_perm ..
  have hkeep : ∀ i, i ∉ u.ids → i ≠ a.container → e.get? i = d.get? i := by
    intro i hi hic
    have hiu : i ≠ u.id := by
      rintro rfl
      exact hi u.id_mem_ids
    rw [hget', if_neg hiu, if_neg hic, hu.keeps i hi]
  -- what has belonged to the place stays where it is
  have hold : ∀ i ∈ foot gone new inner a.scope, i ∉ u.ids ∧ e.get? i = d.get? i := by
    intro i hi
    obtain ⟨n, hn⟩ := h.exists_get? ha (x := .each a) hi
    exact ⟨hfree hn, hkeep i (hfree hn) fun hic => hc (hic ▸ hi)⟩
  have htrades : d.Trades e (a.container :: foot gone new inner a.scope)
      (a.container :: foot gone new' inner a.scope) := .of_taken hperm hu.free hkeep
  have hinner : ∀ b, Part.each b ∈ Mold.level q j k sp ms → ∀ i ∈ inner b.scope,
      e.get? i = d.get? i := fun b hb i hi =>
    h.keeps_patterns ha htrades (fun i hi => (hold i (List.mem_append_right _ hi)).2) hb hi
  have hnodup : (a.container :: foot gone new' inner a.scope).Nodup := by
    refine List.nodup_cons.2 ⟨fun hmem => ?_, hperm.nodup_iff.2 (List.nodup_append.2
      ⟨hu.nodup, h.nodup_foot ha, fun x hx y hy e => (hold y hy).1 (e ▸ hx)⟩)⟩
    exact (List.mem_append.1 (hperm.mem_iff.1 hmem)).elim (hfree hget) hc
  have hroot : u.id ≠ Document.root := hd.ne_root_of_free (hu.free _ u.id_mem_ids)
  refine ⟨(hu.sound hd).insertBefore _ hroot _, and_assoc.1 ⟨h.change hs ha
    ⟨fun _ _ => rfl, fun s hs => Function.update_of_ne hs _ _, fun _ _ => rfl⟩ hnodup htrades
    (fun p' kind' span' items' hx => ?_) (fun t ht => ?_) (fun i hi => ?_), hinner⟩⟩
  · obtain ⟨rfl, rfl, rfl, rfl⟩ := h.still_unique hstill hx
    refine ⟨Document.place u.id a.anchor cs, by rw [hget', if_neg hcu, if_pos rfl], ?_⟩
    rw [hanchor]
    exact h.filter_insert hu.free (fun s hs => hrun s (hrun' ▸ hs)) hstill hpre hpost hcs
  · rw [show new' a.scope = new a.scope ++ [u] from Function.update_self .., ← List.append_assoc] at ht
    rcases List.mem_append.1 ht with ht | ht
    · exact (h.holds _ ha t ht).congr fun i hi =>
        (hold i (List.mem_append_left _ (List.mem_flatMap.2 ⟨t, ht, hi⟩))).2
    · rw [List.mem_singleton] at ht
      subst ht
      refine hu.holds.move hu.nodup (by rw [hget', if_pos rfl]) fun i hi hit => ?_
      rw [hget', if_neg hit, if_neg]
      rintro rfl
      exact hfree hget hi
  · obtain ⟨n, hn⟩ := h.live a ha i hi
    exact ⟨n, by rw [hinner a ha i hi, hn]⟩

/-- **The slots of a pattern become others.** -/
theorem Level.renew {ys : List NodeId} (h : Level d (Mold.level q j k sp ms) gone new inner)
    (hs : ((Mold.level q j k sp ms).flatMap Part.scopes).Nodup)
    (ha : Part.each a ∈ Mold.level q j k sp ms) (hy : d.Trades e (inner a.scope) ys)
    (hn : ys.Nodup) (hlive : ∀ i ∈ ys, ∃ n, e.get? i = some n) :
    let inner' := Function.update inner a.scope ys
    Level e (Mold.level q j k sp ms) gone new inner' ∧
      d.Trades e (occupied (Mold.level q j k sp ms) gone new inner)
        (occupied (Mold.level q j k sp ms) gone new inner') ∧
      ∀ b, Part.each b ∈ Mold.level q j k sp ms → b ≠ a → ∀ i ∈ inner b.scope,
        e.get? i = d.get? i := by
  intro inner'
  have hself : inner' a.scope = ys := Function.update_self ..
  have hc := h.container_notMem ha
  rw [foot, List.mem_append, not_or] at hc
  obtain ⟨hcopies, _, hdis⟩ := List.nodup_append.1 (h.nodup_foot ha)
  -- what is live is in the slots of the pattern if it was there
  have hmem : ∀ {i n}, d.get? i = some n → i ∈ ys → i ∈ inner a.scope := by
    intro i n hn hi
    refine (hy.within i hi).resolve_right fun hnone => ?_
    rw [hn] at hnone
    cases hnone
  have hkeep : ∀ {i n}, d.get? i = some n → i ∉ inner a.scope → e.get? i = d.get? i := by
    intro i n hn hi
    rw [hy.get? hi hn, hn]
  have hcopy : ∀ {i}, i ∈ (gone a.scope ++ new a.scope).flatMap Placed.ids →
      ∃ n, d.get? i = some n :=
    fun hi => h.exists_get? ha (x := .each a) (List.mem_append_left _ hi)
  obtain ⟨p, kind, span, pre, post, _, _, hstill, _, _⟩ := items_of_each hs ha
  obtain ⟨cs, hget, hcs⟩ := h.holds _ hstill
  have htrades : d.Trades e (a.container :: foot gone new inner a.scope)
      (a.container :: foot gone new inner' a.scope) := by
    rw [foot, foot, hself]
    exact hy.append_left (a.container :: _)
  refine and_assoc.1 ⟨h.change hs ha
    ⟨fun _ _ => rfl, fun _ _ => rfl, fun s hs => Function.update_of_ne hs _ _⟩ ?_ htrades
    (fun p' kind' span' items' hx => ?_) (fun t ht => ?_) (fun i hi => ?_),
    fun b hb hba i hi => h.keeps_inner ha htrades hb hba hi⟩
  · rw [foot, hself, List.nodup_cons, List.mem_append, not_or]
    refine ⟨⟨hc.1, fun hcy => hc.2 (hmem hget hcy)⟩,
      List.nodup_append.2 ⟨hcopies, hn, fun x hx y hy' e => ?_⟩⟩
    subst e
    obtain ⟨n, hn⟩ := hcopy hx
    exact hdis x hx x (hmem hn hy') rfl
  · obtain ⟨rfl, rfl, rfl, rfl⟩ := h.still_unique hstill hx
    exact ⟨cs, by rw [hkeep hget hc.2, hget], hcs⟩
  · refine (h.holds _ ha t ht).congr fun i hi => ?_
    have hit : i ∈ (gone a.scope ++ new a.scope).flatMap Placed.ids :=
      List.mem_flatMap.2 ⟨t, ht, hi⟩
    obtain ⟨n, hn⟩ := hcopy hit
    exact hkeep hn fun hinner => hdis i hit i hinner rfl
  · rw [hself] at hi
    exact hlive i hi

end Level

end Binding

end PageTemplate
