/-
**What stays in its place when a part of a document is rendered.**

An element that is neither repeated nor inside a repeated one stays the node that it is when the part
of the document around it is bound and rendered, and so do the elements around it.  Only its content
becomes what it means.

Main definitions:

* `PageTemplate.Binding.Inside` — an element among trees, with the elements around it.

Main results:

* `PageTemplate.Binding.Laid.inside` — the element is laid out where it is;
* `PageTemplate.Binding.Filled.inside` — and has its meaning as content when slots are filled;
* `PageTemplate.Binding.Bindable.container_inside` — repeated elements are in elements that stay.
-/

import PageTemplate.Proofs.Binding.Compiling
import PageTemplate.Proofs.Binding.Rendering

set_option relaxedAutoImplicit false
set_option autoImplicit false

namespace PageTemplate.Binding

open PageTemplate.Data PageTemplate.Markup PageTemplate.Text

variable {mark : String}

/-! ### Elements among trees -/

/-- The element `i` is among the trees, inside the elements `around`, the outermost first, and none
of these elements is repeated. -/
inductive Inside (mark : String) :
    List Placed → List Element → NodeId → Element → Option Span → List Placed → Prop
  | here {ts : List Placed} {i : NodeId} {e : Element} {span : Option Span} {cs : List Placed}
      (ht : .node i (.element e) span cs ∈ ts) (he : e.hasAttribute mark = false) :
      Inside mark ts [] i e span cs
  | deeper {ts : List Placed} {j : NodeId} {a : Element} {sp : Option Span} {us : List Placed}
      {around : List Element} {i : NodeId} {e : Element} {span : Option Span} {cs : List Placed}
      (ht : .node j (.element a) sp us ∈ ts) (ha : a.hasAttribute mark = false)
      (h : Inside mark us around i e span cs) : Inside mark ts (a :: around) i e span cs

variable {ts us : List Placed} {around : List Element} {i : NodeId} {e : Element}
  {span : Option Span} {cs : List Placed}

theorem Inside.mono (h : Inside mark ts around i e span cs) (hsub : ∀ t ∈ ts, t ∈ us) :
    Inside mark us around i e span cs := by
  cases h with
  | here ht he => exact .here (hsub _ ht) he
  | deeper ht ha h => exact .deeper (hsub _ ht) ha h

/-- An element among trees of two lists is among those of one of them. -/
theorem inside_append : Inside mark (ts ++ us) around i e span cs ↔
    Inside mark ts around i e span cs ∨ Inside mark us around i e span cs := by
  constructor
  · intro h
    cases h with
    | here ht he =>
        rcases List.mem_append.1 ht with ht | ht
        · exact .inl (.here ht he)
        · exact .inr (.here ht he)
    | deeper ht ha h =>
        rcases List.mem_append.1 ht with ht | ht
        · exact .inl (.deeper ht ha h)
        · exact .inr (.deeper ht ha h)
  · rintro (h | h)
    · exact h.mono fun t ht => List.mem_append_left _ ht
    · exact h.mono fun t ht => List.mem_append_right _ ht

/-- A document that has the trees has the element. -/
theorem Inside.holds (h : Inside mark ts around i e span cs) {d : Document} {p : Option NodeId}
    (hts : ∀ t ∈ ts, d.Holds p t) : ∃ q, d.Holds q (.node i (.element e) span cs) := by
  induction h generalizing p with
  | here ht _ => exact ⟨p, hts _ ht⟩
  | deeper ht _ _ ih => exact ih fun t htu => (hts _ ht).child htu

theorem Inside.nodup (h : Inside mark ts around i e span cs)
    (hn : ∀ t ∈ ts, t.ids.Nodup) : (Placed.node i (.element e) span cs).ids.Nodup := by
  induction h with
  | here ht _ => exact hn _ ht
  | deeper ht _ _ ih => exact ih fun t htu => Placed.nodup_child (hn _ ht) htu

theorem mem_marksAll_of_plain {j : NodeId} {a : Element} {sp : Option Span}
    (ht : .node j (.element a) sp us ∈ ts) (ha : a.hasAttribute mark = false) {m : Mark}
    (hm : m ∈ marksAll mark j us) (c : NodeId) : m ∈ marksAll mark c ts := by
  induction ts with
  | nil => cases ht
  | cons t ts ih =>
      rcases List.mem_cons.1 ht with rfl | ht
      · rw [marksAll_plain _ _ _ _ _ ha]
        exact List.mem_append_left _ hm
      · rw [marksAll]
        exact List.mem_append_right _ (ih ht)

/-- The repeated elements in the element are repeated elements of the trees. -/
theorem Inside.mem_marksAll (h : Inside mark ts around i e span cs) {m : Mark}
    (hm : m ∈ marksAll mark i cs) (c : NodeId) : m ∈ marksAll mark c ts := by
  induction h generalizing c with
  | here ht he => exact mem_marksAll_of_plain ht he hm c
  | deeper ht ha _ ih => exact mem_marksAll_of_plain ht ha (ih hm _) c

/-- A repeated element is right below the node that contains the trees, or in an element among them
that is not repeated. -/
theorem Bindable.container_inside (h : Bindable mark ts) {c : NodeId} {m : Mark}
    (hm : m ∈ marksAll mark c ts) :
    m.container = c ∨ ∃ around e span cs, Inside mark ts around m.container e span cs := by
  -- what is inside the siblings is inside the trees
  have key : ∀ {t : Placed} {rest : List Placed} {c : NodeId},
      (m.container = c ∨ ∃ around e span cs, Inside mark rest around m.container e span cs) →
      m.container = c ∨ ∃ around e span cs, Inside mark (t :: rest) around m.container e span cs := by
    rintro t rest c (hc | ⟨around, e, span, cs, hin⟩)
    · exact .inl hc
    · exact .inr ⟨around, e, span, cs, hin.mono fun u hu => List.mem_cons_of_mem _ hu⟩
  induction h generalizing c with
  | nil => simp [marksAll] at hm
  | leaf id span he _ ih =>
      rw [marksAll_leaf _ _ _ _ _ he] at hm
      exact key (ih hm)
  | plain id span he _ _ ihcs ih =>
      rw [marksAll_plain _ _ _ _ _ he] at hm
      rcases List.mem_append.1 hm with hm | hm
      · rcases ihcs hm with hc | ⟨around, e, sp, us, hin⟩
        · rw [hc]
          exact .inr ⟨_, _, _, _, .here (List.mem_cons_self ..) he⟩
        · exact .inr ⟨_, _, _, _, .deeper (List.mem_cons_self ..) he hin⟩
      · exact key (ih hm)
  | marked id span he _ _ _ ih =>
      rw [marksAll_marked _ _ _ _ _ (hasAttribute_of_repeat? he)] at hm
      rcases List.mem_cons.1 hm with rfl | hm
      · exact .inl rfl
      · exact key (ih hm)

/-! ### Molds of elements -/

variable {scope : NodeId → ScopeId} {pattern : NodeId → Mold} {ms : List Mold}

/-- An element that is not repeated stays a node. -/
theorem Laid.exists_still (h : Laid mark scope pattern ts ms)
    (ht : .node i (.element e) span cs ∈ ts) (he : e.hasAttribute mark = false) :
    ∃ items, Laid mark scope pattern cs items ∧ Mold.still i (.element e) span items ∈ ms := by
  induction h with
  | nil => cases ht
  | text id t sp ids hids _ ih =>
      rcases List.mem_cons.1 ht with h | ht
      · cases h
      · obtain ⟨items, hitems, hmem⟩ := ih ht
        exact ⟨items, hitems, List.mem_append_right _ hmem⟩
  | leaf id sp htext helement _ ih =>
      rcases List.mem_cons.1 ht with h | ht
      · cases h
        cases helement
      · obtain ⟨items, hitems, hmem⟩ := ih ht
        exact ⟨items, hitems, List.mem_cons_of_mem _ hmem⟩
  | plain id sp hplain hcs _ _ ih =>
      rcases List.mem_cons.1 ht with h | ht
      · cases h
        exact ⟨_, hcs, List.mem_cons_self ..⟩
      · obtain ⟨items, hitems, hmem⟩ := ih ht
        exact ⟨items, hitems, List.mem_cons_of_mem _ hmem⟩
  | marked id sp hmark _ ih =>
      rcases List.mem_cons.1 ht with h | ht
      · cases h
        rw [repeat?_of_not_hasAttribute he] at hmark
        cases hmark
      · obtain ⟨items, hitems, hmem⟩ := ih ht
        exact ⟨items, hitems, List.mem_cons_of_mem _ hmem⟩

theorem mem_placedAll_of_mem {m : Mold} (hm : m ∈ ms) {text : NodeId → String}
    {copies : ScopeId → List Placed} {t : Placed} (ht : t ∈ Mold.placed text copies m) :
    t ∈ Mold.placedAll text copies ms := by
  induction ms with
  | nil => cases hm
  | cons n ms ih =>
      rw [Mold.placedAll]
      rcases List.mem_cons.1 hm with rfl | hm
      · exact List.mem_append_left _ ht
      · exact List.mem_append_right _ (ih hm)

theorem mem_placedAll_of_still {kind : NodeKind} {items : List Mold}
    (h : Mold.still i kind span items ∈ ms) (text : NodeId → String)
    (copies : ScopeId → List Placed) :
    .node i kind span (Mold.placedAll text copies items) ∈ Mold.placedAll text copies ms :=
  mem_placedAll_of_mem h (List.mem_singleton_self _)

theorem mem_placedAll_of_slot {path : String} (h : Mold.slot i span path ∈ ms)
    (text : NodeId → String) (copies : ScopeId → List Placed) :
    .node i (.text (text i)) span [] ∈ Mold.placedAll text copies ms :=
  mem_placedAll_of_mem h (List.mem_singleton_self _)

/-- A mold has its parts wherever it stands, whatever is behind it. -/
theorem mem_partsAll_of_mem {m : Mold} (hm : m ∈ ms) {c : NodeId} {x : Part}
    (hx : ∀ later, x ∈ Mold.parts c later m) : x ∈ Mold.partsAll c ms := by
  induction ms with
  | nil => cases hm
  | cons n ms ih =>
      rw [Mold.partsAll]
      rcases List.mem_cons.1 hm with rfl | hm
      · exact List.mem_append_left _ (hx ms)
      · exact List.mem_append_right _ (ih hm)

theorem mem_partsAll_of_still {kind : NodeKind} {items : List Mold}
    (h : Mold.still i kind span items ∈ ms) (c : NodeId) :
    Part.still (some c) i kind span items ∈ Mold.partsAll c ms :=
  mem_partsAll_of_mem h fun _ => List.mem_cons_self ..

theorem mem_partsAll_of_slot {path : String} (h : Mold.slot i span path ∈ ms) (c : NodeId) :
    Part.slot c i span path ∈ Mold.partsAll c ms :=
  mem_partsAll_of_mem h fun _ => List.mem_singleton_self _

/-- **The element is laid out where it is**, whatever is shown. -/
theorem Laid.inside (hin : Inside mark ts around i e span cs)
    (h : Laid mark scope pattern ts ms) :
    ∃ items, Laid mark scope pattern cs items ∧
      (∀ text copies, Inside mark (Mold.placedAll text copies ms) around i e span
        (Mold.placedAll text copies items)) ∧
      ∀ c, ∃ q, Part.still q i (.element e) span items ∈ Mold.partsAll c ms := by
  induction hin generalizing ms with
  | here ht he =>
      obtain ⟨items, hitems, hmem⟩ := h.exists_still ht he
      exact ⟨items, hitems, fun text copies => .here (mem_placedAll_of_still hmem text copies) he,
        fun c => ⟨some c, mem_partsAll_of_still hmem c⟩⟩
  | deeper ht ha _ ih =>
      obtain ⟨inner, hinner, hmem⟩ := h.exists_still ht ha
      obtain ⟨items, hitems, hinside, hpart⟩ := ih hinner
      refine ⟨items, hitems, fun text copies =>
        .deeper (mem_placedAll_of_still hmem text copies) ha (hinside text copies), fun c => ?_⟩
      obtain ⟨q, hq⟩ := hpart _
      exact ⟨q, (Mold.partsAll_sublist (mem_partsAll_of_still hmem c)).subset hq⟩

/-- **The element has its meaning as content** when the slots have been filled. -/
theorem Filled.inside {f : Scopes} {d : Document} {p : Option NodeId} {s : ScopeId} {id : NodeId}
    {kind : NodeKind} {sp : Option Span} {env : Env} {text : NodeId → String}
    {copies : ScopeId → List Placed} {ys : List NodeId}
    (h : Filled f d p s id kind sp ms env text copies ys) (hlaid : Laid mark scope pattern ts ms)
    (hmeans : ∀ m ∈ marksAll mark id ts, m.Means mark (pattern m.id))
    (hin : Inside mark ts around i e span cs) :
    ∃ cs', Inside mark (Mold.placedAll text copies ms) around i e span cs' ∧
      cs'.map Placed.tree = Tree.expandAll splitText mark env (cs.map Placed.tree) := by
  obtain ⟨items, hitems, hinside, hpart⟩ := hlaid.inside hin
  obtain ⟨q, hq⟩ := hpart id
  refine ⟨_, hinside text copies, ?_⟩
  rw [h.map_tree (List.mem_cons_of_mem _ hq)]
  exact hitems.shownAll (fun m hm => hmeans m (hin.mem_marksAll hm id)) env

end PageTemplate.Binding
