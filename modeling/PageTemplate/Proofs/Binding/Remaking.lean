/-
**What mounting makes of the trees of a page.**

Binding the content of a node and rendering it makes it something else.  All this happens in the slots of
the node and in free ones, so a page can be mounted part by part, from its last controller to its first.
Nodes that are in no element with a controller stay what they are, and elements that are not in repeated
ones stay where they are.

Main definitions:

* `PageTemplate.Binding.Reshown` — the content of a node has become something else;
* `PageTemplate.Binding.Remade` — the controllers in some trees have been mounted.

Main results:

* `PageTemplate.Binding.bindable_iff` — what can be bound;
* `PageTemplate.Binding.Compiled.reshown` — what is compiled and rendered becomes what it means;
* `PageTemplate.Binding.Remade.append`, `PageTemplate.Binding.Remade.node` — mounting part by part.
-/

import PageTemplate.Proofs.Binding.Bindings
import PageTemplate.Proofs.Binding.Inside
import PageTemplate.Proofs.Page.Controllers
import PageTemplate.Proofs.Page.Updating

set_option relaxedAutoImplicit false
set_option autoImplicit false

namespace PageTemplate

open PageTemplate.Data PageTemplate.Markup PageTemplate.Text

namespace Binding

/-! ### Directives that can be read -/

/-- Proper trees are bindable if each directive in them can be read. -/
theorem bindable_iff {mark : String} {ts : List Placed} (hts : ∀ t ∈ ts, t.Proper) :
    Bindable mark ts ↔ Tree.ReadableAll mark (ts.map Placed.tree) := by
  induction ts using Placed.forest_induction with
  | nil => exact iff_of_true .nil trivial
  | cons id kind span cs ts ihcs ihts =>
      have hrest := ihts fun t ht => hts t (List.mem_cons_of_mem _ ht)
      have ht := hts _ (List.mem_cons_self ..)
      rw [List.map_cons, Placed.tree_node]
      cases ht with
      | element _ e _ hcs =>
          constructor
          · intro h
            cases h with
            | leaf _ _ he _ => cases he
            | plain _ _ he hbelow hbehind =>
                refine ⟨⟨fun hmark => ?_, (ihcs hcs).1 hbelow⟩, hrest.1 hbehind⟩
                rw [he] at hmark
                cases hmark
            | marked _ _ he hbelow hbehind =>
                exact ⟨⟨fun _ => by simp [he], (ihcs hcs).1 hbelow⟩, hrest.1 hbehind⟩
          · rintro ⟨⟨hread, hbelow⟩, hbehind⟩
            by_cases he : e.hasAttribute mark = true
            · obtain ⟨x, hx⟩ := Option.ne_none_iff_exists'.1 (hread he)
              exact .marked id span hx ((ihcs hcs).2 hbelow) (hrest.2 hbehind)
            · exact .plain id span (by simpa using he) ((ihcs hcs).2 hbelow) (hrest.2 hbehind)
      | text | comment | doctype =>
          constructor
          · intro h
            cases h with
            | leaf _ _ _ hbehind => exact ⟨rfl, hrest.1 hbehind⟩
          · rintro ⟨_, hbehind⟩
            exact .leaf id span rfl (hrest.2 hbehind)

/-- A new scope leaves the others as they are. -/
theorem Scopes.extends_newRoot (f : Scopes) (data : Value) : f.Extends (f.newRoot data).1 := by
  intro x sc hx
  have hpush := f.get?_push (Scope.fresh data none) x
  rw [if_neg (Nat.ne_of_lt (Scopes.lt_size_of_get? hx)), hx] at hpush
  exact hpush

/-! ### New content of a node -/

/-- The content `ts` of a node has become `ts'`, which is what `F` makes of it.  This has happened
in the slots of the node and in free ones, and elements that are not in repeated ones have stayed
where they are. -/
structure Reshown (mark : String) (F : List Tree → List Tree) (d d' : Document)
    (p : Option NodeId) (id : NodeId) (kind : NodeKind) (span : Option Span)
    (ts ts' : List Placed) : Prop where
  sound : d'.Sound
  holds : d'.Holds p (.node id kind span ts')
  nodup : (Placed.node id kind span ts').ids.Nodup
  keeps : ∀ i n, d.get? i = some n → i ∉ (Placed.node id kind span ts).ids → d'.get? i = some n
  within : ∀ i ∈ (Placed.node id kind span ts').ids,
    i ∈ (Placed.node id kind span ts).ids ∨ d.get? i = none
  trees : ts'.map Placed.tree = F (ts.map Placed.tree)
  inside : ∀ around i e sp cs, Inside mark ts around i e sp cs → ∃ cs',
    Inside mark ts' around i e sp cs' ∧ cs'.map Placed.tree = F (cs.map Placed.tree)

section Reshown

variable {mark : String} {d : Document} {p : Option NodeId} {id : NodeId} {kind : NodeKind}
  {span : Option Span} {ts : List Placed}

theorem Reshown.refl (hd : d.Sound) (h : d.Holds p (.node id kind span ts))
    (hn : (Placed.node id kind span ts).ids.Nodup) :
    Reshown mark (fun us => us) d d p id kind span ts ts where
  sound := hd
  holds := h
  nodup := hn
  keeps _ _ hi _ := hi
  within _ hi := .inl hi
  trees := rfl
  inside _ _ _ _ cs hin := ⟨cs, hin, rfl⟩

/-- **What is compiled and rendered becomes what it means.** -/
theorem Compiled.reshown {f g : Scopes} {st st' : Stage} {s : ScopeId} {items : List Mold}
    {ys zs : List NodeId} {env : Env} (h : Compiled mark ⟨d, f⟩ st p s id kind span ts items ys)
    (hredone : Redone ⟨st.document, g⟩ st' p s (.still id kind span items) ys zs env) :
    ∃ ts', Reshown mark (Tree.expandAll splitText mark env) d st'.document p id kind span ts ts' := by
  obtain ⟨text, copies, hfilled⟩ := hredone.filled _ _ _ _ rfl
  obtain ⟨scope, pattern, hlaid, hfits, _⟩ := h.laid
  -- what was live elsewhere is in no slot of the molds
  have hkeep : ∀ i n, d.get? i = some n → i ∉ (Placed.node id kind span ts).ids →
      i ∉ ys ∧ st.document.get? i = some n := by
    intro i n hi hids
    have hys : i ∉ ys := by
      intro hmem
      rcases h.within i hmem with h' | h'
      · exact hids h'
      · rw [show d.get? i = none from h'] at hi
        cases hi
    exact ⟨hys, (h.keeps i hys).trans hi⟩
  refine ⟨_, hredone.sound, hfilled.holds, hfilled.nodup, fun i n hi hids => ?_, fun i hi => ?_, ?_,
    fun around i e sp cs hin => hfilled.inside hlaid (fun m hm => (hfits m hm).means) hin⟩
  · obtain ⟨hys, hlive⟩ := hkeep i n hi hids
    refine (hredone.trades.keeps i hys fun hzs => ?_).trans hlive
    rcases hredone.trades.within i hzs with h' | h'
    · exact hys h'
    · rw [show st.document.get? i = none from h'] at hlive
      cases hlive
  · by_contra hno
    rw [not_or] at hno
    obtain ⟨n, hn⟩ := Option.ne_none_iff_exists'.1 hno.2
    obtain ⟨hys, hlive⟩ := hkeep i n hn hno.1
    rcases hredone.trades.within i (hfilled.within i hi) with h' | h'
    · exact hys h'
    · rw [show st.document.get? i = none from h'] at hlive
      cases hlive
  · rw [hfilled.map_tree (List.mem_cons_self ..)]
    exact h.shownAll env

end Reshown

/-! ### Mounting part by part -/

/-- The controllers in the trees `ts` have been mounted, which has made them the trees `ts'`.  What is in
no element with a controller has been left alone. -/
structure Remade (o : Options) (data : String → Value) (d d' : Document) (p : Option NodeId)
    (ts ts' : List Placed) : Prop where
  sound : d'.Sound
  holds : ∀ t ∈ ts', d'.Holds p t
  nodup : (ts'.flatMap Placed.ids).Nodup
  heads : ts'.map Placed.id = ts.map Placed.id
  spares : ∀ i n, d.get? i = some n →
    (∀ u ∈ ts.flatMap (Placed.carrying o.controllerAttribute), i ∉ u.ids) → d'.get? i = some n
  within : ∀ i ∈ ts'.flatMap Placed.ids, i ∈ ts.flatMap Placed.ids ∨ d.get? i = none
  trees : ts'.map Placed.tree = Tree.mountedAll o data (ts.map Placed.tree)
  inside : ∀ around i e sp cs, Inside o.repeatAttribute ts around i e sp cs → ∃ cs',
    Inside o.repeatAttribute ts' around i e sp cs' ∧ cs'.map Placed.tree =
      Tree.remadeWithin o data around
        (Tree.remade o data e (Tree.mountedAll o data (cs.map Placed.tree)))

section Remade

variable {o : Options} {data : String → Value} {d d₁ d₂ : Document} {p : Option NodeId}
  {id : NodeId} {span : Option Span} {ts ts' us us' cs cs' cs'' : List Placed}

theorem Remade.nil (hd : d.Sound) : Remade o data d d p [] [] where
  sound := hd
  holds := by simp
  nodup := by simp
  heads := rfl
  spares _ _ hi _ := hi
  within := by simp
  trees := by
    rw [List.map_nil, Tree.mountedAll]
  inside around i e sp cs hin := by
    cases hin with
    | here ht _ => cases ht
    | deeper ht _ _ => cases ht

/-- What is elsewhere has been left alone. -/
theorem Remade.keeps (h : Remade o data d d₁ p ts ts') {i : NodeId} {n : Node}
    (hi : d.get? i = some n) (hts : i ∉ ts.flatMap Placed.ids) : d₁.get? i = some n :=
  h.spares i n hi fun _ hu hiu => hts (Placed.mem_ids_of_carrying hu hiu)

/-- What was live elsewhere is in none of the new trees. -/
theorem Remade.notMem (h : Remade o data d d₁ p ts ts') {i : NodeId} {n : Node}
    (hi : d.get? i = some n) (hts : i ∉ ts.flatMap Placed.ids) : i ∉ ts'.flatMap Placed.ids := by
  intro hmem
  rcases h.within i hmem with h' | h'
  · exact hts h'
  · rw [hi] at h'
    cases h'

/-- Trees elsewhere stay as they are. -/
theorem Remade.holds_of (h : Remade o data d d₁ p ts ts') {q : Option NodeId} {t : Placed}
    (ht : d.Holds q t) (hdis : ∀ i ∈ t.ids, i ∉ ts.flatMap Placed.ids) : d₁.Holds q t := by
  refine ht.congr fun i hi => ?_
  obtain ⟨n, hn⟩ := ht.live hi
  rw [h.keeps hn (hdis i hi), hn]

/-- **The trees behind come first**, and then those before them. -/
theorem Remade.append (hus : Remade o data d d₁ p us us') (hts : Remade o data d₁ d₂ p ts ts')
    (hheld : ∀ t ∈ ts, d.Holds p t) (hn : ((ts ++ us).flatMap Placed.ids).Nodup) :
    Remade o data d d₂ p (ts ++ us) (ts' ++ us') := by
  rw [List.flatMap_append] at hn
  obtain ⟨_, _, hdis⟩ := List.nodup_append.1 hn
  have hlive : ∀ i ∈ ts.flatMap Placed.ids, ∃ n, d.get? i = some n := by
    intro i hi
    obtain ⟨t, ht, hit⟩ := List.mem_flatMap.1 hi
    exact (hheld t ht).live hit
  -- the new trees behind are not where the old ones before them are
  have hbehind : ∀ i ∈ us'.flatMap Placed.ids, i ∉ ts.flatMap Placed.ids := by
    intro i hi hit
    obtain ⟨n, hn⟩ := hlive i hit
    exact hus.notMem hn (fun hiu => hdis i hit i hiu rfl) hi
  have hlive₁ : ∀ i ∈ us'.flatMap Placed.ids, ∃ n, d₁.get? i = some n := by
    intro i hi
    obtain ⟨t, ht, hit⟩ := List.mem_flatMap.1 hi
    exact (hus.holds t ht).live hit
  refine ⟨hts.sound, ?holds, ?nodup, ?heads, ?spares, ?within, ?trees, ?inside⟩
  case holds =>
    intro t ht
    rcases List.mem_append.1 ht with ht | ht
    · exact hts.holds t ht
    · exact hts.holds_of (hus.holds t ht) fun i hi => hbehind i (List.mem_flatMap.2 ⟨t, ht, hi⟩)
  case nodup =>
    rw [List.flatMap_append]
    refine List.nodup_append.2 ⟨hts.nodup, hus.nodup, ?_⟩
    rintro i hi _ hj rfl
    obtain ⟨n, hn⟩ := hlive₁ i hj
    exact hts.notMem hn (hbehind i hj) hi
  case heads =>
    rw [List.map_append, List.map_append, hts.heads, hus.heads]
  case spares =>
    intro i n hi hmem
    rw [List.flatMap_append] at hmem
    exact hts.spares i n (hus.spares i n hi fun u hu => hmem u (List.mem_append_right _ hu))
      fun u hu => hmem u (List.mem_append_left _ hu)
  case within =>
    intro i hi
    rw [List.flatMap_append, List.mem_append] at hi ⊢
    rcases hi with hi | hi
    · rcases hts.within i hi with hi | hnone
      · exact .inl (.inl hi)
      · by_contra hno
        rw [not_or, not_or] at hno
        obtain ⟨n, hn⟩ := Option.ne_none_iff_exists'.1 hno.2
        rw [hus.keeps hn hno.1.2] at hnone
        cases hnone
    · exact (hus.within i hi).imp_left .inr
  case trees =>
    rw [List.map_append, List.map_append, hts.trees, hus.trees, Tree.mountedAll_append]
  case inside =>
    intro around i e sp cs hin
    rcases inside_append.1 hin with hin | hin
    · obtain ⟨cs', hin', htrees⟩ := hts.inside _ _ _ _ _ hin
      exact ⟨cs', inside_append.2 (.inl hin'), htrees⟩
    · obtain ⟨cs', hin', htrees⟩ := hus.inside _ _ _ _ _ hin
      exact ⟨cs', inside_append.2 (.inr hin'), htrees⟩

/-- The node above the trees is as it was. -/
theorem Remade.holds_node {kind : NodeKind} (h : Remade o data d d₁ (some id) cs cs')
    (hheld : d.Holds p (.node id kind span cs)) (hn : (Placed.node id kind span cs).ids.Nodup) :
    d₁.Holds p (.node id kind span cs') ∧ (Placed.node id kind span cs').ids.Nodup := by
  rw [Placed.ids_node, List.nodup_cons] at hn
  have hget : d.get? id = some ⟨kind, p, cs.map Placed.id, span⟩ := hheld.get?
  refine ⟨.node ?_ h.holds, ?_⟩
  · rw [h.keeps hget hn.1, h.heads]
  · rw [Placed.ids_node, List.nodup_cons]
    exact ⟨h.notMem hget hn.1, h.nodup⟩

/-- **What is below a node comes first**, and then its own controller, if it has one. -/
theorem Remade.node {e : Element} (h : Remade o data d d₁ (some id) cs cs')
    (hs : Reshown o.repeatAttribute (Tree.remade o data e) d₁ d₂ p id (.element e) span cs' cs'')
    (hplain : e.hasAttribute o.controllerAttribute = false → d₂ = d₁) :
    Remade o data d d₂ p [.node id (.element e) span cs] [.node id (.element e) span cs''] := by
  have hids : ∀ us : List Placed, [Placed.node id (.element e) span us].flatMap Placed.ids =
      id :: us.flatMap Placed.ids := by simp
  refine ⟨hs.sound, ?holds, ?nodup, rfl, ?spares, ?within, ?trees, ?inside⟩
  case holds =>
    intro t ht
    rw [List.mem_singleton.1 ht]
    exact hs.holds
  case nodup =>
    simpa using hs.nodup
  case spares =>
    intro i n hi hmem
    rw [List.flatMap_singleton, Placed.carrying_node] at hmem
    have hbelow := h.spares i n hi fun u hu => hmem u (List.mem_append_right _ hu)
    by_cases he : e.hasAttribute o.controllerAttribute = true
    · have hself := hmem (.node id (.element e) span cs)
        (List.mem_append_left _ (by simp [NodeKind.carries, NodeKind.element?, he]))
      refine hs.keeps i n hbelow ?_
      rw [Placed.ids_node, List.mem_cons, not_or] at hself ⊢
      exact ⟨hself.1, h.notMem hi hself.2⟩
    · rwa [hplain (by simpa using he)]
  case within =>
    intro i hi
    rw [hids] at hi ⊢
    rw [List.mem_cons]
    have hwithin := hs.within i (by rwa [Placed.ids_node])
    rw [Placed.ids_node, List.mem_cons] at hwithin
    rcases hwithin with (rfl | hi) | hnone
    · exact .inl (.inl rfl)
    · exact (h.within i hi).imp_left .inr
    · by_contra hno
      rw [not_or, not_or] at hno
      obtain ⟨n, hn⟩ := Option.ne_none_iff_exists'.1 hno.2
      rw [h.keeps hn hno.1.2] at hnone
      cases hnone
  case trees =>
    simp only [List.map_cons, List.map_nil, Placed.tree_node, Tree.mountedAll, Tree.mounted_element,
      hs.trees, h.trees]
  case inside =>
    intro around i e' sp us hin
    cases hin with
    | here ht he =>
        cases List.mem_singleton.1 ht
        exact ⟨cs'', .here (List.mem_singleton_self _) he, by rw [hs.trees, h.trees]; rfl⟩
    | deeper ht ha hin =>
        cases List.mem_singleton.1 ht
        obtain ⟨us', hin', htrees'⟩ := h.inside _ _ _ _ _ hin
        obtain ⟨us'', hin'', htrees''⟩ := hs.inside _ _ _ _ _ hin'
        refine ⟨us'', .deeper (List.mem_singleton_self _) ha hin'', ?_⟩
        rw [htrees'', htrees']
        rfl

/-- A node without children is left alone. -/
theorem Remade.leaf {kind : NodeKind} (hk : kind.element? = none)
    (hd : d.Sound) (hheld : d.Holds p (.node id kind span [])) :
    Remade o data d d p [.node id kind span []] [.node id kind span []] where
  sound := hd
  holds t ht := by
    rw [List.mem_singleton.1 ht]
    exact hheld
  nodup := by simp
  heads := rfl
  spares _ _ hi _ := hi
  within _ hi := .inl hi
  trees := by
    simp only [List.map_cons, List.map_nil, Placed.tree_node, Tree.mountedAll,
      Tree.mounted_leaf _ _ hk]
  inside around i e sp cs hin := by
    cases hin with
    | here ht _ =>
        cases List.mem_singleton.1 ht
        cases hk
    | deeper ht _ _ =>
        cases List.mem_singleton.1 ht
        cases hk

end Remade

end Binding

end PageTemplate
