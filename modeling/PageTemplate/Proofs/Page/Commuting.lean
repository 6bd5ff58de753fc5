/-
**Mounting touches one element only.**

Mounting an element changes what is below it and takes free slots, whatever has been mounted before.  So
elements that are in none of each other can be mounted in any order.  The slots that new nodes get depend
on the order, but the trees that the document holds do not.

Main definitions:

* `PageTemplate.Document.Shows` — a node is on top of a tree;
* `PageTemplate.Page.AfterMounts` — what a document that has been read is made by mounts.

Main results:

* `PageTemplate.Document.exists_shows` — documents that differ in the slots of some trees alone;
* `PageTemplate.Page.AfterMounts.sturdy` — mounts keep a document sturdy;
* `PageTemplate.Page.Mounts.next` — another element can be mounted as before;
* `PageTemplate.Page.mount_confined` — mounting touches one element only, and the order does not matter.
-/

import PageTemplate.Proofs.Page.Mounting

set_option relaxedAutoImplicit false
set_option autoImplicit false

namespace PageTemplate

open Relation
open PageTemplate.Binding PageTemplate.Data PageTemplate.Diagnostic PageTemplate.Markup
  PageTemplate.Text

namespace Document

/-! ### Trees without their slots -/

/-- The node `id` with the parent `p` is on top of the tree `T`. -/
def Shows (d : Document) (p : Option NodeId) (id : NodeId) (T : Tree) : Prop :=
  ∃ u : Placed, d.Holds p u ∧ u.id = id ∧ u.tree = T

variable {d e e' : Document} {p : Option NodeId} {t : Placed} {T : Tree}

/-- A node is on top of a tree if its children are. -/
theorem Shows.node {id : NodeId} {kind : NodeKind} {span : Option Span} {ids : List NodeId}
    {trees : NodeId → Tree} (hget : d.get? id = some ⟨kind, p, ids, span⟩)
    (h : ∀ c ∈ ids, d.Shows (some id) c (trees c)) :
    d.Shows p id (.node kind span (ids.map trees)) := by
  have : Nonempty Placed := ⟨.node id kind span []⟩
  choose! u hu hid htree using h
  have hids : (ids.map u).map Placed.id = ids := by
    rw [List.map_map]
    exact (List.map_congr_left hid).trans ids.map_id
  refine ⟨.node id kind span (ids.map u), .node ?_ (List.forall_mem_map.2 hu), rfl, ?_⟩
  · rw [hids, hget]
  · rw [Placed.tree_node, List.map_map]
    exact congrArg (Tree.node kind span) (List.map_congr_left htree)

/-- **Documents that show the same trees at some nodes**, and have what is not below these from the same
document, show the same trees above them. -/
theorem exists_shows {tops : List NodeId}
    (hkeep : ∀ x n, d.get? x = some n → (∀ a ∈ tops, ¬ReflTransGen d.ChildOf x a) →
      e.get? x = some n ∧ e'.get? x = some n)
    (hshows : ∀ a ∈ tops, ∃ T, e.Shows (d.parent? a) a T ∧ e'.Shows (d.parent? a) a T)
    (ht : d.Holds p t) (hout : ∀ a ∈ tops, ¬d.Below t.id a) :
    ∃ T, e.Shows p t.id T ∧ e'.Shows p t.id T := by
  induction ht with
  | @node p id kind span cs hget hcs ih =>
      have hparent : d.parent? id = p := parent?_of_get? hget
      rw [Placed.id_node] at hout ⊢
      by_cases htop : id ∈ tops
      · exact hparent ▸ hshows id htop
      · -- the node is elsewhere, and none of its children are below the tops
        have hat : ∀ a ∈ tops, ¬ReflTransGen d.ChildOf id a := by
          intro a ha hup
          rcases reflTransGen_iff_eq_or_transGen.1 hup with rfl | hbelow
          · exact htop ha
          · exact hout a ha hbelow
        have hchildren : ∀ i ∈ cs.map Placed.id, ∃ T, e.Shows (some id) i T ∧ e'.Shows (some id) i T := by
          refine List.forall_mem_map.2 fun c hc => ih c hc fun a ha hca => ?_
          obtain ⟨q, hq, hup⟩ := TransGen.head'_iff.1 hca
          rw [ChildOf, parent?_of_get? (hcs c hc).get?, Option.some.injEq] at hq
          exact hat a ha (hq ▸ hup)
        have : Nonempty Tree := ⟨.node kind span []⟩
        choose! trees hfirst hsecond using hchildren
        obtain ⟨hkept, hkept'⟩ := hkeep id _ hget hat
        exact ⟨_, .node hkept hfirst, .node hkept' hsecond⟩

/-- **The markup of a sturdy document** is that of the tree that the document node is on top of. -/
theorem Sturdy.markup_of_shows (h : d.Sturdy) (hshows : d.Shows p root T) :
    d.markup = String.ofList (Tree.markupAll false T.children) := by
  obtain ⟨u, hu, hid, rfl⟩ := hshows
  obtain ⟨kind, span, cs, hholds, hnodup, -, -⟩ := h.exists_held h.forest.live
  have hkind : d.kind? root = some kind := by
    have hget := hholds.get?
    rw [Placed.id_node] at hget
    rw [kind?, hget]
    rfl
  obtain rfl : kind = .document := Option.some.inj (hkind.symm.trans h.forest.kind)
  -- a tree is told by the slot that it is in
  have htree : u.tree = .node .document span (cs.map Placed.tree) := by
    have hfound := hu.treeTo (Nat.le_max_left u.depth (Placed.node root .document span cs).depth)
    have hheld := hholds.treeTo
      (Nat.le_max_right u.depth (Placed.node root .document span cs).depth)
    rw [hid] at hfound
    rw [Placed.id_node, hfound, Placed.tree_node] at hheld
    exact Option.some.inj hheld
  rw [hholds.markup hnodup, htree]
  rfl

end Document

namespace Page

open PageTemplate.Document

/-! ### Documents in which elements have been mounted -/

/-- What a document that has been read becomes when nodes are mounted in it, with whatever registries.
Some of them may fail. -/
inductive AfterMounts : Document → Prop
  | parse {source : String} {d : Document} (h : Document.parse source = .ok d) : AfterMounts d
  | mount {r : Registry} {st st' : Stage} {calls calls' : List Call} {id : NodeId} {m : Mount}
      (before : AfterMounts st.document) (hlive : st.document.contains id = true)
      (h : r.mount st calls id = .ok (st', calls', m)) : AfterMounts st'.document
  | fail {r : Registry} {st : Stage} {calls : List Call} {id : NodeId} {e : Registry.Failure}
      (before : AfterMounts st.document) (h : r.mount st calls id = .error e) :
      AfterMounts e.stage.document

section Mount

variable {r : Registry} {st st' st₁ st₂ : Stage} {calls calls' seen later : List Call} {id : NodeId}
  {m : Mount} {p q : Option NodeId} {i j : NodeId} {kind kind' : NodeKind} {span span' : Option Span}
  {ts us ts' us' : List Placed} {name name' : String}

/-- A node of a sturdy document is mounted as a tree. -/
theorem exists_mounts_of_mount (h : st.document.Sturdy) (hlive : st.document.contains id = true)
    (hok : r.mount st calls id = .ok (st', calls', m)) :
    ∃ kind span ts ts' seen, Mounts r (nameOf r.options st.document id) st st'
        (st.document.parent? id) id kind span ts ts' seen ∧
      st.document.Holds (st.document.parent? id) (.node id kind span ts) ∧
      (Placed.node id kind span ts).ids.Nodup ∧ (∀ t ∈ ts, t.Proper) ∧
      r.obstacle? (nameOf r.options st.document id) span (ts.map Placed.tree) = none ∧
      ∀ x, x ∈ (Placed.node id kind span ts).ids ↔ ReflTransGen st.document.ChildOf x id := by
  obtain ⟨kind, span, ts, hholds, hnodup, hproper, hmem⟩ := h.exists_held hlive
  have hclear : r.obstacle? (nameOf r.options st.document id) span (ts.map Placed.tree) = none := by
    by_contra hsome
    obtain ⟨err, herr⟩ := Option.ne_none_iff_exists'.1 hsome
    obtain ⟨e, hfails, -⟩ := (mount_eq_error_iff calls err hholds hnodup).2 herr
    rw [hfails] at hok
    cases hok
  obtain ⟨st'', ts', seen, hmounts⟩ := exists_mounts h.sound hholds hnodup hproper hclear
  obtain rfl : st'' = st' := by
    have hsame := (hmounts.mount calls).symm.trans hok
    exact congrArg Prod.fst (Except.ok.inj hsame)
  exact ⟨kind, span, ts, ts', seen, hmounts, hholds, hnodup, hproper, hclear, hmem⟩

/-- **Mounts keep a document sturdy.** -/
theorem AfterMounts.sturdy {d : Document} (h : AfterMounts d) : d.Sturdy := by
  induction h with
  | parse h => exact sturdy_of_parse h
  | mount _ hlive h ih =>
      obtain ⟨_, _, _, _, _, hmounts, -⟩ := exists_mounts_of_mount ih hlive h
      exact hmounts.sturdy ih
  | fail _ h ih =>
      rw [(mount_error h).1]
      exact ih

/-- A node of a tree elsewhere stays what it is. -/
theorem Mounts.holds_apart (h : Mounts r name st st₁ p i kind span ts ts' seen) {t : Placed}
    (ht : st.document.Holds q t) (hdis : ∀ x ∈ t.ids, x ∉ (Placed.node i kind span ts).ids) :
    st₁.document.Holds q t := by
  refine ht.congr fun x hx => ?_
  obtain ⟨n, hn⟩ := ht.live hx
  rw [h.reshown.keeps x n hn (hdis x hx), hn]

/-- The tree of a mounted node is in none of the slots of a tree elsewhere. -/
theorem Mounts.notMem_apart (h : Mounts r name st st₁ p i kind span ts ts' seen) {t : Placed}
    (ht : st.document.Holds q t) (hdis : ∀ x ∈ t.ids, x ∉ (Placed.node i kind span ts).ids) :
    ∀ x ∈ (Placed.node i kind span ts').ids, x ∉ t.ids := by
  intro x hx hxt
  rcases h.reshown.within x hx with hx | hnone
  · exact hdis x hxt hx
  · obtain ⟨n, hn⟩ := ht.live hxt
    rw [hn] at hnone
    cases hnone

/-- The tree that a mounted node is on top of. -/
theorem Mounts.shows (h : Mounts r name st st₁ p i kind span ts ts' seen) :
    st₁.document.Shows p i (.node kind span (Tree.expandAll splitText r.options.repeatAttribute
      [r.data name] (ts.map Placed.tree))) :=
  ⟨_, h.reshown.holds, rfl, by rw [Placed.tree_node, h.reshown.trees]⟩

/-- When two nodes with trees of their own are mounted one after the other, the first one stays on top of
its tree. -/
theorem Mounts.shows_first (h : Mounts r name st st₁ p i kind span ts ts' seen)
    (hother : Mounts r name' st₁ st₂ q j kind' span' us us' later)
    (ht : st.document.Holds q (.node j kind' span' us))
    (hdis : ∀ x ∈ (Placed.node j kind' span' us).ids, x ∉ (Placed.node i kind span ts).ids) :
    st₂.document.Shows p i (.node kind span (Tree.expandAll splitText r.options.repeatAttribute
      [r.data name] (ts.map Placed.tree))) := by
  have hapart := h.notMem_apart ht hdis
  exact ⟨_, hother.holds_apart h.reshown.holds hapart, rfl,
    by rw [Placed.tree_node, h.reshown.trees]⟩

/-- **Another node can be mounted as before.** -/
theorem Mounts.next (h : Mounts r name st st₁ p i kind span ts ts' seen)
    (ht : st.document.Holds q (.node j kind' span' us))
    (hn : (Placed.node j kind' span' us).ids.Nodup) (hproper : ∀ u ∈ us, u.Proper)
    (hdis : ∀ x ∈ (Placed.node j kind' span' us).ids, x ∉ (Placed.node i kind span ts).ids) :
    nameOf r.options st₁.document j = nameOf r.options st.document j ∧
      (r.obstacle? (nameOf r.options st.document j) span' (us.map Placed.tree) = none →
        ∃ st₂ us' later,
          Mounts r (nameOf r.options st.document j) st₁ st₂ q j kind' span' us us' later) := by
  have hheld := h.holds_apart ht hdis
  have hname : nameOf r.options st₁.document j = nameOf r.options st.document j := by
    have helement : st₁.document.element? j = st.document.element? j := by
      have hbefore : st.document.element? j = _ := ht.element?
      have hafter : st₁.document.element? j = _ := hheld.element?
      rw [hbefore, hafter]
    rw [nameOf, nameOf, Document.attribute?, Document.attribute?, helement]
  refine ⟨hname, fun hclear => ?_⟩
  have hmounts := exists_mounts h.reshown.sound hheld hn hproper (hname ▸ hclear)
  rwa [hname] at hmounts

/-- Two nodes that are in none of each other have nothing below them in common. -/
theorem disjoint_of_apart {d : Document} {x : NodeId} (hij : ¬ReflTransGen d.ChildOf i j)
    (hji : ¬ReflTransGen d.ChildOf j i) (hi : ReflTransGen d.ChildOf x i) :
    ¬ReflTransGen d.ChildOf x j := by
  intro hj
  rcases ReflTransGen.total_of_right_unique (rightUnique_childOf d) hi hj with hup | hup
  · exact hij hup
  · exact hji hup

/-- **The order of two mounts does not matter for the markup**, if the trees of the nodes have no slots in
common. -/
theorem Mounts.markup_swap {d : Document} {f g : Scopes} {st₁' st₂' : Stage}
    {seen' later' : List Call} {vs vs' : List Placed} (h : d.Sturdy)
    (hheld : d.Holds p (.node i kind span ts)) (hheld' : d.Holds q (.node j kind' span' us))
    (hdis : ∀ x ∈ (Placed.node j kind' span' us).ids, x ∉ (Placed.node i kind span ts).ids)
    (hone : Mounts r name ⟨d, f⟩ st₁ p i kind span ts ts' seen)
    (htwo : Mounts r name' st₁ st₂ q j kind' span' us us' later)
    (hone' : Mounts r name' ⟨d, g⟩ st₁' q j kind' span' us vs seen')
    (htwo' : Mounts r name st₁' st₂' p i kind span ts vs' later') :
    st₂'.document.markup = st₂.document.markup := by
  have hdis' : ∀ x ∈ (Placed.node i kind span ts).ids, x ∉ (Placed.node j kind' span' us).ids :=
    fun x hx hxj => hdis x hxj hx
  have hp : d.parent? i = p := parent?_of_get? hheld.get?
  have hq : d.parent? j = q := parent?_of_get? hheld'.get?
  -- both documents show the same trees at both nodes, and have the rest from the first one
  have hkeep : ∀ x n, d.get? x = some n → (∀ a ∈ [i, j], ¬ReflTransGen d.ChildOf x a) →
      st₂.document.get? x = some n ∧ st₂'.document.get? x = some n := by
    intro x n hx hout
    have hxi : x ∉ (Placed.node i kind span ts).ids := fun hxi => hout i (by simp) (hheld.up hxi)
    have hxj : x ∉ (Placed.node j kind' span' us).ids := fun hxj => hout j (by simp) (hheld'.up hxj)
    exact ⟨htwo.reshown.keeps x n (hone.reshown.keeps x n hx hxi) hxj,
      htwo'.reshown.keeps x n (hone'.reshown.keeps x n hx hxj) hxi⟩
  have hshows : ∀ a ∈ [i, j], ∃ T, st₂.document.Shows (d.parent? a) a T ∧
      st₂'.document.Shows (d.parent? a) a T := by
    intro a ha
    rcases List.mem_pair.1 ha with rfl | rfl
    · rw [hp]
      exact ⟨_, hone.shows_first htwo hheld' hdis, htwo'.shows⟩
    · rw [hq]
      exact ⟨_, htwo.shows, hone'.shows_first htwo' hheld hdis'⟩
  obtain ⟨_, _, _, hroot, -⟩ := h.exists_held h.forest.live
  obtain ⟨T, hT, hT'⟩ :=
    exists_shows hkeep hshows hroot fun a _ => not_below_of_loose h.forest.top
  have hlast : st₂.document.Sturdy := htwo.sturdy (hone.sturdy h)
  have hlast' : st₂'.document.Sturdy := htwo'.sturdy (hone'.sturdy h)
  rw [hlast'.markup_of_shows hT', hlast.markup_of_shows hT]

/-- **Two nodes that are in none of each other can be mounted in any order.** -/
theorem mount_swap {d : Document} (h : d.Sturdy) {f : Scopes} (g : Scopes) (calls' : List Call)
    (hi : d.contains i = true) (hj : d.contains j = true) (hij : ¬ReflTransGen d.ChildOf i j)
    (hji : ¬ReflTransGen d.ChildOf j i) {calls₁ calls₂ : List Call} {m₁ m₂ : Mount}
    (hfirst : r.mount ⟨d, f⟩ calls i = .ok (st₁, calls₁, m₁))
    (hsecond : r.mount st₁ calls₁ j = .ok (st₂, calls₂, m₂)) :
    ∃ st₁' calls₁' m₁' st₂' calls₂' m₂',
      r.mount ⟨d, g⟩ calls' j = .ok (st₁', calls₁', m₁') ∧
      r.mount st₁' calls₁' i = .ok (st₂', calls₂', m₂') ∧
      st₂'.document.markup = st₂.document.markup := by
  have hsturdy : (⟨d, f⟩ : Stage).document.Sturdy := h
  obtain ⟨kind, span, ts, ts', seen, hone, hheld, hn, hproper, hclear, -⟩ :=
    exists_mounts_of_mount hsturdy hi hfirst
  obtain ⟨kind', span', us, hheld', hn', hproper', -⟩ := hsturdy.exists_held hj
  have hdis : ∀ x ∈ (Placed.node j kind' span' us).ids, x ∉ (Placed.node i kind span ts).ids :=
    fun x hx hxi => disjoint_of_apart hij hji (hheld.up hxi) (hheld'.up hx)
  -- the second node could have been mounted before the first one
  obtain ⟨hname, hnext⟩ := hone.next hheld' hn' hproper' hdis
  have hclear' : r.obstacle? (nameOf r.options d j) span' (us.map Placed.tree) = none := by
    by_contra hsome
    obtain ⟨err, herr⟩ := Option.ne_none_iff_exists'.1 hsome
    obtain ⟨e, hfails, -⟩ := (mount_eq_error_iff (r := r) calls₁ err
      (hone.holds_apart hheld' hdis) hn').2 (hname ▸ herr)
    rw [hfails] at hsecond
    cases hsecond
  obtain ⟨st₃, us', later, htwo⟩ := hnext hclear'
  obtain rfl : st₃ = st₂ :=
    congrArg Prod.fst (Except.ok.inj ((htwo.mount calls₁).symm.trans hsecond))
  -- the other order
  have hheldᵢ : (⟨d, g⟩ : Stage).document.Holds (d.parent? i) (.node i kind span ts) := hheld
  have hheldⱼ : (⟨d, g⟩ : Stage).document.Holds (d.parent? j) (.node j kind' span' us) := hheld'
  obtain ⟨st₁', vs, seen', hone'⟩ := exists_mounts h.sound hheldⱼ hn' hproper' hclear'
  obtain ⟨st₂', vs', later', htwo'⟩ :=
    (hone'.next hheldᵢ hn hproper fun x hx hxj => hdis x hxj hx).2 hclear
  exact ⟨st₁', _, _, st₂', _, _, hone'.mount calls', htwo'.mount _,
    hone.markup_swap h hheld hheld' hdis htwo hone' htwo'⟩

end Mount

/-- **Mounting touches one element only.**  In a document that has been read and in which elements have
been mounted, a node is mounted.  If this goes well, each node that is not at or below it stays what it
is, and the node itself keeps its kind, with its attributes, its parent and its span.  Otherwise the
document and the scopes stay what they are, no controller is called, and no other node is mounted after
it.  If another node, where neither is in the other, can be mounted next, then the two can also be mounted
the other way round, and the markup is the same. -/
theorem mount_confined {d : Document} (h : AfterMounts d) (r : Registry) (f : Scopes)
    (calls : List Call) {id : NodeId} (hlive : d.contains id = true) :
    (∀ st' calls' m, r.mount ⟨d, f⟩ calls id = .ok (st', calls', m) →
      (∀ x n, d.get? x = some n → ¬ReflTransGen d.ChildOf x id → st'.document.get? x = some n) ∧
      st'.document.kind? id = d.kind? id ∧ st'.document.parent? id = d.parent? id ∧
        st'.document.span? id = d.span? id) ∧
    (∀ e, r.mount ⟨d, f⟩ calls id = .error e →
      e.stage.document = d ∧ e.calls = calls ∧ f.Restored e.stage.scopes ∧
      ∀ mounts rest, (r.mountAll ⟨d, f⟩ calls mounts (id :: rest)).mounts = .error e.fault ∧
        (r.mountAll ⟨d, f⟩ calls mounts (id :: rest)).stage.document = d ∧
        (r.mountAll ⟨d, f⟩ calls mounts (id :: rest)).calls = calls) ∧
    ∀ other, d.contains other = true → ¬ReflTransGen d.ChildOf id other →
      ¬ReflTransGen d.ChildOf other id → ∀ st₁ calls₁ m₁ st₂ calls₂ m₂,
        r.mount ⟨d, f⟩ calls id = .ok (st₁, calls₁, m₁) →
        r.mount st₁ calls₁ other = .ok (st₂, calls₂, m₂) →
        ∀ g calls', ∃ st₁' calls₁' m₁' st₂' calls₂' m₂',
          r.mount ⟨d, g⟩ calls' other = .ok (st₁', calls₁', m₁') ∧
          r.mount st₁' calls₁' id = .ok (st₂', calls₂', m₂') ∧
          st₂'.document.markup = st₂.document.markup := by
  have hsturdy : (⟨d, f⟩ : Stage).document.Sturdy := h.sturdy
  refine ⟨fun st' calls' m hok => ?_, fun e hfails => ?_, ?_⟩
  · obtain ⟨kind, span, ts, ts', seen, hmounts, hheld, -, -, -, hmem⟩ :=
      exists_mounts_of_mount hsturdy hlive hok
    refine ⟨fun x n hx hout => hmounts.reshown.keeps x n hx fun hxi => hout ((hmem x).1 hxi), ?_⟩
    have hbefore : d.get? id = _ := hheld.get?
    have hafter : st'.document.get? id = _ := hmounts.reshown.holds.get?
    rw [kind?, kind?, parent?, parent?, span?, span?, hbefore, hafter]
    exact ⟨rfl, rfl, rfl⟩
  · obtain ⟨hdocument, hcalls, hscopes⟩ := mount_error hfails
    refine ⟨hdocument, hcalls, hscopes, fun mounts rest => ?_⟩
    obtain ⟨hmounts, hcalls, hdocument⟩ := mountAll_error hfails mounts rest
    exact ⟨hmounts, hdocument, hcalls⟩
  · intro other hother hij hji st₁ calls₁ m₁ st₂ calls₂ m₂ hfirst hsecond g calls'
    exact mount_swap h.sturdy g calls' hlive hother hij hji hfirst hsecond

/-- A page with two controllers side by side. -/
def pairSource : String :=
  "<b c='a'><i r='x in xs'>\x7b\x7b x \x7d\x7d</i></b><p c='b'>\x7b\x7b y \x7d\x7d</p>"

/-- Its controllers. -/
def pairRegistry : Registry :=
  ⟨[("a", [.set "xs" (.array [.string "1", .string "2"])]),
    ("b", [.setData (.object [("y", .string "v")])])], ⟨"r", "c"⟩⟩

/-- Either of them can be mounted first. -/
theorem mount_confined_pair : ∃ d st₁ calls₁ m₁ st₂ calls₂ m₂,
    Document.parse pairSource = .ok d ∧ AfterMounts d ∧ d.contains 1 = true ∧ d.contains 4 = true ∧
      ¬ReflTransGen d.ChildOf 1 4 ∧ ¬ReflTransGen d.ChildOf 4 1 ∧
      pairRegistry.mount ⟨d, .empty⟩ [] 1 = .ok (st₁, calls₁, m₁) ∧
      pairRegistry.mount st₁ calls₁ 4 = .ok (st₂, calls₂, m₂) ∧
      st₁.document.kind? 1 = d.kind? 1 ∧ ∃ st₁' calls₁' m₁' st₂' calls₂' m₂',
        pairRegistry.mount ⟨d, .empty⟩ [] 4 = .ok (st₁', calls₁', m₁') ∧
        pairRegistry.mount st₁' calls₁' 1 = .ok (st₂', calls₂', m₂') ∧
        st₂'.document.markup = "<b c=\"a\"><i>1</i><i>2</i></b><p c=\"b\">v</p>" := by
  have hpage : (Document.parse pairSource).toOption.map (fun d => (d.contains 1, d.contains 4,
      d.parent? 1, d.parent? 4)) = some (true, true, some root, some root) := by
    decide +kernel
  obtain ⟨d, hd, hfacts⟩ := Option.map_eq_some_iff.1 hpage
  simp only [Prod.mk.injEq] at hfacts
  obtain ⟨hfirst, hsecond, hparent, hparent'⟩ := hfacts
  have hruns : (Document.parse pairSource).toOption.bind (fun d =>
      (pairRegistry.mount ⟨d, .empty⟩ [] 1).toOption.bind fun x =>
        (pairRegistry.mount x.1 x.2.1 4).toOption.map fun y => y.1.document.markup) =
      some "<b c=\"a\"><i>1</i><i>2</i></b><p c=\"b\">v</p>" := by
    decide +kernel
  rw [hd, Option.bind_some] at hruns
  obtain ⟨⟨st₁, calls₁, m₁⟩, hone, hruns⟩ := Option.bind_eq_some_iff.1 hruns
  obtain ⟨⟨st₂, calls₂, m₂⟩, htwo, hmarkup⟩ := Option.map_eq_some_iff.1 hruns
  have hparse := eq_ok_of_toOption hd
  have hone := eq_ok_of_toOption hone
  have htwo := eq_ok_of_toOption htwo
  have hafter : AfterMounts d := .parse hparse
  have hloop := hafter.sturdy.forest.acyclic root
  have hapart : ¬ReflTransGen d.ChildOf 1 4 := fun hup =>
    absurd (eq_of_sibling_above hloop hparent hparent' hup) (by decide)
  have hapart' : ¬ReflTransGen d.ChildOf 4 1 := fun hup =>
    absurd (eq_of_sibling_above hloop hparent' hparent hup) (by decide)
  obtain ⟨hconfined, -, hswap⟩ := mount_confined hafter pairRegistry .empty [] hfirst
  obtain ⟨st₁', calls₁', m₁', st₂', calls₂', m₂', hone', htwo', hsame⟩ :=
    hswap 4 hsecond hapart hapart' _ _ _ _ _ _ hone htwo .empty []
  exact ⟨d, st₁, calls₁, m₁, st₂, calls₂, m₂, hparse, hafter, hfirst, hsecond, hapart, hapart', hone,
    htwo, (hconfined _ _ _ hone).2.1, st₁', calls₁', m₁', st₂', calls₂', m₂', hone', htwo',
    hsame.trans hmarkup⟩

end Page

end PageTemplate
