/-
**What a bound mold holds on to.**

Between two renderings scopes remember nodes of the document by their slots: the slots that they fill,
and for each directive the pattern, the container of the copies, and the node that the copies are put
before.  All of these are nodes of the mold itself, or of the patterns in it, and never nodes of copies:
the copies and the mold share no slot.  A node that has no parent is the topmost node of the mold or of
a pattern.

Main definitions:

* `PageTemplate.Binding.Mold.bones` — the nodes of a mold and of the patterns in it;
* `PageTemplate.Binding.Scopes.handles` — the nodes that scopes remember.

Main results:

* `PageTemplate.Binding.Settled.within_eq` — the scopes at and below that of a mold;
* `PageTemplate.Binding.Settled.nodup_slotNodes`, `PageTemplate.Binding.Settled.get?_slot` — slots are
  different text nodes;
* `PageTemplate.Binding.Settled.nodup_copies`, `PageTemplate.Binding.Settled.subperm_patterns` — copies
  are different nodes, and so are patterns;
* `PageTemplate.Binding.Settled.sited` — where patterns, containers and anchors are;
* `PageTemplate.Binding.Settled.bone_of_handle`, `PageTemplate.Binding.Settled.apart` — what is
  remembered is of the mold, and nothing of the mold is at or below a copy;
* `PageTemplate.Binding.Settled.same_handles` — what is remembered depends on the mold alone;
* `PageTemplate.Binding.Settled.loose` — what has no parent is on top of the mold or a pattern.
-/

import PageTemplate.Proofs.Binding.Reach

set_option relaxedAutoImplicit false
set_option autoImplicit false

namespace PageTemplate.Binding

open PageTemplate.Data PageTemplate.Text

/-! ### The nodes of a mold -/

namespace Mold

mutual

/-- The nodes of a mold, those of patterns included. -/
def bones : Mold → List NodeId
  | still id _ _ items => id :: bonesAll items
  | slot id _ _ => [id]
  | each _ _ pattern => bones pattern

/-- The nodes of molds side by side. -/
def bonesAll : List Mold → List NodeId
  | [] => []
  | m :: rest => bones m ++ bonesAll rest

end

end Mold

/-- The nodes of a part, those of a pattern included. -/
def Part.bones : Part → List NodeId
  | still _ id _ _ _ => [id]
  | slot _ id _ _ => [id]
  | each a => a.pattern.bones

theorem flatMap_bones_partsAll (c : NodeId) (ms : List Mold) :
    (Mold.partsAll c ms).flatMap Part.bones = Mold.bonesAll ms := by
  induction ms using Mold.forest_induction generalizing c with
  | nil => rfl
  | still id kind span items rest ihitems ihrest =>
      rw [Mold.partsAll_still, List.flatMap_cons, List.flatMap_append, ihitems, ihrest,
        Mold.bonesAll, Mold.bones]
      rfl
  | slot id span path rest ih =>
      rw [Mold.partsAll_slot, List.flatMap_cons, ih, Mold.bonesAll, Mold.bones]
      rfl
  | each x s pattern rest _ ih =>
      rw [Mold.partsAll_each, List.flatMap_cons, ih, Mold.bonesAll, Mold.bones]
      rfl

/-- The nodes of a mold are those of its parts. -/
theorem mem_bones {p : Option NodeId} {i id : NodeId} {kind : NodeKind} {span : Option Span}
    {items : List Mold} : i ∈ (Mold.still id kind span items).bones ↔
      ∃ x ∈ Mold.level p id kind span items, i ∈ x.bones := by
  rw [← List.mem_flatMap, Mold.level, List.flatMap_cons, flatMap_bones_partsAll, Mold.bones]
  rfl

/-! ### The scopes of a mold -/

/-- The scopes of parts are those of their places. -/
theorem flatMap_scopes_eq (ps : List Part) : ps.flatMap Part.scopes =
    (Mold.spots ps).flatMap fun a => a.scope :: a.pattern.scopes := by
  induction ps with
  | nil => rfl
  | cons x ps ih =>
      rw [List.flatMap_cons, ih]
      cases x <;> rfl

variable {f : Scopes} {d : Document} {p : Option NodeId} {s : ScopeId} {m : Mold}
  {xs : List NodeId} {id : NodeId} {kind : NodeKind} {span : Option Span} {items : List Mold}
  {copies : ScopeId → List Placed} {inner : ScopeId → List NodeId}

theorem repeats_of_scope {scope : Scope} {rs : List Repeat} (hscope : f.get? s = some scope)
    (hrepeats : scope.repeats = rs) : f.repeats s = rs := by
  rw [Scopes.repeats, hscope, Option.map_some, Option.getD_some, hrepeats]

/-- With rounds enough, the scopes at and below that of a mold are found. -/
theorem Settled.withinTo_eq (h : Settled f d p s m xs) {fuel : Nat}
    (hfuel : f.entries.size ≤ fuel + s) : f.withinTo fuel s = s :: m.scopes := by
  induction h generalizing fuel with
  | @intro p s id kind span items scope copies inner hscope _ hrepeats _ _ _ linked _ ih =>
      cases fuel with
      | zero =>
          rw [Nat.zero_add] at hfuel
          exact absurd (Scopes.lt_size_of_get? hscope) (Nat.not_lt.2 hfuel)
      | succ fuel =>
          rw [Scopes.withinTo, repeats_of_scope hscope hrepeats, List.flatMap_map, Mold.scopes,
            ← flatMap_scopes_level p id kind span items, flatMap_scopes_eq]
          refine congrArg (s :: ·) (List.flatMap_congr fun a ha => ?_)
          have ha' := Mold.mem_spots.1 ha
          refine ih a ha' ?_
          have hlt : s + 1 ≤ a.scope := (linked a ha').lt
          calc f.entries.size ≤ fuel + (s + 1) := by
                rw [Nat.add_comm s 1, ← Nat.add_assoc]
                exact hfuel
            _ ≤ fuel + a.scope := Nat.add_le_add_left hlt fuel

/-- **The scopes at and below that of a mold** are this one and those of the patterns. -/
theorem Settled.within_eq (h : Settled f d p s m xs) : f.within s = s :: m.scopes :=
  h.withinTo_eq (Nat.le_add_right _ s)

/-- The scopes of a bound mold are there. -/
theorem Settled.lt_size_of_mem (h : Settled f d p s m xs) : ∀ x ∈ s :: m.scopes, x < f.entries.size := by
  induction h with
  | @intro p s id kind span items scope copies inner hscope _ _ _ _ _ _ _ ih =>
      intro x hx
      rcases List.mem_cons.1 hx with rfl | hx
      · exact Scopes.lt_size_of_get? hscope
      · rw [Mold.scopes] at hx
        obtain ⟨a, ha, hx⟩ := (mem_scopesAll_iff p id kind span).1 hx
        exact ih a ha x hx

/-- The directives of the scopes of a bound mold lead to later scopes of the mold. -/
theorem Settled.leads_on (h : Settled f d p s m xs) :
    ∀ x ∈ s :: m.scopes, ∀ r ∈ f.repeats x, r.scope ∈ s :: m.scopes ∧ x < r.scope := by
  induction h with
  | @intro p s id kind span items scope copies inner hscope _ hrepeats _ _ _ linked _ ih =>
      rw [Mold.scopes]
      have hmem : ∀ a, Part.each a ∈ Mold.level p id kind span items →
          ∀ x ∈ a.scope :: a.pattern.scopes, x ∈ s :: Mold.scopesAll items :=
        fun a ha x hx => List.mem_cons_of_mem _ (mem_scopesAll_of_each ha hx)
      intro x hx r hr
      rcases List.mem_cons.1 hx with rfl | hx
      · rw [repeats_of_scope hscope hrepeats] at hr
        obtain ⟨a, ha, rfl⟩ := List.mem_map.1 hr
        have ha' := Mold.mem_spots.1 ha
        exact ⟨hmem a ha' _ (List.mem_cons_self ..), (linked a ha').lt⟩
      · obtain ⟨a, ha, hx⟩ := (mem_scopesAll_iff p id kind span).1 hx
        exact (ih a ha x hx r hr).imp_left (hmem a ha _)

/-- The scope of a bound mold is ranked. -/
theorem Settled.ranked (h : Settled f d p s m xs) : f.Ranked s := by
  refine ⟨?_, fun x hx => h.lt_size_of_mem x ?_, fun x hx r hr => ?_⟩
  · rw [h.within_eq]
    exact List.mem_cons_self ..
  · rwa [h.within_eq] at hx
  · rw [h.within_eq] at hx ⊢
    exact h.leads_on x hx r hr

/-! ### What scopes remember -/

/-- The nodes that a scope and those below it remember, apart from copies. -/
def Scopes.handles (f : Scopes) (s : ScopeId) : List NodeId :=
  f.slotNodes s ++ (f.directives s).flatMap fun r => r.pattern :: r.container :: r.anchor.toList

/-- The slots of a list are the members of the list. -/
theorem perm_pairs_add (slots : Slots) (path : String) (node : NodeId) :
    (slots.add path node).pairs.Perm (slots.pairs ++ [(path, node)]) := by
  obtain ⟨entries⟩ := slots
  simp only [Slots.pairs, Slots.add]
  induction entries with
  | nil => simp [Slots.addTo]
  | cons e rest ih =>
      obtain ⟨q, nodes⟩ := e
      rw [Slots.addTo]
      split
      · next hq =>
          subst hq
          simp only [List.flatMap_cons, List.map_append, List.map_cons, List.map_nil,
            List.append_assoc]
          exact List.Perm.append_left _ List.perm_append_comm
      · rw [List.flatMap_cons, List.flatMap_cons, List.append_assoc]
        exact List.Perm.append_left _ ih

theorem perm_pairs_foldl_add (l : List (String × NodeId)) (slots : Slots) :
    (l.foldl (fun s p => s.add p.1 p.2) slots).pairs.Perm (slots.pairs ++ l) := by
  induction l generalizing slots with
  | nil => simp
  | cons x l ih =>
      have hadd := (perm_pairs_add slots x.1 x.2).append_right l
      rw [List.append_assoc] at hadd
      exact (ih _).trans hadd

theorem perm_pairs_ofList (l : List (String × NodeId)) : (Slots.ofList l).pairs.Perm l :=
  perm_pairs_foldl_add l .empty

/-- The slots of parts, those of patterns left aside, and what belongs to their places. -/
theorem perm_flatMap_parts (ps : List Part) (G : Spot → List NodeId) :
    ((slotList ps).map Prod.snd ++ (Mold.spots ps).flatMap G).Perm (ps.flatMap fun x =>
      match x with
      | .still _ _ _ _ _ => []
      | .slot _ id _ _ => [id]
      | .each a => G a) := by
  induction ps with
  | nil => exact .nil
  | cons x ps ih =>
      rw [List.flatMap_cons]
      cases x with
      | still q i k sp ms => exact ih
      | slot q i sp path => exact List.Perm.cons i ih
      | each a =>
          have hspots : Mold.spots (.each a :: ps) = a :: Mold.spots ps := rfl
          have hslots : slotList (.each a :: ps) = slotList ps := rfl
          rw [hspots, hslots, List.flatMap_cons]
          exact (List.perm_append_comm_assoc ..).trans (ih.append_left _)

/-- If each place has the given nodes among its slots, the parts have them among theirs. -/
theorem subperm_parts (ps : List Part) (foot : ScopeId → List NodeId) {G : Spot → List NodeId}
    (hG : ∀ a, Part.each a ∈ ps → (G a).Subperm (foot a.scope)) :
    ((slotList ps).map Prod.snd ++ (Mold.spots ps).flatMap G).Subperm
      (ps.flatMap (Part.ids foot)) := by
  refine (perm_flatMap_parts ps G).subperm.trans ?_
  induction ps with
  | nil => exact List.nil_subperm
  | cons x ps ih =>
      rw [List.flatMap_cons, List.flatMap_cons]
      refine List.Subperm.append ?_ (ih fun a ha => hG a (List.mem_cons_of_mem _ ha))
      cases x with
      | still q i k sp ms => exact List.nil_subperm
      | slot q i sp path => exact List.Subperm.refl _
      | each a => exact hG a (List.mem_cons_self ..)

/-- The slots of a scope that a mold is bound to. -/
theorem perm_slotsAt {scope : Scope} {l : List (String × NodeId)} (hscope : f.get? s = some scope)
    (hslots : scope.slots = .ofList l) : (f.slotsAt s).Perm (l.map Prod.snd) := by
  rw [Scopes.slotsAt, hscope, Option.map_some, Option.getD_some, hslots]
  exact (perm_pairs_ofList l).map Prod.snd

/-! #### Place by place -/

/-- The scopes at and below that of a mold, place by place. -/
theorem Settled.within_cons (h : Settled f d p s (.still id kind span items) xs) :
    f.within s = s :: (Mold.spots (Mold.level p id kind span items)).flatMap fun a =>
      f.within a.scope := by
  rw [h.within_eq, Mold.scopes, ← flatMap_scopes_level p id kind span items, flatMap_scopes_eq]
  cases h with
  | intro _ _ _ _ _ _ _ settled =>
      refine congrArg (s :: ·) (List.flatMap_congr fun a ha => ?_)
      rw [(settled a (Mold.mem_spots.1 ha)).within_eq]

theorem Settled.directives_eq (h : Settled f d p s (.still id kind span items) xs) :
    f.directives s = f.repeats s ++
      (Mold.spots (Mold.level p id kind span items)).flatMap fun a => f.directives a.scope := by
  rw [Scopes.directives, h.within_cons, List.flatMap_cons, List.flatMap_assoc]
  rfl

theorem Settled.slotNodes_eq (h : Settled f d p s (.still id kind span items) xs) :
    f.slotNodes s = f.slotsAt s ++
      (Mold.spots (Mold.level p id kind span items)).flatMap fun a => f.slotNodes a.scope := by
  rw [Scopes.slotNodes, h.within_cons, List.flatMap_cons, List.flatMap_assoc]
  rfl

/-- A directive belongs to a place of the mold, or is below one. -/
theorem Settled.directive_cases (h : Settled f d p s (.still id kind span items) xs)
    (hrepeats : f.repeats s =
      (Mold.spots (Mold.level p id kind span items)).map (Spot.toRepeat copies))
    {r : Repeat} (hr : r ∈ f.directives s) :
    ∃ a, Part.each a ∈ Mold.level p id kind span items ∧
      (r = a.toRepeat copies ∨ r ∈ f.directives a.scope) := by
  rw [h.directives_eq, hrepeats] at hr
  rcases List.mem_append.1 hr with hr | hr
  · obtain ⟨a, ha, rfl⟩ := List.mem_map.1 hr
    exact ⟨a, Mold.mem_spots.1 ha, .inl rfl⟩
  · obtain ⟨a, ha, hr⟩ := List.mem_flatMap.1 hr
    exact ⟨a, Mold.mem_spots.1 ha, .inr hr⟩

/-- A slot is one of the mold, or belongs to a pattern. -/
theorem Settled.slot_cases (h : Settled f d p s (.still id kind span items) xs) {scope : Scope}
    (hscope : f.get? s = some scope)
    (hslots : scope.slots = .ofList (slotList (Mold.level p id kind span items))) {i : NodeId}
    (hi : i ∈ f.slotNodes s) :
    (∃ q sp path, Part.slot q i sp path ∈ Mold.level p id kind span items) ∨
      ∃ a, Part.each a ∈ Mold.level p id kind span items ∧ i ∈ f.slotNodes a.scope := by
  rw [h.slotNodes_eq] at hi
  rcases List.mem_append.1 hi with hi | hi
  · obtain ⟨⟨path, i⟩, hpair, rfl⟩ := List.mem_map.1 ((perm_slotsAt hscope hslots).mem_iff.1 hi)
    obtain ⟨q, sp, hpart⟩ := mem_slotList.1 hpair
    exact .inl ⟨q, sp, path, hpart⟩
  · obtain ⟨a, ha, hi⟩ := List.mem_flatMap.1 hi
    exact .inr ⟨a, Mold.mem_spots.1 ha, hi⟩

/-! #### Slots -/

/-- The slots of a mold and of its patterns are among those that it occupies. -/
theorem Settled.subperm_slotNodes (h : Settled f d p s m xs) : (f.slotNodes s).Subperm xs := by
  induction h with
  | @intro p s id kind span items scope copies inner hscope hslots hrepeats level named scopes linked
      settled ih =>
      rw [(Settled.intro hscope hslots hrepeats level named scopes linked settled).slotNodes_eq]
      refine ((perm_slotsAt hscope hslots).append_right _).subperm.trans ?_
      refine subperm_parts _ _ fun a ha => (ih a ha).trans ?_
      exact (List.sublist_append_right _ _).subperm

/-- **No two slots are the same node.** -/
theorem Settled.nodup_slotNodes (h : Settled f d p s m xs) : (f.slotNodes s).Nodup := by
  obtain ⟨l, hperm, hsub⟩ := h.subperm_slotNodes
  exact hperm.nodup_iff.1 (h.nodup.sublist hsub)

/-- **No two copies of a scope are the same node**, whether they are of one directive or of two. -/
theorem Settled.nodup_copies (h : Settled f d p s (.still id kind span items) xs) :
    ((f.repeats s).flatMap (·.copies)).Nodup := by
  cases h with
  | @intro _ _ _ _ _ _ scope copies inner hscope _ hrepeats level _ _ _ _ =>
      have hcopies : (f.repeats s).flatMap (·.copies) =
          (Mold.spots (Mold.level p id kind span items)).flatMap fun a =>
            (copies a.scope).map Placed.id := by
        rw [repeats_of_scope hscope hrepeats, List.flatMap_map]
        rfl
      have hparts := subperm_parts (Mold.level p id kind span items)
        (foot (fun _ => []) copies inner) (G := fun a => (copies a.scope).map Placed.id)
        fun a _ => (map_id_new_sublist _ _ _ _).subperm
      rw [hcopies]
      obtain ⟨l, hperm, hsub⟩ := (List.sublist_append_right _ _).subperm.trans hparts
      exact hperm.nodup_iff.1 (level.nodup.sublist hsub)

/-- **Slots are text nodes.** -/
theorem Settled.get?_slot (h : Settled f d p s m xs) {i : NodeId} (hi : i ∈ f.slotNodes s) :
    ∃ t q sp, d.get? i = some ⟨.text t, some q, [], sp⟩ := by
  induction h with
  | @intro p s id kind span items scope copies inner hscope hslots hrepeats level named scopes linked
      settled ih =>
      have h := Settled.intro hscope hslots hrepeats level named scopes linked settled
      rcases h.slot_cases hscope hslots hi with ⟨q, sp, path, hpart⟩ | ⟨a, ha, hi⟩
      · obtain ⟨t, hget⟩ := level.holds _ hpart
        exact ⟨t, q, sp, hget⟩
      · exact ih a ha hi

/-! #### Directives -/

/-- The pattern of a directive is live and has no parent, its container is live, and its anchor, if it
has one, is a child of the container. -/
structure Repeat.Sited (d : Document) (r : Repeat) : Prop where
  pattern : d.contains r.pattern = true
  loose : d.parent? r.pattern = none
  container : d.contains r.container = true
  anchor : ∀ a, r.anchor = some a → a ∈ d.children r.container

/-- The anchor of molds is the node of one of them. -/
theorem exists_of_anchor {ms : List Mold} {i : NodeId} (h : Mold.anchor ms = some i) :
    ∃ m ∈ ms, m.node? = some i := by
  obtain ⟨_, m, _, rfl, hm, _⟩ := List.findSome?_eq_some_iff.1 h
  exact ⟨m, by simp, hm⟩

theorem mem_heads_of_node? {m : Mold} {i : NodeId} (h : m.node? = some i)
    (copies : ScopeId → List Placed) : i ∈ m.heads copies := by
  cases m with
  | still _ _ _ _ =>
      cases h
      exact List.mem_singleton_self _
  | slot _ _ _ =>
      cases h
      exact List.mem_singleton_self _
  | each _ _ _ => cases h

/-- Without old copies, the children of a node are the topmost nodes of its items. -/
theorem Level.get?_still {ps : List Part} (h : Level d ps (fun _ => []) copies inner)
    (hx : Part.still p id kind span items ∈ ps) :
    d.get? id = some ⟨kind, p, items.flatMap (Mold.heads copies), span⟩ :=
  Part.holds_still_iff.1 (h.holds _ hx)

/-- **Where patterns, containers and anchors are.** -/
theorem Settled.sited (h : Settled f d p s m xs) {r : Repeat} (hr : r ∈ f.directives s) :
    r.Sited d := by
  induction h with
  | @intro p s id kind span items scope copies inner hscope hslots hrepeats level named scopes linked
      settled ih =>
      have h := Settled.intro hscope hslots hrepeats level named scopes linked settled
      obtain ⟨a, ha, rfl | hr⟩ := h.directive_cases (repeats_of_scope hscope hrepeats) hr
      · obtain ⟨i, k, sp, ms, hpattern⟩ := (settled a ha).exists_still
        obtain ⟨_, cs, htop⟩ := (hpattern ▸ settled a ha).get?_top
        obtain ⟨q, k', sp', pre, post, hanchor, _, hstill⟩ := Mold.still_of_each ha
        have hcontainer := level.get?_still hstill
        have hid : (a.toRepeat copies).pattern = i := by rw [Spot.toRepeat, hpattern, Mold.id]
        refine ⟨?_, ?_, Document.contains_iff.2 ⟨_, hcontainer⟩, fun b hb => ?_⟩
        · rw [hid]
          exact Document.contains_iff.2 ⟨_, htop⟩
        · rw [hid]
          exact Document.parent?_of_get? htop
        · obtain ⟨m, hm, hnode⟩ := exists_of_anchor (hanchor.symm.trans hb)
          rw [Spot.toRepeat, Document.children_of_get? hcontainer]
          exact List.mem_flatMap.2 ⟨m, by simp [hm], mem_heads_of_node? hnode copies⟩
      · exact ih a ha hr

/-! #### Nodes of the mold, and nodes of copies -/

theorem Mold.id_mem_bones : ∀ m : Mold, m.id ∈ m.bones
  | .still _ _ _ _ => List.mem_cons_self ..
  | .slot _ _ _ => List.mem_singleton_self _
  | .each _ _ pattern => id_mem_bones pattern

/-- The node of a mold is the node of a part. -/
theorem exists_part_of_node? {c i : NodeId} {ms : List Mold} (hm : m ∈ ms) (hnode : m.node? = some i) :
    ∃ x ∈ Mold.partsAll c ms, i ∈ x.bones := by
  induction ms with
  | nil => cases hm
  | cons m' ms ih =>
      rw [Mold.partsAll]
      rcases List.mem_cons.1 hm with rfl | hm
      · cases m with
        | still _ _ _ _ =>
            cases hnode
            exact ⟨_, List.mem_append_left _ (List.mem_cons_self ..), List.mem_singleton_self _⟩
        | slot _ _ _ =>
            cases hnode
            exact ⟨_, List.mem_append_left _ (List.mem_cons_self ..), List.mem_singleton_self _⟩
        | each _ _ _ => cases hnode
      · obtain ⟨x, hx, hi⟩ := ih hm
        exact ⟨x, List.mem_append_right _ hx, hi⟩

/-- **What scopes remember are nodes of the mold.** -/
theorem Settled.bone_of_handle (h : Settled f d p s m xs) {i : NodeId} (hi : i ∈ f.handles s) :
    i ∈ m.bones := by
  induction h with
  | @intro p s id kind span items scope copies inner hscope hslots hrepeats level named scopes linked
      settled ih =>
      have h := Settled.intro hscope hslots hrepeats level named scopes linked settled
      have hbelow : ∀ a, Part.each a ∈ Mold.level p id kind span items → i ∈ f.handles a.scope →
          i ∈ (Mold.still id kind span items).bones :=
        fun a ha hi => mem_bones.2 ⟨_, ha, ih a ha hi⟩
      rcases List.mem_append.1 hi with hi | hi
      · rcases h.slot_cases hscope hslots hi with ⟨q, sp, path, hpart⟩ | ⟨a, ha, hi⟩
        · exact mem_bones.2 ⟨_, hpart, List.mem_singleton_self _⟩
        · exact hbelow a ha (List.mem_append_left _ hi)
      · obtain ⟨r, hr, hi⟩ := List.mem_flatMap.1 hi
        obtain ⟨a, ha, rfl | hr⟩ := h.directive_cases (repeats_of_scope hscope hrepeats) hr
        · obtain ⟨q, k, sp, pre, post, hanchor, _, hstill⟩ := Mold.still_of_each ha
          rcases List.mem_cons.1 hi with rfl | hi
          · exact mem_bones.2 ⟨_, ha, a.pattern.id_mem_bones⟩
          · rcases List.mem_cons.1 hi with rfl | hi
            · exact mem_bones.2 ⟨_, hstill, List.mem_singleton_self _⟩
            · -- the anchor is a node behind the place
              rw [Option.mem_toList] at hi
              obtain ⟨m, hm, hnode⟩ := exists_of_anchor (hanchor.symm.trans hi)
              have hitem : m ∈ pre ++ Mold.each a.expression a.scope a.pattern :: post :=
                List.mem_append_right _ (List.mem_cons_of_mem _ hm)
              obtain ⟨x, hx, hix⟩ := exists_part_of_node? (c := a.container) hitem hnode
              exact mem_bones.2 ⟨x, (Mold.level_sublist hstill).subset hx, hix⟩
        · exact hbelow a ha (List.mem_append_right _ (List.mem_flatMap.2 ⟨r, hr, hi⟩))

/-- A mold occupies its nodes, and those of patterns. -/
theorem Settled.mem_of_bone (h : Settled f d p s m xs) {i : NodeId} (hi : i ∈ m.bones) : i ∈ xs := by
  induction h with
  | @intro p s id kind span items scope copies inner _ _ _ _ _ _ _ _ ih =>
      obtain ⟨x, hx, hi⟩ := mem_bones.1 hi
      refine List.mem_flatMap.2 ⟨x, hx, ?_⟩
      cases x with
      | still _ _ _ _ _ => exact hi
      | slot _ _ _ _ => exact hi
      | each a => exact List.mem_append_right _ (ih a hx hi)

/-- What belongs to a place, and is none of the nodes of its pattern, is no node of the mold. -/
theorem Level.notMem_bones
    (h : Level d (Mold.level p id kind span items) (fun _ => []) copies inner) {a : Spot}
    (ha : Part.each a ∈ Mold.level p id kind span items)
    (hbones : ∀ b, Part.each b ∈ Mold.level p id kind span items → ∀ i ∈ b.pattern.bones,
      i ∈ inner b.scope)
    {i : NodeId} (hi : i ∈ foot (fun _ => []) copies inner a.scope) (hia : i ∉ a.pattern.bones) :
    i ∉ (Mold.still id kind span items).bones := by
  intro hmem
  obtain ⟨x, hx, hix⟩ := mem_bones.1 hmem
  have hids : i ∈ x.ids (foot (fun _ => []) copies inner) := by
    cases x with
    | still _ _ _ _ _ => exact hix
    | slot _ _ _ _ => exact hix
    | each b => exact List.mem_append_right _ (hbones b hx i hix)
  have hxa := h.eq_of_mem hx ha hids hi
  subst hxa
  exact hia hix

/-- **The copies that are listed are trees without a node of the mold.** -/
theorem Settled.bare_fragment (h : Settled f d p s m xs) {c : NodeId} (hc : c ∈ f.fragments s) :
    ∃ t q, t.id = c ∧ d.Holds (some q) t ∧ ∀ i ∈ t.ids, i ∈ xs ∧ i ∉ m.bones := by
  induction h with
  | @intro p s id kind span items scope copies inner hscope hslots hrepeats level named scopes linked
      settled ih =>
      have h := Settled.intro hscope hslots hrepeats level named scopes linked settled
      obtain ⟨r, hr, hc⟩ := Scopes.mem_fragments.1 hc
      have hbones : ∀ b, Part.each b ∈ Mold.level p id kind span items → ∀ i ∈ b.pattern.bones,
          i ∈ inner b.scope := fun b hb i hi => (settled b hb).mem_of_bone hi
      have hplace : ∀ a, Part.each a ∈ Mold.level p id kind span items →
          ∀ i ∈ foot (fun _ => []) copies inner a.scope, i ∉ a.pattern.bones →
          i ∈ occupied (Mold.level p id kind span items) (fun _ => []) copies inner ∧
            i ∉ (Mold.still id kind span items).bones :=
        fun a ha i hi hia =>
          ⟨List.mem_flatMap.2 ⟨_, ha, hi⟩, level.notMem_bones ha hbones hi hia⟩
      obtain ⟨a, ha, rfl | hr⟩ := h.directive_cases (repeats_of_scope hscope hrepeats) hr
      · obtain ⟨t, ht, rfl⟩ := List.mem_map.1 hc
        refine ⟨t, a.container, rfl, level.holds _ ha t ht, fun i hi => ?_⟩
        have hit : i ∈ (copies a.scope).flatMap Placed.ids := List.mem_flatMap.2 ⟨t, ht, hi⟩
        refine hplace a ha i (List.mem_append_left _ hit) fun hbone => ?_
        -- a place shares no slot between its copies and its pattern
        have hnodup := (List.nodup_flatMap.1 level.nodup).1 _ ha
        exact (List.nodup_append.1 hnodup).2.2 i hit i (hbones a ha i hbone) rfl
      · obtain ⟨t, q, rfl, ht, hids⟩ := ih a ha (Scopes.mem_fragments.2 ⟨r, hr, hc⟩)
        refine ⟨t, q, rfl, ht, fun i hi => ?_⟩
        exact hplace a ha i (List.mem_append_right _ (hids i hi).1) (hids i hi).2

/-- **No node of the mold is at or below a copy that is listed.** -/
theorem Settled.apart (h : Settled f d p s m xs) (hd : d.Linked []) {i c : NodeId}
    (hi : i ∈ m.bones) (hc : c ∈ f.fragments s) : ¬Relation.ReflTransGen d.ChildOf i c := by
  intro hup
  obtain ⟨t, q, rfl, ht, hids⟩ := h.bare_fragment hc
  exact (hids i (ht.mem_of_up hd hup)).2 hi

/-- The sites of a scope that a mold is bound to. -/
theorem Settled.sites_eq (h : Settled f d p s (.still id kind span items) xs) :
    f.sites s = (f.repeats s).map Repeat.site ++
      (Mold.spots (Mold.level p id kind span items)).flatMap fun a => f.sites a.scope := by
  rw [Scopes.sites, h.directives_eq, List.map_append, List.map_flatMap]
  rfl

/-- **What scopes remember depends on the mold alone**: not on the document, and not on the copies. -/
theorem Settled.same_sites (h : Settled f d p s m xs) {g : Scopes} {e : Document} {ys : List NodeId}
    (h' : Settled g e p s m ys) : g.slotNodes s = f.slotNodes s ∧ g.sites s = f.sites s := by
  induction h generalizing ys with
  | @intro p s id kind span items scope copies inner hscope hslots hrepeats level named scopes linked
      settled ih =>
      have h := Settled.intro hscope hslots hrepeats level named scopes linked settled
      have hmeets := h'
      cases h' with
      | @intro _ _ _ _ _ _ scope' copies' _ hscope' hslots' hrepeats' _ _ _ _ settled' =>
          have hbelow : ∀ a ∈ Mold.spots (Mold.level p id kind span items),
              g.slotNodes a.scope = f.slotNodes a.scope ∧ g.sites a.scope = f.sites a.scope :=
            fun a ha => ih a (Mold.mem_spots.1 ha) (settled' a (Mold.mem_spots.1 ha))
          have hown : g.slotsAt s = f.slotsAt s := by
            rw [Scopes.slotsAt, Scopes.slotsAt, hscope, hscope', Option.map_some, Option.map_some,
              hslots, hslots']
          have hsites : (g.repeats s).map Repeat.site = (f.repeats s).map Repeat.site := by
            rw [repeats_of_scope hscope hrepeats, repeats_of_scope hscope' hrepeats', List.map_map,
              List.map_map]
            rfl
          rw [h.slotNodes_eq, hmeets.slotNodes_eq, h.sites_eq, hmeets.sites_eq, hown, hsites]
          exact ⟨congrArg _ (List.flatMap_congr fun a ha => (hbelow a ha).1),
            congrArg _ (List.flatMap_congr fun a ha => (hbelow a ha).2)⟩

theorem Scopes.handles_eq (f : Scopes) (s : ScopeId) : f.handles s =
    f.slotNodes s ++ (f.sites s).flatMap fun k => k.pattern :: k.container :: k.anchor.toList := by
  rw [handles, sites, List.flatMap_map]
  rfl

theorem Settled.same_handles (h : Settled f d p s m xs) {g : Scopes} {e : Document}
    {ys : List NodeId} (h' : Settled g e p s m ys) : g.handles s = f.handles s := by
  rw [Scopes.handles_eq, Scopes.handles_eq, (h.same_sites h').1, (h.same_sites h').2]

/-! #### Patterns -/

/-- The patterns of a mold are different nodes, and none is the topmost node of the mold. -/
theorem Settled.subperm_patterns (h : Settled f d p s m xs) :
    (m.id :: (f.directives s).map (·.pattern)).Subperm xs := by
  induction h with
  | @intro p s id kind span items scope copies inner hscope hslots hrepeats level named scopes linked
      settled ih =>
      have h := Settled.intro hscope hslots hrepeats level named scopes linked settled
      -- a pattern, and then those below it
      have hbelow : ∀ l : List Spot, ((l.map (Spot.toRepeat copies) ++
          l.flatMap fun a => f.directives a.scope).map (·.pattern)).Perm
          (l.flatMap fun a => a.pattern.id :: (f.directives a.scope).map (·.pattern)) := by
        intro l
        rw [List.map_append, List.map_map, List.map_flatMap]
        exact List.map_append_flatMap_perm l _ _
      rw [h.directives_eq, repeats_of_scope hscope hrepeats, Mold.id, occupied, Mold.level,
        List.flatMap_cons]
      refine (List.subperm_cons id).2 ((hbelow _).subperm.trans ?_)
      have hparts := subperm_parts (Mold.partsAll id items)
        (foot (fun _ => []) copies inner)
        (G := fun a => a.pattern.id :: (f.directives a.scope).map (·.pattern))
        fun a ha => (ih a (List.mem_cons_of_mem _ ha)).trans
          (List.sublist_append_right _ _).subperm
      exact (List.sublist_append_right _ _).subperm.trans hparts

/-- A part that is a node has a parent. -/
def Part.Under : Part → Prop
  | still p _ _ _ _ => p ≠ none
  | slot _ _ _ _ => True
  | each _ => True

theorem Mold.under_partsAll (c : NodeId) (ms : List Mold) : ∀ x ∈ Mold.partsAll c ms, x.Under := by
  induction ms using Mold.forest_induction generalizing c with
  | nil => exact nofun
  | still id kind span items rest ihitems ihrest =>
      rw [Mold.partsAll_still, List.forall_mem_cons, List.forall_mem_append]
      exact ⟨Option.some_ne_none c, ihitems id, ihrest c⟩
  | slot id span path rest ih =>
      rw [Mold.partsAll_slot, List.forall_mem_cons]
      exact ⟨trivial, ih c⟩
  | each x s pattern rest _ ih =>
      rw [Mold.partsAll_each, List.forall_mem_cons]
      exact ⟨trivial, ih c⟩

/-- **What has no parent is on top of the mold or of a pattern.** -/
theorem Settled.loose (h : Settled f d p s m xs) {i : NodeId} (hi : i ∈ xs)
    (hparent : d.parent? i = none) : i = m.id ∨ ∃ r ∈ f.directives s, r.pattern = i := by
  induction h with
  | @intro p s id kind span items scope copies inner hscope hslots hrepeats level named scopes linked
      settled ih =>
      have h := Settled.intro hscope hslots hrepeats level named scopes linked settled
      obtain ⟨x, hx, hix⟩ := List.mem_flatMap.1 hi
      rcases List.mem_cons.1 hx with rfl | hx
      · exact .inl (List.mem_singleton.1 hix)
      · have hx' : x ∈ Mold.level p id kind span items := List.mem_cons_of_mem _ hx
        have hunder := Mold.under_partsAll id items x hx
        cases x with
        | still q j k sp ms =>
            rw [List.mem_singleton.1 hix, Document.parent?_of_get? (level.get?_still hx')] at hparent
            exact absurd hparent hunder
        | slot q j sp path =>
            obtain ⟨t, hget⟩ := level.holds _ hx'
            rw [List.mem_singleton.1 hix, Document.parent?_of_get? hget] at hparent
            cases hparent
        | each a =>
            refine .inr ?_
            have hdirectives := h.directives_eq
            rw [repeats_of_scope hscope hrepeats] at hdirectives
            rw [hdirectives]
            rcases List.mem_append.1 hix with hcopy | hinner
            · -- a copy is below its container
              obtain ⟨t, ht, hit⟩ := List.mem_flatMap.1 hcopy
              have hheld := level.holds _ hx' t ht
              rcases hheld.child_of_parent hit with rfl | ⟨q, hq, -⟩
              · rw [Document.parent?_of_get? hheld.get?] at hparent
                cases hparent
              · rw [hq] at hparent
                cases hparent
            · rcases ih a hx' hinner with rfl | ⟨r, hr, rfl⟩
              · exact ⟨a.toRepeat copies, List.mem_append_left _
                  (List.mem_map.2 ⟨a, Mold.mem_spots.2 hx', rfl⟩), rfl⟩
              · exact ⟨r, List.mem_append_right _
                  (List.mem_flatMap.2 ⟨a, Mold.mem_spots.2 hx', hr⟩), rfl⟩

end PageTemplate.Binding
