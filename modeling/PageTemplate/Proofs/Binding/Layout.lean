/-
**What is laid out is bound.**

When a part of a document has been laid out, each repeated element has become a place for copies, in
document order, and every other node is where its mold has it.  If the patterns of the places are
settled, and share no slot with anything else, then so is the whole.

Main definitions:

* `PageTemplate.Binding.Mark.At` — what the place of a repeated element must be.

Main results:

* `PageTemplate.Binding.Laid.spots` — the places are those of the repeated elements;
* `PageTemplate.Binding.perm_occupied` — slots are those of nodes, or belong to places;
* `PageTemplate.Binding.Laid.settled` — what is laid out is settled.
-/

import PageTemplate.Proofs.Binding.Cutting

set_option relaxedAutoImplicit false
set_option autoImplicit false

namespace PageTemplate.Binding

open PageTemplate.Data PageTemplate.Markup PageTemplate.Text

variable {mark : String} {scope : NodeId → ScopeId} {pattern : NodeId → Mold}

/-! ### Places -/

theorem Mold.spots_append (ps qs : List Part) :
    Mold.spots (ps ++ qs) = Mold.spots ps ++ Mold.spots qs :=
  List.filterMap_append ..

/-- The part that the mold of a piece has. -/
def Piece.part (c : NodeId) (span : Option Span) : NodeId → Piece → Part
  | id, literal cs => .still (some c) id (.text (String.ofList cs)) span []
  | id, slot path => .slot c id span (String.ofList path)

theorem partsAll_pieces (c : NodeId) (span : Option Span) (ids : List NodeId) (ps : List Piece)
    (ms : List Mold) :
    Mold.partsAll c (ids.zipWith (Piece.mold span) ps ++ ms) =
      ids.zipWith (Piece.part c span) ps ++ Mold.partsAll c ms := by
  induction ps generalizing ids with
  | nil => rw [List.zipWith_nil_right, List.zipWith_nil_right, List.nil_append, List.nil_append]
  | cons p ps ih =>
      cases ids with
      | nil => rfl
      | cons i ids =>
          rw [List.zipWith_cons_cons, List.zipWith_cons_cons, List.cons_append, List.cons_append,
            ← ih ids, Mold.partsAll]
          cases p <;> rfl

/-- The parts of a text are those of its pieces. -/
theorem exists_piece {c : NodeId} {span : Option Span} {ids : List NodeId} {ps : List Piece} {x : Part}
    (hx : x ∈ ids.zipWith (Piece.part c span) ps) : ∃ i, ∃ p ∈ ps, p.part c span i = x := by
  rw [← List.map_uncurry_zip_eq_zipWith] at hx
  obtain ⟨⟨i, p⟩, hip, hx⟩ := List.mem_map.1 hx
  exact ⟨i, p, (List.of_mem_zip hip).2, hx⟩

/-- The pieces of a text have no places. -/
theorem spots_pieces (c : NodeId) (span : Option Span) (ids : List NodeId) (ps : List Piece)
    (ms : List Mold) :
    Mold.spots (Mold.partsAll c (ids.zipWith (Piece.mold span) ps ++ ms)) =
      Mold.spots (Mold.partsAll c ms) := by
  have hnone : Mold.spots (ids.zipWith (Piece.part c span) ps) = [] := by
    refine List.filterMap_eq_nil_iff.2 fun x hx => ?_
    obtain ⟨i, p, _, rfl⟩ := exists_piece hx
    cases p <;> rfl
  rw [partsAll_pieces, Mold.spots_append, hnone, List.nil_append]

theorem spots_still (c id : NodeId) (kind : NodeKind) (span : Option Span)
    (items ms : List Mold) :
    Mold.spots (Mold.partsAll c (.still id kind span items :: ms)) =
      Mold.spots (Mold.partsAll id items) ++ Mold.spots (Mold.partsAll c ms) := by
  rw [Mold.partsAll_still, ← Mold.spots_append]
  exact List.filterMap_cons_none rfl

/-- The place of a repeated element, among repeated elements that have been taken out. -/
structure Mark.At (mark : String) (scope : NodeId → ScopeId) (pattern : NodeId → Mold)
    (out : List NodeId) (m : Mark) (a : Spot) : Prop where
  expression : m.element.repeat? mark = some a.expression
  scope : a.scope = scope m.id
  pattern : a.pattern = pattern m.id
  container : a.container = m.container
  anchor : a.anchor = m.later.find? (· ∉ out)

/-- The first node that stays behind a place is its anchor. -/
theorem Laid.anchor {ts : List Placed} {ms : List Mold} (h : Laid mark scope pattern ts ms)
    {c : NodeId} {out : List NodeId} (hout : ∀ m ∈ marksAll mark c ts, m.id ∈ out)
    (hin : ∀ i ∈ (pruneAll mark ts).flatMap Placed.ids, i ∉ out) :
    Mold.anchor ms = (ts.map Placed.id).find? (· ∉ out) := by
  -- a node that stays is the first one
  have key : ∀ {id : NodeId} {us : List NodeId}, id ∉ out →
      some id = (id :: us).find? (· ∉ out) := by
    intro id us hid
    rw [List.find?_cons_of_pos (by simpa using hid)]
  induction h with
  | nil => rfl
  | @text id t span ids rest ms hids _ _ =>
      rw [pruneAll_leaf _ _ _ _ rfl] at hin
      have hfirst : Mold.anchor ((id :: ids).zipWith (Piece.mold span) (textPieces t) ++ ms) =
          some id := by
        cases hp : textPieces t with
        | nil => exact absurd hp (textPieces_ne_nil t)
        | cons p ps =>
            rw [List.zipWith_cons_cons, List.cons_append]
            cases p <;> rfl
      rw [hfirst]
      exact key (hin id (by simp))
  | @leaf id kind span rest ms ht he _ _ =>
      rw [pruneAll_leaf _ _ _ _ he] at hin
      exact key (hin id (by simp))
  | @plain id e span cs rest items ms he _ _ _ _ =>
      rw [pruneAll_plain _ _ _ _ he] at hin
      exact key (hin id (by simp))
  | @marked id e x span cs rest ms he _ ih =>
      rw [marksAll_marked _ _ _ _ _ (hasAttribute_of_repeat? he)] at hout
      rw [pruneAll_marked _ _ _ _ (hasAttribute_of_repeat? he)] at hin
      have hid : id ∈ out := hout _ (List.mem_cons_self ..)
      rw [List.map_cons, Placed.id_node, List.find?_cons_of_neg (by simpa using hid)]
      exact ih (fun m hm => hout m (List.mem_cons_of_mem _ hm)) hin

/-- **The places are those of the repeated elements**, in document order. -/
theorem Laid.spots {ts : List Placed} {ms : List Mold} (h : Laid mark scope pattern ts ms)
    {c : NodeId} {out : List NodeId} (hout : ∀ m ∈ marksAll mark c ts, m.id ∈ out)
    (hin : ∀ i ∈ (pruneAll mark ts).flatMap Placed.ids, i ∉ out) :
    List.Forall₂ (Mark.At mark scope pattern out) (marksAll mark c ts)
      (Mold.spots (Mold.partsAll c ms)) := by
  induction h generalizing c with
  | nil => exact .nil
  | text id t span ids hids _ ih =>
      rw [marksAll_leaf _ _ _ _ _ rfl] at hout ⊢
      rw [pruneAll_leaf _ _ _ _ rfl, List.flatMap_cons] at hin
      rw [spots_pieces]
      exact ih hout fun i hi => hin i (List.mem_append_right _ hi)
  | leaf id span ht he _ ih =>
      rw [marksAll_leaf _ _ _ _ _ he] at hout ⊢
      rw [pruneAll_leaf _ _ _ _ he, List.flatMap_cons] at hin
      rw [spots_still]
      exact ih hout fun i hi => hin i (List.mem_append_right _ hi)
  | plain id span he _ _ ihcs ih =>
      rw [marksAll_plain _ _ _ _ _ he] at hout ⊢
      rw [pruneAll_plain _ _ _ _ he, List.flatMap_cons, Placed.ids_node] at hin
      rw [spots_still]
      refine List.rel_append (ihcs (fun m hm => hout m (List.mem_append_left _ hm)) fun i hi =>
        hin i (List.mem_append_left _ (List.mem_cons_of_mem _ hi)))
        (ih (fun m hm => hout m (List.mem_append_right _ hm)) fun i hi =>
          hin i (List.mem_append_right _ hi))
  | @marked id e x span cs rest ms he hlaid ih =>
      rw [marksAll_marked _ _ _ _ _ (hasAttribute_of_repeat? he)] at hout ⊢
      rw [pruneAll_marked _ _ _ _ (hasAttribute_of_repeat? he)] at hin
      have hrest := fun m hm => hout m (List.mem_cons_of_mem _ hm)
      rw [Mold.partsAll_each]
      exact .cons ⟨he, rfl, rfl, rfl, hlaid.anchor hrest hin⟩ (ih hrest hin)

/-- The pieces of a text have no scopes. -/
theorem scopesAll_pieces (span : Option Span) (ids : List NodeId) (ps : List Piece) :
    Mold.scopesAll (ids.zipWith (Piece.mold span) ps) = [] := by
  induction ps generalizing ids with
  | nil =>
      rw [List.zipWith_nil_right]
      rfl
  | cons p ps ih =>
      cases ids with
      | nil => rfl
      | cons i ids =>
          rw [List.zipWith_cons_cons, Mold.scopesAll, ih ids]
          cases p <;> rfl

/-- The scopes of what is laid out are those of the repeated elements and their patterns. -/
theorem Laid.scopesAll {ts : List Placed} {ms : List Mold} (h : Laid mark scope pattern ts ms)
    (c : NodeId) : Mold.scopesAll ms =
      (marksAll mark c ts).flatMap fun m => scope m.id :: (pattern m.id).scopes := by
  induction h generalizing c with
  | nil => rfl
  | text id t span ids hids _ ih =>
      rw [marksAll_leaf _ _ _ _ _ rfl, Mold.scopesAll_append, scopesAll_pieces,
        List.nil_append]
      exact ih c
  | leaf id span ht he _ ih =>
      rw [marksAll_leaf _ _ _ _ _ he, Mold.scopesAll, Mold.scopes]
      exact ih c
  | plain id span he _ _ ihcs ih =>
      rw [marksAll_plain _ _ _ _ _ he, Mold.scopesAll, Mold.scopes, ihcs id, ih c,
        List.flatMap_append]
  | marked id span he _ ih =>
      rw [marksAll_marked _ _ _ _ _ (hasAttribute_of_repeat? he), Mold.scopesAll, Mold.scopes, ih c,
        List.flatMap_cons]

/-! ### Paths -/

/-- A collection has a path that is not empty. -/
theorem collection_ne_empty {text : String} {x : RepeatExpression}
    (h : RepeatExpression.parse? text = some x) : x.collection ≠ "" := by
  have hword : ∀ {p : Char → Bool} {cs : List Char} {w : List Char × List Char},
      RepeatExpression.word? p cs = some w → w.1 ≠ [] := by
    intro p cs w hw
    unfold RepeatExpression.word? at hw
    split at hw
    · cases hw
    · rename_i w' hne
      cases hw
      exact hne
  simp only [RepeatExpression.parse?, Option.bind_eq_bind, Option.bind_eq_some_iff] at h
  obtain ⟨_, _, _, _, _, _, _, _, ⟨w, rest⟩, hw, hx⟩ := h
  split at hx
  · cases hx
    intro hempty
    exact hword hw (String.ofList_eq_empty_iff.1 hempty)
  · cases hx

theorem path_ne_nil_of_mem_textPieces {t : String} {path : List Char}
    (h : Piece.slot path ∈ textPieces t) : path ≠ [] := by
  unfold textPieces at h
  split at h
  · simp at h
  · exact path_ne_nil_of_mem_pieces h

/-- The parts of a text have no empty paths. -/
theorem named_textPieces {c : NodeId} {span : Option Span} {ids : List NodeId} {t : String} {x : Part}
    (hx : x ∈ ids.zipWith (Piece.part c span) (textPieces t)) : x.Named := by
  obtain ⟨i, p, hp, rfl⟩ := exists_piece hx
  cases p with
  | literal cs => trivial
  | slot path => exact fun h => path_ne_nil_of_mem_textPieces hp (String.ofList_eq_empty_iff.1 h)

/-- What is laid out has no empty paths. -/
theorem Laid.named {ts : List Placed} {ms : List Mold} (h : Laid mark scope pattern ts ms)
    (c : NodeId) : ∀ x ∈ Mold.partsAll c ms, x.Named := by
  induction h generalizing c with
  | nil =>
      intro x hx
      cases hx
  | text id t span ids hids _ ih =>
      rw [partsAll_pieces]
      intro x hx
      rcases List.mem_append.1 hx with hx | hx
      · exact named_textPieces hx
      · exact ih c x hx
  | leaf id span ht he _ ih =>
      rw [Mold.partsAll_still]
      intro x hx
      rcases List.mem_cons.1 hx with rfl | hx
      · trivial
      · exact ih c x hx
  | plain id span he _ _ ihcs ih =>
      rw [Mold.partsAll_still]
      intro x hx
      rcases List.mem_cons.1 hx with rfl | hx
      · trivial
      · rcases List.mem_append.1 hx with hx | hx
        · exact ihcs id x hx
        · exact ih c x hx
  | marked id span he _ ih =>
      rw [Mold.partsAll_each]
      intro x hx
      rcases List.mem_cons.1 hx with rfl | hx
      · exact collection_ne_empty (parse?_of_repeat? he)
      · exact ih c x hx

/-! ### Slots -/

/-- **Slots are those of nodes, or belong to places.** -/
theorem perm_occupied (foot : ScopeId → List NodeId) (c : NodeId) (ms : List Mold) :
    ((Mold.partsAll c ms).flatMap (Part.ids foot)).Perm
      (Mold.bareIds ms ++ (Mold.spots (Mold.partsAll c ms)).flatMap fun a => foot a.scope) := by
  induction ms using Mold.forest_induction generalizing c with
  | nil => simp [Mold.partsAll, Mold.bareIds, Mold.placedAll, Mold.spots]
  | still id kind span items rest ihitems ihrest =>
      have hids : Mold.bareIds (.still id kind span items :: rest) =
          id :: (Mold.bareIds items ++ Mold.bareIds rest) := by
        simp [Mold.bareIds, Mold.placedAll, Mold.placed]
      rw [spots_still, Mold.partsAll_still, List.flatMap_cons, List.flatMap_append,
        List.flatMap_append, hids, Part.ids, List.cons_append, List.nil_append, List.cons_append]
      refine List.Perm.cons id (((ihitems id).append (ihrest c)).trans ?_)
      -- the places of the items move behind the nodes of the siblings
      simp only [List.append_assoc]
      exact List.Perm.append_left _ (List.perm_append_comm_assoc ..)
  | slot id span path rest ih =>
      have hids : Mold.bareIds (.slot id span path :: rest) = id :: Mold.bareIds rest := by
        simp [Mold.bareIds, Mold.placedAll, Mold.placed]
      rw [Mold.partsAll_slot, List.flatMap_cons, hids, Part.ids, List.cons_append]
      exact List.Perm.cons id (ih c)
  | each x s pattern rest _ ih =>
      rw [Mold.partsAll_each, List.flatMap_cons]
      refine ((ih c).append_left _).trans ?_
      have hspots : Mold.spots (.each ⟨x, s, pattern, c, Mold.anchor rest, Mold.run rest⟩ ::
          Mold.partsAll c rest) = ⟨x, s, pattern, c, Mold.anchor rest, Mold.run rest⟩ ::
            Mold.spots (Mold.partsAll c rest) := rfl
      rw [hspots, List.flatMap_cons]
      exact List.perm_append_comm_assoc ..

/-- The document has the parts of molds if it has their nodes. -/
theorem holds_partsAll {d : Document} {c : NodeId} {ms : List Mold}
    (h : ∀ t ∈ Mold.bareAll ms, d.Holds (some c) t) :
    ∀ x ∈ Mold.partsAll c ms, x.Holds d (fun _ => []) (fun _ => []) := by
  induction ms using Mold.forest_induction generalizing c with
  | nil =>
      intro x hx
      cases hx
  | still id kind span items rest ihitems ihrest =>
      rw [Mold.partsAll_still]
      have hnode := h _ (List.mem_cons_self ..)
      intro x hx
      rcases List.mem_cons.1 hx with rfl | hx
      · rw [Part.holds_still_iff, ← Mold.map_id_placedAll fun _ => ""]
        exact hnode.get?
      · rcases List.mem_append.1 hx with hx | hx
        · exact ihitems (fun t ht => hnode.child ht) x hx
        · exact ihrest (fun t ht => h t (List.mem_append_right _ ht)) x hx
  | slot id span path rest ih =>
      rw [Mold.partsAll_slot]
      intro x hx
      rcases List.mem_cons.1 hx with rfl | hx
      · exact ⟨"", (h _ (List.mem_cons_self ..)).get?⟩
      · exact ih (fun t ht => h t (List.mem_append_right _ ht)) x hx
  | each x s pattern rest _ ih =>
      rw [Mold.partsAll_each]
      intro y hy
      rcases List.mem_cons.1 hy with rfl | hy
      · intro t ht
        cases ht
      · exact ih (fun t ht => h t (List.mem_append_right _ ht)) y hy

/-! ### What is laid out is settled -/

/-- Related lists have the same image if related members do. -/
theorem map_eq_of_forall₂ {α β γ : Type} {R : α → β → Prop} {l : List α} {l' : List β}
    (h : List.Forall₂ R l l') {f : α → γ} {g : β → γ} (hfg : ∀ a ∈ l, ∀ b, R a b → g b = f a) :
    l'.map g = l.map f := by
  induction h with
  | nil => rfl
  | cons hab _ ih =>
      rw [List.map_cons, List.map_cons, hfg _ (List.mem_cons_self ..) _ hab,
        ih fun a ha => hfg a (List.mem_cons_of_mem _ ha)]

theorem exists_of_mem_forall₂ {α β : Type} {R : α → β → Prop} {l : List α} {l' : List β}
    (h : List.Forall₂ R l l') {b : β} (hb : b ∈ l') : ∃ a ∈ l, R a b := by
  induction h with
  | nil => cases hb
  | cons hab _ ih =>
      rcases List.mem_cons.1 hb with rfl | hb
      · exact ⟨_, List.mem_cons_self .., hab⟩
      · obtain ⟨a, ha, h⟩ := ih hb
        exact ⟨a, List.mem_cons_of_mem _ ha, h⟩

/-- The directive of a repeated element, without copies. -/
def Mark.toRepeat (mark : String) (scope : NodeId → ScopeId) (out : List NodeId) (m : Mark) :
    Repeat :=
  ⟨(m.element.repeat? mark).getD ⟨"", ""⟩, scope m.id, m.id, m.container,
    m.later.find? (· ∉ out), []⟩

/-- The pattern of a repeated element is bound to its scope, which is below the scope `s`. -/
structure Mark.Bound (f : Scopes) (d : Document) (s : ScopeId) (scope : NodeId → ScopeId)
    (pattern : NodeId → Mold) (inner : ScopeId → List NodeId) (m : Mark) : Prop where
  id : (pattern m.id).id = m.id
  settled : Settled f d none (scope m.id) (pattern m.id) (inner (scope m.id))
  lt : s < scope m.id
  scope : ∃ sc, f.get? (scope m.id) = some sc ∧ sc.parent = some s ∧ sc.data = .object []

theorem foot_of_no_copies (inner : ScopeId → List NodeId) :
    foot (fun _ => []) (fun _ => []) inner = inner := by
  funext s
  simp [foot]

/-- The slots of a level without copies are those of its nodes, and those of the patterns. -/
theorem perm_occupied_level (p : Option NodeId) (id : NodeId) (kind : NodeKind) (span : Option Span)
    (ms : List Mold) (inner : ScopeId → List NodeId) :
    (occupied (Mold.level p id kind span ms) (fun _ => []) (fun _ => []) inner).Perm
      (id :: (Mold.bareIds ms ++
        (Mold.spots (Mold.partsAll id ms)).flatMap fun a => inner a.scope)) := by
  rw [occupied, foot_of_no_copies, Mold.level, List.flatMap_cons, Part.ids]
  exact List.Perm.cons id (perm_occupied inner id ms)

/-- A level without copies is in a document that has its nodes, if no two slots are the same. -/
theorem level_of_holds {d : Document} {p : Option NodeId} {id : NodeId} {kind : NodeKind}
    {span : Option Span} {ms : List Mold} {inner : ScopeId → List NodeId}
    (hget : d.get? id = some ⟨kind, p, (Mold.bareAll ms).map Placed.id, span⟩)
    (hbare : ∀ t ∈ Mold.bareAll ms, d.Holds (some id) t)
    (hn : (occupied (Mold.level p id kind span ms) (fun _ => []) (fun _ => []) inner).Nodup)
    (hlive : ∀ a, Part.each a ∈ Mold.level p id kind span ms → ∀ i ∈ inner a.scope,
      ∃ n, d.get? i = some n) :
    Level d (Mold.level p id kind span ms) (fun _ => []) (fun _ => []) inner := by
  refine ⟨fun x hx => ?_, hn, hlive⟩
  rcases List.mem_cons.1 hx with rfl | hx
  · rw [Part.holds_still_iff, ← Mold.map_id_placedAll fun _ => ""]
    exact hget
  · exact holds_partsAll hbare x hx

/-- **What is laid out is settled.** -/
theorem Laid.settled {f : Scopes} {d : Document} {p : Option NodeId} {s : ScopeId} {id : NodeId}
    {kind : NodeKind} {span : Option Span} {ts : List Placed} {ms : List Mold} {sc : Scope}
    {out : List NodeId} {inner : ScopeId → List NodeId} (h : Laid mark scope pattern ts ms)
    (hget : d.get? id = some ⟨kind, p, (Mold.bareAll ms).map Placed.id, span⟩)
    (hbare : ∀ t ∈ Mold.bareAll ms, d.Holds (some id) t) (hscope : f.get? s = some sc)
    (hslots : sc.slots = .ofList (slotList (Mold.partsAll id ms)))
    (hout : ∀ m ∈ marksAll mark id ts, m.id ∈ out)
    (hin : ∀ i ∈ (pruneAll mark ts).flatMap Placed.ids, i ∉ out)
    (hrepeats : sc.repeats = (marksAll mark id ts).map (Mark.toRepeat mark scope out))
    (hn : (id :: (Mold.bareIds ms ++
      (marksAll mark id ts).flatMap fun m => inner (scope m.id))).Nodup)
    (hscopes : ((marksAll mark id ts).flatMap fun m => scope m.id :: (pattern m.id).scopes).Nodup)
    (hmarks : ∀ m ∈ marksAll mark id ts, m.Bound f d s scope pattern inner) :
    ∃ ys, Settled f d p s (.still id kind span ms) ys ∧ ys.Perm (id :: (Mold.bareIds ms ++
      (marksAll mark id ts).flatMap fun m => inner (scope m.id))) := by
  have hspots := h.spots hout hin
  have hat : ∀ a, Part.each a ∈ Mold.level p id kind span ms →
      ∃ m ∈ marksAll mark id ts, m.At mark scope pattern out a := by
    intro a ha
    rcases List.mem_cons.1 ha with ha | ha
    · cases ha
    · exact exists_of_mem_forall₂ hspots (Mold.mem_spots.2 ha)
  have hinner : ((Mold.spots (Mold.partsAll id ms)).flatMap fun a => inner a.scope) =
      (marksAll mark id ts).flatMap fun m => inner (scope m.id) := by
    have hmap := map_eq_of_forall₂ (f := fun m => inner (scope m.id))
      (g := fun a => inner a.scope) hspots fun m _ a ha => by rw [ha.scope]
    rw [List.flatMap_def, hmap, ← List.flatMap_def]
  have hperm := perm_occupied_level p id kind span ms inner
  rw [hinner] at hperm
  have hlevel : Level d (Mold.level p id kind span ms) (fun _ => []) (fun _ => []) inner := by
    refine level_of_holds hget hbare (hperm.nodup_iff.2 hn) fun a ha i hi => ?_
    obtain ⟨m, hm, hma⟩ := hat a ha
    rw [hma.scope] at hi
    exact (hmarks m hm).settled.live hi
  refine ⟨_, .intro hscope ?_ ?_ hlevel (fun x hx => ?_) ?_ (fun a ha => ?_) (fun a ha => ?_), hperm⟩
  · rw [hslots]
    rfl
  · rw [hrepeats]
    refine (map_eq_of_forall₂ hspots fun m hm a ha => ?_).symm
    rw [Spot.toRepeat, Mark.toRepeat, ha.expression, ha.scope, ha.pattern, (hmarks m hm).id,
      ha.container, ha.anchor]
    rfl
  · rcases List.mem_cons.1 hx with rfl | hx
    · trivial
    · exact h.named id x hx
  · rw [h.scopesAll id]
    exact hscopes
  · obtain ⟨m, hm, hma⟩ := hat a ha
    obtain ⟨sc, hsc, hparent, hdata⟩ := (hmarks m hm).scope
    refine ⟨hma.scope ▸ (hmarks m hm).lt, sc, ?_, hparent, [], hdata, .inl rfl⟩
    rw [hma.scope, hsc]
  · obtain ⟨m, hm, hma⟩ := hat a ha
    rw [hma.scope, hma.pattern]
    exact (hmarks m hm).settled

end PageTemplate.Binding
