/-
**Molds that are bound.**

A mold is settled in a document and its scopes if every place has the copies that its directive lists,
each node of the mold and of its patterns is where it belongs, and the scope of each pattern is below
the one that its directive belongs to.  Compiling makes this so, and rendering keeps it so, whatever
the data are.

Main definitions:

* `PageTemplate.Binding.Slots.ofList` — slots listed one by one;
* `PageTemplate.Binding.Linked` — the scope of a place is below that of the mold;
* `PageTemplate.Binding.Settled` — a mold is bound to a scope, and occupies some slots;
* `PageTemplate.Binding.Scopes.Keeps` — scopes after some of them have changed.

Main results:

* `PageTemplate.Binding.Settled.congr` — only the slots and the scopes of a mold are read;
* `PageTemplate.Binding.Level.renamed` — new copies can be taken for old ones;
* `PageTemplate.Binding.get?_fill_of_mem` — what filling leaves in a slot.
-/

import PageTemplate.Proofs.Binding.Level

set_option relaxedAutoImplicit false
set_option autoImplicit false

namespace PageTemplate.Binding

open PageTemplate.Data PageTemplate.Text

/-! ### Slots -/

namespace Slots

/-- The slots of a list of paths with their nodes. -/
def ofList (l : List (String × NodeId)) : Slots :=
  l.foldl (fun s p => s.add p.1 p.2) .empty

/-- The paths with their nodes, one by one. -/
def pairs (s : Slots) : List (String × NodeId) :=
  s.entries.flatMap fun e => e.2.map fun node => (e.1, node)

theorem mem_pairs_add (s : Slots) (path : String) (node : NodeId) (x : String × NodeId) :
    x ∈ (s.add path node).pairs ↔ x = (path, node) ∨ x ∈ s.pairs := by
  obtain ⟨entries⟩ := s
  simp only [pairs, add]
  induction entries with
  | nil => simp [addTo]
  | cons e rest ih =>
      obtain ⟨p, nodes⟩ := e
      rw [addTo]
      by_cases hp : p = path
      · subst hp
        simp only [↓reduceIte, List.flatMap_cons, List.map_append, List.mem_append, List.map_cons,
          List.map_nil, List.mem_singleton]
        grind
      · simp only [hp, ↓reduceIte, List.flatMap_cons, List.mem_append, ih]
        grind

theorem mem_pairs_foldl (l : List (String × NodeId)) (s : Slots) (x : String × NodeId) :
    x ∈ (l.foldl (fun s p => s.add p.1 p.2) s).pairs ↔ x ∈ l ∨ x ∈ s.pairs := by
  induction l generalizing s with
  | nil => simp
  | cons p l ih =>
      rw [List.foldl_cons, ih, mem_pairs_add, List.mem_cons]
      grind

theorem mem_pairs_ofList {l : List (String × NodeId)} {x : String × NodeId} :
    x ∈ (ofList l).pairs ↔ x ∈ l := by
  rw [ofList, mem_pairs_foldl]
  simp [pairs, empty]

/-- To fill slots is to show one after the other. -/
theorem fill_eq_foldl (s : Slots) (value : String → Option Value) (d : Document) :
    s.fill value d = s.pairs.foldl (fun d p => showIn d p.2 (value p.1)) d := by
  rw [fill, pairs, List.foldl_flatMap]
  simp only [List.foldl_map]

end Slots

section Fill

variable {value : String → Option Value} {d : Document} {l : List (String × NodeId)}

theorem get?_foldl_showIn_of_notMem {x : NodeId} (hx : x ∉ l.map Prod.snd) :
    (l.foldl (fun d p => showIn d p.2 (value p.1)) d).get? x = d.get? x := by
  induction l generalizing d with
  | nil => rfl
  | cons p l ih =>
      rw [List.map_cons, List.mem_cons, not_or] at hx
      rw [List.foldl_cons, ih hx.2, showIn, Document.get?_setText_of_ne hx.1]

theorem get?_foldl_showIn {path : String} {x : NodeId}
    (hl : ∀ path', (path', x) ∈ l → path' = path) (hx : (path, x) ∈ l) {t : String}
    {p : Option NodeId} {cs : List NodeId} {span : Option Span}
    (hget : d.get? x = some ⟨.text t, p, cs, span⟩) :
    (l.foldl (fun d p => showIn d p.2 (value p.1)) d).get? x =
      some ⟨.text (display (value path)), p, cs, span⟩ := by
  induction l generalizing d t with
  | nil => simp at hx
  | cons y l ih =>
      obtain ⟨path', i⟩ := y
      rw [List.foldl_cons]
      by_cases hi : i = x
      · subst hi
        have hpath : path' = path := hl path' (List.mem_cons_self ..)
        subst hpath
        have hshown := Document.get?_setText_self hget (display (value path'))
        by_cases hmem : i ∈ l.map Prod.snd
        · obtain ⟨⟨other, i'⟩, hother, hi'⟩ := List.mem_map.1 hmem
          obtain rfl : i' = i := hi'
          have hpath := hl other (List.mem_cons_of_mem _ hother)
          subst hpath
          exact ih (fun path' h => hl path' (List.mem_cons_of_mem _ h)) hother hshown
        · rw [get?_foldl_showIn_of_notMem hmem]
          exact hshown
      · have hmem : (path, x) ∈ l := by
          rcases List.mem_cons.1 hx with h | h
          · cases h
            exact absurd rfl hi
          · exact h
        refine ih (fun path' h => hl path' (List.mem_cons_of_mem _ h)) hmem (t := t) ?_
        rw [showIn, Document.get?_setText_of_ne (Ne.symm hi), hget]

theorem sound_foldl_showIn (h : d.Sound) :
    (l.foldl (fun d p => showIn d p.2 (value p.1)) d).Sound := by
  induction l generalizing d with
  | nil => exact h
  | cons p l ih => exact ih (h.setText _ _)

/-- A node that is no slot is left alone. -/
theorem get?_fill_of_notMem {x : NodeId} (hx : x ∉ l.map Prod.snd) :
    ((Slots.ofList l).fill value d).get? x = d.get? x := by
  rw [Slots.fill_eq_foldl, get?_foldl_showIn_of_notMem]
  intro hmem
  obtain ⟨p, hp, rfl⟩ := List.mem_map.1 hmem
  exact hx (List.mem_map.2 ⟨p, Slots.mem_pairs_ofList.1 hp, rfl⟩)

/-- **A slot shows the value of its path.** -/
theorem get?_fill_of_mem (hl : (l.map Prod.snd).Nodup) {path : String} {x : NodeId}
    (hx : (path, x) ∈ l) {t : String} {p : Option NodeId} {cs : List NodeId}
    {span : Option Span} (hget : d.get? x = some ⟨.text t, p, cs, span⟩) :
    ((Slots.ofList l).fill value d).get? x =
      some ⟨.text (display (value path)), p, cs, span⟩ := by
  rw [Slots.fill_eq_foldl]
  refine get?_foldl_showIn (fun path' h => ?_) (Slots.mem_pairs_ofList.2 hx) hget
  have h' := Slots.mem_pairs_ofList.1 h
  exact congrArg Prod.fst (List.inj_on_of_nodup_map hl h' hx rfl)

theorem sound_fill (h : d.Sound) : ((Slots.ofList l).fill value d).Sound := by
  rw [Slots.fill_eq_foldl]
  exact sound_foldl_showIn h

end Fill

/-! ### Scopes -/

/-- The scopes `g` are the scopes `f`, where only those of a list have changed. -/
structure Scopes.Keeps (f g : Scopes) (ss : List ScopeId) : Prop where
  size : g.entries.size = f.entries.size
  get? : ∀ x, x ∉ ss → g.get? x = f.get? x

theorem Scopes.Keeps.refl (f : Scopes) (ss : List ScopeId) : f.Keeps f ss := ⟨rfl, fun _ _ => rfl⟩

theorem Scopes.Keeps.trans {f g h : Scopes} {ss : List ScopeId} (hfg : f.Keeps g ss)
    (hgh : g.Keeps h ss) : f.Keeps h ss where
  size := hgh.size.trans hfg.size
  get? x hx := (hgh.get? x hx).trans (hfg.get? x hx)

theorem Scopes.Keeps.mono {f g : Scopes} {ss ts : List ScopeId} (h : f.Keeps g ss)
    (hst : ∀ x ∈ ss, x ∈ ts) : f.Keeps g ts where
  size := h.size
  get? x hx := h.get? x fun hxs => hx (hst x hxs)

theorem Scopes.keeps_update (f : Scopes) (s : ScopeId) (g : Scope → Scope) :
    f.Keeps (f.update s g) [s] where
  size := by simp [Scopes.update]
  get? x hx := by
    rw [List.mem_singleton] at hx
    rw [Scopes.get?_update, if_neg hx]

/-- The scope of a place is below the scope `s`, and has at most the item that it names. -/
structure Linked (f : Scopes) (s : ScopeId) (a : Spot) : Prop where
  lt : s < a.scope
  scope : ∃ scope, f.get? a.scope = some scope ∧ scope.parent = some s ∧
    ∃ fields, scope.data = .object fields ∧ (fields = [] ∨ ∃ v, fields = [(a.expression.item, v)])

theorem Linked.congr {f g : Scopes} {s : ScopeId} {a : Spot} (h : Linked f s a)
    (hg : g.get? a.scope = f.get? a.scope) : Linked g s a := by
  refine ⟨h.lt, ?_⟩
  rw [hg]
  exact h.scope

/-! ### Bound molds -/

/-- The directive of a place with its copies. -/
def Spot.toRepeat (copies : ScopeId → List Placed) (a : Spot) : Repeat :=
  ⟨a.expression, a.scope, a.pattern.id, a.container, a.anchor, (copies a.scope).map Placed.id⟩

/-- The paths of slots and collections are not empty. -/
def Part.Named : Part → Prop
  | slot _ _ _ path => path ≠ ""
  | each a => a.expression.collection ≠ ""
  | still _ _ _ _ _ => True

/-- The paths and the nodes of the slots among parts. -/
def slotList (ps : List Part) : List (String × NodeId) := ps.filterMap Part.slot?

theorem mem_slotList {ps : List Part} {path : String} {id : NodeId} :
    (path, id) ∈ slotList ps ↔ ∃ p span, Part.slot p id span path ∈ ps := by
  rw [slotList, List.mem_filterMap]
  constructor
  · rintro ⟨x, hx, h⟩
    cases x with
    | still _ _ _ _ _ => cases h
    | slot p i span path' =>
        cases h
        exact ⟨p, span, hx⟩
    | each _ => cases h
  · rintro ⟨p, span, h⟩
    exact ⟨_, h, rfl⟩

/-- A mold is bound to the scope `s` in a document, below the given parent, and occupies the slots
of a list. -/
inductive Settled (f : Scopes) (d : Document) :
    Option NodeId → ScopeId → Mold → List NodeId → Prop
  | intro {p : Option NodeId} {s : ScopeId} {id : NodeId} {kind : NodeKind} {span : Option Span}
      {items : List Mold} {scope : Scope} {copies : ScopeId → List Placed}
      {inner : ScopeId → List NodeId} (hscope : f.get? s = some scope)
      (hslots : scope.slots = .ofList (slotList (Mold.level p id kind span items)))
      (hrepeats : scope.repeats =
        (Mold.spots (Mold.level p id kind span items)).map (Spot.toRepeat copies))
      (level : Level d (Mold.level p id kind span items) (fun _ => []) copies inner)
      (named : ∀ x ∈ Mold.level p id kind span items, x.Named)
      (scopes : (Mold.scopesAll items).Nodup)
      (linked : ∀ a, Part.each a ∈ Mold.level p id kind span items → Linked f s a)
      (settled : ∀ a, Part.each a ∈ Mold.level p id kind span items →
        Settled f d none a.scope a.pattern (inner a.scope)) :
      Settled f d p s (.still id kind span items)
        (occupied (Mold.level p id kind span items) (fun _ => []) copies inner)

variable {f g : Scopes} {d e : Document} {p : Option NodeId} {s : ScopeId} {m : Mold}
  {xs : List NodeId}

/-- The scopes of the parts of a mold are those of its items. -/
theorem flatMap_scopes_level (p : Option NodeId) (id : NodeId) (kind : NodeKind)
    (span : Option Span) (items : List Mold) :
    (Mold.level p id kind span items).flatMap Part.scopes = Mold.scopesAll items := by
  rw [Mold.level, List.flatMap_cons, Mold.flatMap_scopes_partsAll]
  rfl

/-- The scopes of the items of a mold are those of its places. -/
theorem mem_scopesAll_iff (p : Option NodeId) (id : NodeId) (kind : NodeKind) (span : Option Span)
    {items : List Mold} {x : ScopeId} : x ∈ Mold.scopesAll items ↔
      ∃ a, Part.each a ∈ Mold.level p id kind span items ∧ x ∈ a.scope :: a.pattern.scopes := by
  rw [← flatMap_scopes_level p id kind span items, List.mem_flatMap]
  constructor
  · rintro ⟨y, hy, hx⟩
    cases y with
    | still _ _ _ _ _ => simp [Part.scopes] at hx
    | slot _ _ _ _ => simp [Part.scopes] at hx
    | each a => exact ⟨a, hy, hx⟩
  · rintro ⟨a, ha, hx⟩
    exact ⟨_, ha, hx⟩

theorem mem_scopesAll_of_each {a : Spot} {id : NodeId} {kind : NodeKind} {span : Option Span}
    {items : List Mold} (ha : Part.each a ∈ Mold.level p id kind span items) {x : ScopeId}
    (hx : x ∈ a.scope :: a.pattern.scopes) : x ∈ Mold.scopesAll items :=
  (mem_scopesAll_iff p id kind span).2 ⟨a, ha, hx⟩

/-- The slots of a settled mold are live. -/
theorem Settled.live (h : Settled f d p s m xs) {i : NodeId} (hi : i ∈ xs) :
    ∃ n, d.get? i = some n := by
  cases h with
  | intro _ _ _ level _ _ _ _ =>
      obtain ⟨x, hx, hix⟩ := List.mem_flatMap.1 hi
      exact level.exists_get? hx hix

theorem Settled.nodup (h : Settled f d p s m xs) : xs.Nodup := by
  cases h with
  | intro _ _ _ level _ _ _ _ => exact level.nodup

/-- The scopes of patterns come after the scope of the mold. -/
theorem Settled.lt (h : Settled f d p s m xs) {x : ScopeId} (hx : x ∈ m.scopes) : s < x := by
  induction h with
  | @intro p s id kind span items _ _ _ _ _ _ _ _ _ linked _ ih =>
      rw [Mold.scopes] at hx
      obtain ⟨a, ha, hx⟩ := (mem_scopesAll_iff p id kind span).1 hx
      have hlt := (linked a ha).lt
      rcases List.mem_cons.1 hx with rfl | hx
      · exact hlt
      · exact Nat.lt_trans hlt (ih a ha hx)

/-- What a document has for a part depends on the slots of the part. -/
theorem Part.Holds.congr {gone new : ScopeId → List Placed} {inner : ScopeId → List NodeId}
    {x : Part} (h : x.Holds d gone new)
    (he : ∀ i ∈ x.ids (foot gone new inner), e.get? i = d.get? i) : x.Holds e gone new := by
  cases x with
  | still p id kind span items =>
      obtain ⟨cs, hget, hcs⟩ := h
      exact ⟨cs, by rw [he id (by simp [Part.ids]), hget], hcs⟩
  | slot p id span path =>
      obtain ⟨t, hget⟩ := h
      exact ⟨t, by rw [he id (by simp [Part.ids]), hget]⟩
  | each a =>
      intro t ht
      exact (h t ht).congr fun i hi =>
        he i (List.mem_append_left _ (List.mem_flatMap.2 ⟨t, ht, hi⟩))

theorem Level.congr {ps : List Part} {gone new : ScopeId → List Placed}
    {inner : ScopeId → List NodeId} (h : Level d ps gone new inner)
    (he : ∀ i ∈ occupied ps gone new inner, e.get? i = d.get? i) : Level e ps gone new inner where
  holds x hx := (h.holds x hx).congr fun i hi => he i (List.mem_flatMap.2 ⟨x, hx, hi⟩)
  nodup := h.nodup
  live a ha i hi := by
    obtain ⟨n, hn⟩ := h.live a ha i hi
    have hmem : i ∈ (Part.each a).ids (foot gone new inner) := List.mem_append_right _ hi
    exact ⟨n, by rw [he i (List.mem_flatMap.2 ⟨_, ha, hmem⟩), hn]⟩

/-- **Only the slots and the scopes of a mold are read.** -/
theorem Settled.congr (h : Settled f d p s m xs) (he : ∀ i ∈ xs, e.get? i = d.get? i)
    (hg : ∀ x ∈ m.scopes, g.get? x = f.get? x)
    (hs : ∀ scope, f.get? s = some scope → ∃ scope', g.get? s = some scope' ∧
      scope'.slots = scope.slots ∧ scope'.repeats = scope.repeats) : Settled g e p s m xs := by
  induction h with
  | @intro p s id kind span items scope copies inner hscope hslots hrepeats level named scopes
      linked settled ih =>
      obtain ⟨scope', hscope', hslots', hrepeats'⟩ := hs scope hscope
      have hmem : ∀ a, Part.each a ∈ Mold.level p id kind span items →
          ∀ x ∈ a.scope :: a.pattern.scopes, g.get? x = f.get? x :=
        fun a ha x hx => hg x (by simpa [Mold.scopes] using mem_scopesAll_of_each ha hx)
      refine .intro hscope' (hslots'.trans hslots) (hrepeats'.trans hrepeats) (level.congr he) named
        scopes (fun a ha => (linked a ha).congr (hmem a ha _ (List.mem_cons_self ..)))
        fun a ha => ih a ha (fun i hi => ?_) (fun x hx => ?_) fun scope hscope => ?_
      · have hi' : i ∈ (Part.each a).ids (foot (fun _ => []) copies inner) :=
          List.mem_append_right _ hi
        exact he i (List.mem_flatMap.2 ⟨_, ha, hi'⟩)
      · exact hmem a ha x (List.mem_cons_of_mem _ hx)
      · exact ⟨scope, by rw [hmem a ha _ (List.mem_cons_self ..), hscope], rfl, rfl⟩

/-! ### Old copies and new ones -/

/-- Parts occupy the same slots if their places have the same copies. -/
theorem occupied_congr {ps : List Part} {gone new gone' new' : ScopeId → List Placed}
    {inner : ScopeId → List NodeId}
    (hc : ∀ a, Part.each a ∈ ps → gone' a.scope = gone a.scope ∧ new' a.scope = new a.scope) :
    occupied ps gone' new' inner = occupied ps gone new inner := by
  refine List.flatMap_congr fun x hx => ?_
  cases x with
  | still _ _ _ _ _ => rfl
  | slot _ _ _ _ => rfl
  | each a => rw [Part.ids, Part.ids, foot, foot, (hc a hx).1, (hc a hx).2]

/-- It does not matter for the slots whether copies are old or new. -/
theorem occupied_renamed (ps : List Part) (copies : ScopeId → List Placed)
    (inner : ScopeId → List NodeId) :
    occupied ps copies (fun _ => []) inner = occupied ps (fun _ => []) copies inner := by
  have hfoot : foot copies (fun _ => []) inner = foot (fun _ => []) copies inner := by
    funext s
    simp [foot]
  rw [occupied, hfoot]

/-- Only what is listed for the places of a level matters. -/
theorem Level.congr_copies {q : Option NodeId} {j : NodeId} {k : NodeKind} {sp : Option Span}
    {ms : List Mold} {gone new gone' new' : ScopeId → List Placed}
    {inner : ScopeId → List NodeId} (h : Level d (Mold.level q j k sp ms) gone new inner)
    (hc : ∀ a, Part.each a ∈ Mold.level q j k sp ms →
      gone' a.scope = gone a.scope ∧ new' a.scope = new a.scope) :
    Level d (Mold.level q j k sp ms) gone' new' inner := by
  have hitems : ∀ p id kind span items,
      Part.still p id kind span items ∈ Mold.level q j k sp ms → ∀ x s pattern,
      Mold.each x s pattern ∈ items → gone' s = gone s ∧ new' s = new s := by
    intro p id kind span items hx x s pattern hm
    obtain ⟨a, ha, rfl, _⟩ := Mold.each_of_mem (c := id) hm
    exact hc a ((Mold.level_sublist hx).subset ha)
  refine ⟨fun x hx => ?_, ?_, h.live⟩
  · cases x with
    | still p id kind span items =>
        obtain ⟨cs, hget, hcs⟩ := h.holds _ hx
        refine ⟨cs, hget, ?_⟩
        have hheads : items.flatMap (Mold.heads new') = items.flatMap (Mold.heads new) := by
          refine List.flatMap_congr fun m hm => ?_
          cases m with
          | still _ _ _ _ => rfl
          | slot _ _ _ => rfl
          | each x s pattern =>
              simp only [Mold.heads, (hitems _ _ _ _ _ hx x s pattern hm).2]
        have hcopies : items.flatMap (Mold.copyHeads gone') =
            items.flatMap (Mold.copyHeads gone) := by
          refine List.flatMap_congr fun m hm => ?_
          cases m with
          | still _ _ _ _ => rfl
          | slot _ _ _ => rfl
          | each x s pattern =>
              simp only [Mold.copyHeads, (hitems _ _ _ _ _ hx x s pattern hm).1]
        rw [hheads, hcopies, hcs]
    | slot p id span path => exact h.holds _ hx
    | each a =>
        intro t ht
        rw [(hc a hx).1, (hc a hx).2] at ht
        exact h.holds _ hx t ht
  · rw [occupied_congr hc]
    exact h.nodup

/-- **New copies can be taken for old ones**, which will be removed. -/
theorem Level.renamed {q : Option NodeId} {j : NodeId} {k : NodeKind} {sp : Option Span}
    {ms : List Mold} {copies : ScopeId → List Placed} {inner : ScopeId → List NodeId}
    (h : Level d (Mold.level q j k sp ms) (fun _ => []) copies inner) :
    Level d (Mold.level q j k sp ms) copies (fun _ => []) inner := by
  have hnodup := h.nodup
  rw [← occupied_renamed] at hnodup
  refine ⟨fun x hx => ?_, hnodup, h.live⟩
  cases x with
  | slot p id span path => exact h.holds _ hx
  | each a =>
      intro t ht
      exact h.holds _ hx t (by simpa using ht)
  | still p id kind span items =>
      refine ⟨_, Part.holds_still_iff.1 (h.holds _ hx), ?_⟩
      have hnodup := h.nodup_heads hx
      rw [List.filter_flatMap]
      refine List.flatMap_congr fun m hm => ?_
      -- a node that stays is no copy, as it is a different item
      have hstay : ∀ i, m.heads copies = [i] → m.copyHeads copies = [] →
          i ∉ items.flatMap (Mold.copyHeads copies) := by
        intro i hi hcopy hmem
        obtain ⟨m', hm', hi'⟩ := List.mem_flatMap.1 hmem
        have hi'' : i ∈ m'.heads copies := by
          cases m' with
          | still _ _ _ _ => simp [Mold.copyHeads] at hi'
          | slot _ _ _ => simp [Mold.copyHeads] at hi'
          | each _ _ _ => exact hi'
        have := eq_of_nodup_flatMap hnodup hm hm' (by rw [hi]; exact List.mem_singleton_self i) hi''
        subst this
        rw [hcopy] at hi'
        cases hi'
      cases m with
      | still id kind span items' =>
          simp only [Mold.heads]
          rw [List.filter_cons_of_pos]
          · rfl
          · simpa using hstay id rfl rfl
      | slot id span path =>
          simp only [Mold.heads]
          rw [List.filter_cons_of_pos]
          · rfl
          · simpa using hstay id rfl rfl
      | each x s pattern =>
          simp only [Mold.heads, List.map_nil]
          rw [List.filter_eq_nil_iff]
          intro i hi
          have hmem : i ∈ items.flatMap (Mold.copyHeads copies) :=
            List.mem_flatMap.2 ⟨_, hm, hi⟩
          simp [hmem]

end PageTemplate.Binding
