/-
**What a scope binds is what the trees say.**

The summary of a scope can be read off the trees that it is bound to.  The paths are those of the
placeholders in texts that are in no repeated element, each path where it first occurs.  Each repeated
element that is in no other one is a directive, and what its scope binds is the same for the trees below
it.

The scopes of directives come after the scope that these belong to, so the summary of a scope reads them
all.  It does not change while slots and directives stay what they are, whatever becomes of the data.

Main definitions:

* `PageTemplate.Tree.bindingsAll` — the paths of the placeholders in trees, outside repeated elements;
* `PageTemplate.Tree.summaryAll` — what trees bind;
* `PageTemplate.Binding.Scopes.Binds` — a scope and those of its directives bind what a summary says.

Main results:

* `PageTemplate.Binding.Slots.paths_ofList` — the paths of slots are listed where they first occur;
* `PageTemplate.Binding.Scopes.Binds.summary` — what a scope binds is its summary;
* `PageTemplate.Binding.Laid.paths`, `PageTemplate.Binding.Laid.repeats` — the slots and the places of
  what is laid out;
* `PageTemplate.Binding.Settled.binds` — a scope binds what the trees say.
-/

import PageTemplate.Binding.Summary
import PageTemplate.Proofs.Binding.Compiling
import PageTemplate.Proofs.Binding.Placeholders
import PageTemplate.Proofs.Document.Walking

set_option relaxedAutoImplicit false
set_option autoImplicit false

namespace PageTemplate

open PageTemplate.Data PageTemplate.Markup PageTemplate.Text PageTemplate.Binding

/-! ### What trees bind -/

/-- The paths of the placeholders in what a node says, if it is a text. -/
def NodeKind.paths (kind : NodeKind) : List String :=
  (kind.text?.map fun t => (placeholderPaths t).map String.ofList).getD []

/-- The directive of a node, if it is an element that has one. -/
def NodeKind.repeat? (mark : String) (kind : NodeKind) : Option RepeatExpression :=
  kind.element?.bind (·.repeat? mark)

namespace Tree

mutual

/-- The paths of the placeholders in the texts of a tree that are not in a repeated element. -/
def bindings (mark : String) : Tree → List String
  | node kind _ ts => if kind.carries mark then [] else kind.paths ++ bindingsAll mark ts

/-- The same for trees that stand side by side. -/
def bindingsAll (mark : String) : List Tree → List String
  | [] => []
  | t :: ts => bindings mark t ++ bindingsAll mark ts

end

mutual

/-- The directives of a tree that are not inside others, each with what is bound below it. -/
def repeats (mark : String) : Tree → List (RepeatExpression × Summary)
  | node kind _ ts =>
      if kind.carries mark then
        (kind.repeat? mark).toList.map fun x =>
          (x, .mk (bindingsAll mark ts).eraseDups (repeatsAll mark ts))
      else repeatsAll mark ts

/-- The same for trees that stand side by side. -/
def repeatsAll (mark : String) : List Tree → List (RepeatExpression × Summary)
  | [] => []
  | t :: ts => repeats mark t ++ repeatsAll mark ts

end

/-- **What trees side by side bind**: each path once, where it first occurs, and their directives. -/
def summaryAll (mark : String) (ts : List Tree) : Summary :=
  .mk (bindingsAll mark ts).eraseDups (repeatsAll mark ts)

section Equations

variable {mark : String} {kind : NodeKind} {e : Element} (span : Option Span) (cs ts : List Tree)

theorem bindingsAll_cons_of_not_carries (h : kind.carries mark = false) :
    bindingsAll mark (node kind span cs :: ts) =
      kind.paths ++ bindingsAll mark cs ++ bindingsAll mark ts := by
  rw [bindingsAll, bindings, if_neg (by simp [h])]

theorem repeatsAll_cons_of_not_carries (h : kind.carries mark = false) :
    repeatsAll mark (node kind span cs :: ts) = repeatsAll mark cs ++ repeatsAll mark ts := by
  rw [repeatsAll, repeats, if_neg (by simp [h])]

theorem bindingsAll_cons_of_repeat? {x : RepeatExpression} (h : e.repeat? mark = some x) :
    bindingsAll mark (node (.element e) span cs :: ts) = bindingsAll mark ts := by
  rw [bindingsAll, bindings, if_pos, List.nil_append]
  exact hasAttribute_of_repeat? h

theorem repeatsAll_cons_of_repeat? {x : RepeatExpression} (h : e.repeat? mark = some x) :
    repeatsAll mark (node (.element e) span cs :: ts) =
      (x, summaryAll mark cs) :: repeatsAll mark ts := by
  have hx : (NodeKind.element e).repeat? mark = some x := h
  rw [repeatsAll, repeats, if_pos, hx, Option.toList_some, List.map_singleton, List.singleton_append]
  · rfl
  · exact hasAttribute_of_repeat? h

end Equations

end Tree

namespace Binding

/-! ### Paths of slots -/

/-- A new slot adds its path, unless there is one with the same path. -/
theorem Slots.map_addTo (path : String) (node : NodeId) (entries : List (String × List NodeId)) :
    (Slots.addTo path node entries).map (·.1) =
      if path ∈ entries.map (·.1) then entries.map (·.1) else entries.map (·.1) ++ [path] := by
  induction entries with
  | nil => rfl
  | cons e rest ih =>
      obtain ⟨p, nodes⟩ := e
      rw [Slots.addTo]
      by_cases hp : p = path
      · simp [hp]
      · rw [if_neg hp, List.map_cons, ih]
        by_cases hmem : path ∈ rest.map (·.1)
        · simp [hmem]
        · simp [hmem, Ne.symm hp]

theorem Slots.paths_add (s : Slots) (path : String) (node : NodeId) :
    (s.add path node).paths = if path ∈ s.paths then s.paths else s.paths ++ [path] :=
  Slots.map_addTo path node s.entries

theorem eraseDups_append_singleton (l : List String) (a : String) :
    (l ++ [a]).eraseDups = if a ∈ l then l.eraseDups else l.eraseDups ++ [a] := by
  rw [List.eraseDups_append]
  split
  · rename_i h
    simp [List.removeAll, h]
  · rename_i h
    simp [List.removeAll, h, List.eraseDups_cons]

/-- **The paths of slots are listed where they first occur.** -/
theorem Slots.paths_ofList (l : List (String × NodeId)) :
    (Slots.ofList l).paths = (l.map Prod.fst).eraseDups := by
  induction l using List.reverseRecOn with
  | nil => rfl
  | append_singleton l p ih =>
      rw [Slots.ofList_append_singleton, Slots.paths_add, ih, List.map_append, List.map_singleton,
        eraseDups_append_singleton]
      simp only [List.mem_eraseDups]

/-! ### What scopes bind -/

/-- The scope `s` and those of its directives bind what a summary says, and the scopes of directives come
after the scope that these belong to. -/
inductive Scopes.Binds (f : Scopes) : ScopeId → Summary → Prop
  | intro {s : ScopeId} {sc : Scope} {below : ScopeId → Summary} (hget : f.get? s = some sc)
      (hlt : ∀ r ∈ sc.repeats, s < r.scope)
      (h : ∀ r ∈ sc.repeats, Binds f r.scope (below r.scope)) :
      Binds f s (.mk sc.slots.paths (sc.repeats.map fun r => (r.expression, below r.scope)))

variable {f g : Scopes} {s : ScopeId} {S : Summary}

/-- With rounds enough, what a scope binds is read. -/
theorem Scopes.Binds.summaryTo (h : f.Binds s S) {fuel : Nat} (hf : f.entries.size ≤ fuel + s) :
    f.summaryTo fuel s = S := by
  induction h generalizing fuel with
  | @intro s sc below hget hlt _ ih =>
      cases fuel with
      | zero =>
          rw [Nat.zero_add] at hf
          exact absurd (Scopes.lt_size_of_get? hget) (Nat.not_lt.2 hf)
      | succ fuel =>
          have hrepeats : f.repeats s = sc.repeats := by
            rw [Scopes.repeats, hget]
            rfl
          rw [Scopes.summaryTo, hget, hrepeats]
          refine congrArg (Summary.mk sc.slots.paths) (List.map_congr_left fun r hr => ?_)
          have hfuel : f.entries.size ≤ fuel + r.scope :=
            calc f.entries.size ≤ fuel + (s + 1) := by
                  rw [Nat.add_comm s 1, ← Nat.add_assoc]
                  exact hf
              _ ≤ fuel + r.scope := Nat.add_le_add_left (hlt r hr) fuel
          rw [ih r hr hfuel]

/-- **What a scope binds is its summary.** -/
theorem Scopes.Binds.summary (h : f.Binds s S) : f.summary s = S :=
  h.summaryTo (Nat.le_add_right ..)

/-- The scopes `g` have all the scopes `f` as they are. -/
def Scopes.Extends (f g : Scopes) : Prop :=
  ∀ x sc, f.get? x = some sc → g.get? x = some sc

theorem Scopes.Extends.refl (f : Scopes) : f.Extends f := fun _ _ h => h

theorem Scopes.Extends.trans {h : Scopes} (hfg : f.Extends g) (hgh : g.Extends h) : f.Extends h :=
  fun x sc hx => hgh x sc (hfg x sc hx)

/-- What a scope binds does not change when there are more scopes. -/
theorem Scopes.Binds.mono (h : f.Binds s S) (hfg : f.Extends g) : g.Binds s S := by
  induction h with
  | intro hget hlt _ ih => exact .intro (hfg _ _ hget) hlt ih

/-! ### What is laid out -/

section Laid

variable {mark : String} {scope : NodeId → ScopeId} {pattern : NodeId → Mold} {ts : List Placed}
  {ms : List Mold}

/-- The pieces of a text have the paths of its placeholders. -/
theorem filterMap_path?_textPieces (t : String) :
    (textPieces t).filterMap Piece.path? = placeholderPaths t := by
  rw [textPieces, placeholderPaths]
  split
  · rename_i h
    rw [h]
    rfl
  · rfl

theorem slotList_pieces (c : NodeId) (span : Option Span) (ids : List NodeId) (ps : List Piece)
    (h : ids.length = ps.length) :
    (slotList (Mold.partsAll c (ids.zipWith (Piece.mold span) ps))).map Prod.fst =
      (ps.filterMap Piece.path?).map String.ofList := by
  induction ps generalizing ids with
  | nil =>
      rw [List.zipWith_nil_right]
      rfl
  | cons p ps ih =>
      cases ids with
      | nil => cases h
      | cons i ids =>
          rw [List.zipWith_cons_cons, slotList_mold, List.map_append, ih ids (Nat.succ.inj h)]
          cases p <;> rfl

theorem slotList_still (c id : NodeId) (kind : NodeKind) (span : Option Span) (items ms : List Mold) :
    slotList (Mold.partsAll c (.still id kind span items :: ms)) =
      slotList (Mold.partsAll id items) ++ slotList (Mold.partsAll c ms) := by
  rw [Mold.partsAll_still, ← slotList_append]
  exact List.filterMap_cons_none rfl

/-- **The slots of what is laid out** have the paths that the trees bind. -/
theorem Laid.paths (h : Laid mark scope pattern ts ms) (c : NodeId) :
    (slotList (Mold.partsAll c ms)).map Prod.fst = Tree.bindingsAll mark (ts.map Placed.tree) := by
  induction h generalizing c with
  | nil => rfl
  | @text id t span ids rest ms hids _ ih =>
      rw [Mold.partsAll_append_slots, List.map_append, ih c, List.map_cons, Placed.tree_node,
        slotList_pieces c span (id :: ids) _ hids, filterMap_path?_textPieces,
        Tree.bindingsAll_cons_of_not_carries _ _ _ rfl, List.map_nil, Tree.bindingsAll,
        List.append_nil]
      rfl
  | @leaf id kind span rest ms ht he _ ih =>
      have hpaths : kind.paths = [] := by
        rw [NodeKind.paths, ht]
        rfl
      have hcarries : kind.carries mark = false := by
        rw [NodeKind.carries, he]
        rfl
      rw [slotList_still, List.map_append, ih c, List.map_cons, Placed.tree_node,
        Tree.bindingsAll_cons_of_not_carries _ _ _ hcarries, hpaths, List.map_nil, Tree.bindingsAll]
      rfl
  | @plain id e span cs rest items ms he _ _ ihcs ih =>
      have hcarries : (NodeKind.element e).carries mark = false := he
      rw [slotList_still, List.map_append, ihcs id, ih c, List.map_cons, Placed.tree_node,
        Tree.bindingsAll_cons_of_not_carries _ _ _ hcarries]
      rfl
  | @marked id e x span cs rest ms he _ ih =>
      rw [Mold.partsAll_each, List.map_cons, Placed.tree_node,
        Tree.bindingsAll_cons_of_repeat? _ _ _ he, ← ih c]
      rfl

/-- **The places of what is laid out** are the directives of the trees, if what is bound below a place is
what the trees below its element bind. -/
theorem Laid.repeats (h : Laid mark scope pattern ts ms) (c c' : NodeId) {F : Spot → Summary}
    (hF : ∀ a, Part.each a ∈ Mold.partsAll c ms → ∀ m ∈ marksAll mark c' ts,
      a.pattern = pattern m.id → F a = Tree.summaryAll mark (m.children.map Placed.tree)) :
    (Mold.spots (Mold.partsAll c ms)).map (fun a => (a.expression, F a)) =
      Tree.repeatsAll mark (ts.map Placed.tree) := by
  induction h generalizing c c' with
  | nil => rfl
  | @text id t span ids rest ms hids _ ih =>
      rw [marksAll_leaf _ _ _ _ _ rfl] at hF
      rw [spots_pieces, List.map_cons, Placed.tree_node,
        Tree.repeatsAll_cons_of_not_carries _ _ _ rfl, List.map_nil, Tree.repeatsAll, List.nil_append]
      refine ih c c' fun a ha => hF a ?_
      rwa [← Mold.mem_spots, spots_pieces, Mold.mem_spots]
  | @leaf id kind span rest ms ht he _ ih =>
      rw [marksAll_leaf _ _ _ _ _ he] at hF
      have hcarries : kind.carries mark = false := by
        rw [NodeKind.carries, he]
        rfl
      rw [spots_still, List.map_append, List.map_cons, Placed.tree_node,
        Tree.repeatsAll_cons_of_not_carries _ _ _ hcarries, List.map_nil, Tree.repeatsAll,
        List.nil_append]
      refine ih c c' fun a ha => hF a ?_
      rw [Mold.partsAll_still]
      exact List.mem_cons_of_mem _ (List.mem_append_right _ ha)
  | @plain id e span cs rest items ms he _ _ ihcs ih =>
      have hcarries : (NodeKind.element e).carries mark = false := he
      rw [marksAll_plain _ _ _ _ _ he, Mold.partsAll_still] at hF
      rw [spots_still, List.map_append, List.map_cons, Placed.tree_node,
        Tree.repeatsAll_cons_of_not_carries _ _ _ hcarries]
      congr 1
      · exact ihcs id id fun a ha m hm =>
          hF a (List.mem_cons_of_mem _ (List.mem_append_left _ ha)) m (List.mem_append_left _ hm)
      · exact ih c c' fun a ha m hm =>
          hF a (List.mem_cons_of_mem _ (List.mem_append_right _ ha)) m (List.mem_append_right _ hm)
  | @marked id e x span cs rest ms he _ ih =>
      rw [marksAll_marked _ _ _ _ _ (hasAttribute_of_repeat? he), Mold.partsAll_each] at hF
      rw [Mold.partsAll_each, List.map_cons, Placed.tree_node,
        Tree.repeatsAll_cons_of_repeat? _ _ _ he,
        ← ih c c' fun a ha m hm => hF a (List.mem_cons_of_mem _ ha) m (List.mem_cons_of_mem _ hm),
        ← hF _ (List.mem_cons_self ..) _ (List.mem_cons_self ..) rfl]
      rfl

end Laid

/-! ### Bound molds -/

section Settled

variable {mark : String} {d : Document} {p : Option NodeId} {m : Mold} {xs : List NodeId}

/-- What a settled mold is bound to can be read. -/
theorem Settled.binds_of_get? (h : Settled f d p s m xs) {sc : Scope} (hsc : f.get? s = some sc) :
    f.Binds s (.mk sc.slots.paths (sc.repeats.map fun r => (r.expression, f.summary r.scope))) := by
  induction h generalizing sc with
  | @intro p s id kind span items sc' copies inner hget _ hrepeats _ _ _ linked _ ih =>
      obtain rfl : sc' = sc := Option.some.inj (hget.symm.trans hsc)
      have hrepeat : ∀ r ∈ sc'.repeats, s < r.scope ∧ f.Binds r.scope (f.summary r.scope) := by
        intro r hr
        rw [hrepeats] at hr
        obtain ⟨a, ha, rfl⟩ := List.mem_map.1 hr
        have ha := Mold.mem_spots.1 ha
        obtain ⟨inner, hinner, -⟩ := (linked a ha).scope
        have hbinds := ih a ha hinner
        exact ⟨(linked a ha).lt, hbinds.summary ▸ hbinds⟩
      exact .intro hget (fun r hr => (hrepeat r hr).1) fun r hr => (hrepeat r hr).2

/-- The pattern that an element fits. -/
theorem Mark.Fits.exists_laid {m : Mark} {q : Mold} (h : m.Fits mark q) :
    ∃ kind items scope pattern, q = .still m.id kind m.span items ∧
      Laid mark scope pattern m.children items ∧
      ∀ m' ∈ marksAll mark m.id m.children, m'.Fits mark (pattern m'.id) := by
  cases h with
  | intro hlaid hfits => exact ⟨_, _, _, _, rfl, hlaid, hfits⟩

/-- **A scope binds what the trees say**, if they are laid out where it is bound. -/
theorem Settled.binds {id : NodeId} {kind : NodeKind} {span : Option Span} {items : List Mold}
    {scope : NodeId → ScopeId} {pattern : NodeId → Mold} {ts : List Placed} {c : NodeId}
    (h : Settled f d p s (.still id kind span items) xs) (hlaid : Laid mark scope pattern ts items)
    (hfits : ∀ m ∈ marksAll mark c ts, m.Fits mark (pattern m.id)) :
    f.Binds s (Tree.summaryAll mark (ts.map Placed.tree)) := by
  generalize hmold : Mold.still id kind span items = mold at h
  induction h generalizing id kind span items scope pattern ts c with
  | @intro p s _ _ _ _ sc copies inner hget hslots hrepeats level named scopes linked settled ih =>
      obtain ⟨rfl, rfl, rfl, rfl⟩ := Mold.still.inj hmold
      have hbinds :=
        (Settled.intro hget hslots hrepeats level named scopes linked settled).binds_of_get? hget
      have hpaths : sc.slots.paths = (Tree.bindingsAll mark (ts.map Placed.tree)).eraseDups := by
        rw [hslots, Slots.paths_ofList, ← hlaid.paths id]
        rfl
      have hbelow : sc.repeats.map (fun r => (r.expression, f.summary r.scope)) =
          Tree.repeatsAll mark (ts.map Placed.tree) := by
        rw [hrepeats, List.map_map]
        refine hlaid.repeats id c fun a ha m hm hpattern => ?_
        -- the pattern of the place is laid out for the element
        obtain ⟨kind', items', scope', pattern', hstill, hlaid', hfits'⟩ :=
          (hpattern ▸ hfits m hm).exists_laid
        exact (ih a (List.mem_cons_of_mem _ ha) hlaid' hfits' hstill.symm).summary
      rwa [hpaths, hbelow] at hbinds

/-- A mold that compiling has bound binds what the trees say, as long as it is settled. -/
theorem Compiled.binds {st st' : Stage} {id : NodeId} {kind : NodeKind} {span : Option Span}
    {ts : List Placed} {items : List Mold} {ys : List NodeId}
    (h : Compiled mark st st' p s id kind span ts items ys)
    (hsettled : Settled f d p s (.still id kind span items) xs) :
    f.Binds s (Tree.summaryAll mark (ts.map Placed.tree)) := by
  obtain ⟨scope, pattern, hlaid, hfits, -⟩ := h.laid
  exact hsettled.binds hlaid hfits

end Settled

end Binding

end PageTemplate
