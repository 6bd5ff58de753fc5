/-
**How far a controller keeps its own content.**

The controllers around an element with a controller are mounted behind it, from the nearest one outward.
Each of them finds what the element shows already, and takes for a placeholder of its own what reads
like one.  So the content of the element depends on the data of the controllers around it exactly if it
has placeholders when the first of them is mounted whose data may differ.  These come from the data of
the element itself, or of the controllers in it.

Main definitions:

* `PageTemplate.Document.enclosing` — the elements around a node;
* `PageTemplate.Page.ownNames` — the names of the controllers of an element and of those in it;
* `PageTemplate.Page.exposed` — what is in an element when another controller finds it.

Main results:

* `PageTemplate.Page.Nested.innerMarkup` — what is in an element when the page has been bootstrapped;
* `PageTemplate.Page.inner_eq_iff` — it keeps its content exactly if no placeholders are left in it;
* `PageTemplate.Page.inner_shows_outer` — a page where some are left.
-/

import PageTemplate.Proofs.Binding.Placeholders
import PageTemplate.Proofs.Document.Walking
import PageTemplate.Proofs.Page.Mounting
import PageTemplate.Proofs.Page.Rendering

set_option relaxedAutoImplicit false
set_option autoImplicit false

namespace PageTemplate

open PageTemplate.Binding PageTemplate.Data PageTemplate.Markup PageTemplate.Text

/-! ### The elements around a node -/

/-- The elements around a node, the nearest one first, up to `fuel` nodes above it. -/
def Document.around (d : Document) : Nat → NodeId → List Element
  | 0, _ => []
  | fuel + 1, id =>
      match d.parent? id with
      | none => []
      | some p => (d.element? p).toList ++ d.around fuel p

/-- The elements around a node, the nearest one first.  No node has more nodes above it than there
are slots. -/
def Document.enclosing (d : Document) (id : NodeId) : List Element :=
  d.around d.nodes.size id

theorem Document.around_succ {d : Document} {id p : NodeId} (h : d.parent? id = some p)
    (fuel : Nat) : d.around (fuel + 1) id = (d.element? p).toList ++ d.around fuel p := by
  rw [Document.around, h]

theorem Document.around_of_none {d : Document} {id : NodeId} (h : d.parent? id = none)
    (fuel : Nat) : d.around fuel id = [] := by
  cases fuel with
  | zero => rfl
  | succ fuel => rw [Document.around, h]

namespace Binding

/-- **An element with an attribute is somewhere among the trees**, below the elements around it. -/
theorem exists_inside (mark : String) {name : String} {d : Document} {p i : NodeId}
    {ts : List Placed} (hts : ∀ t ∈ ts, t.Proper ∧ d.Holds (some p) t)
    (hi : i ∈ ts.flatMap (Placed.carriers name)) :
    ∃ around e span cs, e.hasAttribute name = true ∧ d.element? i = some e ∧
      around.length < (ts.flatMap Placed.ids).length ∧
      (∀ fuel, d.around (around.length + 1 + fuel) i =
        around.reverse ++ (d.element? p).toList ++ d.around fuel p) ∧
      ((∀ a ∈ e :: around, a.hasAttribute mark = false) → Inside mark ts around i e span cs) := by
  induction ts using Placed.forest_induction generalizing p with
  | nil => cases hi
  | cons id kind span cs ts ihcs ihts =>
      rw [List.flatMap_cons, List.mem_append] at hi
      rcases hi with hi | hi
      · obtain ⟨hproper, hheld⟩ := hts _ (List.mem_cons_self ..)
        have hparent : d.parent? id = some p := Document.parent?_of_get? hheld.get?
        cases hproper with
        | element _ e _ hcs =>
            have helement : d.element? id = some e := hheld.element?
            rw [Placed.carriers_node, List.mem_append] at hi
            rcases hi with hi | hi
            · split at hi
              · rename_i he
                rw [List.mem_singleton] at hi
                subst hi
                refine ⟨[], e, span, cs, he, helement, by simp, fun fuel => ?_, fun hplain => ?_⟩
                · rw [List.length_nil, Nat.zero_add, Nat.add_comm, Document.around_succ hparent]
                  rfl
                · exact .here (List.mem_cons_self ..) (hplain e (List.mem_cons_self ..))
              · cases hi
            · obtain ⟨around, e', span', cs', he', hfound, hlength, haround, hinside⟩ :=
                ihcs (fun c hc => ⟨hcs c hc, hheld.child hc⟩) hi
              refine ⟨e :: around, e', span', cs', he', hfound, ?_, fun fuel => ?_, fun hplain => ?_⟩
              · rw [List.flatMap_cons, Placed.ids_node, List.length_append, List.length_cons,
                  List.length_cons]
                omega
              · have hsum : (e :: around).length + 1 + fuel = around.length + 1 + (fuel + 1) := by
                  rw [List.length_cons]
                  omega
                rw [hsum, haround, Placed.id_node, Document.around_succ hparent, helement]
                simp
              · refine .deeper (List.mem_cons_self ..) (hplain e (by simp)) (hinside fun a ha => ?_)
                refine hplain a ?_
                rcases List.mem_cons.1 ha with rfl | ha
                · exact List.mem_cons_self ..
                · exact List.mem_cons_of_mem _ (List.mem_cons_of_mem _ ha)
        | text | comment | doctype =>
            rw [Placed.carriers_node] at hi
            cases hi
      · obtain ⟨around, e, span', cs', he, hfound, hlength, haround, hinside⟩ :=
          ihts (fun t ht => hts t (List.mem_cons_of_mem _ ht)) hi
        refine ⟨around, e, span', cs', he, hfound, ?_, haround, fun hplain => ?_⟩
        · rw [List.flatMap_cons, List.length_append]
          omega
        · exact (hinside hplain).mono fun t ht => List.mem_cons_of_mem _ ht

/-- An element among trees has what each element in them has, and so have those around it. -/
theorem Inside.each {mark : String} {ts : List Placed} {around : List Element} {i : NodeId}
    {e : Element} {span : Option Span} {cs : List Placed} {P : Element → List Tree → Prop}
    (h : Inside mark ts around i e span cs) (hts : Tree.EachAll P (ts.map Placed.tree)) :
    P e (cs.map Placed.tree) ∧ Tree.EachAll P (cs.map Placed.tree) ∧ ∀ a ∈ around, ∃ us, P a us := by
  induction h with
  | here ht _ =>
      have hone := Tree.eachAll_iff.1 hts _ (List.mem_map_of_mem ht)
      rw [Placed.tree_node] at hone
      exact ⟨hone.1, hone.2, fun a ha => by cases ha⟩
  | deeper ht _ _ ih =>
      have hone := Tree.eachAll_iff.1 hts _ (List.mem_map_of_mem ht)
      rw [Placed.tree_node] at hone
      obtain ⟨he, hcs, haround⟩ := ih hone.2
      refine ⟨he, hcs, fun b hb => ?_⟩
      rcases List.mem_cons.1 hb with rfl | hb
      · exact ⟨_, hone.1⟩
      · exact haround b hb

/-- The names of the controllers in some trees are those of the elements that have one. -/
theorem map_carriers {o : Options} {d : Document} {p : Option NodeId} {ts : List Placed}
    (hts : ∀ t ∈ ts, t.Proper ∧ d.Holds p t) :
    (ts.flatMap (Placed.carriers o.controllerAttribute)).map
        (fun j => (d.attribute? j o.controllerAttribute).getD "") =
      Tree.controllersAll o (ts.map Placed.tree) := by
  induction ts using Placed.forest_induction generalizing p with
  | nil => rw [List.map_nil, Tree.controllersAll]; rfl
  | cons id kind span cs ts ihcs ihts =>
      rw [List.flatMap_cons, List.map_append, List.map_cons, Tree.controllersAll,
        ihts fun t ht => hts t (List.mem_cons_of_mem _ ht)]
      congr 1
      obtain ⟨hproper, hheld⟩ := hts _ (List.mem_cons_self ..)
      rw [Placed.carriers_node, Placed.tree_node]
      cases hproper with
      | element _ e _ hcs =>
          rw [List.map_append, Tree.controllers, ihcs fun c hc => ⟨hcs c hc, hheld.child hc⟩]
          congr 1
          have hname := Page.controller_of_holds o hheld
          cases he : e.hasAttribute o.controllerAttribute <;>
            simp [NodeKind.carries, NodeKind.element?, he, hname]
      | text | comment | doctype => rfl

end Binding

namespace Tree

/-! ### What controllers around some trees find -/

section Exposed

variable (o : Options) (data : String → Value)

/-- Some trees when the controllers of the elements around them, the nearest one first, have been
mounted. -/
def remadeAround (around : List Element) (ts : List Tree) : List Tree :=
  around.foldl (fun us e => remade o data e us) ts

/-- What some trees have become when a controller around them finds them whose name is not one of
`own`, if there is one. -/
def exposed (own : List String) : List Element → List Tree → Option (List Tree)
  | [], _ => none
  | e :: around, ts =>
      if e.hasAttribute o.controllerAttribute = true ∧ e.controller o ∉ own then some ts
      else exposed own around (remade o data e ts)

end Exposed

variable {o : Options} {data data' : String → Value} {own : List String} {around : List Element}
  {ts us : List Tree}

theorem remadeWithin_eq (around : List Element) (ts : List Tree) :
    remadeWithin o data around ts = remadeAround o data around.reverse ts := by
  rw [remadeAround, List.foldl_reverse, remadeWithin]

theorem unmarkedAll_remade (h : UnmarkedAll o.repeatAttribute ts) (e : Element) :
    UnmarkedAll o.repeatAttribute (remade o data e ts) := by
  unfold remade
  split
  · exact h.readableAll.unmarkedAll _
  · exact h

/-- If no other controller finds the trees, no other data matter. -/
theorem remadeAround_of_exposed_none (h : exposed o data own around ts = none)
    (hown : ∀ name ∈ own, data' name = data name) :
    remadeAround o data' around ts = remadeAround o data around ts := by
  induction around generalizing ts with
  | nil => rfl
  | cons e around ih =>
      rw [exposed] at h
      split at h
      · cases h
      · rename_i hself
        have hremade : remade o data' e ts = remade o data e ts :=
          remade_congr (fun he => hown _ (by_contra fun hmem => hself ⟨he, hmem⟩)) ts
        rw [remadeAround, List.foldl_cons, hremade]
        exact ih h

/-- If another controller finds the trees, its data are the first that may matter. -/
theorem remadeAround_of_exposed_some (h : exposed o data own around ts = some us)
    (hts : UnmarkedAll o.repeatAttribute ts) :
    ∃ e far, e ∈ around ∧ e.hasAttribute o.controllerAttribute = true ∧ e.controller o ∉ own ∧
      UnmarkedAll o.repeatAttribute us ∧
      ∀ data' : String → Value, (∀ name ∈ own, data' name = data name) →
        remadeAround o data' around ts = remadeAround o data' far
          (expandAll splitText o.repeatAttribute [data' (e.controller o)] us) := by
  induction around generalizing ts with
  | nil => cases h
  | cons e around ih =>
      rw [exposed] at h
      split at h
      · rename_i hself
        cases h
        refine ⟨e, around, List.mem_cons_self .., hself.1, hself.2, hts, fun data' _ => ?_⟩
        rw [remadeAround, List.foldl_cons, remade, if_pos hself.1]
        rfl
      · rename_i hself
        obtain ⟨a, far, ha, hcontroller, hother, hus, hremade⟩ := ih h (unmarkedAll_remade hts e)
        refine ⟨a, far, List.mem_cons_of_mem _ ha, hcontroller, hother, hus,
          fun data' hown => ?_⟩
        have hfirst : remade o data' e ts = remade o data e ts :=
          remade_congr (fun he => hown _ (by_contra fun hmem => hself ⟨he, hmem⟩)) ts
        rw [remadeAround, List.foldl_cons, hfirst]
        exact hremade data' hown

/-- **Trees without placeholders stay as they are**, whatever controllers are around them. -/
theorem markupAll_remadeAround (hts : UnmarkedAll o.repeatAttribute ts)
    (h : placeholdersAll ts = []) (raw : Bool) :
    markupAll raw (remadeAround o data around ts) = markupAll raw ts := by
  induction around generalizing ts with
  | nil => rfl
  | cons e around ih =>
      have hnil : placeholdersAll (remade o data e ts) = [] := by
        unfold remade
        split
        · refine placeholdersAll_expandAll hts fun path hpath => ?_
          rw [h] at hpath
          cases hpath
        · exact h
      have hmarkup : markupAll raw (remade o data e ts) = markupAll raw ts := by
        unfold remade
        split
        · exact markupAll_expandAll_of_nil hts h _ raw
        · rfl
      rw [remadeAround, List.foldl_cons, ← hmarkup]
      exact ih (unmarkedAll_remade hts e) hnil

end Tree

namespace Page

/-! ### Nested controllers -/

/-- The names of the controllers of an element and of those in it. -/
def ownNames (o : Options) (d : Document) (i : NodeId) : List String :=
  (i :: d.elementsWithAttribute i o.controllerAttribute).map fun j =>
    (d.attribute? j o.controllerAttribute).getD ""

/-- What is in an element with a controller when this has been mounted. -/
def content (o : Options) (data : String → Value) (d : Document) (i : NodeId) : List Tree :=
  Tree.expandAll splitText o.repeatAttribute
    [data ((d.attribute? i o.controllerAttribute).getD "")] (Tree.mountedAll o data (d.subtrees i))

/-- **What is in an element when another controller finds it**, the first one around it whose name is
not one of the element's own, if there is one. -/
def exposed (o : Options) (data : String → Value) (d : Document) (i : NodeId) :
    Option (List Tree) :=
  Tree.exposed o data (ownNames o d i) (d.enclosing i) (content o data d i)

/-- What becomes of a page when its controllers are mounted with these data. -/
def bootstrapped (o : Options) (fields : Fields) (d : Document) : Registry.Outcome :=
  (registryOf o (.object fields)).bootstrap ⟨d, .empty⟩ []

/-- The element `i` of a page has a controller, is not repeated, and is inside the elements `around`,
the outermost first, none of which is repeated. -/
structure Nested (o : Options) (d : Document) (cs : List Placed) (around : List Element) (i : NodeId)
    (e : Element) (span : Option Span) (us : List Placed) : Prop where
  sound : d.Sound
  holds : d.Holds none (.node Document.root .document none cs)
  nodup : (Placed.node Document.root .document none cs).ids.Nodup
  proper : ∀ c ∈ cs, c.Proper
  inside : Inside o.repeatAttribute cs around i e span us
  controller : e.hasAttribute o.controllerAttribute = true
  enclosing : d.enclosing i = around.reverse

/-- Elements of pages that are read are nested. -/
theorem exists_nested {source : String} {o : Options} {d : Document} {i : NodeId}
    (hparse : Document.parse source = .ok d)
    (hi : i ∈ d.elementsWithAttribute Document.root o.controllerAttribute)
    (hself : d.hasAttribute i o.repeatAttribute = false)
    (haround : ∀ a ∈ d.enclosing i, a.hasAttribute o.repeatAttribute = false) :
    ∃ cs around e span us, Nested o d cs around i e span us := by
  obtain ⟨cs, hsound, hholds, hproper, hnodup⟩ := Document.parse_holds hparse
  have hcarriers : d.elementsWithAttribute Document.root o.controllerAttribute =
      cs.flatMap (Placed.carriers o.controllerAttribute) := hholds.elementsWithAttribute hnodup _
  rw [hcarriers] at hi
  obtain ⟨around, e, span, us, he, helement, hlength, hfuel, hinside⟩ :=
    exists_inside o.repeatAttribute (fun c hc => ⟨hproper c hc, hholds.child hc⟩) hi
  have hsize := Document.length_le_size hnodup fun _ hx => hholds.live hx
  rw [Placed.ids_node, List.length_cons] at hsize
  obtain ⟨fuel, hfuel'⟩ : ∃ fuel, d.nodes.size = around.length + 1 + fuel :=
    ⟨d.nodes.size - (around.length + 1), by omega⟩
  have hparent : d.parent? Document.root = none := Document.parent?_of_get? hholds.get?
  have hroot : d.element? Document.root = none := hholds.element?
  have henclosing : d.enclosing i = around.reverse := by
    have hreached := hfuel fuel
    rw [Placed.id_node, hroot, Document.around_of_none hparent] at hreached
    rw [Document.enclosing, hfuel', hreached]
    simp
  refine ⟨cs, around, e, span, us, hsound, hholds, hnodup, hproper, hinside fun a ha => ?_, he,
    henclosing⟩
  rcases List.mem_cons.1 ha with rfl | ha
  · simpa [Document.hasAttribute, helement] using hself
  · refine haround a ?_
    rw [henclosing]
    exact List.mem_reverse.2 ha

section Nested

variable {o : Options} {d : Document} {cs : List Placed} {around : List Element} {i : NodeId}
  {e : Element} {span : Option Span} {us : List Placed}

/-- The element is held. -/
theorem Nested.exists_holds (h : Nested o d cs around i e span us) :
    (∃ q, d.Holds q (.node i (.element e) span us)) ∧
      (Placed.node i (.element e) span us).ids.Nodup :=
  ⟨h.inside.holds fun _ hc => h.holds.child hc,
    h.inside.nodup fun _ hc => Placed.nodup_child h.nodup hc⟩

theorem Nested.proper_us (h : Nested o d cs around i e span us) : ∀ u ∈ us, u.Proper := by
  have hall := Placed.properAll_iff.1 h.proper
  exact Placed.properAll_iff.2 (h.inside.each hall).2.1

theorem Nested.attribute (h : Nested o d cs around i e span us) :
    (d.attribute? i o.controllerAttribute).getD "" = e.controller o := by
  obtain ⟨⟨q, hholds⟩, _⟩ := h.exists_holds
  exact controller_of_holds o hholds

theorem Nested.ownNames_eq (h : Nested o d cs around i e span us) :
    ownNames o d i = e.controller o :: Tree.controllersAll o (us.map Placed.tree) := by
  obtain ⟨⟨q, hholds⟩, hnodup⟩ := h.exists_holds
  have hcarriers : d.elementsWithAttribute i o.controllerAttribute =
      us.flatMap (Placed.carriers o.controllerAttribute) := hholds.elementsWithAttribute hnodup _
  rw [ownNames, hcarriers, List.map_cons, h.attribute,
    map_carriers fun u hu => ⟨h.proper_us u hu, hholds.child hu⟩]

theorem Nested.content_eq (h : Nested o d cs around i e span us) (data : String → Value) :
    content o data d i = Tree.remade o data e (Tree.mountedAll o data (us.map Placed.tree)) := by
  obtain ⟨⟨q, hholds⟩, hnodup⟩ := h.exists_holds
  have hsubtrees : d.subtrees i = us.map Placed.tree := hholds.subtrees hnodup
  rw [content, h.attribute, hsubtrees, Tree.remade, if_pos h.controller]

/-- Bootstrapping goes well exactly if the page is ready for it. -/
theorem Nested.bootstrapped_iff (h : Nested o d cs around i e span us) (fields : Fields) :
    (∃ mounts, (bootstrapped o fields d).mounts = .ok mounts) ↔
      Tree.ReadyAll o (fun name => fields.get? name ≠ none) (cs.map Placed.tree) := by
  constructor
  · rintro ⟨mounts, hok⟩
    exact ready_of_bootstrap .empty [] h.sound h.holds h.nodup h.proper hok
  · intro hready
    obtain ⟨mounts, _, hok, _⟩ :=
      bootstrap_ready .empty [] h.sound h.holds h.nodup h.proper hready
    exact ⟨mounts, hok⟩

/-- **What is in an element when the page has been bootstrapped**: its content, of which the
controllers around the element have made what it means. -/
theorem Nested.innerMarkup (h : Nested o d cs around i e span us) {fields : Fields}
    (hready : Tree.ReadyAll o (fun name => fields.get? name ≠ none) (cs.map Placed.tree)) :
    (bootstrapped o fields d).stage.document.innerMarkup i =
      String.ofList (Tree.markupAll (isRawText e.tag) (Tree.remadeAround o (controllerData fields)
        (d.enclosing i) (content o (controllerData fields) d i))) := by
  obtain ⟨mounts, cs', _, hremade, -⟩ :=
    bootstrap_ready .empty [] h.sound h.holds h.nodup h.proper hready
  obtain ⟨us', hinside, htrees⟩ := hremade.inside _ _ _ _ _ h.inside
  obtain ⟨q, hholds⟩ := hinside.holds hremade.holds
  have hnodup := hinside.nodup (List.nodup_flatMap.1 hremade.nodup).1
  have hraw : (bootstrapped o fields d).stage.document.holdsRawText i = isRawText e.tag := by
    have helement : (bootstrapped o fields d).stage.document.element? i = some e := hholds.element?
    rw [Document.holdsRawText, helement, Option.any_some]
  have hinner := hholds.innerMarkup hnodup
  rw [Placed.id_node] at hinner
  rw [bootstrapped, hinner, ← bootstrapped, hraw, Placed.children_node, htrees,
    Tree.remadeWithin_eq, h.enclosing, h.content_eq]

/-- The content of an element has no directives. -/
theorem Nested.unmarked_content (h : Nested o d cs around i e span us) {known : String → Prop}
    (hready : Tree.ReadyAll o known (cs.map Placed.tree)) (data : String → Value) :
    Tree.UnmarkedAll o.repeatAttribute (content o data d i) := by
  obtain ⟨hself, hbelow, _⟩ := h.inside.each hready
  rw [h.content_eq, Tree.remade, if_pos h.controller]
  exact ((Tree.readableAll_mountedAll hbelow).2 (hself h.controller).2).unmarkedAll _

/-- The content of an element depends on its own data. -/
theorem Nested.content_congr (h : Nested o d cs around i e span us) {data data' : String → Value}
    (hown : ∀ name ∈ ownNames o d i, data' name = data name) :
    content o data' d i = content o data d i := by
  rw [h.ownNames_eq] at hown
  rw [h.content_eq, h.content_eq,
    Tree.mountedAll_congr fun name hname => hown name (List.mem_cons_of_mem _ hname)]
  exact Tree.remade_congr (fun _ => hown _ (List.mem_cons_self ..)) _

end Nested

theorem controllerData_congr {fields fields' : Fields} {name : String}
    (h : fields'.get? name = fields.get? name) :
    controllerData fields' name = controllerData fields name := by
  rw [controllerData, controllerData, h]

section Exposed

variable {o : Options} {d : Document} {cs : List Placed} {around : List Element} {i : NodeId}
  {e : Element} {span : Option Span} {us : List Placed} {fields fields' : Fields} {ts : List Tree}

/-- Objects with the same keys are ready for the same pages. -/
theorem readyAll_congr (h : ∀ name, name ∈ fields'.map (·.1) ↔ name ∈ fields.map (·.1)) :
    Tree.ReadyAll o (fun name => fields'.get? name ≠ none) ts ↔
      Tree.ReadyAll o (fun name => fields.get? name ≠ none) ts := by
  have hknown : (fun name => fields'.get? name ≠ none) = fun name => fields.get? name ≠ none := by
    funext name
    rw [Fields.get?_ne_none_iff, Fields.get?_ne_none_iff, h name]
  rw [hknown]

/-- If no other controller finds the element, the data of others do not matter. -/
theorem Nested.innerMarkup_of_none (h : Nested o d cs around i e span us)
    (hready : Tree.ReadyAll o (fun name => fields.get? name ≠ none) (cs.map Placed.tree))
    (hready' : Tree.ReadyAll o (fun name => fields'.get? name ≠ none) (cs.map Placed.tree))
    (hown : ∀ name ∈ ownNames o d i, fields'.get? name = fields.get? name)
    (hnone : exposed o (controllerData fields) d i = none) :
    (bootstrapped o fields' d).stage.document.innerMarkup i =
      (bootstrapped o fields d).stage.document.innerMarkup i := by
  have hdata : ∀ name ∈ ownNames o d i, controllerData fields' name = controllerData fields name :=
    fun name hname => controllerData_congr (hown name hname)
  rw [h.innerMarkup hready, h.innerMarkup hready', h.content_congr hdata,
    Tree.remadeAround_of_exposed_none hnone hdata]

/-- If another controller finds the element, it makes of it what it means, and if no placeholders
are left then, this is what the element shows in the end. -/
theorem Nested.exists_outer (h : Nested o d cs around i e span us)
    (hready : Tree.ReadyAll o (fun name => fields.get? name ≠ none) (cs.map Placed.tree))
    (hts : exposed o (controllerData fields) d i = some ts) :
    ∃ outer, outer ∉ ownNames o d i ∧ fields.get? outer ≠ none ∧
      Tree.UnmarkedAll o.repeatAttribute ts ∧
      ∀ fields' : Fields, (∀ name ∈ ownNames o d i, fields'.get? name = fields.get? name) →
        Tree.ReadyAll o (fun name => fields'.get? name ≠ none) (cs.map Placed.tree) →
        Tree.placeholdersAll (Tree.expandAll splitText o.repeatAttribute
          [controllerData fields' outer] ts) = [] →
        (bootstrapped o fields' d).stage.document.innerMarkup i =
          String.ofList (Tree.markupAll (isRawText e.tag)
            (Tree.expandAll splitText o.repeatAttribute [controllerData fields' outer] ts)) := by
  obtain ⟨a, far, ha, hcontroller, hother, hunmarked, hremade⟩ :=
    Tree.remadeAround_of_exposed_some hts (h.unmarked_content hready _)
  rw [h.enclosing] at ha
  obtain ⟨_, _, heach⟩ := h.inside.each hready
  obtain ⟨_, hknown⟩ := heach a (List.mem_reverse.1 ha)
  refine ⟨a.controller o, hother, (hknown hcontroller).1, hunmarked,
    fun fields' hown hready' hnil => ?_⟩
  have hdata : ∀ name ∈ ownNames o d i, controllerData fields' name = controllerData fields name :=
    fun name hname => controllerData_congr (hown name hname)
  rw [h.innerMarkup hready', h.content_congr hdata, hremade _ hdata,
    Tree.markupAll_remadeAround (hunmarked.readableAll.unmarkedAll _) hnil]

end Exposed

/-- **An element with a controller keeps its content, whatever the data of the controllers around it,
exactly if it has no placeholders when the first other one of these finds it.**  Neither the element
nor one around it is repeated.  The other data have the same keys in any order, so that bootstrapping
goes well with them too. -/
theorem inner_eq_iff {source : String} {o : Options} {fields : Fields} {d : Document} {i : NodeId}
    {mounts : List Mount} (hparse : Document.parse source = .ok d)
    (hi : i ∈ d.elementsWithAttribute Document.root o.controllerAttribute)
    (hself : d.hasAttribute i o.repeatAttribute = false)
    (haround : ∀ a ∈ d.enclosing i, a.hasAttribute o.repeatAttribute = false)
    (hok : (bootstrapped o fields d).mounts = .ok mounts) :
    (∀ fields' : Fields, (∀ name, name ∈ fields'.map (·.1) ↔ name ∈ fields.map (·.1)) →
        (∀ name ∈ ownNames o d i, fields'.get? name = fields.get? name) →
        (∃ mounts', (bootstrapped o fields' d).mounts = .ok mounts') ∧
          (bootstrapped o fields' d).stage.document.innerMarkup i =
            (bootstrapped o fields d).stage.document.innerMarkup i) ↔
      ∀ ts, exposed o (controllerData fields) d i = some ts → Tree.placeholdersAll ts = [] := by
  obtain ⟨cs, around, e, span, us, hnested⟩ := exists_nested hparse hi hself haround
  have hready := (hnested.bootstrapped_iff fields).1 ⟨mounts, hok⟩
  constructor
  · intro hkeeps ts hts
    by_contra hne
    obtain ⟨outer, hother, hknown, hunmarked, hinner⟩ := hnested.exists_outer hready hts
    obtain ⟨shown, hnil, hnil', happart⟩ :=
      Tree.exists_apart hunmarked hne (isRawText e.tag)
    -- with any object as the data of the outer controller the content would be the same
    have hsame : ∀ v : Value, v.objectOrEmpty = v →
        Tree.placeholdersAll (Tree.expandAll splitText o.repeatAttribute [v] ts) = [] →
        Tree.markupAll (isRawText e.tag) (Tree.expandAll splitText o.repeatAttribute [v] ts) =
          ((bootstrapped o fields d).stage.document.innerMarkup i).toList := by
      intro v hv hleft
      have hkeys : ∀ name,
          name ∈ (Fields.set outer v fields).map (·.1) ↔ name ∈ fields.map (·.1) := by
        intro name
        rw [Fields.keys_set, if_pos ((Fields.get?_ne_none_iff _ _).1 hknown)]
      have hown : ∀ name ∈ ownNames o d i,
          (Fields.set outer v fields).get? name = fields.get? name := by
        intro name hname
        rw [Fields.get?_set, if_neg]
        rintro rfl
        exact hother hname
      have hdata : controllerData (Fields.set outer v fields) outer = v := by
        rw [controllerData, Fields.get?_set, if_pos rfl, Option.getD_some, hv]
      have houter := hinner _ hown ((readyAll_congr hkeys).2 hready) (by rwa [hdata])
      rw [hdata] at houter
      rw [← (hkeeps _ hkeys hown).2, houter, String.toList_ofList]
    exact happart ((hsame (.object shown) rfl hnil).trans (hsame .emptyObject rfl hnil').symm)
  · intro hnone fields' hkeys hown
    have hready' := (readyAll_congr hkeys).2 hready
    refine ⟨(hnested.bootstrapped_iff fields').2 hready', ?_⟩
    cases hts : exposed o (controllerData fields) d i with
    | none => exact hnested.innerMarkup_of_none hready hready' hown hts
    | some ts =>
        obtain ⟨outer, _, _, hunmarked, hinner⟩ := hnested.exists_outer hready hts
        have hnil := hnone ts hts
        -- without placeholders the trees show what they are, whatever the data
        have hshown : ∀ fields₁ : Fields,
            (∀ name ∈ ownNames o d i, fields₁.get? name = fields.get? name) →
            Tree.ReadyAll o (fun name => fields₁.get? name ≠ none) (cs.map Placed.tree) →
            (bootstrapped o fields₁ d).stage.document.innerMarkup i =
              String.ofList (Tree.markupAll (isRawText e.tag) ts) := by
          intro fields₁ hown₁ hready₁
          rw [hinner fields₁ hown₁ hready₁ (Tree.placeholdersAll_expandAll hunmarked fun path hpath => by
            rw [hnil] at hpath
            cases hpath), Tree.markupAll_expandAll_of_nil hunmarked hnil]
        rw [hshown fields' hown hready', hshown fields (fun _ _ => rfl) hready]

/-- A page with a controller inside another one. -/
def nestedSource : String :=
  "<a hb-controller='outer'><b hb-controller='inner'>\x7b\x7b x \x7d\x7d</b></a>"

/-- The same page as a document. -/
def nestedDocument : Document :=
  ⟨#[some ⟨.document, none, [1], none⟩,
    some ⟨.element ⟨"a", [⟨"hb-controller", some "outer"⟩]⟩, some 0, [2],
      some ⟨⟨0, 0, 0⟩, ⟨25, 0, 25⟩⟩⟩,
    some ⟨.element ⟨"b", [⟨"hb-controller", some "inner"⟩]⟩, some 1, [3],
      some ⟨⟨25, 0, 25⟩, ⟨50, 0, 50⟩⟩⟩,
    some ⟨.text "\x7b\x7b x \x7d\x7d", some 2, [], some ⟨⟨50, 0, 50⟩, ⟨57, 0, 57⟩⟩⟩], []⟩

/-- Data whose inner part reads like a placeholder, with `secret` as the outer part. -/
def nestedFields (secret : String) : Fields :=
  [("outer", .object [("y", .string secret)]),
    ("inner", .object [("x", .string "\x7b\x7b y \x7d\x7d")])]

theorem parse_nestedSource : Document.parse nestedSource = .ok nestedDocument :=
  eq_ok_of_toOption (by decide +kernel)

theorem exists_mounts_nested (secret : String)
    (h : (bootstrapped ⟨"hb-repeat", "hb-controller"⟩ (nestedFields secret)
      nestedDocument).mounts.toOption.isSome = true) :
    ∃ mounts, (bootstrapped ⟨"hb-repeat", "hb-controller"⟩ (nestedFields secret)
      nestedDocument).mounts = .ok mounts := by
  obtain ⟨mounts, hmounts⟩ := Option.isSome_iff_exists.1 h
  exact ⟨mounts, eq_ok_of_toOption hmounts⟩

/-- **An outer controller reaches into an inner one** whose data read like a placeholder: the inner
element shows the data of the outer controller. -/
theorem inner_shows_outer :
    Document.parse nestedSource = .ok nestedDocument ∧
      2 ∈ nestedDocument.elementsWithAttribute Document.root "hb-controller" ∧
      nestedDocument.hasAttribute 2 "hb-repeat" = false ∧
      (∀ a ∈ nestedDocument.enclosing 2, a.hasAttribute "hb-repeat" = false) ∧
      (nestedFields "p").map (·.1) = (nestedFields "q").map (·.1) ∧
      (∀ name ∈ ownNames ⟨"hb-repeat", "hb-controller"⟩ nestedDocument 2,
        (nestedFields "p").get? name = (nestedFields "q").get? name) ∧
      (∃ mounts, (bootstrapped ⟨"hb-repeat", "hb-controller"⟩ (nestedFields "p")
        nestedDocument).mounts = .ok mounts) ∧
      (∃ mounts, (bootstrapped ⟨"hb-repeat", "hb-controller"⟩ (nestedFields "q")
        nestedDocument).mounts = .ok mounts) ∧
      (bootstrapped ⟨"hb-repeat", "hb-controller"⟩ (nestedFields "p")
        nestedDocument).stage.document.innerMarkup 2 = "p" ∧
      (bootstrapped ⟨"hb-repeat", "hb-controller"⟩ (nestedFields "q")
        nestedDocument).stage.document.innerMarkup 2 = "q" := by
  have hown : ownNames ⟨"hb-repeat", "hb-controller"⟩ nestedDocument 2 = ["inner"] := by
    decide +kernel
  refine ⟨parse_nestedSource, by decide +kernel, by decide +kernel, by decide +kernel,
    rfl, fun name hname => ?_, exists_mounts_nested "p" (by decide +kernel),
    exists_mounts_nested "q" (by decide +kernel), by decide +kernel, by decide +kernel⟩
  rw [hown, List.mem_singleton] at hname
  rw [hname]
  rfl

/-- The element of this page does not keep its content, since a placeholder is left in it. -/
theorem inner_eq_iff_nested : ∃ mounts ts,
    (bootstrapped ⟨"hb-repeat", "hb-controller"⟩ (nestedFields "p") nestedDocument).mounts =
        .ok mounts ∧
      exposed ⟨"hb-repeat", "hb-controller"⟩ (controllerData (nestedFields "p")) nestedDocument 2 =
        some ts ∧ Tree.placeholdersAll ts = [['y']] ∧
      ¬∀ fields' : Fields,
        (∀ name, name ∈ fields'.map (·.1) ↔ name ∈ (nestedFields "p").map (·.1)) →
        (∀ name ∈ ownNames ⟨"hb-repeat", "hb-controller"⟩ nestedDocument 2,
          fields'.get? name = (nestedFields "p").get? name) →
        (∃ mounts', (bootstrapped ⟨"hb-repeat", "hb-controller"⟩ fields' nestedDocument).mounts =
            .ok mounts') ∧
          (bootstrapped ⟨"hb-repeat", "hb-controller"⟩ fields'
              nestedDocument).stage.document.innerMarkup 2 =
            (bootstrapped ⟨"hb-repeat", "hb-controller"⟩ (nestedFields "p")
              nestedDocument).stage.document.innerMarkup 2 := by
  obtain ⟨mounts, hok⟩ := exists_mounts_nested "p" (by decide +kernel)
  have hplaceholders : (exposed ⟨"hb-repeat", "hb-controller"⟩ (controllerData (nestedFields "p"))
      nestedDocument 2).map Tree.placeholdersAll = some [['y']] := by decide +kernel
  obtain ⟨ts, hts, hpaths⟩ := Option.map_eq_some_iff.1 hplaceholders
  refine ⟨mounts, ts, hok, hts, hpaths, fun hkeeps => ?_⟩
  have hnil := (inner_eq_iff parse_nestedSource (by decide +kernel) (by decide +kernel)
    (by decide +kernel) hok).1 hkeeps ts hts
  rw [hpaths] at hnil
  cases hnil

end Page

end PageTemplate
