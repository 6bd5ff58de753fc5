/-
**How far bootstrapping goes.**

The controllers of a page are called from the last one to the first, and each element is looked at in a
page in which those behind it have been rendered.  Rendering takes directives away, in the elements where
all of them can be read, and leaves the rest alone.  So the element at which bootstrapping ends is the
last one that is at fault in the page as it was read.

Main definitions:

* `PageTemplate.Page.fault?` — why an element of a page cannot be mounted.

Main results:

* `PageTemplate.Page.obstacle?_eq_fault?` — a fault can be seen in the tree of the element;
* `PageTemplate.Page.bootstrap_order` — whether bootstrapping fails, where it ends, and what is called.
-/

import PageTemplate.Proofs.Page.Checking

set_option relaxedAutoImplicit false
set_option autoImplicit false

namespace PageTemplate.Page

open Relation
open PageTemplate.Binding PageTemplate.Data PageTemplate.Diagnostic PageTemplate.Document
  PageTemplate.Markup PageTemplate.Text

/-! ### Faults -/

/-- Why an element of a page cannot be mounted, if it cannot: its controller is not known, or else there
is a directive below it that cannot be read, of which the first one counts. -/
def fault? (r : Registry) (d : Document) (id : NodeId) : Option BindError :=
  if (r.controller? (nameOf r.options d id)).isNone then
    some (.unknownController (nameOf r.options d id) (d.span? id))
  else
    ((d.elementsWithAttribute id r.options.repeatAttribute).find? fun x =>
        (RepeatExpression.parse? (directive d r.options.repeatAttribute x)).isNone).map fun x =>
      .invalidRepeat (directive d r.options.repeatAttribute x) (d.span? x)

variable {r : Registry} {d : Document} {source : String} {span : Option Span} {cs : List Placed}
  {p : Option NodeId}

/-- In a sturdy document compiling finds the first directive below a node that cannot be read. -/
theorem invalidRepeat?_of_sturdy (h : d.Sturdy) (mark : String) (id : NodeId) :
    invalidRepeat? d mark id = ((d.elementsWithAttribute id mark).find? fun x =>
        (RepeatExpression.parse? (directive d mark x)).isNone).map fun x =>
      .invalidRepeat (directive d mark x) (d.span? x) := by
  have hfinite := h.forest.finiteBelow h.linked id
  rw [invalidRepeat?_eq h.linked hfinite, find?_exposed h.linked hfinite fun x hx hchildren => ?_]
  rcases h.tidy.holder x hchildren with rfl | helement
  · exact absurd hx (not_below_of_loose h.forest.top)
  · exact Option.isSome_iff_ne_none.1 helement

/-- **The fault of an element can be seen in its tree.** -/
theorem obstacle?_eq_fault? (h : d.Sturdy) (hheld : d.Holds p (.node root .document span cs))
    (hn : (Placed.node root .document span cs).ids.Nodup) {u : Placed}
    (hu : u ∈ cs.flatMap (Placed.carrying r.options.controllerAttribute)) :
    obstacle? r u = fault? r d u.id := by
  obtain ⟨hname, hspan, -⟩ := of_mem_carrying hheld hn hu
  have hchildren := (List.nodup_cons.1 (Placed.ids_node .. ▸ hn)).2
  obtain ⟨q, hq, hnodup, -⟩ := Holds.of_carrying (fun c hc => hheld.child hc) hchildren hu
  have hflaws := invalidRepeat?_eq_flaws r.options.repeatAttribute hq hnodup
  rw [obstacle?, Registry.obstacle?, fault?, hname, hspan, ← hflaws, invalidRepeat?_of_sturdy h]

/-- A page is ready if none of its elements is at fault. -/
theorem ready_iff_fault? (h : d.Sturdy) (hheld : d.Holds p (.node root .document span cs))
    (hn : (Placed.node root .document span cs).ids.Nodup) (hproper : ∀ c ∈ cs, c.Proper) :
    Ready r cs ↔ ∀ i ∈ elements r.options d, fault? r d i = none := by
  rw [ready_iff hproper, elements_of_holds hheld hn, List.forall_mem_map]
  refine forall₂_congr fun u hu => ?_
  rw [obstacle?_eq_fault? h hheld hn hu]

/-- A list is divided in one way only at its last member with a property. -/
theorem eq_of_last {α : Type} {P : α → Prop} {a a' b b' : List α} {x x' : α}
    (h : a ++ x :: b = a' ++ x' :: b') (hx : P x) (hx' : P x') (hb : ∀ y ∈ b, ¬P y)
    (hb' : ∀ y ∈ b', ¬P y) : x = x' ∧ b = b' := by
  -- the one that comes first would be behind the other one
  have key : ∀ {c b b' : List α} {x x' : α}, x :: b = c ++ x' :: b' → P x' → (∀ y ∈ b, ¬P y) →
      x = x' ∧ b = b' := by
    intro c b b' x x' h hx' hb
    cases c with
    | nil => exact List.cons.inj h
    | cons y c =>
        obtain ⟨-, rfl⟩ := List.cons.inj h
        exact absurd hx' (hb x' (by simp))
  rcases List.append_eq_append_iff.1 h with ⟨c, -, hc⟩ | ⟨c, -, hc⟩
  · exact key hc hx' hb
  · obtain ⟨rfl, rfl⟩ := key hc hx hb'
    exact ⟨rfl, rfl⟩

/-! ### Bootstrapping -/

/-- **A page that is ready is bootstrapped**: its controllers are called from the last one to the first, and
the mounts are in document order. -/
theorem bootstrap_all (hheld : d.Holds p (.node root .document span cs))
    (hn : (Placed.node root .document span cs).ids.Nodup) (hproper : ∀ c ∈ cs, c.Proper)
    (hsound : d.Sound) (hready : Ready r cs) (f : Scopes) (calls : List Call) :
    ∃ st seen made, r.bootstrap ⟨d, f⟩ calls = ⟨st, calls ++ seen, .ok made⟩ ∧
      entered seen = ((elements r.options d).map (nameOf r.options d)).reverse ∧
      made.map Mount.element = elements r.options d ∧
      made.map Mount.name = (elements r.options d).map (nameOf r.options d) := by
  have hchildren := (List.nodup_cons.1 (Placed.ids_node .. ▸ hn)).2
  have hsound' : (⟨d, f⟩ : Stage).document.Sound := hsound
  obtain ⟨st, _, made, hmounted⟩ := exists_mounted hsound'
    (fun c hc => ⟨hproper c hc, hheld.child hc⟩) hchildren hready
  obtain ⟨seen, hseen, hrun⟩ := hmounted.run
  have hnames : (cs.flatMap (Placed.carrying r.options.controllerAttribute)).map
      (controllerName r.options) = (elements r.options d).map (nameOf r.options d) := by
    rw [elements_of_holds hheld hn, List.map_map]
    exact List.map_congr_left fun u hu => (of_mem_carrying hheld hn hu).1.symm
  refine ⟨st, seen, made, ?_, by rw [hseen, hnames], ?_, ?_⟩
  · refine (bootstrap_eq f calls r hheld hn).trans ?_
    rw [hrun, List.append_nil]
    rfl
  · have hsecond := congrArg (List.map Prod.snd) hmounted.names
    rw [List.map_map, List.map_map] at hsecond
    rw [elements_of_holds hheld hn]
    exact hsecond
  · have hfirst := congrArg (List.map Prod.fst) hmounted.names
    rw [List.map_map, List.map_map] at hfirst
    exact hfirst.trans hnames

/-- **Otherwise bootstrapping ends at the last element at fault**, when the controllers behind it have been
called, and their elements have been rendered. -/
theorem bootstrap_until (h : d.Sturdy) (hheld : d.Holds p (.node root .document span cs))
    (hn : (Placed.node root .document span cs).ids.Nodup) (hproper : ∀ c ∈ cs, c.Proper)
    (hready : ¬Ready r cs) (f : Scopes) (calls : List Call) :
    ∃ before i behind err, elements r.options d = before ++ i :: behind ∧
      fault? r d i = some err ∧ (∀ j ∈ behind, fault? r d j = none) ∧
      (r.bootstrap ⟨d, f⟩ calls).mounts = .error err ∧
      entered (r.bootstrap ⟨d, f⟩ calls).calls =
        entered calls ++ (behind.map (nameOf r.options d)).reverse ∧
      ∀ x n, d.get? x = some n → (∀ j ∈ behind, ¬ReflTransGen d.ChildOf x j) →
        (r.bootstrap ⟨d, f⟩ calls).stage.document.get? x = some n := by
  obtain ⟨pre, u, post, err, hhalted⟩ := bootstrap_halted f calls r h.sound hheld hn hproper hready
  have hmem : ∀ v ∈ u :: post, v ∈ cs.flatMap (Placed.carrying r.options.controllerAttribute) :=
    fun v hv => hhalted.order ▸ List.mem_append_right _ hv
  have hfault : ∀ v ∈ u :: post, obstacle? r v = fault? r d v.id :=
    fun v hv => obstacle?_eq_fault? h hheld hn (hmem v hv)
  obtain ⟨hself, hpost⟩ := List.forall_mem_cons.1 hfault
  have hbehind : ∀ v ∈ post, v ∈ cs.flatMap (Placed.carrying r.options.controllerAttribute) :=
    fun v hv => hmem v (List.mem_cons_of_mem _ hv)
  refine ⟨pre.map Placed.id, u.id, post.map Placed.id, err, ?_, hself ▸ hhalted.obstacle,
    List.forall_mem_map.2 fun v hv => hpost v hv ▸ hhalted.clear v hv, hhalted.mounts, ?_,
    fun x n hx hout => hhalted.spares x n hx fun v hv hxv => ?_⟩
  · rw [elements_of_holds hheld hn, hhalted.order, List.map_append, List.map_cons]
  · rw [hhalted.entered, List.map_map]
    refine congrArg (fun names => entered calls ++ List.reverse names) (List.map_congr_left fun v hv => ?_)
    exact (of_mem_carrying hheld hn (hbehind v hv)).1.symm
  · have hchildren := (List.nodup_cons.1 (Placed.ids_node .. ▸ hn)).2
    obtain ⟨q, hq, -⟩ := Holds.of_carrying (fun c hc => hheld.child hc) hchildren (hbehind v hv)
    exact hout v.id (List.mem_map_of_mem hv) (hq.up hxv)

/-- **How far bootstrapping a page goes**, whatever the controllers do with the data of their scopes.  It
fails exactly if some element with a controller is at fault in the page as it was read.  The last such
element then says why; the controllers of the elements behind it have been called, the last one first, and
no other ones, and what is in none of these elements is as it was.  Otherwise all controllers have been
called, the last one first, and the mounts are those of all elements, in document order. -/
theorem bootstrap_order (hparse : Document.parse source = .ok d) (r : Registry) (f : Scopes)
    (calls : List Call) :
    let out := r.bootstrap ⟨d, f⟩ calls
    let name := nameOf r.options d
    ((∃ err, out.mounts = .error err) ↔ ∃ i ∈ elements r.options d, fault? r d i ≠ none) ∧
    (∀ before i behind err, elements r.options d = before ++ i :: behind → fault? r d i = some err →
      (∀ j ∈ behind, fault? r d j = none) →
        out.mounts = .error err ∧
        entered out.calls = entered calls ++ (behind.map name).reverse ∧
        ∀ x n, d.get? x = some n → (∀ j ∈ behind, ¬ReflTransGen d.ChildOf x j) →
          out.stage.document.get? x = some n) ∧
    ∀ mounts, out.mounts = .ok mounts →
      mounts.map Mount.element = elements r.options d ∧
      mounts.map Mount.name = (elements r.options d).map name ∧
      entered out.calls = entered calls ++ ((elements r.options d).map name).reverse := by
  intro out name
  obtain ⟨cs, hsound, hheld, hproper, hn⟩ := Document.parse_holds hparse
  have hsturdy := sturdy_of_parse hparse
  have hclear := ready_iff_fault? (r := r) hsturdy hheld hn hproper
  by_cases hready : Ready r cs
  · obtain ⟨st, seen, made, hout, hseen, helements, hnames⟩ :=
      bootstrap_all hheld hn hproper hsound hready f calls
    rw [show out = _ from hout]
    refine ⟨iff_of_false (fun ⟨_, h⟩ => by cases h) fun ⟨i, hi, h⟩ => h (hclear.1 hready i hi),
      fun before i behind err horder herr _ => ?_, fun mounts hmounts => ?_⟩
    · have hnone := hclear.1 hready i (horder ▸ List.mem_append_right _ (List.mem_cons_self ..))
      rw [herr] at hnone
      cases hnone
    · cases hmounts
      exact ⟨helements, hnames, by rw [entered_append, hseen]⟩
  · obtain ⟨before, i, behind, err, horder, hself, hbehind, hmounts, hcalls, hkeeps⟩ :=
      bootstrap_until hsturdy hheld hn hproper hready f calls
    have hfault : fault? r d i ≠ none := by rw [hself]; exact Option.some_ne_none _
    refine ⟨iff_of_true ⟨err, hmounts⟩ ⟨i, ?_, hfault⟩,
      fun before' i' behind' err' horder' hself' hbehind' => ?_, fun mounts hok => ?_⟩
    · exact horder ▸ List.mem_append_right _ (List.mem_cons_self ..)
    · -- there is one last element at fault
      obtain ⟨rfl, rfl⟩ := eq_of_last (P := fun j => fault? r d j ≠ none)
        (horder.symm.trans horder') hfault (by rw [hself']; exact Option.some_ne_none _)
        (fun j hj => not_not.2 (hbehind j hj)) fun j hj => not_not.2 (hbehind' j hj)
      obtain rfl : err = err' := Option.some.inj (hself.symm.trans hself')
      exact ⟨hmounts, hcalls, hkeeps⟩
    · cases hmounts.symm.trans hok

/-- A page with three controllers, where the first element has a directive that cannot be read. -/
def haltingSource : String :=
  "<b c='a'><i r='bad'></i></b><p c='b'><u c='a'>\x7b\x7b x \x7d\x7d</u></p>"

/-- Its controllers. -/
def haltingRegistry : Registry :=
  ⟨[("a", [.set "x" (.string "v")]), ("b", [.setData .null])], ⟨"r", "c"⟩⟩

/-- The other two controllers are called before this is found, the inner one first. -/
theorem bootstrap_order_halting : ∃ d, Document.parse haltingSource = .ok d ∧
    elements haltingRegistry.options d = [1, 3, 4] ∧
    (haltingRegistry.bootstrap ⟨d, .empty⟩ []).mounts =
      .error (.invalidRepeat "bad" (some ⟨⟨9, 0, 9⟩, ⟨20, 0, 20⟩⟩)) ∧
    entered (haltingRegistry.bootstrap ⟨d, .empty⟩ []).calls = ["a", "b"] := by
  have hpage : (Document.parse haltingSource).toOption.map (fun d =>
      (elements haltingRegistry.options d, [3, 4].map (nameOf haltingRegistry.options d))) =
      some ([1, 3, 4], ["b", "a"]) := by
    decide +kernel
  have hfaults : (Document.parse haltingSource).toOption.map (fun d =>
      [1, 3, 4].map (fault? haltingRegistry d)) =
      some [some (.invalidRepeat "bad" (some ⟨⟨9, 0, 9⟩, ⟨20, 0, 20⟩⟩)), none, none] := by
    decide +kernel
  obtain ⟨d, hd, hfacts⟩ := Option.map_eq_some_iff.1 hpage
  obtain ⟨helements, hnames⟩ := Prod.mk.inj hfacts
  rw [hd, Option.map_some, Option.some.injEq] at hfaults
  simp only [List.map_cons, List.map_nil, List.cons.injEq, and_true] at hfaults
  obtain ⟨hself, hsecond, hthird⟩ := hfaults
  have hparse := eq_ok_of_toOption hd
  have hbehind : ∀ j ∈ [3, 4], fault? haltingRegistry d j = none := by simp [hsecond, hthird]
  obtain ⟨-, hlast, -⟩ := bootstrap_order hparse haltingRegistry .empty []
  obtain ⟨hmounts, hcalls, -⟩ := hlast [] 1 [3, 4] _ helements hself hbehind
  refine ⟨d, hparse, helements, hmounts, hcalls.trans ?_⟩
  rw [hnames]
  rfl

end PageTemplate.Page
