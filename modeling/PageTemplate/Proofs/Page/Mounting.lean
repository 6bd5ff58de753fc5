/-
**Mounting controllers gives a page what it means.**

Mounting a node binds its content to a new scope, which its controller fills with data, and renders it.
Where this fails, the document, the scopes and what controllers have seen are as they were.
The controllers of a page are mounted from the last one to the first, until some controller is not known
or some directive in its element cannot be read.  How far this goes depends on the page as it was before,
although each element is looked at in a page that those behind it have changed.

Main definitions:

* `PageTemplate.Binding.Registry.obstacle?` — why an element cannot be mounted;
* `PageTemplate.Page.Mounts` — a node has been mounted;
* `PageTemplate.Page.Mounted` — the controllers in some trees have been mounted;
* `PageTemplate.Page.Halted` — mounting them has come to an obstacle;
* `PageTemplate.Page.controllerData` — the data of each controller of a page.

Main results:

* `PageTemplate.Page.mount_error` — where mounting fails everything stays as it was;
* `PageTemplate.Page.mount_eq_error_iff`, `PageTemplate.Page.exists_mounts` — mounting fails exactly where
  there is an obstacle;
* `PageTemplate.Page.exists_mounted`, `PageTemplate.Page.mountAll_halted` — mounting the controllers of some
  trees;
* `PageTemplate.Page.bootstrap_ready`, `PageTemplate.Page.ready_of_bootstrap` — bootstrapping a page.
-/

import PageTemplate.Proofs.Binding.Acting
import PageTemplate.Proofs.Binding.Ownership
import PageTemplate.Proofs.Binding.Remaking
import PageTemplate.Proofs.Binding.Rooms

set_option relaxedAutoImplicit false
set_option autoImplicit false

namespace PageTemplate

open PageTemplate.Data PageTemplate.Diagnostic PageTemplate.Markup PageTemplate.Text

namespace Binding

/-- Why a node with the content `ts` cannot be mounted, if it cannot: its controller is not known, or a
directive in it cannot be read.  The controller is looked for first. -/
def Registry.obstacle? (r : Registry) (name : String) (span : Option Span) (ts : List Tree) :
    Option BindError :=
  if (r.controller? name).isNone then some (.unknownController name span)
  else (Tree.flawsAll r.options.repeatAttribute ts).head?.map fun flaw => .invalidRepeat flaw.1 flaw.2

/-- There is none if the controller is known and each directive can be read. -/
theorem Registry.obstacle?_eq_none_iff {r : Registry} {name : String} {span : Option Span}
    {ts : List Tree} (hts : Tree.ProperAll ts) : r.obstacle? name span ts = none ↔
      r.controller? name ≠ none ∧ Tree.ReadableAll r.options.repeatAttribute ts := by
  rw [obstacle?, ← Tree.flawsAll_eq_nil_iff hts]
  cases r.controller? name <;> simp

end Binding

namespace Page

open PageTemplate.Binding

/-! ### Mounting one node -/

/-- The node `id` has been mounted, which has made its content `ts` the trees `ts'`.  The scope of the
mount binds what the content said, all other scopes have stayed what they are, and the controller has been
called once. -/
structure Mounts (r : Registry) (name : String) (st st' : Stage) (p : Option NodeId) (id : NodeId)
    (kind : NodeKind) (span : Option Span) (ts ts' : List Placed) (seen : List Call) : Prop where
  reshown : Reshown r.options.repeatAttribute
    (Tree.expandAll splitText r.options.repeatAttribute [r.data name])
    st.document st'.document p id kind span ts ts'
  sturdy : st.document.Sturdy → st'.document.Sturdy
  scopes : st.scopes.Extends st'.scopes
  binds : st'.scopes.Binds st.scopes.entries.size
    (Tree.summaryAll r.options.repeatAttribute (ts.map Placed.tree))
  entered : entered seen = [name]
  mount : ∀ calls, r.mount st calls id =
    .ok (st', calls ++ seen, ⟨name, id, st.scopes.entries.size⟩)

section Mount

variable {r : Registry} {st : Stage} {p : Option NodeId} {id : NodeId} {kind : NodeKind}
  {span : Option Span} {ts : List Placed}

/-- **A node that cannot be mounted leaves everything as it was**: the document, what controllers have
seen, and the scopes. -/
theorem mount_error {calls : List Call} {e : Registry.Failure} (h : r.mount st calls id = .error e) :
    e.stage.document = st.document ∧ e.calls = calls ∧ st.scopes.Restored e.stage.scopes := by
  simp only [Registry.mount] at h
  split at h
  · cases h
    exact ⟨rfl, rfl, .refl _⟩
  · split at h
    · cases h
      exact ⟨rfl, rfl, st.scopes.restored_letGo_newRoot .emptyObject⟩
    · cases h

/-- **Mounting a node fails exactly if there is an obstacle.** -/
theorem mount_eq_error_iff (calls : List Call) (err : BindError)
    (h : st.document.Holds p (.node id kind span ts)) (hn : (Placed.node id kind span ts).ids.Nodup) :
    (∃ e, r.mount st calls id = .error e ∧ e.fault = err) ↔
      r.obstacle? (nameOf r.options st.document id) span (ts.map Placed.tree) = some err := by
  have hspan : st.document.span? id = span := by
    have hget := h.get?
    rw [Placed.id_node] at hget
    rw [Document.span?, hget]
    rfl
  have hflaws := invalidRepeat?_eq_flaws r.options.repeatAttribute h hn
  rw [Placed.id_node, Placed.children_node] at hflaws
  simp only [Registry.mount, Registry.obstacle?, ← hflaws]
  rw [← nameOf, hspan]
  cases r.controller? (nameOf r.options st.document id) with
  | none => simp
  | some c =>
      have hcompile := Stage.compile_eq_error_iff r.options.repeatAttribute
        ⟨st.document, (st.scopes.newRoot .emptyObject).1⟩ (st.scopes.newRoot .emptyObject).2 id err
      simp only [Option.isNone_some, Bool.false_eq_true, if_false]
      rw [← hcompile]
      cases (⟨st.document, (st.scopes.newRoot .emptyObject).1⟩ : Stage).compile
        r.options.repeatAttribute (st.scopes.newRoot .emptyObject).2 id <;> simp

/-- A new scope has no directives, and there are no scopes behind it. -/
theorem roomy_newRoot (d : Document) (f : Scopes) (data : Value) :
    Roomy (f.newRoot data).2 d (f.newRoot data).1 := by
  intro x hx r hr
  rcases Nat.eq_or_lt_of_le hx with rfl | hlt
  · rw [Scopes.repeats, f.get?_newRoot data] at hr
    cases hr
  · have hsize : (f.newRoot data).1.entries.size ≤ x := by
      rw [Scopes.newRoot, Array.size_push]
      exact hlt
    rw [Scopes.repeats_of_size_le hsize] at hr
    cases hr

/-- A new scope has nothing in the document. -/
theorem compile_newRoot_eq {mark : String} {d : Document} {f : Scopes} {data : Value} {st' : Stage}
    (h : (⟨d, (f.newRoot data).1⟩ : Stage).compile mark (f.newRoot data).2 id = .ok st') :
    st' = Stage.compileTo mark (d.nodes.size + 1) ⟨d, (f.newRoot data).1⟩ (f.newRoot data).2 id := by
  have hnone : (f.newRoot data).1.repeats (f.newRoot data).2 = [] := by
    rw [Scopes.repeats, f.get?_newRoot data]
    rfl
  rw [Stage.eq_of_compile h]
  simp only [Stage.dismantle, hnone, List.flatMap_nil, List.foldl_nil, List.isEmpty_nil, if_true]

/-- What is compiled to a new scope has room for the copies of its directives. -/
theorem roomy_compile_newRoot {mark : String} {d : Document} {f : Scopes} {data : Value} {st' : Stage}
    (h : (⟨d, (f.newRoot data).1⟩ : Stage).compile mark (f.newRoot data).2 id = .ok st')
    (hd : d.Sturdy) : st'.document.Sturdy ∧ Roomy (f.newRoot data).2 st'.document st'.scopes := by
  refine ⟨stable_sturdy.compile h hd, ?_⟩
  rw [compile_newRoot_eq h]
  exact roomy_compileTo _ _ _ _ _ hd (roomy_newRoot d f data)

/-- Compiling to a new scope, changing it and rendering it leaves the scopes that there were alone. -/
theorem extends_redone {f g : Scopes} {data : Value} {st₁ st' : Stage} {m : Mold} {xs ys : List NodeId}
    {env : Env} (hgrows : (f.newRoot data).1.Grows st₁.scopes (f.newRoot data).2)
    (hg : ∀ x, x ≠ (f.newRoot data).2 → g.get? x = st₁.scopes.get? x)
    (hsettled : Settled g st₁.document p (f.newRoot data).2 m xs)
    (hredone : Redone ⟨st₁.document, g⟩ st' p (f.newRoot data).2 m xs ys env) :
    f.Extends st'.scopes := by
  intro x sc hx
  have hlt : x < (f.newRoot data).2 := Scopes.lt_size_of_get? hx
  have hne : x ≠ (f.newRoot data).2 := Nat.ne_of_lt hlt
  have hbefore : x ∉ (f.newRoot data).2 :: m.scopes := by
    intro hmem
    rcases List.mem_cons.1 hmem with heq | hmem
    · exact hne heq
    · exact Nat.lt_asymm hlt (hsettled.lt hmem)
  have hnew := f.extends_newRoot data x sc hx
  rw [hredone.keeps.get? x hbefore, hg x hne,
    hgrows.get? x (Scopes.lt_size_of_get? hnew) hne, hnew]

/-- **Where there is no obstacle a node can be mounted**, and this shows what its content means with the
data of its controller. -/
theorem exists_mounts (hsound : st.document.Sound)
    (h : st.document.Holds p (.node id kind span ts)) (hn : (Placed.node id kind span ts).ids.Nodup)
    (hts : ∀ t ∈ ts, t.Proper)
    (hclear : r.obstacle? (nameOf r.options st.document id) span (ts.map Placed.tree) = none) :
    ∃ st' ts' seen,
      Mounts r (nameOf r.options st.document id) st st' p id kind span ts ts' seen := by
  obtain ⟨hknown, hread⟩ :=
    (Registry.obstacle?_eq_none_iff (Placed.properAll_iff.1 hts)).1 hclear
  obtain ⟨c, hc⟩ := Option.ne_none_iff_exists'.1 hknown
  have hground : Ground r.options.repeatAttribute st.document p id kind span ts :=
    ⟨hsound, h, hn, (bindable_iff hts).2 hread⟩
  let s := (st.scopes.newRoot .emptyObject).2
  obtain ⟨st₁, items, ys, hok, hcompiled, -⟩ := hground.compile_newRoot st.scopes .emptyObject
  obtain ⟨seen, hseen, hrun⟩ := c.run_eq (nameOf r.options st.document id) s st₁.scopes
  -- the controller changes the data of the scope only
  let filled : Stage := ⟨st₁.document, st₁.scopes.update s fun sc => { sc with data := c.data sc.data }⟩
  obtain ⟨sc, hsc, hdata, hparent⟩ := hcompiled.grows.own _ (st.scopes.get?_newRoot .emptyObject)
  have hget : filled.scopes.get? s = some { sc with data := c.data sc.data } := by
    rw [Scopes.get?_update, if_pos rfl, hsc]
    rfl
  have hsees : filled.scopes.Sees s [r.data (nameOf r.options st.document id)] := by
    have hvalue : r.data (nameOf r.options st.document id) = c.data sc.data := by
      rw [Registry.data, hc, hdata]
      rfl
    rw [hvalue]
    exact .top hget hparent
  have hsettled : Settled filled.scopes filled.document p s (.still id kind span items) ys :=
    hcompiled.settled.update _ fun _ => ⟨rfl, rfl⟩
  obtain ⟨zs, hredone⟩ := hsettled.render hcompiled.sound hsees
  obtain ⟨ts', hreshown⟩ := hcompiled.reshown hredone
  refine ⟨filled.render s, ts', seen, hreshown, fun hsturdy => ?_, ?_,
    hcompiled.binds hredone.settled, hseen, fun calls => ?_⟩
  · obtain ⟨hkept, hroomy⟩ := roomy_compile_newRoot hok hsturdy
    exact hsettled.sturdy_render hkept (hroomy.update s fun _ => rfl)
  · exact extends_redone hcompiled.grows
      (fun x hne => (Scopes.get?_update ..).trans (if_neg hne)) hsettled hredone
  · simp only [Registry.mount]
    rw [← nameOf, hc]
    simp only [hok]
    exact congrArg (fun run : Scopes × List Call => Except.ok
      (({ st₁ with scopes := run.1 } : Stage).render s, run.2, (⟨_, id, s⟩ : Mount))) (hrun calls)

end Mount

/-! ### Mounting the controllers of some trees -/

/-- What the content of an element binds when its controller is mounted, after those in it. -/
def mountSummary (o : Options) (data : String → Value) (ts : List Tree) : Summary :=
  Tree.summaryAll o.repeatAttribute (Tree.mountedAll o data ts)

/-- The name of the controller of an element that is on top of a placed tree. -/
def controllerName (o : Options) (u : Placed) : String :=
  (u.kind.element?.bind (·.attribute? o.controllerAttribute)).getD ""

/-- Each controller in some trees is known, and the directives in it can be read. -/
abbrev Ready (r : Registry) (ts : List Placed) : Prop :=
  Tree.ReadyAll r.options (fun name => r.controller? name ≠ none) (ts.map Placed.tree)

/-- Why the element on top of a placed tree cannot be mounted. -/
def obstacle? (r : Registry) (u : Placed) : Option BindError :=
  r.obstacle? (controllerName r.options u) u.span (u.children.map Placed.tree)

/-- The controllers in the trees `ts` have been mounted, from the last one to the first, which has made
the mounts `made`.  The scopes that there were are what they were, and the controllers have been called
in this order. -/
structure Mounted (r : Registry) (st st' : Stage) (p : Option NodeId) (ts ts' : List Placed)
    (made : List Mount) : Prop where
  remade : Remade r.options r.data st.document st'.document p ts ts'
  scopes : st.scopes.Extends st'.scopes
  binds : List.Forall₂ (fun m u => st'.scopes.Binds m.scope
      (mountSummary r.options r.data (u.children.map Placed.tree)))
    made (ts.flatMap (Placed.carrying r.options.controllerAttribute))
  names : made.map (fun m => (m.name, m.element)) =
    (ts.flatMap (Placed.carrying r.options.controllerAttribute)).map fun u =>
      (controllerName r.options u, u.id)
  run : ∃ seen, entered seen = ((ts.flatMap (Placed.carrying r.options.controllerAttribute)).map
      (controllerName r.options)).reverse ∧
    ∀ calls mounts rest, r.mountAll st calls mounts
        ((ts.flatMap (Placed.carriers r.options.controllerAttribute)).reverse ++ rest) =
      r.mountAll st' (calls ++ seen) (made ++ mounts) rest

/-- Mounting the controllers in some trees has come to an element that cannot be mounted, after those in
`post` and before those in `pre`.  What is in none of those in `post` has been left alone. -/
structure HaltedAt (r : Registry) (d : Document) (calls : List Call) (ts : List Placed)
    (out : Registry.Outcome) (pre : List Placed) (u : Placed) (post : List Placed)
    (err : BindError) : Prop where
  order : ts.flatMap (Placed.carrying r.options.controllerAttribute) = pre ++ u :: post
  obstacle : obstacle? r u = some err
  clear : ∀ v ∈ post, obstacle? r v = none
  mounts : out.mounts = .error err
  entered : entered out.calls =
    entered calls ++ (post.map (controllerName r.options)).reverse
  spares : ∀ i n, d.get? i = some n → (∀ v ∈ post, i ∉ v.ids) → out.stage.document.get? i = some n

/-- Mounting the controllers in some trees has come to an obstacle. -/
def Halted (r : Registry) (d : Document) (calls : List Call) (ts : List Placed)
    (out : Registry.Outcome) : Prop :=
  ∃ pre u post err, HaltedAt r d calls ts out pre u post err

section Mounted

variable {r : Registry} {st st₁ st₂ : Stage} {p : Option NodeId} {id : NodeId}
  {e : Element} {span : Option Span} {ts ts' us us' cs cs' : List Placed} {made made' : List Mount}
  {calls : List Call} {out : Registry.Outcome}

theorem carries_element (name : String) (e : Element) :
    (NodeKind.element e).carries name = e.hasAttribute name := rfl

/-- The elements with a controller in an element: its own, and those below it. -/
theorem carrying_element (name : String) (id : NodeId) (e : Element) (span : Option Span)
    (cs : List Placed) :
    [Placed.node id (.element e) span cs].flatMap (Placed.carrying name) =
      (if e.hasAttribute name then [.node id (.element e) span cs] else []) ++
        cs.flatMap (Placed.carrying name) := by
  rw [List.flatMap_singleton, Placed.carrying_node, carries_element]

/-- The controllers of an element are mounted in this order: those below it, and its own. -/
theorem reverse_carriers (name : String) (id : NodeId) (e : Element) (span : Option Span)
    (cs : List Placed) :
    ([Placed.node id (.element e) span cs].flatMap (Placed.carriers name)).reverse =
      (cs.flatMap (Placed.carriers name)).reverse ++ if e.hasAttribute name then [id] else [] := by
  rw [List.flatMap_singleton, Placed.carriers_node, List.reverse_append, carries_element]
  split <;> rfl

theorem Mounted.append (hus : Mounted r st st₁ p us us' made)
    (hts : Mounted r st₁ st₂ p ts ts' made') (hheld : ∀ t ∈ ts, st.document.Holds p t)
    (hn : ((ts ++ us).flatMap Placed.ids).Nodup) :
    Mounted r st st₂ p (ts ++ us) (ts' ++ us') (made' ++ made) where
  remade := hus.remade.append hts.remade hheld hn
  scopes := hus.scopes.trans hts.scopes
  binds := by
    rw [List.flatMap_append]
    exact List.rel_append hts.binds (hus.binds.imp fun _ _ h => h.mono hts.scopes)
  names := by rw [List.flatMap_append, List.map_append, List.map_append, hts.names, hus.names]
  run := by
    obtain ⟨first, hfirst, hrun⟩ := hus.run
    obtain ⟨later, hlater, hrun'⟩ := hts.run
    refine ⟨first ++ later, ?_, fun calls mounts rest => ?_⟩
    · rw [entered_append, hfirst, hlater, List.flatMap_append, List.map_append, List.reverse_append]
    · rw [List.flatMap_append, List.reverse_append, List.append_assoc, hrun, hrun', List.append_assoc,
        List.append_assoc]

/-- The own controller of an element can be mounted when those below it have been, if it could before. -/
theorem Mounted.ground (h : Mounted r st st₁ (some id) cs cs' made)
    (hheld : st.document.Holds p (.node id (.element e) span cs))
    (hn : (Placed.node id (.element e) span cs).ids.Nodup) (hcs : ∀ c ∈ cs, c.Proper)
    (hready : Ready r cs) :
    (∀ c ∈ cs', c.Proper) ∧ st₁.document.Holds p (.node id (.element e) span cs') ∧
      (Placed.node id (.element e) span cs').ids.Nodup ∧
      r.obstacle? (nameOf r.options st₁.document id) span (cs'.map Placed.tree) =
        obstacle? r (.node id (.element e) span cs) := by
  have hproper : Tree.ProperAll (cs'.map Placed.tree) := by
    rw [h.remade.trees]
    exact Tree.properAll_mountedAll (Placed.properAll_iff.1 hcs)
  obtain ⟨hholds, hnodup⟩ := h.remade.holds_node hheld hn
  refine ⟨Placed.properAll_iff.2 hproper, hholds, hnodup, ?_⟩
  rw [nameOf, controller_of_holds _ hholds, h.remade.trees, Registry.obstacle?, Tree.flawsAll_mountedAll hready]
  rfl

/-- The own controller of an element is mounted behind those below it. -/
theorem Mounted.own {cs'' : List Placed} {later : List Call}
    (h : Mounted r st st₁ (some id) cs cs' made)
    (he : e.hasAttribute r.options.controllerAttribute = true)
    (hmounts : Mounts r (e.controller r.options) st₁ st₂ p id (.element e) span cs' cs'' later) :
    Mounted r st st₂ p [.node id (.element e) span cs] [.node id (.element e) span cs'']
      (⟨e.controller r.options, id, st₁.scopes.entries.size⟩ :: made) := by
  obtain ⟨first, hfirst, hrun⟩ := h.run
  have hcarrying := carrying_element r.options.controllerAttribute id e span cs
  rw [if_pos he, List.singleton_append] at hcarrying
  have hremade : Tree.remade r.options r.data e = Tree.expandAll splitText
      r.options.repeatAttribute [r.data (e.controller r.options)] := by
    funext us
    rw [Tree.remade, if_pos he]
  refine ⟨h.remade.node ?_ fun hplain => ?_, h.scopes.trans hmounts.scopes, ?_, ?_, first ++ later, ?_,
    fun calls mounts rest => ?_⟩
  · rw [hremade]
    exact hmounts.reshown
  · rw [he] at hplain
    cases hplain
  · rw [hcarrying]
    refine .cons ?_ (h.binds.imp fun _ _ hb => hb.mono hmounts.scopes)
    rw [mountSummary, Placed.children_node, ← h.remade.trees]
    exact hmounts.binds
  · rw [hcarrying, List.map_cons, List.map_cons, h.names]
    rfl
  · rw [hcarrying, entered_append, hfirst, hmounts.entered, List.map_cons, List.reverse_cons]
    rfl
  · rw [reverse_carriers, if_pos he, List.append_assoc, List.singleton_append, hrun,
      Registry.mountAll, hmounts.mount, List.append_assoc, List.cons_append]

/-- An element without a controller is mounted when its content is. -/
theorem Mounted.plain (h : Mounted r st st₁ (some id) cs cs' made)
    (he : ¬e.hasAttribute r.options.controllerAttribute = true)
    (hholds : st₁.document.Holds p (.node id (.element e) span cs'))
    (hnodup : (Placed.node id (.element e) span cs').ids.Nodup) :
    Mounted r st st₁ p [.node id (.element e) span cs] [.node id (.element e) span cs'] made := by
  have hcarrying := carrying_element r.options.controllerAttribute id e span cs
  rw [if_neg he, List.nil_append] at hcarrying
  have hremade : Tree.remade r.options r.data e = fun us => us := by
    funext us
    rw [Tree.remade, if_neg he]
  refine ⟨h.remade.node ?_ fun _ => rfl, h.scopes, ?_, ?_, ?_⟩
  · rw [hremade]
    exact .refl h.remade.sound hholds hnodup
  · rw [hcarrying]
    exact h.binds
  · rw [hcarrying]
    exact h.names
  · rw [hcarrying, reverse_carriers, if_neg he, List.append_nil]
    exact h.run

/-- **The own controller of an element comes last.** -/
theorem Mounted.node (h : Mounted r st st₁ (some id) cs cs' made)
    (hheld : st.document.Holds p (.node id (.element e) span cs))
    (hn : (Placed.node id (.element e) span cs).ids.Nodup) (hcs : ∀ c ∈ cs, c.Proper)
    (hself : e.hasAttribute r.options.controllerAttribute = true →
      obstacle? r (.node id (.element e) span cs) = none) (hready : Ready r cs) :
    ∃ st₂ ts' made', Mounted r st st₂ p [.node id (.element e) span cs] ts' made' := by
  obtain ⟨hproper, hholds, hnodup, hobstacle⟩ := h.ground hheld hn hcs hready
  by_cases he : e.hasAttribute r.options.controllerAttribute = true
  · obtain ⟨st₂, cs'', later, hmounts⟩ :=
      exists_mounts h.remade.sound hholds hnodup hproper (hobstacle.trans (hself he))
    rw [nameOf, controller_of_holds _ hholds] at hmounts
    exact ⟨st₂, _, _, h.own he hmounts⟩
  · exact ⟨st₁, _, _, h.plain he hholds hnodup⟩

/-- Where there are no trees there are no controllers. -/
theorem Mounted.nil (hsound : st.document.Sound) : Mounted r st st p [] [] [] where
  remade := .nil hsound
  scopes := .refl _
  binds := .nil
  names := rfl
  run := ⟨[], rfl, fun calls _ _ => by rw [List.append_nil]; rfl⟩

/-- A node without children has no controllers. -/
theorem Mounted.leaf {kind : NodeKind} (hk : kind.element? = none) (hsound : st.document.Sound)
    (hheld : st.document.Holds p (.node id kind span [])) :
    Mounted r st st p [.node id kind span []] [.node id kind span []] [] := by
  have hcarrying : [Placed.node id kind span []].flatMap
      (Placed.carrying r.options.controllerAttribute) = [] := by
    rw [List.flatMap_singleton, Placed.carrying_node]
    simp [NodeKind.carries, hk]
  refine ⟨.leaf hk hsound hheld, .refl _, ?_, ?_, [], ?_, fun calls mounts rest => ?_⟩
  · rw [hcarrying]
    exact .nil
  · rw [hcarrying]
    rfl
  · rw [hcarrying]
    rfl
  · rw [← Placed.map_id_carrying, hcarrying, List.append_nil]
    rfl

/-- **Known controllers whose directives can be read can be mounted**, from the last one to the
first. -/
theorem exists_mounted (hsound : st.document.Sound)
    (hts : ∀ t ∈ ts, t.Proper ∧ st.document.Holds p t) (hn : (ts.flatMap Placed.ids).Nodup)
    (hready : Ready r ts) : ∃ st' ts' made, Mounted r st st' p ts ts' made := by
  induction ts using Placed.forest_induction generalizing st p with
  | nil => exact ⟨st, [], [], .nil hsound⟩
  | cons id kind span cs ts ihcs ihts =>
      have hn' := hn
      rw [List.flatMap_cons] at hn'
      obtain ⟨hnode, hbehind, hdis⟩ := List.nodup_append.1 hn'
      obtain ⟨st₁, us', behind, hus⟩ := ihts hsound (fun t ht => hts t (List.mem_cons_of_mem _ ht))
        hbehind hready.2
      obtain ⟨hproper, hheld⟩ := hts _ (List.mem_cons_self ..)
      -- the trees behind have been mounted, and the node is still there
      have hheld₁ : st₁.document.Holds p (.node id kind span cs) :=
        hus.remade.holds_of hheld fun i hi hib => hdis i hi i hib rfl
      have hone : ∃ st₂ ts' made, Mounted r st₁ st₂ p [.node id kind span cs] ts' made := by
        have hready₁ := hready.1
        rw [Placed.tree_node] at hready₁
        cases hproper with
        | element _ e _ hcs =>
            have hchildren : (cs.flatMap Placed.ids).Nodup := by
              rw [Placed.ids_node, List.nodup_cons] at hnode
              exact hnode.2
            obtain ⟨st₂, cs', below, hbelow⟩ := ihcs hus.remade.sound
              (fun c hc => ⟨hcs c hc, hheld₁.child hc⟩) hchildren hready₁.2
            refine hbelow.node hheld₁ hnode hcs (fun he => ?_) hready₁.2
            exact (Registry.obstacle?_eq_none_iff (Placed.properAll_iff.1 hcs)).2 (hready₁.1 he)
        | text | comment | doctype => exact ⟨st₁, _, [], .leaf rfl hus.remade.sound hheld₁⟩
      obtain ⟨st₂, ts', made, hone⟩ := hone
      refine ⟨st₂, _, _, hus.append hone (fun t ht => ?_) hn⟩
      rw [List.mem_singleton.1 ht]
      exact hheld

/-- In trees that are ready there is no obstacle. -/
theorem ready_iff (hts : ∀ t ∈ ts, t.Proper) : Ready r ts ↔
    ∀ u ∈ ts.flatMap (Placed.carrying r.options.controllerAttribute), obstacle? r u = none := by
  induction ts using Placed.forest_induction with
  | nil => exact iff_of_true trivial nofun
  | cons id kind span cs ts ihcs ihts =>
      have hrest := ihts fun t ht => hts t (List.mem_cons_of_mem _ ht)
      rw [List.flatMap_cons, List.forall_mem_append, ← hrest, Ready, List.map_cons, Placed.tree_node]
      refine and_congr_left fun _ => ?_
      cases hts _ (List.mem_cons_self ..) with
      | element _ e _ hcs =>
          rw [Placed.carrying_node, List.forall_mem_append, ← ihcs hcs, carries_element]
          refine and_congr_left fun _ => ?_
          have hself : obstacle? r (.node id (.element e) span cs) = none ↔ _ :=
            Registry.obstacle?_eq_none_iff (Placed.properAll_iff.1 hcs)
          by_cases he : e.hasAttribute r.options.controllerAttribute = true
          · rw [if_pos he, List.forall_mem_singleton, hself]
            exact ⟨fun h => h he, fun h _ => h⟩
          · rw [if_neg he]
            exact iff_of_true (fun h => absurd h he) nofun
      | text | comment | doctype =>
          refine iff_of_true rfl ?_
          simp [Placed.carrying_node, NodeKind.carries, NodeKind.element?]

/-! ### Coming to an obstacle -/

/-- The trees before those where mounting halts do not matter. -/
theorem Halted.behind (h : Halted r st.document calls us out) (ts : List Placed) :
    Halted r st.document calls (ts ++ us) out := by
  obtain ⟨pre, u, post, err, h⟩ := h
  refine ⟨ts.flatMap (Placed.carrying r.options.controllerAttribute) ++ pre, u, post, err, ?_,
    h.obstacle, h.clear, h.mounts, h.entered, h.spares⟩
  rw [List.flatMap_append, h.order, List.append_assoc]

/-- Neither does the own controller of an element in which mounting halts. -/
theorem Halted.below (h : Halted r st.document calls cs out) (id : NodeId) (e : Element)
    (span : Option Span) : Halted r st.document calls [.node id (.element e) span cs] out := by
  obtain ⟨pre, u, post, err, h⟩ := h
  refine ⟨(if e.hasAttribute r.options.controllerAttribute then [.node id (.element e) span cs] else []) ++
    pre, u, post, err, ?_, h.obstacle, h.clear, h.mounts, h.entered, h.spares⟩
  rw [carrying_element, h.order, List.append_assoc]

/-- The trees behind those where mounting halts have been mounted before. -/
theorem Halted.ahead {seen : List Call} (h : Halted r st₁.document (calls ++ seen) ts out)
    (hus : Mounted r st st₁ p us us' made) (hready : Ready r us) (hproper : ∀ u ∈ us, u.Proper)
    (hseen : entered seen = ((us.flatMap (Placed.carrying r.options.controllerAttribute)).map
      (controllerName r.options)).reverse) : Halted r st.document calls (ts ++ us) out := by
  obtain ⟨pre, u, post, err, h⟩ := h
  refine ⟨pre, u, post ++ us.flatMap (Placed.carrying r.options.controllerAttribute), err, ?_,
    h.obstacle, ?_, h.mounts, ?_, fun i n hi hpost => ?_⟩
  · rw [List.flatMap_append, h.order, List.append_assoc, List.cons_append]
  · exact List.forall_mem_append.2 ⟨h.clear, (ready_iff hproper).1 hready⟩
  · rw [h.entered, entered_append, hseen, List.append_assoc, List.map_append, List.reverse_append]
  · rw [List.forall_mem_append] at hpost
    exact h.spares i n (hus.remade.spares i n hi hpost.2) hpost.1

/-- Mounting goes no further than the first fault. -/
theorem mountAll_error {failure : Registry.Failure} (h : r.mount st calls id = .error failure)
    (mounts : List Mount) (rest : List NodeId) :
    (r.mountAll st calls mounts (id :: rest)).mounts = .error failure.fault ∧
      (r.mountAll st calls mounts (id :: rest)).calls = calls ∧
      (r.mountAll st calls mounts (id :: rest)).stage.document = st.document := by
  obtain ⟨hdocument, hcalls, -⟩ := mount_error h
  rw [Registry.mountAll, h]
  exact ⟨rfl, hcalls, hdocument⟩

/-- **Mounting halts at the own controller of an element** if those below it have been mounted and it
cannot be. -/
theorem Mounted.halted (h : Mounted r st st₁ (some id) cs cs' made)
    (hheld : st.document.Holds p (.node id (.element e) span cs))
    (hn : (Placed.node id (.element e) span cs).ids.Nodup) (hcs : ∀ c ∈ cs, c.Proper)
    (he : e.hasAttribute r.options.controllerAttribute = true) {err : BindError}
    (hself : obstacle? r (.node id (.element e) span cs) = some err) (hready : Ready r cs)
    (calls : List Call) (mounts : List Mount) (rest : List NodeId) :
    Halted r st.document calls [.node id (.element e) span cs]
      (r.mountAll st calls mounts (([Placed.node id (.element e) span cs].flatMap
        (Placed.carriers r.options.controllerAttribute)).reverse ++ rest)) := by
  obtain ⟨-, hholds, hnodup, hobstacle⟩ := h.ground hheld hn hcs hready
  obtain ⟨seen, hseen, hrun⟩ := h.run
  obtain ⟨failure, hfails, rfl⟩ :=
    (mount_eq_error_iff (calls ++ seen) err hholds hnodup).2 (hobstacle.trans hself)
  obtain ⟨hmounts, hcalls, hdocument⟩ := mountAll_error hfails (made ++ mounts) rest
  have hcarrying := carrying_element r.options.controllerAttribute id e span cs
  rw [if_pos he, List.singleton_append] at hcarrying
  rw [reverse_carriers, if_pos he, List.append_assoc, List.singleton_append, hrun]
  refine ⟨[], _, _, _, hcarrying, hself, (ready_iff hcs).1 hready, hmounts, ?_, fun i n hi hpost => ?_⟩
  · rw [hcalls, entered_append, hseen]
  · rw [hdocument]
    exact h.remade.spares i n hi hpost

/-- **Mounting the controllers in some trees halts if one of them is not ready**, and it does so at the last
obstacle.  What obstacles there are can be seen before. -/
theorem mountAll_halted (hsound : st.document.Sound)
    (hts : ∀ t ∈ ts, t.Proper ∧ st.document.Holds p t) (hn : (ts.flatMap Placed.ids).Nodup)
    (hready : ¬Ready r ts) (calls : List Call) (mounts : List Mount) (rest : List NodeId) :
    Halted r st.document calls ts (r.mountAll st calls mounts
      ((ts.flatMap (Placed.carriers r.options.controllerAttribute)).reverse ++ rest)) := by
  induction ts using Placed.forest_induction generalizing st p calls mounts rest with
  | nil => exact absurd trivial hready
  | cons id kind span cs ts ihcs ihts =>
      rw [List.flatMap_cons] at hn
      obtain ⟨hnode, hbehind, hdis⟩ := List.nodup_append.1 hn
      have hts' : ∀ t ∈ ts, t.Proper ∧ st.document.Holds p t :=
        fun t ht => hts t (List.mem_cons_of_mem _ ht)
      have hone : Placed.node id kind span cs :: ts = [.node id kind span cs] ++ ts := rfl
      rw [hone, List.flatMap_append, List.reverse_append, List.append_assoc]
      by_cases hrest : Ready r ts
      · -- the trees behind go well, so that the first tree does not
        obtain ⟨st₁, us', made, hus⟩ := exists_mounted hsound hts' hbehind hrest
        obtain ⟨seen, hseen, hrun⟩ := hus.run
        obtain ⟨hproper, hheld⟩ := hts _ (List.mem_cons_self ..)
        have hheld₁ : st₁.document.Holds p (.node id kind span cs) :=
          hus.remade.holds_of hheld fun i hi hib => hdis i hi i hib rfl
        rw [hrun]
        refine Halted.ahead ?_ hus hrest (fun t ht => (hts' t ht).1) hseen
        have hfirst := fun h => hready ⟨h, hrest⟩
        rw [Placed.tree_node] at hfirst
        cases hproper with
        | element _ e _ hcs =>
            have hchildren : (cs.flatMap Placed.ids).Nodup := by
              rw [Placed.ids_node, List.nodup_cons] at hnode
              exact hnode.2
            have hcs' : ∀ c ∈ cs, c.Proper ∧ st₁.document.Holds (some id) c :=
              fun c hc => ⟨hcs c hc, hheld₁.child hc⟩
            by_cases hbelow : Ready r cs
            · -- what is below goes well too, so that the own controller does not
              obtain ⟨st₂, cs', made', hmounted⟩ :=
                exists_mounted hus.remade.sound hcs' hchildren hbelow
              obtain ⟨he, hself⟩ := Classical.not_imp.1 fun h => hfirst ⟨h, hbelow⟩
              have hobstacle : obstacle? r (.node id (.element e) span cs) ≠ none := fun hnone =>
                hself ((Registry.obstacle?_eq_none_iff (Placed.properAll_iff.1 hcs)).1 hnone)
              obtain ⟨err, herr⟩ := Option.ne_none_iff_exists'.1 hobstacle
              exact hmounted.halted hheld₁ hnode hcs he herr hbelow _ _ _
            · rw [reverse_carriers, List.append_assoc]
              exact (ihcs hus.remade.sound hcs' hchildren hbelow _ _ _).below id e span
        | text | comment | doctype => exact absurd rfl hfirst
      · exact (ihts hsound hts' hbehind hrest _ _ _).behind _

end Mounted

/-! ### The elements of a page -/

section Held

variable {o : Options} {d : Document} {cs : List Placed} {span : Option Span} {p : Option NodeId}

theorem elements_of_holds (hheld : d.Holds p (.node Document.root .document span cs))
    (hn : (Placed.node Document.root .document span cs).ids.Nodup) :
    elements o d = (cs.flatMap (Placed.carrying o.controllerAttribute)).map Placed.id := by
  rw [Placed.map_id_carrying]
  exact hheld.elementsWithAttribute hn _

/-- What an element with a controller is in the document. -/
theorem of_mem_carrying (hheld : d.Holds p (.node Document.root .document span cs))
    (hn : (Placed.node Document.root .document span cs).ids.Nodup) {u : Placed}
    (hu : u ∈ cs.flatMap (Placed.carrying o.controllerAttribute)) :
    nameOf o d u.id = controllerName o u ∧ d.span? u.id = u.span ∧
      d.subtrees u.id = u.children.map Placed.tree := by
  rw [Placed.ids_node, List.nodup_cons] at hn
  obtain ⟨q, hq, hnodup, -⟩ := Document.Holds.of_carrying (fun c hc => hheld.child hc) hn.2 hu
  refine ⟨?_, ?_, hq.subtrees hnodup⟩
  · rw [nameOf, Document.attribute?, hq.element?, controllerName]
  · rw [Document.span?, hq.get?]
    rfl

end Held

/-! ### Bootstrapping -/

section Bootstrap

variable {r : Registry} {o : Options} {fields : Fields} {d : Document} {p : Option NodeId}
  {span : Option Span} {ts cs : List Placed} (f : Scopes) (calls : List Call)

/-- The controllers of a page, from the last one to the first. -/
theorem bootstrap_eq (r : Registry) (hheld : d.Holds p (.node Document.root .document span cs))
    (hn : (Placed.node Document.root .document span cs).ids.Nodup) :
    r.bootstrap ⟨d, f⟩ calls = r.mountAll ⟨d, f⟩ calls []
      ((cs.flatMap (Placed.carriers r.options.controllerAttribute)).reverse ++ []) := by
  rw [List.append_nil, Registry.bootstrap]
  exact congrArg (fun is => Registry.mountAll _ _ _ _ (List.reverse is))
    (hheld.elementsWithAttribute hn r.options.controllerAttribute)

/-- The data of the controller with a name, where each field of the data of a page is one. -/
def controllerData (fields : Fields) (name : String) : Value :=
  ((fields.get? name).getD .null).objectOrEmpty

theorem controller?_registryOf (o : Options) (fields : Fields) (name : String) :
    (registryOf o (.object fields)).controller? name =
      (fields.get? name).map fun v => [.setData v] := by
  simp [registryOf, Registry.controller?, Value.fields?, Fields.get?, List.find?_map,
    Function.comp_def]

theorem data_registryOf (o : Options) (fields : Fields) :
    (registryOf o (.object fields)).data = controllerData fields := by
  funext name
  rw [Registry.data, controller?_registryOf, controllerData]
  cases fields.get? name <;> rfl

/-- The controllers of a page are known if they are fields of its data. -/
theorem ready_registryOf : Ready (registryOf o (.object fields)) ts ↔
    Tree.ReadyAll o (fun name => fields.get? name ≠ none) (ts.map Placed.tree) := by
  have hknown : (fun name => (registryOf o (.object fields)).controller? name ≠ none) =
      fun name => fields.get? name ≠ none := by
    funext name
    rw [controller?_registryOf, ne_eq, Option.map_eq_none_iff]
  rw [Ready, hknown]
  rfl

/-- The elements in some trees whose controllers are not known, in document order. -/
def strays (o : Options) (fields : Fields) (ts : List Placed) : List Placed :=
  (ts.flatMap (Placed.carrying o.controllerAttribute)).filter
    fun u => (fields.get? (controllerName o u)).isNone

/-- What is in an element in which directives can be read can be read. -/
theorem readable_carrying {mark : String} (hread : Tree.ReadableAll mark (ts.map Placed.tree))
    (name : String) :
    ∀ u ∈ ts.flatMap (Placed.carrying name),
      Tree.ReadableAll mark (u.children.map Placed.tree) := by
  induction ts using Placed.forest_induction with
  | nil => nofun
  | cons id kind span cs ts ihcs ihts =>
      intro u hu
      rw [List.map_cons, Placed.tree_node] at hread
      rw [List.flatMap_cons, List.mem_append, Placed.carrying_node, List.mem_append] at hu
      cases kind with
      | element e =>
          rcases hu with (hu | hu) | hu
          · split at hu
            · rw [List.mem_singleton.1 hu]
              exact hread.1.2
            · cases hu
          · exact ihcs hread.1.2 u hu
          · exact ihts hread.2 u hu
      | document => exact hread.1.elim
      | text | comment | doctype =>
          obtain rfl : cs = [] := List.map_eq_nil_iff.1 hread.1
          rcases hu with (hu | hu) | hu
          · cases hu
          · cases hu
          · exact ihts hread.2 u hu

/-- If the directives can be read, only a controller that is not known is an obstacle. -/
theorem obstacle?_of_readable {u : Placed}
    (hread : Tree.ReadableAll o.repeatAttribute (u.children.map Placed.tree)) :
    obstacle? (registryOf o (.object fields)) u =
      if (fields.get? (controllerName o u)).isNone then
        some (.unknownController (controllerName o u) u.span) else none := by
  have hproper : Tree.ProperAll (u.children.map Placed.tree) := hread.mono fun _ _ _ => trivial
  have hflaws := (Tree.flawsAll_eq_nil_iff hproper).2 hread
  rw [obstacle?, Registry.obstacle?, controller?_registryOf, Option.isNone_map,
    show (registryOf o (.object fields)).options = o from rfl, hflaws, List.head?_nil,
    Option.map_none]

/-- If the directives in proper trees can be read, only controllers that are not known are missing. -/
theorem readyAll_iff (hts : ∀ t ∈ ts, t.Proper)
    (hread : Tree.ReadableAll o.repeatAttribute (ts.map Placed.tree)) :
    Tree.ReadyAll o (fun name => fields.get? name ≠ none) (ts.map Placed.tree) ↔
      strays o fields ts = [] := by
  rw [← ready_registryOf, ready_iff hts, strays, List.filter_eq_nil_iff]
  refine forall₂_congr fun u hu => ?_
  rw [obstacle?_of_readable (readable_carrying hread _ u hu)]
  cases fields.get? (controllerName o u) <;> simp

/-- **A page can be bootstrapped exactly if its controllers are known and the directives in them
can be read**, and this makes it what it means.  There is a mount for each controller, whose scope binds
what the content of its element says. -/
theorem bootstrap_ready (hsound : d.Sound)
    (hheld : d.Holds p (.node Document.root .document span cs))
    (hn : (Placed.node Document.root .document span cs).ids.Nodup) (hcs : ∀ c ∈ cs, c.Proper)
    (hready : Tree.ReadyAll o (fun name => fields.get? name ≠ none) (cs.map Placed.tree)) :
    ∃ mounts cs',
      ((registryOf o (.object fields)).bootstrap ⟨d, f⟩ calls).mounts = .ok mounts ∧
      Remade o (controllerData fields) d
        ((registryOf o (.object fields)).bootstrap ⟨d, f⟩ calls).stage.document
        (some Document.root) cs cs' ∧
      List.Forall₂ (fun m u =>
          ((registryOf o (.object fields)).bootstrap ⟨d, f⟩ calls).stage.scopes.Binds m.scope
            (mountSummary o (controllerData fields) (u.children.map Placed.tree)))
        mounts (cs.flatMap (Placed.carrying o.controllerAttribute)) := by
  have hchildren : (cs.flatMap Placed.ids).Nodup := by
    rw [Placed.ids_node, List.nodup_cons] at hn
    exact hn.2
  have hsound' : (⟨d, f⟩ : Stage).document.Sound := hsound
  obtain ⟨st', cs', made, hmounted⟩ := exists_mounted hsound'
    (fun c hc => ⟨hcs c hc, hheld.child hc⟩) hchildren (ready_registryOf.2 hready)
  obtain ⟨seen, -, hrun⟩ := hmounted.run
  have hout : (registryOf o (.object fields)).bootstrap ⟨d, f⟩ calls =
      ⟨st', calls ++ seen, .ok made⟩ := by
    rw [bootstrap_eq f calls _ hheld hn, hrun, List.append_nil]
    rfl
  have hremade := hmounted.remade
  have hbinds := hmounted.binds
  rw [data_registryOf] at hremade hbinds
  rw [hout]
  exact ⟨made, cs', rfl, hremade, hbinds⟩

/-- What cannot be bootstrapped comes to an obstacle. -/
theorem bootstrap_halted (r : Registry) (hsound : d.Sound)
    (hheld : d.Holds p (.node Document.root .document span cs))
    (hn : (Placed.node Document.root .document span cs).ids.Nodup) (hcs : ∀ c ∈ cs, c.Proper)
    (hready : ¬Ready r cs) : Halted r d calls cs (r.bootstrap ⟨d, f⟩ calls) := by
  have hchildren : (cs.flatMap Placed.ids).Nodup := by
    rw [Placed.ids_node, List.nodup_cons] at hn
    exact hn.2
  have hsound' : (⟨d, f⟩ : Stage).document.Sound := hsound
  rw [bootstrap_eq f calls r hheld hn]
  exact mountAll_halted hsound' (fun c hc => ⟨hcs c hc, hheld.child hc⟩) hchildren hready calls [] []

/-- What cannot be bootstrapped fails, and if all directives can be read, the fault is that of the last
controller that is not known. -/
theorem bootstrap_fails (hsound : d.Sound)
    (hheld : d.Holds p (.node Document.root .document span cs))
    (hn : (Placed.node Document.root .document span cs).ids.Nodup) (hcs : ∀ c ∈ cs, c.Proper)
    (hready : ¬Tree.ReadyAll o (fun name => fields.get? name ≠ none) (cs.map Placed.tree)) :
    ∃ err, ((registryOf o (.object fields)).bootstrap ⟨d, f⟩ calls).mounts = .error err ∧
      (Tree.ReadableAll o.repeatAttribute (cs.map Placed.tree) →
        ∃ u, (strays o fields cs).getLast? = some u ∧
          err = .unknownController (controllerName o u) u.span) := by
  obtain ⟨pre, u, post, err, h⟩ := bootstrap_halted f calls (registryOf o (.object fields)) hsound hheld
    hn hcs fun h => hready (ready_registryOf.1 h)
  refine ⟨err, h.mounts, fun hread => ?_⟩
  have horder : cs.flatMap (Placed.carrying o.controllerAttribute) = pre ++ u :: post := h.order
  have hcontent := readable_carrying hread o.controllerAttribute
  rw [horder, List.forall_mem_append, List.forall_mem_cons] at hcontent
  -- the controllers behind are known
  have hpost : post.filter (fun v => (fields.get? (controllerName o v)).isNone) = [] := by
    rw [List.filter_eq_nil_iff]
    intro v hv hnone
    have hclear := h.clear v hv
    rw [obstacle?_of_readable (hcontent.2.2 v hv), if_pos hnone] at hclear
    cases hclear
  have hobstacle := h.obstacle
  rw [obstacle?_of_readable hcontent.2.1] at hobstacle
  split at hobstacle
  · next hnone =>
      refine ⟨u, ?_, (Option.some.inj hobstacle).symm⟩
      rw [strays, horder, List.filter_append, List.filter_cons, if_pos hnone, hpost,
        List.getLast?_append, List.getLast?_singleton, Option.some_or]
  · cases hobstacle

/-- What can be bootstrapped is ready for it. -/
theorem ready_of_bootstrap (hsound : d.Sound)
    (hheld : d.Holds p (.node Document.root .document span cs))
    (hn : (Placed.node Document.root .document span cs).ids.Nodup) (hcs : ∀ c ∈ cs, c.Proper)
    {mounts : List Mount}
    (hok : ((registryOf o (.object fields)).bootstrap ⟨d, f⟩ calls).mounts = .ok mounts) :
    Tree.ReadyAll o (fun name => fields.get? name ≠ none) (cs.map Placed.tree) := by
  by_contra hready
  obtain ⟨err, herr, -⟩ := bootstrap_fails f calls hsound hheld hn hcs hready
  rw [herr] at hok
  cases hok

end Bootstrap

end Page

end PageTemplate
