/-
**Compiling finds everything once.**

Any node of a page that has been read can be bound to a scope.  What this scope binds is what the trees
below the node say: no placeholder and no directive is skipped, is bound twice or is bound to another
scope.  This stays so, whatever is done with the scope.

Main definitions:

* `PageTemplate.Binding.Moored` — a part of a document is bound to a scope by a mold.

Main results:

* `PageTemplate.Document.Holds.exists_of_mem` — each node of a held tree is on top of one;
* `PageTemplate.Binding.Moored.run` — a part of a document stays bound, whatever is done with the scope;
* `PageTemplate.Page.summary_of_compile` — what is bound below a node is what the trees say.
-/

import PageTemplate.Proofs.Binding.Bindings
import PageTemplate.Proofs.Page.Installed
import PageTemplate.Proofs.Page.Mounting

set_option relaxedAutoImplicit false
set_option autoImplicit false

namespace PageTemplate

open PageTemplate.Data PageTemplate.Markup PageTemplate.Text

/-! ### Parts of a held tree -/

/-- Each node of a held tree is on top of a tree, whose children are proper if those of the whole are. -/
theorem Document.Holds.exists_of_mem {d : Document} {p : Option NodeId} {t : Placed} {x : NodeId}
    (h : d.Holds p t) (hn : t.ids.Nodup) (hcs : ∀ c ∈ t.children, c.Proper) (hx : x ∈ t.ids) :
    ∃ q kind span ts, d.Holds q (.node x kind span ts) ∧ (Placed.node x kind span ts).ids.Nodup ∧
      ∀ c ∈ ts, c.Proper := by
  induction t generalizing p with
  | node id kind span cs ih =>
      rw [Placed.ids_node, List.mem_cons] at hx
      rcases hx with rfl | hx
      · exact ⟨p, kind, span, cs, h, hn, hcs⟩
      · obtain ⟨c, hc, hx⟩ := List.mem_flatMap.1 hx
        refine ih c hc (h.child hc) (Placed.nodup_child hn hc) (fun u hu => ?_) hx
        cases hcs c hc with
        | element _ _ _ hus => exact hus u hu
        | text | comment | doctype => cases hu

namespace Binding

/-! ### A bound part of a document -/

/-- A part of a document is bound to the scope `s` by a mold. -/
structure Moored (st : Stage) (s : ScopeId) (p : Option NodeId) (m : Mold) : Prop where
  sound : st.document.Sound
  sees : ∃ env, st.scopes.Sees s env
  settled : ∃ xs, Settled st.scopes st.document p s m xs

variable {st : Stage} {s : ScopeId} {p : Option NodeId} {m : Mold}

/-- New data leave it bound. -/
theorem Moored.update (h : Moored st s p m) (k : Scope → Scope)
    (hk : ∀ sc, (k sc).parent = sc.parent ∧ (k sc).slots = sc.slots ∧ (k sc).repeats = sc.repeats) :
    Moored { st with scopes := st.scopes.update s k } s p m where
  sound := h.sound
  sees := by
    obtain ⟨env, hsees⟩ := h.sees
    exact hsees.update fun sc => (hk sc).1
  settled := by
    obtain ⟨xs, hsettled⟩ := h.settled
    exact ⟨xs, hsettled.update k fun sc => (hk sc).2⟩

/-- What is done with the scope leaves it bound. -/
theorem Moored.change (h : Moored st s p m) (c : Change) : Moored (c.run s st) s p m := by
  rcases Change.run_cases s st c with hrun | ⟨k, hrun, hk, -⟩
  · rw [hrun]
    obtain ⟨env, hsees⟩ := h.sees
    obtain ⟨xs, hsettled⟩ := h.settled
    obtain ⟨ys, hredone⟩ := hsettled.render h.sound hsees
    exact ⟨hredone.sound, ⟨env, hredone.sees hsettled hsees⟩, ys, hredone.settled⟩
  · rw [hrun]
    exact h.update k hk

/-- **A part of a document stays bound**, whatever is done with the scope. -/
theorem Moored.run (h : Moored st s p m) (changes : List Change) :
    Moored (Change.runAll s st changes) s p m :=
  Change.runAll_keeps (P := (Moored · s p m)) (fun _ c h => h.change c) h changes

/-- What has been compiled binds what the trees said, whatever is done with the scope. -/
theorem Compiled.binds_run {mark : String} {st₀ : Stage} {id : NodeId} {kind : NodeKind}
    {span : Option Span} {ts : List Placed} {items : List Mold} {ys : List NodeId} {env : Env}
    (h : Compiled mark st₀ st p s id kind span ts items ys) (hsees : st.scopes.Sees s env)
    (changes : List Change) :
    (Change.runAll s st changes).scopes.Binds s (Tree.summaryAll mark (ts.map Placed.tree)) := by
  have hmoored : Moored st s p (.still id kind span items) := ⟨h.sound, ⟨env, hsees⟩, ys, h.settled⟩
  obtain ⟨xs, hsettled⟩ := (hmoored.run changes).settled
  exact h.binds hsettled

end Binding

namespace Page

open PageTemplate.Binding

variable {source mark : String} {f : Scopes} {d : Document} {s : ScopeId} {sc : Scope} {node : NodeId}
  {st : Stage}

/-- Where some node of a page that has been read has been compiled, the trees below it can be bound, and
they have been bound. -/
theorem exists_ground (hparse : Document.parse source = .ok d) (hnode : d.contains node = true)
    (hs : f.get? s = some sc) (hfresh : sc.repeats = [])
    (hcompile : (⟨d, f⟩ : Stage).compile mark s node = .ok st) :
    ∃ p kind span ts items ys, Ground mark d p node kind span ts ∧ (∀ t ∈ ts, t.Proper) ∧
      Compiled mark ⟨d, f⟩ st p s node kind span ts items ys := by
  obtain ⟨cs, hsound, hholds, hcs, hnodup, hall⟩ := Document.parse_covers hparse
  obtain ⟨p, kind, span, ts, hheld, hn, hts⟩ := hholds.exists_of_mem hnodup hcs (hall node hnode)
  have hbindable : Bindable mark ts := bindable_of_compile hts (by exact hheld) hn hcompile
  have hground : Ground mark (⟨d, f⟩ : Stage).document p node kind span ts :=
    ⟨hsound, hheld, hn, hbindable⟩
  obtain ⟨st', items, ys, hok, hcompiled⟩ := hground.compile hs hfresh
  obtain rfl : st' = st := Except.ok.inj (hok.symm.trans hcompile)
  exact ⟨p, kind, span, ts, items, ys, hground, hts, hcompiled⟩

/-- The directives below the node can be read, and they are bound with the text around them. -/
theorem exists_compiled (hparse : Document.parse source = .ok d) (hnode : d.contains node = true)
    (hs : f.get? s = some sc) (hfresh : sc.repeats = [])
    (hcompile : (⟨d, f⟩ : Stage).compile mark s node = .ok st) :
    ∃ p kind span ts items ys, d.subtrees node = ts.map Placed.tree ∧
      Tree.ReadableAll mark (ts.map Placed.tree) ∧
      Compiled mark ⟨d, f⟩ st p s node kind span ts items ys := by
  obtain ⟨p, kind, span, ts, items, ys, hground, hts, hcompiled⟩ :=
    exists_ground hparse hnode hs hfresh hcompile
  exact ⟨p, kind, span, ts, items, ys, hground.holds.subtrees hground.nodup,
    (bindable_iff hts).1 hground.bindable, hcompiled⟩

/-- **Compiling finds everything once.**  Some node of a page that has been read has been compiled to a
scope that nothing was bound to.  All directives below the node can be read, and whatever is done with
the scope, its summary is what the trees below the node say: the paths of the placeholders that are in no
repeated element, and one directive for each repeated element that is in no other one, with the same for
what is below it. -/
theorem summary_of_compile (hparse : Document.parse source = .ok d) (hnode : d.contains node = true)
    (hf : f.ParentsFirst) (hs : f.get? s = some sc) (hfresh : sc.repeats = [])
    (hcompile : (⟨d, f⟩ : Stage).compile mark s node = .ok st) :
    Tree.ReadableAll mark (d.subtrees node) ∧ ∀ changes : List Change,
      (Change.runAll s st changes).scopes.summary s = Tree.summaryAll mark (d.subtrees node) := by
  obtain ⟨p, kind, span, ts, items, ys, hsubtrees, hread, hcompiled⟩ :=
    exists_compiled hparse hnode hs hfresh hcompile
  have hsees := hcompiled.grows.sees (hf.sees hs)
  rw [hsubtrees]
  exact ⟨hread, fun changes => (hcompiled.binds_run hsees changes).summary⟩

/-- A page with a repeated element in another one. -/
def nestedRepeatSource : String :=
  "<ul><li hb-repeat='x in xs'>\x7b\x7b x.a \x7d\x7d<b hb-repeat='y in x.ys'>" ++
    "\x7b\x7b y \x7d\x7d\x7b\x7b z \x7d\x7d\x7b\x7b y \x7d\x7d</b></li>\x7b\x7b t \x7d\x7d</ul>"

/-- The list in this page has been compiled by itself. -/
theorem summary_of_compile_nested : ∃ d st, Document.parse nestedRepeatSource = .ok d ∧
    d.contains 1 = true ∧
    (⟨d, (Scopes.empty.newRoot .emptyObject).1⟩ : Stage).compile "hb-repeat"
      (Scopes.empty.newRoot .emptyObject).2 1 = .ok st ∧
    ∀ changes, ((Change.runAll (Scopes.empty.newRoot .emptyObject).2 st changes).scopes.summary
      (Scopes.empty.newRoot .emptyObject).2).outline 0 =
        "\x7b\x7b t \x7d\x7d\nrepeat x in xs\n  \x7b\x7b x.a \x7d\x7d\n  repeat y in x.ys\n" ++
          "    \x7b\x7b y \x7d\x7d\n    \x7b\x7b z \x7d\x7d\n" := by
  have hpage : (Document.parse nestedRepeatSource).toOption.map (fun d => (d.contains 1,
      invalidRepeat? d "hb-repeat" 1, (Tree.summaryAll "hb-repeat" (d.subtrees 1)).outline 0)) =
      some (true, none,
        "\x7b\x7b t \x7d\x7d\nrepeat x in xs\n  \x7b\x7b x.a \x7d\x7d\n  repeat y in x.ys\n" ++
          "    \x7b\x7b y \x7d\x7d\n    \x7b\x7b z \x7d\x7d\n") := by
    decide +kernel
  obtain ⟨d, hd, hfacts⟩ := Option.map_eq_some_iff.1 hpage
  simp only [Prod.mk.injEq] at hfacts
  obtain ⟨hnode, hvalid, hshown⟩ := hfacts
  have hparse := eq_ok_of_toOption hd
  obtain ⟨st, hcompile⟩ : ∃ st, (⟨d, (Scopes.empty.newRoot .emptyObject).1⟩ : Stage).compile
      "hb-repeat" (Scopes.empty.newRoot .emptyObject).2 1 = .ok st := by
    rw [Stage.compile, hvalid]
    exact ⟨_, rfl⟩
  obtain ⟨-, hsummary⟩ := summary_of_compile hparse hnode
    (Scopes.parentsFirst_empty.newRoot .emptyObject) (Scopes.empty.get?_newRoot .emptyObject) rfl
    hcompile
  exact ⟨d, st, hparse, hnode, hcompile, fun changes => by rw [hsummary, hshown]⟩

end Page

end PageTemplate
