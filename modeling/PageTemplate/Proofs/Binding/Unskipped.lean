/-
**Compiling skips nothing that it has looked through.**

Compiling passes over a repeated element whose directive it cannot read, or that has no parent.  It has
looked all directives through before, though it then changes the document, and takes one element out
after the other.  What it does with one of them stays in this element, so the next ones are what they
were, and none is passed over.

Main definitions:

* `PageTemplate.Binding.Stage.compileTo?`, `PageTemplate.Binding.Stage.compile?` — compiling that gives
  up where it would pass over an element.

Main results:

* `PageTemplate.Binding.takeRound_keeps` — what one element leaves of the others;
* `PageTemplate.Binding.compileTo?_eq` — if all directives can be read, no element is passed over;
* `PageTemplate.Binding.compile?_eq` — so it is when what was bound before is taken out first.
-/

import PageTemplate.Proofs.Binding.Enclosure
import PageTemplate.Proofs.Binding.Faults
import PageTemplate.Proofs.Document.Shrinking

set_option relaxedAutoImplicit false
set_option autoImplicit false

namespace PageTemplate.Binding

open PageTemplate.Data PageTemplate.Document PageTemplate.Markup PageTemplate.Text

/-! ### Compiling that gives up -/

/-- What compiling does with a repeated element, where `compile?` compiles what is in it, unless the
element has no directive that can be read, or no parent. -/
def takeRound? (mark : String) (compile? : Stage → ScopeId → NodeId → Option Stage) (s : ScopeId)
    (out : Stage × List Repeat) (element : NodeId) : Option (Stage × List Repeat) :=
  match RepeatExpression.parse? (directive out.1.document mark element),
      out.1.document.parent? element with
  | some expression, some container =>
      let (scopes, scope) := out.1.scopes.newChild s .emptyObject
      (compile? { out.1 with scopes := scopes } scope element).map fun st =>
        Stage.takeOut mark st out.2 expression scope element container
  | _, _ => none

namespace Stage

/-- Like `compileTo`, but gives up where a repeated element would be passed over. -/
def compileTo? (mark : String) : Nat → Stage → ScopeId → NodeId → Option Stage
  | 0, st, _, _ => some st
  | fuel + 1, st, s, node =>
      ((repeated st.document mark node).foldlM (takeRound? mark (compileTo? mark fuel) s)
        (st, ([] : List Repeat))).map fun (st, repeats) =>
          let (document, slots) := extract st.document node
          { document := document
            scopes := st.scopes.update s fun scope =>
              { scope with slots := slots, repeats := repeats } }

/-- Binds what is below `node` to the scope `s`, instead of what was bound to it, but gives up where a
repeated element would be passed over, at any level. -/
def compile? (mark : String) (st : Stage) (s : ScopeId) (node : NodeId) : Option Stage :=
  compileTo? mark ((st.dismantle s).document.nodes.size + 1) (st.dismantle s) s node

end Stage

variable {mark : String} {d : Document} {ts : List Placed} {c : NodeId}

/-! ### Repeated elements -/

theorem hasAttribute_of_mem_marks {m : Mark} (hm : m ∈ marksAll mark c ts) :
    m.element.hasAttribute mark = true := by
  induction ts using marked_induction mark generalizing c with
  | nil => simp [marksAll] at hm
  | leaf id kind span cs ts he ih =>
      rw [marksAll_leaf _ _ _ _ _ he] at hm
      exact ih hm
  | plain id e span cs ts he ihcs ih =>
      rw [marksAll_plain _ _ _ _ _ he] at hm
      exact (List.mem_append.1 hm).elim ihcs ih
  | marked id e span cs ts he _ ih =>
      rw [marksAll_marked _ _ _ _ _ he] at hm
      rcases List.mem_cons.1 hm with rfl | hm
      · exact he
      · exact ih hm

/-- Repeated elements are beside each other, in document order. -/
theorem sublist_marks (c : NodeId) (ts : List Placed) :
    ((marksAll mark c ts).flatMap fun m => m.tree.ids).Sublist (ts.flatMap Placed.ids) := by
  induction ts using marked_induction mark generalizing c with
  | nil => simp [marksAll]
  | leaf id kind span cs ts he ih =>
      rw [marksAll_leaf _ _ _ _ _ he, List.flatMap_cons]
      exact (ih c).trans (List.sublist_append_right _ _)
  | plain id e span cs ts he ihcs ih =>
      rw [marksAll_plain _ _ _ _ _ he, List.flatMap_append, List.flatMap_cons, Placed.ids_node]
      exact ((ihcs id).cons _).append (ih c)
  | marked id e span cs ts he _ ih =>
      rw [marksAll_marked _ _ _ _ _ he, List.flatMap_cons, List.flatMap_cons]
      exact (ih c).append_left _

/-- If no directive is at fault, those of the outermost repeated elements can be read, and none in
these is at fault. -/
theorem readable_of_mem_marks (h : ts.flatMap (Placed.faults mark) = []) {m : Mark}
    (hm : m ∈ marksAll mark c ts) :
    (∃ x, m.element.repeat? mark = some x) ∧ m.children.flatMap (Placed.faults mark) = [] := by
  have hfirst : _ = (marksAll mark c ts).findSome? _ := head?_faults ts c
  rw [h, List.head?_nil, eq_comm, List.findSome?_eq_none_iff] at hfirst
  have hself := hfirst m hm
  cases hx : RepeatExpression.parse? ((m.element.attribute? mark).getD "") with
  | none =>
      rw [hx] at hself
      cases hself
  | some x =>
      rw [hx] at hself
      exact ⟨⟨x, repeat?_of_parse? (hasAttribute_of_mem_marks hm) hx⟩, List.head?_eq_none_iff.1 hself⟩

theorem takeRound?_mark {m : Mark} {x : RepeatExpression}
    (hm : d.Holds (some m.container) m.tree) (hx : m.element.repeat? mark = some x)
    (compile? : Stage → ScopeId → NodeId → Option Stage) (s : ScopeId) (scopes : Scopes)
    (repeats : List Repeat) :
    takeRound? mark compile? s (⟨d, scopes⟩, repeats) m.id =
      (compile? ⟨d, (scopes.newChild s .emptyObject).1⟩ scopes.entries.size m.id).map fun st =>
        Stage.takeOut mark st repeats x scopes.entries.size m.id m.container := by
  have hparent : d.parent? m.id = some m.container := Document.parent?_of_get? hm.get?
  simp only [takeRound?, directive_mark hm, parse?_of_repeat? hx, hparent]
  rfl

/-! ### One element after the other -/

/-- **What compiling does with an element leaves the others what they were**, if these are neither in it
nor above it. -/
theorem takeRound_keeps {m : Mark} {x : RepeatExpression} {st : Stage}
    (hd : st.document.Linked []) (hm : st.document.Holds (some m.container) m.tree)
    (hx : m.element.repeat? mark = some x) (fuel : Nat) (s : ScopeId) (repeats : List Repeat) :
    (takeRound mark fuel s (st, repeats) m.id).1.document.Linked [] ∧
      ∀ i n, st.document.get? i = some n → i ∉ m.tree.ids → i ≠ m.container →
        (takeRound mark fuel s (st, repeats) m.id).1.document.get? i = some n := by
  rw [takeRound_mark hm hx]
  have hself : m.id ∈ m.tree.ids := m.tree.id_mem_ids
  let inner : Stage := ⟨st.document, (st.scopes.newChild s .emptyObject).1⟩
  have hbefore : Enclosed (fun i => i ∈ m.tree.ids ∨ st.document.contains i = false) m.id
      st.document inner.document := hm.enclosed hd
  have hinner := (Enclosed.compileTo mark fuel hbefore (.inl hself)
    st.scopes.entries.size).eraseAttribute (.inl hself) mark
  have hparent : ((inner.compileTo mark fuel st.scopes.entries.size m.id).document.eraseAttribute
      m.id mark).parent? m.id = some m.container := by
    rw [hinner.above]
    exact Document.parent?_of_get? hm.get?
  refine ⟨hinner.linked.detach m.id, fun i n hi hids hne => ?_⟩
  have hkeep := hinner.keeps i fun hmem => ?_
  · have himem : i ≠ m.id := fun heq => hids (heq ▸ hself)
    have hdetach : ∀ e : Document, e.parent? m.id = some m.container →
        (e.detach m.id).get? i = e.get? i := by
      intro e he
      simp only [Document.detach, he]
      rw [get?_update_of_ne himem, get?_update_of_ne hne]
    exact (hdetach _ hparent).trans (hkeep.trans hi)
  · rcases hmem with hmem | hdead
    · exact hids hmem
    · rw [contains_eq_false_iff, hi] at hdead
      cases hdead

/-- No element of a list of repeated elements is passed over, if none is where its children are
compiled. -/
theorem foldlM_takeRound? {fuel : Nat} {s : ScopeId}
    (hinner : ∀ (st : Stage) (s : ScopeId) (p : Option NodeId) (t : Placed),
      st.document.Linked [] → st.document.Holds p t → t.ids.Nodup →
      t.children.flatMap (Placed.faults mark) = [] →
      st.compileTo? mark fuel s t.id = some (st.compileTo mark fuel s t.id))
    (ms : List Mark) (st : Stage) (repeats : List Repeat) (hd : st.document.Linked [])
    (hms : ∀ m ∈ ms, st.document.Holds (some m.container) m.tree ∧
      (∃ x, m.element.repeat? mark = some x) ∧ m.children.flatMap (Placed.faults mark) = [])
    (hn : (ms.flatMap fun m => m.tree.ids).Nodup) :
    (ms.map Mark.id).foldlM (takeRound? mark (Stage.compileTo? mark fuel) s) (st, repeats) =
      some ((ms.map Mark.id).foldl (takeRound mark fuel s) (st, repeats)) := by
  induction ms generalizing st repeats with
  | nil => rfl
  | cons m ms ih =>
      obtain ⟨hm, ⟨x, hx⟩, hbelow⟩ := hms m (List.mem_cons_self ..)
      rw [List.flatMap_cons] at hn
      obtain ⟨hself, hrest, hdis⟩ := List.nodup_append.1 hn
      have hround : takeRound? mark (Stage.compileTo? mark fuel) s (st, repeats) m.id =
          some (takeRound mark fuel s (st, repeats) m.id) := by
        have hbusy := hinner ⟨st.document, (st.scopes.newChild s .emptyObject).1⟩
          st.scopes.entries.size (some m.container) m.tree hd hm hself hbelow
        rw [takeRound?_mark hm hx, takeRound_mark hm hx]
        exact congrArg (Option.map _) hbusy
      obtain ⟨hlinked, hkeeps⟩ := takeRound_keeps hd hm hx fuel s repeats
      rw [List.map_cons, List.foldlM_cons, List.foldl_cons, hround, Option.bind_eq_bind,
        Option.bind_some]
      refine ih _ _ hlinked (fun m' hm' => ?_) hrest
      obtain ⟨hm₁, hread⟩ := hms m' (List.mem_cons_of_mem _ hm')
      refine ⟨hm₁.congr fun i hi => ?_, hread⟩
      have hout : i ∉ m.tree.ids := fun him =>
        hdis i him i (List.mem_flatMap.2 ⟨m', hm', hi⟩) rfl
      obtain ⟨n, hget⟩ := hm₁.live hi
      refine (hkeeps i n hget hout ?_).trans hget.symm
      -- an element above `m` would have `m` in its tree
      rintro rfl
      have hchild : m.id ∈ st.document.children m.container :=
        hd.parent m.id m.container (Document.parent?_of_get? hm.get?) List.not_mem_nil
      exact hdis m.id m.tree.id_mem_ids m.id
        (List.mem_flatMap.2 ⟨m', hm', hm₁.mem_of_child hi hchild⟩) rfl

/-- **If all directives can be read, no element is passed over**, at any level. -/
theorem compileTo?_eq (fuel : Nat) (st : Stage) (s : ScopeId) (p : Option NodeId) (t : Placed)
    (hd : st.document.Linked []) (ht : st.document.Holds p t) (hn : t.ids.Nodup)
    (hread : t.children.flatMap (Placed.faults mark) = []) :
    st.compileTo? mark fuel s t.id = some (st.compileTo mark fuel s t.id) := by
  induction fuel generalizing st s p t with
  | zero => rfl
  | succ fuel ih =>
      obtain ⟨id, kind, span, cs⟩ := t
      rw [Placed.ids_node, List.nodup_cons] at hn
      have hrepeated : repeated st.document mark id = (marksAll mark id cs).map Mark.id :=
        repeated_eq ht (by rw [Placed.ids_node]; exact List.nodup_cons.2 hn)
      have hfold := foldlM_takeRound? (s := s) ih (marksAll mark id cs) st [] hd (fun m hm =>
        ⟨holds_mark (fun c hc => ht.child hc) hm, readable_of_mem_marks hread hm⟩)
        (hn.2.sublist (sublist_marks id cs))
      rw [Placed.id_node, compileTo_succ, Stage.compileTo?, hrepeated, hfold]
      rfl

/-- Where nothing is live there is nothing to pass over. -/
theorem compileTo?_of_dead (fuel : Nat) (st : Stage) (s : ScopeId) {node : NodeId}
    (hdead : st.document.get? node = none) :
    st.compileTo? mark fuel s node = some (st.compileTo mark fuel s node) := by
  cases fuel with
  | zero => rfl
  | succ fuel =>
      have hnone : repeated st.document mark node = [] := by
        rw [repeated, children_eq_nil_of_dead hdead]
        cases st.document.nodes.size <;> rfl
      rw [compileTo_succ, Stage.compileTo?, hnone]
      rfl

/-- **Compiling that succeeds has passed over no element**, whatever was bound to the scope before. -/
theorem compile?_eq {st st' : Stage} {s : ScopeId} {node : NodeId} (hd : st.document.Linked [])
    (hfinite : st.document.FiniteBelow node) (h : st.compile mark s node = .ok st') :
    st.compile? mark s node = some st' := by
  rw [Stage.compile] at h
  split at h
  · cases h
  · next hvalid =>
      obtain rfl := Except.ok.inj h
      have hshrunk : Shrunk st.document (st.dismantle s).document := shrunk_removeAll _ _
      have hlinked : (st.dismantle s).document.Linked [] := stable_linked.removeAll hd _
      rw [Stage.compile?]
      cases hlive : (st.dismantle s).document.contains node with
      | false => exact compileTo?_of_dead _ _ s (contains_eq_false_iff.1 hlive)
      | true =>
          obtain ⟨u, rfl, hu, hun, -⟩ := hlinked.exists_held (hshrunk.finiteBelow hfinite) hlive
          refine compileTo?_eq _ _ s _ u hlinked hu hun ?_
          rw [invalidRepeat?_eq hd hfinite, Option.map_eq_none_iff, List.find?_eq_none] at hvalid
          rw [← filter_exposed_below hu hun, List.filter_eq_nil_iff]
          intro x hx
          have hkind := hshrunk.kind? (contains_of_mem_exposed hlinked hx)
          rw [unreadable_eq, hkind, ← unreadable_eq]
          exact hvalid x (hshrunk.exposed_subset hd hlinked hfinite hx)

end PageTemplate.Binding
