/-
**What a page with controllers means.**

The controllers of a page are mounted from the last one to the first, so one inside another comes
first, and what it has shown is part of the page when the outer one is bound.  The meaning of a page
follows its tree: the content of an element with a controller becomes what it means, after all that
is below it has.

Whether mounting goes well does not depend on what controllers show, as it only takes directives away.

Main definitions:

* `PageTemplate.Tree.Each` — only elements have children, and each element has some property;
* `PageTemplate.Tree.mounted` — a tree when its controllers have been mounted;
* `PageTemplate.Tree.ReadyAll` — each controller is known, and each directive in it can be read;
* `PageTemplate.Page.elements`, `PageTemplate.Page.nameOf` — the elements of a page that have a controller,
  and the names of these.

Main results:

* `PageTemplate.Tree.EachAll.expandAll` — what elements have when their meaning is taken;
* `PageTemplate.Tree.flawsAll_eq_nil_iff` — there are no flaws if each directive can be read;
* `PageTemplate.Tree.flawsAll_mountedAll` — mounting does not matter for the directives that cannot be
  read;
* `PageTemplate.Tree.mountedAll_congr` — the data of the controllers in a tree matter alone.
-/

import PageTemplate.Binding.Options
import PageTemplate.Proofs.Binding.Faults

set_option relaxedAutoImplicit false
set_option autoImplicit false

namespace PageTemplate

open PageTemplate.Binding PageTemplate.Data PageTemplate.Markup PageTemplate.Text

theorem Markup.Element.hasAttribute_eraseAttribute (e : Element) (name : String) :
    (e.eraseAttribute name).hasAttribute name = false := by
  simp [Element.hasAttribute, Element.eraseAttribute]

/-- The name of the controller of an element. -/
def Markup.Element.controller (o : Options) (e : Element) : String :=
  (e.attribute? o.controllerAttribute).getD ""

/-- An element without a directive that cannot be read. -/
theorem Markup.Element.unreadable_eq_false_iff {mark : String} (e : Element) :
    (NodeKind.element e).unreadable mark = false ↔
      (e.hasAttribute mark = true → e.repeat? mark ≠ none) := by
  rw [NodeKind.unreadable, NodeKind.element?, Option.any_some, Element.repeat?]
  by_cases he : e.hasAttribute mark = true
  · cases RepeatExpression.parse? ((e.attribute? mark).getD "") <;> simp [he]
  · simp [he]

namespace Tree

/-! ### Trees whose elements have a property -/

mutual

/-- Only elements have children, no node is a document node, and each element has the property `P`,
which may depend on its content. -/
def Each (P : Element → List Tree → Prop) : Tree → Prop
  | node (.element e) _ ts => P e ts ∧ EachAll P ts
  | node .document _ _ => False
  | node _ _ ts => ts = []

/-- The same for trees that stand side by side. -/
def EachAll (P : Element → List Tree → Prop) : List Tree → Prop
  | [] => True
  | t :: ts => Each P t ∧ EachAll P ts

end

variable {P Q : Element → List Tree → Prop} {mark : String} {ts us : List Tree}

theorem eachAll_append : EachAll P (ts ++ us) ↔ EachAll P ts ∧ EachAll P us := by
  induction ts with
  | nil => simp [EachAll]
  | cons t ts ih => rw [List.cons_append, EachAll, EachAll, ih, and_assoc]

theorem eachAll_singleton {t : Tree} : EachAll P [t] ↔ Each P t := by
  simp [EachAll]

theorem eachAll_iff : EachAll P ts ↔ ∀ t ∈ ts, Each P t := by
  induction ts with
  | nil => simp [EachAll]
  | cons t ts ih => rw [EachAll, ih, List.forall_mem_cons]

/-- What each element has can be weakened. -/
theorem EachAll.mono (h : EachAll P ts) (hPQ : ∀ e us, P e us → Q e us) : EachAll Q ts := by
  induction ts using forest_induction with
  | nil => trivial
  | cons k span cs ts ihcs ihts =>
      refine ⟨?_, ihts h.2⟩
      have ht := h.1
      cases k with
      | element e => exact ⟨hPQ e cs ht.1, ihcs ht.2⟩
      | document => exact ht
      | text | comment | doctype => exact ht

/-- **What elements have when their meaning is taken**, in terms of what they had before. -/
theorem EachAll.expandAll {text : Env → String → List String} (h : EachAll P ts)
    (hplain : ∀ e us vs, P e us → e.repeat? mark = none → Q e vs)
    (hmarked : ∀ e x us vs, P e us → e.repeat? mark = some x → Q (e.eraseAttribute mark) vs)
    (env : Env) : EachAll Q (expandAll text mark env ts) := by
  induction ts using forest_induction generalizing env with
  | nil => trivial
  | cons k span cs ts ihcs ihts =>
      rw [Tree.expandAll, eachAll_append]
      refine ⟨?_, ihts h.2 env⟩
      have ht := h.1
      cases k with
      | element e =>
          cases hx : e.repeat? mark with
          | none =>
              rw [expand_element_of_none _ _ hx, eachAll_singleton]
              exact ⟨hplain e cs _ ht.1 hx, ihcs ht.2 env⟩
          | some x =>
              rw [expand_element_of_some _ _ hx, eachAll_iff]
              intro t hmem
              obtain ⟨v, _, rfl⟩ := List.mem_map.1 hmem
              exact ⟨hmarked e x cs _ ht.1 hx, ihcs ht.2 _⟩
      | text t =>
          rw [expand_text, eachAll_iff]
          intro t hmem
          obtain ⟨u, _, rfl⟩ := List.mem_map.1 hmem
          rfl
      | document => exact ht.elim
      | comment t =>
          rw [expand, eachAll_singleton]
          · exact ht
          all_goals simp
      | doctype t =>
          rw [expand, eachAll_singleton]
          · exact ht
          all_goals simp

/-- Only elements have children. -/
abbrev ProperAll (ts : List Tree) : Prop := EachAll (fun _ _ => True) ts

/-- Each directive can be read. -/
abbrev ReadableAll (mark : String) (ts : List Tree) : Prop :=
  EachAll (fun e _ => e.hasAttribute mark = true → e.repeat? mark ≠ none) ts

/-- There are no directives. -/
abbrev UnmarkedAll (mark : String) (ts : List Tree) : Prop :=
  EachAll (fun e _ => e.hasAttribute mark = false) ts

/-- The meaning of trees has no directives. -/
theorem ReadableAll.unmarkedAll {text : Env → String → List String} (h : ReadableAll mark ts)
    (env : Env) : UnmarkedAll mark (expandAll text mark env ts) := by
  refine h.expandAll (fun e _ _ he hx => ?_) (fun e _ _ _ _ _ => ?_) env
  · by_contra hmark
    exact he (by simpa using hmark) hx
  · exact e.hasAttribute_eraseAttribute mark

theorem UnmarkedAll.readableAll (h : UnmarkedAll mark ts) : ReadableAll mark ts := by
  refine h.mono fun e _ he hmark => ?_
  rw [he] at hmark
  cases hmark

theorem ProperAll.expandAll {text : Env → String → List String} (h : ProperAll ts) (env : Env) :
    ProperAll (expandAll text mark env ts) :=
  EachAll.expandAll h (fun _ _ _ _ _ => trivial) (fun _ _ _ _ _ _ => trivial) env

/-- **There are no flaws if each directive can be read.** -/
theorem flawsAll_eq_nil_iff (h : ProperAll ts) : flawsAll mark ts = [] ↔ ReadableAll mark ts := by
  induction ts using forest_induction with
  | nil => exact iff_of_true (by rw [flawsAll]) trivial
  | cons k span cs ts ihcs ihts =>
      rw [flawsAll, List.append_eq_nil_iff, ihts h.2]
      refine and_congr_left fun _ => ?_
      have ht := h.1
      cases k with
      | element e =>
          rw [flaws, List.append_eq_nil_iff, ihcs ht.2]
          refine and_congr_left fun _ => ?_
          refine Iff.trans ?_ e.unreadable_eq_false_iff
          cases (NodeKind.element e).unreadable mark <;> simp
      | document => exact ht.elim
      | text | comment | doctype =>
          rw [flaws_leaf rfl]
          exact iff_of_true rfl ht

/-! ### Mounted controllers -/

section Mounting

variable (o : Options) (data : String → Value)

/-- What becomes of the content of an element when its controller, if it has one, is mounted. -/
def remade (e : Element) (ts : List Tree) : List Tree :=
  if e.hasAttribute o.controllerAttribute then
    expandAll splitText o.repeatAttribute [data (e.controller o)] ts
  else ts

mutual

/-- **A tree when its controllers have been mounted**, those inside others first. -/
def mounted : Tree → Tree
  | node (.element e) span ts => node (.element e) span (remade o data e (mountedAll ts))
  | t => t

/-- Trees that stand side by side when their controllers have been mounted. -/
def mountedAll : List Tree → List Tree
  | [] => []
  | t :: ts => mounted t :: mountedAll ts

end

/-- What becomes of the content of an element inside other ones, the outermost first, when the
controllers of these are mounted. -/
def remadeWithin (around : List Element) (ts : List Tree) : List Tree :=
  around.foldr (remade o data) ts

theorem mounted_element (e : Element) (span : Option Span) (ts : List Tree) :
    mounted o data (node (.element e) span ts) =
      node (.element e) span (remade o data e (mountedAll o data ts)) := by
  rw [mounted]

theorem mounted_leaf {k : NodeKind} (hk : k.element? = none) (span : Option Span)
    (ts : List Tree) : mounted o data (node k span ts) = node k span ts := by
  cases k with
  | element e => cases hk
  | document | text _ | comment _ | doctype _ => rw [mounted]; simp

theorem mountedAll_append (ts us : List Tree) :
    mountedAll o data (ts ++ us) = mountedAll o data ts ++ mountedAll o data us := by
  induction ts with
  | nil => rw [List.nil_append, mountedAll, List.nil_append]
  | cons t ts ih => rw [List.cons_append, mountedAll, mountedAll, ih, List.cons_append]

end Mounting

variable {o : Options} {data data' : String → Value} {known : String → Prop}

/-- Each controller is known, and the directives in it can be read. -/
abbrev ReadyAll (o : Options) (known : String → Prop) (ts : List Tree) : Prop :=
  EachAll (fun e us => e.hasAttribute o.controllerAttribute = true →
    known (e.controller o) ∧ ReadableAll o.repeatAttribute us) ts

theorem properAll_remade (h : ProperAll ts) (e : Element) : ProperAll (remade o data e ts) := by
  unfold remade
  split
  · exact h.expandAll _
  · exact h

theorem properAll_mountedAll (h : ProperAll ts) : ProperAll (mountedAll o data ts) := by
  induction ts using forest_induction with
  | nil =>
      rw [mountedAll]
      trivial
  | cons k span cs ts ihcs ihts =>
      rw [mountedAll]
      refine ⟨?_, ihts h.2⟩
      have ht := h.1
      cases k with
      | element e =>
          rw [mounted_element]
          exact ⟨trivial, properAll_remade (ihcs ht.2) e⟩
      | document => exact ht.elim
      | text | comment | doctype => rwa [mounted_leaf _ _ rfl]

/-- **Mounting does not matter for the directives that cannot be read.** -/
theorem flawsAll_mountedAll (h : ReadyAll o known ts) :
    flawsAll o.repeatAttribute (mountedAll o data ts) = flawsAll o.repeatAttribute ts := by
  induction ts using forest_induction with
  | nil => rw [mountedAll]
  | cons k span cs ts ihcs ihts =>
      rw [mountedAll, flawsAll, flawsAll, ihts h.2]
      congr 1
      have ht := h.1
      cases k with
      | element e =>
          have hproper : ProperAll cs := EachAll.mono ht.2 fun _ _ _ => trivial
          have hmounted : ProperAll (mountedAll o data cs) := properAll_mountedAll hproper
          rw [mounted_element, flaws, flaws, remade]
          congr 1
          split
          · rename_i he
            -- all directives in the element can be read, and none of them are left
            have hnone := (flawsAll_eq_nil_iff hproper).2 (ht.1 he).2
            have hread := (flawsAll_eq_nil_iff hmounted).1 ((ihcs ht.2).trans hnone)
            rw [hnone, flawsAll_eq_nil_iff (hmounted.expandAll _)]
            exact (hread.unmarkedAll _).readableAll
          · exact ihcs ht.2
      | document => exact ht.elim
      | text | comment | doctype => rw [mounted_leaf _ _ rfl]

/-- So it does not matter for whether all of them can be read. -/
theorem readableAll_mountedAll (h : ReadyAll o known ts) :
    ReadableAll o.repeatAttribute (mountedAll o data ts) ↔ ReadableAll o.repeatAttribute ts := by
  have hproper : ProperAll ts := h.mono fun _ _ _ => trivial
  rw [← flawsAll_eq_nil_iff hproper, ← flawsAll_eq_nil_iff (properAll_mountedAll hproper),
    flawsAll_mountedAll h]

mutual

/-- The names of the controllers of a tree. -/
def controllers (o : Options) : Tree → List String
  | node (.element e) _ ts =>
      (if e.hasAttribute o.controllerAttribute then [e.controller o] else []) ++ controllersAll o ts
  | _ => []

/-- The names of the controllers of trees that stand side by side. -/
def controllersAll (o : Options) : List Tree → List String
  | [] => []
  | t :: ts => controllers o t ++ controllersAll o ts

end

theorem remade_congr {e : Element} (h : e.hasAttribute o.controllerAttribute = true →
    data (e.controller o) = data' (e.controller o)) (ts : List Tree) :
    remade o data e ts = remade o data' e ts := by
  unfold remade
  split
  · rename_i he
    rw [h he]
  · rfl

/-- **The data of the controllers in a tree matter alone.** -/
theorem mountedAll_congr (h : ∀ name ∈ controllersAll o ts, data name = data' name) :
    mountedAll o data ts = mountedAll o data' ts := by
  induction ts using forest_induction with
  | nil => rw [mountedAll, mountedAll]
  | cons k span cs ts ihcs ihts =>
      rw [controllersAll] at h
      rw [mountedAll, mountedAll, ihts fun name hname => h name (List.mem_append_right _ hname)]
      congr 1
      cases k with
      | element e =>
          rw [controllers] at h
          have hcs := ihcs fun name hname =>
            h name (List.mem_append_left _ (List.mem_append_right _ hname))
          rw [mounted_element, mounted_element, hcs, remade_congr fun he => ?_]
          exact h _ (List.mem_append_left _ (List.mem_append_left _ (by simp [he])))
      | document | text _ | comment _ | doctype _ => rw [mounted_leaf _ _ rfl, mounted_leaf _ _ rfl]

end Tree

/-! ### Documents -/

namespace Page

/-- The elements of a page that have a controller, in document order. -/
def elements (o : Options) (d : Document) : List NodeId :=
  d.elementsWithAttribute Document.root o.controllerAttribute

/-- The name that an element gives its controller. -/
def nameOf (o : Options) (d : Document) (id : NodeId) : String :=
  (d.attribute? id o.controllerAttribute).getD ""

/-- The name that an element of a held tree gives. -/
theorem controller_of_holds {d : Document} {p : Option NodeId} {id : NodeId} {e : Element}
    {span : Option Span} {ts : List Placed} (o : Options)
    (h : d.Holds p (.node id (.element e) span ts)) :
    (d.attribute? id o.controllerAttribute).getD "" = e.controller o := by
  have helement : d.element? id = some e := h.element?
  rw [Document.attribute?, helement, Option.bind_some, Element.controller]

end Page

/-! ### Placed trees -/

/-- A placed tree is proper if its tree is. -/
theorem Placed.proper_iff (t : Placed) : t.Proper ↔ t.tree.Each fun _ _ => True := by
  induction t with
  | node id kind span cs ih =>
      have hall : (∀ c ∈ cs, c.Proper) ↔ Tree.EachAll (fun _ _ => True) (cs.map Placed.tree) := by
        rw [Tree.eachAll_iff, List.forall_mem_map]
        exact forall₂_congr ih
      rw [Placed.tree_node]
      cases kind with
      | element e =>
          rw [Tree.Each, true_and, ← hall]
          constructor
          · rintro ⟨⟩
            assumption
          · exact Proper.element id e span
      | document =>
          rw [Tree.Each, iff_false]
          rintro ⟨⟩
      | text t =>
          rw [Tree.Each, List.map_eq_nil_iff]
          · constructor
            · rintro ⟨⟩
              rfl
            · rintro rfl
              exact .text id t span
          all_goals simp
      | comment t =>
          rw [Tree.Each, List.map_eq_nil_iff]
          · constructor
            · rintro ⟨⟩
              rfl
            · rintro rfl
              exact .comment id t span
          all_goals simp
      | doctype t =>
          rw [Tree.Each, List.map_eq_nil_iff]
          · constructor
            · rintro ⟨⟩
              rfl
            · rintro rfl
              exact .doctype id t span
          all_goals simp

/-- Placed trees are proper if only elements have children in their trees. -/
theorem Placed.properAll_iff {ts : List Placed} :
    (∀ t ∈ ts, t.Proper) ↔ Tree.ProperAll (ts.map Placed.tree) := by
  refine Iff.trans ?_ Tree.eachAll_iff.symm
  rw [List.forall_mem_map]
  exact forall₂_congr fun t _ => t.proper_iff

end PageTemplate
