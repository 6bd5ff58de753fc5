/-
**Reading makes a document grow.**

While a document is read, nodes are only added, each as the last child of the innermost open element.
`Document.Grown` says that a document has got some trees as the last children of one node, in slots
that were free, and has kept everything else.  Reading the content of an element is such a step, so a
document that is read holds a tree, and this tree has all of its nodes.

Main definitions:

* `PageTemplate.Document.Grown` — some trees have been added behind the children of a node;
* `PageTemplate.Document.ContentOf` — what the tokens behind an opening tag say about its content;
* `PageTemplate.Document.Kept` — a property of trees that reading keeps;
* `PageTemplate.Placed.Proper` — only elements have children, and no node but the root is a document.

Main results:

* `PageTemplate.Document.push_fresh` — without a free slot, a new node gets the next one;
* `PageTemplate.Document.Sound.push` — one new node;
* `PageTemplate.Document.Grown.trans`, `PageTemplate.Document.Grown.nest` — growth behind growth, and
  growth below a new node;
* `PageTemplate.Document.readContent_grown` — reading content is growth by trees with such a property;
* `PageTemplate.Document.parse_holds_kept` — a document that is read holds a tree with it;
* `PageTemplate.Document.parse_holds` — a document that is read holds a proper tree;
* `PageTemplate.Document.parse_covers` — and has no nodes but those of this tree.
-/

import PageTemplate.Document.Parse
import PageTemplate.Proofs.Document.Effects
import PageTemplate.Proofs.Document.Placed

set_option relaxedAutoImplicit false
set_option autoImplicit false

namespace PageTemplate

open PageTemplate.Markup PageTemplate.Text PageTemplate.Diagnostic

namespace Placed

/-- Only elements have children, and there is no document node. -/
inductive Proper : Placed → Prop
  | text (id : NodeId) (t : String) (span : Option Span) : Proper (.node id (.text t) span [])
  | comment (id : NodeId) (t : String) (span : Option Span) :
      Proper (.node id (.comment t) span [])
  | doctype (id : NodeId) (t : String) (span : Option Span) :
      Proper (.node id (.doctype t) span [])
  | element (id : NodeId) (e : Element) (span : Option Span) {cs : List Placed}
      (h : ∀ c ∈ cs, Proper c) : Proper (.node id (.element e) span cs)

end Placed

namespace Document

/-- The document `e` has what `d` has, and behind the children of `parent` the trees `ts`, in slots
that were free.  Where `d` has no free slots, those of the trees are the next ones, in document
order. -/
structure Grown (d e : Document) (parent : NodeId) (ts : List Placed) : Prop where
  sound : e.Sound
  children : ∀ m, d.get? parent = some m →
    e.get? parent = some { m with children := m.children ++ ts.map Placed.id }
  holds : ∀ t ∈ ts, e.Holds (some parent) t
  nodup : (ts.flatMap Placed.ids).Nodup
  free : ∀ x ∈ ts.flatMap Placed.ids, d.get? x = none
  keeps : ∀ x n, x ≠ parent → d.get? x = some n → e.get? x = some n
  covers : ∀ x, e.contains x = true → x ∈ ts.flatMap Placed.ids ∨ d.contains x = true
  order : d.free = [] → e.free = [] ∧ ∃ n, e.nodes.size = d.nodes.size + n ∧
    ts.flatMap Placed.ids = List.range' d.nodes.size n

variable {d e f : Document} {parent : NodeId}

theorem Sound.grown_nil (h : d.Sound) (parent : NodeId) : Grown d d parent [] where
  sound := h
  children m hm := by simpa using hm
  holds t ht := by simp at ht
  nodup := by simp
  free x hx := by simp at hx
  keeps x n _ hx := hx
  covers x hx := .inr hx
  order hfree := ⟨hfree, 0, rfl, rfl⟩

/-- A live slot is none of those that growth takes. -/
theorem Grown.not_mem {ts : List Placed} (h : Grown d e parent ts) {x : NodeId} {n : Node}
    (hx : d.get? x = some n) : x ∉ ts.flatMap Placed.ids := by
  intro hmem
  rw [h.free x hmem] at hx
  cases hx

/-- The slots that growth takes are live afterwards. -/
theorem Grown.live {ts : List Placed} (h : Grown d e parent ts) {x : NodeId}
    (hx : x ∈ ts.flatMap Placed.ids) : ∃ n, e.get? x = some n := by
  obtain ⟨t, ht, hxt⟩ := List.mem_flatMap.1 hx
  exact (h.holds t ht).live hxt

/-- What is dead after growth was dead before. -/
theorem Grown.dead {ts : List Placed} (h : Grown d e parent ts) {x : NodeId}
    (hx : e.get? x = none) : d.get? x = none := by
  refine Option.eq_none_iff_forall_ne_some.2 fun n hn => ?_
  have hlive : ∃ n', e.get? x = some n' := by
    by_cases hxp : x = parent
    · subst hxp
      exact ⟨_, h.children n hn⟩
    · exact ⟨_, h.keeps x n hxp hn⟩
  obtain ⟨n', hn'⟩ := hlive
  rw [hx] at hn'
  cases hn'

/-- Growth behind growth. -/
theorem Grown.trans {ts us : List Placed} {m : Node} (hm : d.get? parent = some m)
    (h : Grown d e parent ts) (k : Grown e f parent us) : Grown d f parent (ts ++ us) := by
  have hparent : parent ∉ ts.flatMap Placed.ids := h.not_mem hm
  refine ⟨k.sound, ?children, ?holds, ?nodup, ?free, ?keeps, ?covers, ?order⟩
  case children =>
    intro n hn
    have := k.children _ (h.children n hn)
    simpa using this
  case holds =>
    intro t ht
    rcases List.mem_append.1 ht with ht | ht
    · refine (h.holds t ht).congr fun x hx => ?_
      have hxts : x ∈ ts.flatMap Placed.ids := List.mem_flatMap.2 ⟨t, ht, hx⟩
      obtain ⟨n, hn⟩ := h.live hxts
      rw [hn]
      exact k.keeps x n (fun e => hparent (e ▸ hxts)) hn
    · exact k.holds t ht
  case nodup =>
    rw [List.flatMap_append, List.nodup_append]
    refine ⟨h.nodup, k.nodup, ?_⟩
    rintro x hx y hy rfl
    obtain ⟨n, hn⟩ := h.live hx
    exact k.not_mem hn hy
  case free =>
    intro x hx
    rw [List.flatMap_append] at hx
    rcases List.mem_append.1 hx with hx | hx
    · exact h.free x hx
    · exact h.dead (k.free x hx)
  case keeps =>
    intro x n hx hn
    exact k.keeps x n hx (h.keeps x n hx hn)
  case covers =>
    intro x hx
    rw [List.flatMap_append, List.mem_append]
    rcases k.covers x hx with hx | hx
    · exact .inl (.inr hx)
    · exact (h.covers x hx).imp_left .inl
  case order =>
    intro hfree
    obtain ⟨he, n, hn, hts⟩ := h.order hfree
    obtain ⟨hf, n', hn', hus⟩ := k.order he
    refine ⟨hf, n + n', by omega, ?_⟩
    rw [List.flatMap_append, hts, hus, hn, List.range'_append_1]

/-- Growth below a node that has just been added. -/
theorem Grown.nest {id : NodeId} {kind : NodeKind} {span : Option Span} {us : List Placed} {m : Node}
    (hm : d.get? parent = some m) (h : Grown d e parent [.node id kind span []])
    (k : Grown e f id us) : Grown d f parent [.node id kind span us] := by
  have hid : id ∉ us.flatMap Placed.ids := by
    obtain ⟨n, hn⟩ := h.live (x := id) (by simp)
    exact k.not_mem hn
  have hne : parent ≠ id := by
    rintro rfl
    exact h.not_mem hm (by simp)
  have hnode := (h.holds _ (List.mem_cons_self ..)).get?
  simp only [Placed.id_node, Placed.kind_node, Placed.span_node, Placed.children_node,
    List.map_nil] at hnode
  refine ⟨k.sound, ?children, ?holds, ?nodup, ?free, ?keeps, ?covers, ?order⟩
  case children =>
    intro n hn
    have := k.keeps parent _ hne (h.children n hn)
    simpa using this
  case holds =>
    intro t ht
    rw [List.mem_singleton] at ht
    subst ht
    refine .node ?_ k.holds
    have := k.children _ hnode
    simpa using this
  case nodup =>
    simpa using ⟨by simpa using hid, by simpa using k.nodup⟩
  case free =>
    intro x hx
    simp only [List.flatMap_cons, Placed.ids_node, List.flatMap_nil, List.append_nil,
      List.mem_cons] at hx
    rcases hx with rfl | hx
    · exact h.free x (by simp)
    · exact h.dead (k.free x hx)
  case keeps =>
    intro x n hx hn
    refine k.keeps x n ?_ (h.keeps x n hx hn)
    rintro rfl
    exact h.not_mem hn (by simp)
  case covers =>
    intro x hx
    simp only [List.flatMap_cons, Placed.ids_node, List.flatMap_nil, List.append_nil,
      List.mem_cons]
    rcases k.covers x hx with hx | hx
    · exact .inl (.inr hx)
    · exact (h.covers x hx).imp_left fun hx => .inl (by simpa using hx)
  case order =>
    intro hfree
    obtain ⟨he, n, hn, hone⟩ := h.order hfree
    obtain ⟨hf, n', hn', hus⟩ := k.order he
    have hlen := congrArg List.length hone
    simp only [List.flatMap_cons, Placed.ids_node, List.flatMap_nil, List.append_nil,
      List.length_singleton, List.length_range'] at hlen
    subst hlen
    simp only [List.flatMap_cons, Placed.ids_node, List.flatMap_nil, List.append_nil,
      List.range'_one, List.cons.injEq, and_true] at hone
    refine ⟨hf, n' + 1, by omega, ?_⟩
    rw [List.flatMap_singleton, Placed.ids_node, hus, hone, hn, ← List.range'_succ]

/-- Links take no slots. -/
theorem insertBefore_slots (d : Document) (p c : NodeId) (a : Option NodeId) :
    (d.insertBefore p c a).free = d.free ∧
      (d.insertBefore p c a).nodes.size = d.nodes.size := by
  unfold insertBefore
  split
  · simp
  · exact ⟨rfl, rfl⟩

/-- **Without a free slot, a new node gets the next one.** -/
theorem push_fresh (hfree : d.free = []) (parent : NodeId) (kind : NodeKind) (span : Span) :
    (d.push parent kind span).2 = d.nodes.size ∧ (d.push parent kind span).1.free = [] ∧
      (d.push parent kind span).1.nodes.size = d.nodes.size + 1 := by
  have halloc : d.alloc kind (some span) =
      (⟨d.nodes.push (some (Node.loose kind (some span))), []⟩, d.nodes.size) := by
    rw [alloc, hfree]
  obtain ⟨hlinks, hsize⟩ := insertBefore_slots (d.alloc kind (some span)).1 parent
    (d.alloc kind (some span)).2 none
  have hpush : d.push parent kind span =
      ((d.alloc kind (some span)).1.insertBefore parent (d.alloc kind (some span)).2 none,
        (d.alloc kind (some span)).2) := rfl
  rw [hpush]
  rw [halloc] at hlinks hsize ⊢
  exact ⟨rfl, hlinks, by rw [hsize, Array.size_push]⟩

/-- One new node is growth by a tree without children. -/
theorem Sound.push (h : d.Sound) {m : Node} (hm : d.get? parent = some m) (kind : NodeKind)
    (span : Span) :
    Grown d (d.push parent kind span).1 parent
      [.node (d.push parent kind span).2 kind (some span) []] := by
  obtain ⟨hdead, hnew, hsound⟩ := h.get?_alloc kind (some span)
  have hm' := h.slotted.get?_alloc_of_live kind (some span) hm
  have hne : parent ≠ (d.alloc kind (some span)).2 := by
    rintro e
    rw [e, hdead] at hm
    cases hm
  have hget := get?_insertBefore hnew rfl hm' hne none
  have hpush : d.push parent kind span =
      ((d.alloc kind (some span)).1.insertBefore parent (d.alloc kind (some span)).2 none,
        (d.alloc kind (some span)).2) := rfl
  have horder : d.free = [] → (d.push parent kind span).1.free = [] ∧ ∃ n,
      (d.push parent kind span).1.nodes.size = d.nodes.size + n ∧
        [Placed.node (d.push parent kind span).2 kind (some span) []].flatMap Placed.ids =
          List.range' d.nodes.size n := by
    intro hfree
    obtain ⟨hid, hfree', hsize⟩ := push_fresh hfree parent kind span
    exact ⟨hfree', 1, hsize, by simp [hid]⟩
  rw [hpush] at horder ⊢
  refine ⟨hsound.insertBefore _ (h.ne_root_of_free hdead) _, ?children, ?holds, by simp, ?free,
    ?keeps, ?covers, horder⟩
  case children =>
    intro n hn
    rw [hm] at hn
    cases hn
    rw [hget, if_neg hne, if_pos rfl]
    rfl
  case holds =>
    intro t ht
    rw [List.mem_singleton] at ht
    subst ht
    refine .node ?_ (by simp)
    rw [hget, if_pos rfl]
    rfl
  case free =>
    intro x hx
    simp only [List.flatMap_cons, Placed.ids_node, List.flatMap_nil, List.append_nil,
      List.mem_singleton] at hx
    rw [hx, hdead]
  case keeps =>
    intro x n hx hn
    have hxnew : x ≠ (d.alloc kind (some span)).2 := by
      rintro e
      rw [e, hdead] at hn
      cases hn
    rw [hget, if_neg hxnew, if_neg hx]
    exact h.slotted.get?_alloc_of_live kind (some span) hn
  case covers =>
    intro x hx
    by_cases hxnew : x = (d.alloc kind (some span)).2
    · exact .inl (by simp [hxnew])
    · refine .inr ?_
      rw [contains, hget, if_neg hxnew] at hx
      split at hx
      · next hxp => rw [hxp, contains, hm, Option.isSome_some]
      · rwa [get?_alloc_of_ne d kind (some span) hxnew] at hx

/-! ### Reading -/

/-- The node that a token makes, before anything is read into it. -/
inductive ReadFrom (token : Token) : NodeKind → Prop
  | text {t : String} (h : token.content = .text t ∨ token.content = .rawText t) :
      ReadFrom token (.text t)
  | comment {t : String} (h : token.content = .comment t) : ReadFrom token (.comment t)
  | doctype {t : String} (h : token.content = .doctype t) : ReadFrom token (.doctype t)
  | element {tag : String} {tagSpan : Span} {attributes : List SourceAttribute}
      {selfClosing : Bool} (h : token.content = .openTag tag tagSpan attributes selfClosing)
      (hr : repeated? [] attributes = none) :
      ReadFrom token (.element ⟨tag, attributes.map fun a => ⟨a.name, a.value⟩⟩)

/-- The token ends the content of the innermost open element, if this has the tag. -/
def EndsContent (tag : String) (token : Token) : Prop :=
  token.content = .closeTag tag ∨ token.content = .endOfInput

/-- What the tokens behind an opening tag say about what has been read into its element: nothing if they
end it at once, and no more than one text if they end it behind raw text. -/
structure ContentOf (tag : String) (tokens : List Token) (cs : List Placed) : Prop where
  none : ∀ stop later, tokens = stop :: later → EndsContent tag stop → cs = []
  raw : ∀ raw t stop later, tokens = raw :: stop :: later → raw.content = .rawText t →
    EndsContent tag stop → cs = [] ∨ ∃ id, cs = [.node id (.text t) (some raw.span) []]

/-- A property of trees that reading keeps: what the tokens make has it, and so has an element whose
content has it, as far as the tokens behind its opening tag allow this content. -/
structure Kept (P : Placed → Prop) (tokens : List Token) : Prop where
  leaf : ∀ token ∈ tokens, ∀ kind, ReadFrom token kind → ∀ id,
    P (.node id kind (some token.span) [])
  nest : ∀ token behind, token :: behind <:+ tokens → ∀ tag tagSpan attributes,
    token.content = .openTag tag tagSpan attributes false → isVoid tag = false → ∀ id cs,
    P (.node id (.element ⟨tag, attributes.map fun a => ⟨a.name, a.value⟩⟩) (some token.span) []) →
    ContentOf tag behind cs → (∀ c ∈ cs, P c) →
    P (.node id (.element ⟨tag, attributes.map fun a => ⟨a.name, a.value⟩⟩) (some token.span) cs)

theorem Kept.mono {P : Placed → Prop} {tokens rest : List Token} (h : Kept P tokens)
    (hsub : rest <:+ tokens) : Kept P rest where
  leaf token htoken := h.leaf token (hsub.subset htoken)
  nest token behind hbehind := h.nest token behind (hbehind.trans hsub)

/-- A token that ends the content of an element is not read into it. -/
theorem readContent_ends {fuel : Nat} {tag : String} {span : Span} {opened : List OpenElement}
    {stop : Token} {later rest : List Token} (hstop : EndsContent tag stop)
    (h : readContent fuel (⟨tag, span⟩ :: opened) parent d (stop :: later) = .ok (e, rest)) :
    e = d := by
  cases fuel with
  | zero =>
      rw [readContent] at h
      cases h
      rfl
  | succ fuel =>
      unfold readContent at h
      rcases hstop with hstop | hstop
      · simp only [hstop, ↓reduceIte, Except.ok.injEq, Prod.mk.injEq] at h
        exact h.1.symm
      · simp only [hstop] at h
        cases h

/-- Trees that have been added without a change of the document are none. -/
theorem Grown.eq_nil {ts : List Placed} {m : Node} (hm : d.get? parent = some m)
    (h : Grown d d parent ts) : ts = [] := by
  have hchildren := h.children m hm
  rw [hm, Option.some.injEq] at hchildren
  have hnil := congrArg Node.children hchildren
  simpa using hnil

/-- A tree that has been added with a new node is this node. -/
theorem Grown.eq_singleton {ts : List Placed} {m : Node} {id : NodeId} {kind : NodeKind}
    {span : Option Span} (hm : d.get? parent = some m) (h : Grown d e parent ts)
    (k : Grown d e parent [.node id kind span []]) : ts = [.node id kind span []] := by
  have hchildren := (h.children m hm).symm.trans (k.children m hm)
  rw [Option.some.injEq] at hchildren
  have hids := List.append_cancel_left (congrArg Node.children hchildren)
  rw [List.map_singleton, Placed.id_node] at hids
  obtain ⟨t, rfl, ht⟩ := List.map_eq_singleton_iff.1 hids
  obtain ⟨i, kind', span', cs⟩ := t
  rw [Placed.id_node] at ht
  subst ht
  have hget := (h.holds _ (List.mem_singleton_self _)).get?
  have hnew := (k.holds _ (List.mem_singleton_self _)).get?
  simp only [Placed.id_node, Placed.kind_node, Placed.span_node, Placed.children_node,
    List.map_nil] at hget hnew
  rw [hget, Option.some.injEq, Node.mk.injEq, List.map_eq_nil_iff] at hnew
  obtain ⟨rfl, -, rfl, rfl⟩ := hnew
  rfl

/-- What is read behind an opening tag is as its tokens say. -/
theorem contentOf_readContent {fuel : Nat} {tag : String} {span : Span} {opened : List OpenElement}
    {tokens rest : List Token} {m : Node} {us : List Placed} (hd : d.Sound)
    (hm : d.get? parent = some m) (hgrown : Grown d e parent us)
    (h : readContent fuel (⟨tag, span⟩ :: opened) parent d tokens = .ok (e, rest)) :
    ContentOf tag tokens us where
  none stop later htokens hstop := by
    subst htokens
    obtain rfl := readContent_ends hstop h
    exact hgrown.eq_nil hm
  raw raw t stop later htokens hraw hstop := by
    subst htokens
    cases fuel with
    | zero =>
        rw [readContent] at h
        cases h
        exact .inl (hgrown.eq_nil hm)
    | succ fuel =>
        unfold readContent at h
        simp only [hraw] at h
        obtain rfl := readContent_ends hstop h
        exact .inr ⟨_, hgrown.eq_singleton hm (hd.push hm (.text t) raw.span)⟩

/-- Growth by trees with a property. -/
def GrownBy (P : Placed → Prop) (d e : Document) (parent : NodeId) : Prop :=
  ∃ ts, Grown d e parent ts ∧ ∀ t ∈ ts, P t

section GrownBy

variable {P : Placed → Prop}

theorem Sound.grownBy_nil (h : d.Sound) (parent : NodeId) : GrownBy P d d parent :=
  ⟨[], h.grown_nil parent, by simp⟩

theorem GrownBy.trans {m : Node} (hm : d.get? parent = some m) (h : GrownBy P d e parent)
    (k : GrownBy P e f parent) : GrownBy P d f parent := by
  obtain ⟨ts, h, hts⟩ := h
  obtain ⟨us, k, hus⟩ := k
  refine ⟨ts ++ us, h.trans hm k, fun t ht => ?_⟩
  rcases List.mem_append.1 ht with ht | ht
  · exact hts t ht
  · exact hus t ht

/-- After growth the parent is still live. -/
theorem GrownBy.parent_live {m : Node} (hm : d.get? parent = some m)
    (h : GrownBy P d e parent) : ∃ m', e.get? parent = some m' := by
  obtain ⟨ts, h, _⟩ := h
  exact ⟨_, h.children m hm⟩

theorem GrownBy.sound (h : GrownBy P d e parent) : e.Sound := by
  obtain ⟨ts, h, _⟩ := h
  exact h.sound

theorem Grown.by_singleton {t : Placed} (h : Grown d e parent [t]) (ht : P t) :
    GrownBy P d e parent := by
  refine ⟨_, h, fun u hu => ?_⟩
  rwa [List.mem_singleton.1 hu]

/-- A new node that can be a leaf. -/
theorem Sound.push_by (h : d.Sound) {m : Node} (hm : d.get? parent = some m) (kind : NodeKind)
    (span : Span) (hk : ∀ id, P (.node id kind (some span) [])) :
    GrownBy P d (d.push parent kind span).1 parent :=
  (h.push hm kind span).by_singleton (hk _)

/-- An element comes with its content. -/
theorem Sound.push_element (hd : d.Sound) {m : Node} (hm : d.get? parent = some m) {token : Token}
    {tokens : List Token} (hP : Kept P (token :: tokens)) {tag : String} {tagSpan : Span}
    {attributes : List SourceAttribute}
    (htoken : token.content = .openTag tag tagSpan attributes false) (hvoid : isVoid tag = false)
    (hrepeated : repeated? [] attributes = none) {us : List Placed}
    (hus : Grown (d.push parent (.element ⟨tag, attributes.map fun a => ⟨a.name, a.value⟩⟩)
      token.span).1 e (d.push parent (.element ⟨tag, attributes.map fun a => ⟨a.name, a.value⟩⟩)
      token.span).2 us) (hcontent : ContentOf tag tokens us) (hPus : ∀ t ∈ us, P t) :
    GrownBy P d e parent := by
  have hpush := hd.push hm (.element ⟨tag, attributes.map fun a => ⟨a.name, a.value⟩⟩) token.span
  have hleaf := hP.leaf token (List.mem_cons_self ..) _ (.element htoken hrepeated)
  exact (hpush.nest hm hus).by_singleton (hP.nest token tokens (List.suffix_refl _) tag tagSpan
    attributes htoken hvoid _ us (hleaf _) hcontent hPus)

/-- What becomes of a token in front of other ones, if their content is read to its end. -/
inductive Continues (fuel : Nat) (opened : List OpenElement) (parent : NodeId) (d : Document)
    (token : Token) (tokens : List Token) : Document → List Token → Prop
  | stop {rest : List Token} (hrest : rest <:+ token :: tokens) :
      Continues fuel opened parent d token tokens d rest
  | pass {e : Document} {rest : List Token}
      (h : readContent fuel opened parent d tokens = .ok (e, rest)) :
      Continues fuel opened parent d token tokens e rest
  | leaf {e : Document} {rest : List Token} {kind : NodeKind} (hkind : ReadFrom token kind)
      (h : readContent fuel opened parent (d.push parent kind token.span).1 tokens =
        .ok (e, rest)) :
      Continues fuel opened parent d token tokens e rest
  | nest {e f : Document} {tokens' rest : List Token} {tag : String} {tagSpan : Span}
      {attributes : List SourceAttribute}
      (htoken : token.content = .openTag tag tagSpan attributes false) (hvoid : isVoid tag = false)
      (hrepeated : repeated? [] attributes = none)
      (hinner : readContent fuel (⟨tag, token.span⟩ :: opened)
        (d.push parent (.element ⟨tag, attributes.map fun a => ⟨a.name, a.value⟩⟩) token.span).2
        (d.push parent (.element ⟨tag, attributes.map fun a => ⟨a.name, a.value⟩⟩) token.span).1
        tokens = .ok (e, tokens'))
      (h : readContent fuel opened parent e tokens' = .ok (f, rest)) :
      Continues fuel opened parent d token tokens f rest

theorem continues_of_readContent {fuel : Nat} {opened : List OpenElement} {token : Token}
    {tokens rest : List Token}
    (h : readContent (fuel + 1) opened parent d (token :: tokens) = .ok (e, rest)) :
    Continues fuel opened parent d token tokens e rest := by
  unfold readContent at h
  split at h
  · next htoken => exact .leaf (.text (.inl htoken)) h
  · next htoken => exact .leaf (.text (.inr htoken)) h
  · next htoken => exact .leaf (.comment htoken) h
  · next htoken => exact .leaf (.doctype htoken) h
  · next tag tagSpan attributes selfClosing htoken =>
      split at h
      · cases h
      · next hrepeated =>
          simp only at h
          split at h
          · exact .leaf (.element htoken hrepeated) h
          · next hvoid =>
              rw [Bool.or_eq_true, not_or, Bool.not_eq_true, Bool.not_eq_true] at hvoid
              split at h
              · cases h
              · next hinner => exact .nest (hvoid.1 ▸ htoken) hvoid.2 hrepeated hinner h
  · -- a closing tag ends the innermost element or one around it, or it is passed over
    split at h
    · exact .pass h
    · split at h
      · cases h
        exact .stop (List.suffix_cons _ _)
      · split at h
        · cases h
          exact .stop (List.suffix_refl _)
        · exact .pass h
  · split at h
    · cases h
      exact .stop (List.suffix_cons _ _)
    · cases h

/-- **Reading content is growth by trees with any property that reading keeps**, and what is left are
some of the tokens. -/
theorem readContent_grown {fuel : Nat} {opened : List OpenElement} {tokens rest : List Token}
    {m : Node} (hd : d.Sound) (hm : d.get? parent = some m) (hP : Kept P tokens)
    (h : readContent fuel opened parent d tokens = .ok (e, rest)) :
    GrownBy P d e parent ∧ rest <:+ tokens := by
  induction fuel generalizing opened parent d tokens e rest m with
  | zero =>
      rw [readContent] at h
      cases h
      exact ⟨hd.grownBy_nil parent, List.suffix_refl _⟩
  | succ fuel ih =>
      cases tokens with
      | nil =>
          rw [readContent] at h
          cases h
          exact ⟨hd.grownBy_nil parent, List.suffix_refl _⟩
      | cons token tokens =>
          have hrest : Kept P tokens := hP.mono (List.suffix_cons _ _)
          -- what has been added so far, and what is read behind it
          have behind : ∀ {d' : Document} {later : List Token}, GrownBy P d d' parent →
              later <:+ tokens → readContent fuel opened parent d' later = .ok (e, rest) →
              GrownBy P d e parent ∧ rest <:+ token :: tokens := by
            intro d' later hgrown hlater h
            obtain ⟨m', hm'⟩ := hgrown.parent_live hm
            obtain ⟨hbehind, hsub⟩ := ih hgrown.sound hm' (hrest.mono hlater) h
            exact ⟨hgrown.trans hm hbehind, (hsub.trans hlater).trans (List.suffix_cons _ _)⟩
          cases continues_of_readContent h with
          | stop hsub => exact ⟨hd.grownBy_nil parent, hsub⟩
          | pass h => exact behind (hd.grownBy_nil parent) (List.suffix_refl _) h
          | leaf hkind h =>
              have hpush := hd.push_by hm _ token.span
                (hP.leaf token (List.mem_cons_self ..) _ hkind)
              exact behind hpush (List.suffix_refl _) h
          | @nest d' _ later _ tag _ attributes htoken hvoid hrepeated hinner h =>
              have hpush := hd.push hm
                (.element ⟨tag, attributes.map fun a => ⟨a.name, a.value⟩⟩) token.span
              have hnode := (hpush.holds _ (List.mem_cons_self ..)).get?
              obtain ⟨⟨us, hus, hPus⟩, hsub⟩ := ih hpush.sound hnode hrest hinner
              have hcontent := contentOf_readContent hpush.sound hnode hus hinner
              exact behind (hd.push_element hm hP htoken hvoid hrepeated hus hcontent hPus) hsub h

/-- What is read has grown from the document without content. -/
theorem parse_grown {source : String} (hP : Kept P (tokenize source)) (h : parse source = .ok d) :
    ∃ ts, Grown empty d root ts ∧ ∀ t ∈ ts, P t := by
  have hr : readContent ((tokenize source).length + 1) [] root empty (tokenize source) =
      .ok (d, ((readContent ((tokenize source).length + 1) [] root empty
        (tokenize source)).toOption.map (·.2)).getD []) := by
    unfold parse at h
    cases hc : readContent ((tokenize source).length + 1) [] root empty (tokenize source) with
    | error e =>
        simp only [hc] at h
        cases h
    | ok p =>
        simp only [hc] at h
        cases h
        rfl
  exact (readContent_grown sound_empty get?_empty_root hP hr).1

/-- What grows from the document without content is a tree, and there is nothing else. -/
theorem Grown.tree {ts : List Placed} (h : Grown empty d root ts) :
    d.Holds none (.node root .document none ts) ∧ (Placed.node root .document none ts).ids.Nodup ∧
      ∀ x, d.contains x = true → x ∈ (Placed.node root .document none ts).ids := by
  refine ⟨.node (h.children _ get?_empty_root) h.holds, ?_, fun x hx => ?_⟩
  · rw [Placed.ids_node, List.nodup_cons]
    exact ⟨h.not_mem get?_empty_root, h.nodup⟩
  · rw [Placed.ids_node, List.mem_cons]
    refine (h.covers x hx).symm.imp_left fun hroot => ?_
    cases x with
    | zero => rfl
    | succ x => simp [contains, get?, empty] at hroot

/-- **A document that is read holds a tree with any property that reading keeps.** -/
theorem parse_holds_kept {source : String} (hP : Kept P (tokenize source))
    (h : parse source = .ok d) :
    ∃ cs, d.Sound ∧ d.Holds none (.node root .document none cs) ∧ (∀ c ∈ cs, P c) ∧
      (Placed.node root .document none cs).ids.Nodup := by
  obtain ⟨ts, hts, hPts⟩ := parse_grown hP h
  exact ⟨ts, hts.sound, hts.tree.1, hPts, hts.tree.2.1⟩

end GrownBy

/-- What tokens make has children only if it is an element. -/
theorem kept_proper (tokens : List Token) : Kept Placed.Proper tokens where
  leaf token _ kind hk id := by
    cases hk with
    | text h => exact .text id _ _
    | comment h => exact .comment id _ _
    | doctype h => exact .doctype id _ _
    | element h hr => exact .element id _ _ (by simp)
  nest token behind _ tag tagSpan attributes _ _ id cs _ _ hcs := .element id _ _ hcs

/-- **A document that is read holds a proper tree.** -/
theorem parse_holds {source : String} (h : parse source = .ok d) :
    ∃ cs, d.Sound ∧ d.Holds none (.node root .document none cs) ∧ (∀ c ∈ cs, c.Proper) ∧
      (Placed.node root .document none cs).ids.Nodup :=
  parse_holds_kept (kept_proper _) h

/-- **A document that is read is one proper tree**, with the document node on top. -/
theorem parse_covers {source : String} (h : parse source = .ok d) :
    ∃ cs, d.Sound ∧ d.Holds none (.node root .document none cs) ∧ (∀ c ∈ cs, c.Proper) ∧
      (Placed.node root .document none cs).ids.Nodup ∧
      ∀ x, d.contains x = true → x ∈ (Placed.node root .document none cs).ids := by
  obtain ⟨ts, hts, hproper⟩ := parse_grown (kept_proper _) h
  exact ⟨ts, hts.sound, hts.tree.1, hproper, hts.tree.2⟩

end Document

end PageTemplate
