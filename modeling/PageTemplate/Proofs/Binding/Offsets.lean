/-
**Cutting a text at byte offsets.**

A text can also be cut by a loop over the document: look for the first placeholder in the text of the
current node, split the node where the placeholder starts and where it ends, take over the node of the
placeholder, and go on with the node behind it.  The node is split at offsets that are counted in bytes,
which fails where no character ends.  The offsets of a placeholder are always such places, and the nodes
that the loop leaves are those into which the pieces of the text are laid out.

Main definitions:

* `PageTemplate.Binding.bounds?` — where the first placeholder of a text starts and ends;
* `PageTemplate.Binding.cutByOffsets?` — the loop over one text;
* `PageTemplate.Binding.extractByOffsets?` — the loop over all text below a node.

Main results:

* `PageTemplate.Document.setText_insertBefore` — texts do not matter for links;
* `PageTemplate.Document.divide_setText`, `PageTemplate.Document.setText_divide` — what is written into
  the halves of a text that is divided;
* `PageTemplate.Binding.cutByOffsets?_eq` — the loop never fails, and lays out the pieces.
-/

import PageTemplate.Proofs.Binding.Runs

set_option relaxedAutoImplicit false
set_option autoImplicit false

namespace PageTemplate

open PageTemplate.Text

/-- Only the empty text takes no bytes. -/
theorem Text.byteSize_eq_zero_iff {cs : List Char} : byteSize cs = 0 ↔ cs = [] := by
  cases cs with
  | nil => simp
  | cons c cs =>
      have hpos := c.utf8Size_pos
      simp only [byteSize_cons, reduceCtorEq, iff_false]
      omega

namespace Document

/-! ### Changes that do not meet -/

variable {d : Document}

theorem update_comm (d : Document) (i j : NodeId) {f g : Node → Node}
    (h : ∀ n, f (g n) = g (f n)) :
    (d.update i f).update j g = (d.update j g).update i f := by
  have hnodes : (d.nodes.modify i (Option.map f)).modify j (Option.map g) =
      (d.nodes.modify j (Option.map g)).modify i (Option.map f) := by
    refine Array.ext_getElem? fun x => ?_
    simp only [Array.getElem?_modify]
    by_cases hi : i = x <;> by_cases hj : j = x
    · simp [hi, hj, Function.comp_def, h]
    · simp [hi, hj]
    · simp [hi, hj]
    · simp [hi, hj]
  simp only [update, hnodes]

theorem update_update (d : Document) (i : NodeId) (f g : Node → Node) :
    (d.update i f).update i g = d.update i fun n => g (f n) := by
  have hnodes : (d.nodes.modify i (Option.map f)).modify i (Option.map g) =
      d.nodes.modify i (Option.map fun n => g (f n)) := by
    refine Array.ext_getElem? fun x => ?_
    simp only [Array.getElem?_modify]
    by_cases hi : i = x
    · simp [hi, Function.comp_def]
    · simp [hi]
  simp only [update, hnodes]

theorem setText_setText (d : Document) (id : NodeId) (t u : String) :
    (d.setText id t).setText id u = d.setText id u := by
  rw [setText, setText, update_update]
  congr 1
  funext n
  obtain ⟨kind, p, cs, span⟩ := n
  cases kind <;> rfl

/-- A change of the links of a node does not meet one of its text. -/
theorem setText_update (d : Document) (i j : NodeId) (t : String) {g : Node → Node}
    (hkind : ∀ n k, g { n with kind := k } = { g n with kind := k }) :
    (d.setText i t).update j g = (d.update j g).setText i t := by
  refine update_comm d i j fun n => ?_
  have hsame : (g n).kind = n.kind := by simpa using congrArg Node.kind (hkind n n.kind)
  obtain ⟨kind, p, cs, span⟩ := n
  rw [hsame]
  cases kind with
  | text u => exact (hkind _ _).symm
  | document | element _ | comment _ | doctype _ => rfl

theorem setText_detach (d : Document) (i id : NodeId) (t : String) :
    (d.setText i t).detach id = (d.detach id).setText i t := by
  rw [detach, detach, (sameLinks_setText d i t).parent?]
  cases d.parent? id with
  | none => rfl
  | some p =>
      simp only
      rw [setText_update _ _ _ _ fun _ _ => rfl, setText_update _ _ _ _ fun _ _ => rfl]

/-- **Texts do not matter for links.** -/
theorem setText_insertBefore (d : Document) (i p c : NodeId) (a : Option NodeId) (t : String) :
    (d.setText i t).insertBefore p c a = (d.insertBefore p c a).setText i t := by
  have hcontains : ∀ x, (d.setText i t).contains x = d.contains x :=
    fun x => contains_update d i x _
  rw [insertBefore, insertBefore, hcontains, hcontains]
  split
  · rw [setText_detach, setText_update _ _ _ _ fun _ _ => rfl, setText_update _ _ _ _ fun _ _ => rfl]
  · rfl

/-- What is written into a new node may be there from the start. -/
theorem setText_alloc_self (h : d.Slotted) (t u : String) (span : Option Span) :
    (d.alloc (.text t) span).1.setText (d.alloc (.text t) span).2 u =
      (d.alloc (.text u) span).1 := by
  unfold alloc setText update
  split
  · rename_i id free hfree
    have hlt := ((h.mem_free id).1 (by simp [hfree])).1
    simp only [Document.mk.injEq, and_true]
    refine Array.ext_getElem? fun x => ?_
    rw [Array.getElem?_modify]
    by_cases hx : id = x
    · subst hx
      simp [hlt, Node.loose]
    · simp [hx]
  · simp only [Document.mk.injEq, and_true]
    refine Array.ext_getElem? fun x => ?_
    rw [Array.getElem?_modify]
    by_cases hx : d.nodes.size = x
    · subst hx
      simp [Node.loose]
    · simp [hx, Array.getElem?_push, Ne.symm hx]

/-- A new node does not meet a change of an old one. -/
theorem alloc_update (h : d.Slotted) {id : NodeId} (hid : d.contains id = true) (f : Node → Node)
    (kind : NodeKind) (span : Option Span) : (d.update id f).alloc kind span =
      ((d.alloc kind span).1.update id f, (d.alloc kind span).2) := by
  obtain ⟨n, hn⟩ := contains_iff.1 hid
  have hlt := lt_size_of_get? hn
  unfold alloc
  rw [free_update]
  split
  · rename_i new free hfree
    have hne : new ≠ id := by
      rintro rfl
      have := ((h.mem_free new).1 (by simp [hfree])).2
      rw [hn] at this
      cases this
    simp only [update, Prod.mk.injEq, Document.mk.injEq, and_true]
    refine Array.ext_getElem? fun x => ?_
    rw [Array.getElem?_setIfInBounds, Array.getElem?_modify, Array.getElem?_modify,
      Array.getElem?_setIfInBounds, Array.size_modify]
    by_cases hx : new = x
    · subst hx
      simp [Ne.symm hne]
    · simp [hx]
  · simp only [update, Prod.mk.injEq, Document.mk.injEq, and_true, Array.size_modify]
    refine Array.ext_getElem? fun x => ?_
    rw [Array.getElem?_push, Array.getElem?_modify, Array.getElem?_modify, Array.getElem?_push,
      Array.size_modify]
    by_cases hx : x = d.nodes.size
    · simp [hx, Nat.ne_of_lt hlt]
    · simp [hx]

/-! ### Halves of a text -/

/-- Puts a new node right behind another one, if this has a parent. -/
def attach (d : Document) (id new : NodeId) : Document :=
  match d.parent? id with
  | none => d
  | some p => d.insertBefore p new (d.nextSibling? id)

theorem divide_eq_attach (d : Document) (id : NodeId) (head tail : String) :
    d.divide id head tail =
      (((d.setText id head).alloc (.text tail) (d.span? id)).1.attach id
        ((d.setText id head).alloc (.text tail) (d.span? id)).2,
        ((d.setText id head).alloc (.text tail) (d.span? id)).2) := by
  unfold divide attach
  cases hp : ((d.setText id head).alloc (.text tail) (d.span? id)).1.parent? id with
  | none => simp only [hp]
  | some p => simp only [hp]

theorem setText_attach (d : Document) (i id new : NodeId) (t : String) :
    (d.setText i t).attach id new = (d.attach id new).setText i t := by
  have hlinks := sameLinks_setText d i t
  have hnext : (d.setText i t).nextSibling? id = d.nextSibling? id := by
    simp only [nextSibling?, hlinks.parent?, hlinks.children]
  rw [attach, attach, hlinks.parent?, hnext]
  split
  · rfl
  · rw [setText_insertBefore]

theorem span?_setText (d : Document) (i id : NodeId) (t : String) :
    (d.setText i t).span? id = d.span? id := by
  rw [span?, span?, setText, get?_update]
  split
  · rename_i hid
    rw [hid]
    cases d.get? i with
    | none => rfl
    | some n =>
        obtain ⟨kind, p, cs, span⟩ := n
        cases kind <;> rfl
  · rfl

theorem alloc_snd (d : Document) (kind kind' : NodeKind) (span : Option Span) :
    (d.alloc kind span).2 = (d.alloc kind' span).2 := by
  unfold alloc
  split <;> rfl

/-- Which node is new does not depend on the texts. -/
theorem divide_snd (d : Document) (id : NodeId) (head tail head' tail' : String) :
    (d.divide id head tail).2 = (d.divide id head' tail').2 := by
  rw [divide_eq_attach, divide_eq_attach]
  unfold alloc setText
  rw [free_update, free_update]
  split <;> simp

/-- **What is written into the second half may be there from the start.** -/
theorem divide_setText (h : d.Slotted) (id : NodeId) (head tail text : String) :
    (d.divide id head tail).1.setText (d.divide id head tail).2 text =
      (d.divide id head text).1 := by
  have hslots : (d.setText id head).Slotted := h.update _ _
  simp only [divide_eq_attach]
  rw [← setText_attach, setText_alloc_self hslots, alloc_snd _ (.text tail) (.text text)]

/-- **So may what is written into the first half.** -/
theorem setText_divide (h : d.Slotted) {id : NodeId} (hid : d.contains id = true)
    (head tail text : String) :
    (d.divide id head tail).1.setText id text = (d.divide id text tail).1 := by
  have hslots : (d.setText id head).Slotted := h.update _ _
  have hlive : (d.setText id head).contains id = true := by
    rw [setText, contains_update, hid]
  have halloc : ((d.setText id head).setText id text).alloc (.text tail) (d.span? id) = _ :=
    alloc_update hslots hlive _ _ _
  rw [setText_setText] at halloc
  simp only [divide_eq_attach]
  rw [← setText_attach, halloc]
  rfl

/-- What was in the text that is divided does not matter. -/
theorem divide_of_setText (d : Document) (id : NodeId) (text head tail : String) :
    (d.setText id text).divide id head tail = d.divide id head tail := by
  rw [divide_eq_attach, divide_eq_attach, setText_setText, span?_setText]

/-- The second half is in the new node. -/
theorem text?_divide (h : d.Slotted) (id : NodeId) (head tail : String) :
    (d.divide id head tail).1.text? (d.divide id head tail).2 = some tail := by
  have hslots : (d.setText id head).Slotted := h.update _ _
  obtain ⟨-, hnew, -⟩ := hslots.get?_alloc (.text tail) (d.span? id)
  have hkind : ∀ (e : Document) (new x : NodeId), (e.attach id new).kind? x = e.kind? x := by
    intro e new x
    unfold attach
    split
    · rfl
    · exact kind?_insertBefore ..
  simp only [divide_eq_attach]
  rw [text?, hkind, kind?, hnew]
  rfl

theorem Slotted.slotted_divide (h : d.Slotted) (id : NodeId) (head tail : String) :
    (d.divide id head tail).1.Slotted := by
  have hslots : (d.setText id head).Slotted := h.update _ _
  obtain ⟨-, -, hnew⟩ := hslots.get?_alloc (.text tail) (d.span? id)
  simp only [divide_eq_attach]
  unfold attach
  split
  · exact hnew
  · exact hnew.insertBefore _ _ _

end Document

namespace Binding

/-! ### The loop -/

/-- Where the first placeholder of a text starts and where it ends, in bytes, whether anything stands
behind it, and its path. -/
structure Bounds where
  start : Nat
  stop : Nat
  hasRest : Bool
  path : List Char

/-- The bounds of the first placeholder of a text. -/
def bounds? (cs : List Char) : Option Bounds :=
  (findPlaceholder? cs).map fun p =>
    let stop := byteSize cs - byteSize p.rest
    ⟨byteSize p.before, stop, stop < byteSize cs, p.path⟩

/-- Splits off what stands before a placeholder, if it does not start at the front. -/
def splitBefore? (d : Document) (current : NodeId) (start : Nat) : Option (Document × NodeId) :=
  if 0 < start then d.splitText? current start else some (d, current)

/-- Splits off what stands behind a placeholder, if anything does. -/
def splitBehind? (d : Document) (current : NodeId) (length : Nat) (hasRest : Bool) :
    Option (Document × Option NodeId) :=
  if hasRest then (d.splitText? current length).map fun r => (r.1, some r.2) else some (d, none)

/-- Cuts the text of the current node at its first placeholder, and goes on behind it.  There is no
result if a node is split at a place that is none of its text, or if there are too few rounds. -/
def cutByOffsets? : Nat → Document → Slots → NodeId → Option (Document × Slots)
  | 0, _, _, _ => none
  | rounds + 1, d, slots, current =>
      match (d.text? current).bind fun t => bounds? t.toList with
      | none => some (d, slots)
      | some b =>
          (splitBefore? d current b.start).bind fun (d, current) =>
            (splitBehind? d current (b.stop - b.start) b.hasRest).bind fun (d, rest) =>
              let slots := slots.add (String.ofList b.path) current
              let d := takeOver d current
              match rest with
              | some rest => cutByOffsets? rounds d slots rest
              | none => some (d, slots)

/-- Cuts the text nodes that are reached from `node` through elements, down to depth `fuel`, at the byte
offsets of their placeholders.  There is no result if one of them has none, or if there are too few
levels. -/
def extractByOffsets? : Nat → Document → Slots → NodeId → Option (Document × Slots)
  | 0, _, _, _ => none
  | fuel + 1, d, slots, node =>
      (d.children node).foldlM
        (fun (d, slots) child =>
          match d.kind? child with
          | some (.text t) => cutByOffsets? (t.length + 1) d slots child
          | some (.element _) => extractByOffsets? fuel d slots child
          | _ => some (d, slots)) (d, slots)

variable {d : Document} {slots : Slots} {c : NodeId}

/-- What was in the node into which pieces are laid out does not matter. -/
theorem layOut_setText (d : Document) (slots : Slots) (c : NodeId) (t : String) {ps : List Piece}
    (h : ps ≠ []) : layOut (d.setText c t) slots c ps = layOut d slots c ps := by
  obtain ⟨p, ps, rfl⟩ := List.exists_cons_of_ne_nil h
  cases ps with
  | nil => cases p <;> rw [layOut, layOut, Document.setText_setText]
  | cons q ps => cases p <;> rw [layOut, layOut, Document.divide_of_setText]

/-- Nor does what was in it when it was divided from another one. -/
theorem layOut_divide (h : d.Slotted) (slots : Slots) (c : NodeId) (head tail : String)
    {ps : List Piece} (hps : ps ≠ []) :
    layOut (d.divide c head tail).1 slots (d.divide c head tail).2 ps =
      layOut (d.divide c head "").1 slots (d.divide c head "").2 ps := by
  rw [← Document.divide_setText h c head "" tail, Document.divide_snd d c head tail head "",
    layOut_setText _ _ _ _ hps]

/-- The marker that the current text starts with, and what stands behind it. -/
theorem splitBehind_eq (h : d.Slotted) {marker path rest : List Char}
    (ht : d.text? c = some (String.ofList (marker ++ rest)))
    {next : Document → Slots → NodeId → Option (Document × Slots)}
    (hnext : ∀ d slots c, d.Slotted → d.text? c = some (String.ofList rest) →
      next d slots c = some (layOut d slots c (pieces rest))) :
    ((splitBehind? d c (byteSize marker) (rest ≠ [])).bind fun (d, rest) =>
      match rest with
      | some rest => next (takeOver d c) (slots.add (String.ofList path) c) rest
      | none => some (takeOver d c, slots.add (String.ofList path) c)) =
        some (layOut d slots c (.slot path :: pieces rest)) := by
  by_cases hrest : rest = []
  · subst hrest
    rw [pieces_of_none rfl]
    rfl
  · have hpieces : pieces rest ≠ [] := fun hnil => hrest (pieces_eq_nil_iff.1 hnil)
    obtain ⟨n, hn, -⟩ := Document.exists_of_text? ht
    have hlive := Document.contains_of_get? hn
    have hover : takeOver (d.divide c (String.ofList marker) (String.ofList rest)).1 c =
        (d.divide c "" (String.ofList rest)).1 := Document.setText_divide h hlive _ _ ""
    have hsnd := Document.divide_snd d c (String.ofList marker) (String.ofList rest) ""
      (String.ofList rest)
    obtain ⟨q, qs, hqs⟩ := List.exists_cons_of_ne_nil hpieces
    have hlay : layOut d slots c (.slot path :: pieces rest) =
        layOut (d.divide c "" "").1 (slots.add (String.ofList path) c) (d.divide c "" "").2
          (pieces rest) := by
      rw [hqs, layOut]
      rfl
    rw [splitBehind?, if_pos (by simpa using hrest), Document.splitText?_eq ht]
    simp only [Option.map_some, Option.bind_some]
    rw [hover, hsnd, hnext _ _ _ (h.slotted_divide c _ _) (Document.text?_divide h c _ _), hlay,
      layOut_divide h _ c _ _ hpieces]

/-- What the current text has before a marker. -/
theorem splitBefore_eq (h : d.Slotted) {before behind : List Char}
    (ht : d.text? c = some (String.ofList (before ++ behind))) :
    ∃ e current, splitBefore? d c (byteSize before) = some (e, current) ∧ e.Slotted ∧
      e.text? current = some (String.ofList behind) ∧ ∀ (slots : Slots) (ps : List Piece), ps ≠ [] →
        layOut d slots c (Piece.ofLiteral before ++ ps) = layOut e slots current ps := by
  by_cases hbefore : before = []
  · subst hbefore
    exact ⟨d, c, rfl, h, ht, fun _ _ _ => rfl⟩
  · refine ⟨_, _, ?_, h.slotted_divide c (String.ofList before) (String.ofList behind),
      Document.text?_divide h c _ _, fun slots ps hps => ?_⟩
    · rw [splitBefore?, if_pos (Nat.pos_of_ne_zero fun hzero => hbefore (byteSize_eq_zero_iff.1 hzero)),
        Document.splitText?_eq ht]
    · rw [layOut_divide h slots c _ _ hps, Piece.ofLiteral, if_neg hbefore]
      obtain ⟨p, ps, rfl⟩ := List.exists_cons_of_ne_nil hps
      rfl

/-- A text without a placeholder stays as it is. -/
theorem layOut_ofLiteral {cs : List Char} (ht : d.text? c = some (String.ofList cs)) (slots : Slots) :
    layOut d slots c (Piece.ofLiteral cs) = (d, slots) := by
  rw [Piece.ofLiteral]
  split
  · rfl
  · obtain ⟨⟨kind, p, children, span⟩, hn, rfl⟩ := Document.exists_of_text? ht
    rw [layOut, Piece.text, Document.setText, update_eq_self hn rfl]

theorem cutByOffsets?_ofList {rounds : Nat} {cs : List Char} (h : d.Slotted)
    (ht : d.text? c = some (String.ofList cs)) (hrounds : cs.length < rounds) (slots : Slots) :
    cutByOffsets? rounds d slots c = some (layOut d slots c (pieces cs)) := by
  induction rounds generalizing cs d slots c with
  | zero => exact absurd hrounds (Nat.not_lt_zero _)
  | succ rounds ih =>
      rw [cutByOffsets?, ht, Option.bind_some, String.toList_ofList, bounds?]
      cases hp : findPlaceholder? cs with
      | none => rw [pieces_of_none hp, layOut_ofLiteral ht, Option.map_none]
      | some p =>
          obtain ⟨marker, hfirst⟩ := findPlaceholder?_leftmost hp
          have hshorter := length_of_findPlaceholder? hp
          have hsize := congrArg byteSize hfirst.text
          rw [byteSize_append, byteSize_append] at hsize
          have hlength : byteSize cs - byteSize p.rest - byteSize p.before = byteSize marker := by
            omega
          have hrest : decide (byteSize cs - byteSize p.rest < byteSize cs) =
              decide (p.rest ≠ []) := by
            have hzero : byteSize p.rest = 0 ↔ p.rest = [] := byteSize_eq_zero_iff
            have hmarker : byteSize marker ≠ 0 := fun hzero =>
              hfirst.marker.ne_nil (byteSize_eq_zero_iff.1 hzero)
            rw [decide_eq_decide, ne_eq, ← hzero]
            omega
          rw [hfirst.text] at ht
          obtain ⟨e, current, hsplit, he, htext, hlay⟩ := splitBefore_eq h ht
          rw [pieces_of_some hp, hlay _ _ (List.cons_ne_nil _ _), Option.map_some]
          simp only [hsplit, Option.bind_some, hlength, hrest]
          exact splitBehind_eq he htext fun d slots c h ht => ih h ht (by omega) slots

/-- **The loop never fails, and leaves the pieces of the text.** -/
theorem cutByOffsets?_eq {t : String} {rounds : Nat} (h : d.Slotted) (ht : d.text? c = some t)
    (hrounds : t.length < rounds) (slots : Slots) :
    cutByOffsets? rounds d slots c = some (cutText d slots c) := by
  have hcut : cutText d slots c = layOut d slots c (pieces t.toList) := by
    rw [cutText, ht]
  rw [hcut]
  exact cutByOffsets?_ofList h (by rwa [String.ofList_toList]) hrounds slots

end Binding

end PageTemplate
