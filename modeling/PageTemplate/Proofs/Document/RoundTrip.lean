/-
**A written document reads back.**

The markup of a document is read in two passes, and each of them undoes one half of the writing.
Tokens that spell trees are read into documents that hold these trees, and the markup of trees is
read into tokens that spell their normal form.

Main definitions:

* `PageTemplate.Document.Spells` — tokens that spell trees;
* `PageTemplate.Document.Builds` — tokens that are read into trees, wherever they stand;
* `PageTemplate.Document.ReadsAs` — a text is read into tokens that spell given trees, whatever they
  are asked to be followed by.

Main results:

* `PageTemplate.Document.Spells.builds` — tokens are read into the trees that they spell;
* `PageTemplate.Document.readsAs_markupAll` — markup is read into tokens that spell the normal form;
* `PageTemplate.Document.parse_markup` — **reading undoes writing**, up to the normal form.
-/

import PageTemplate.Proofs.Document.Growth
import PageTemplate.Proofs.Markup.Lexing

set_option relaxedAutoImplicit false
set_option autoImplicit false

namespace PageTemplate

open PageTemplate.Markup PageTemplate.Text PageTemplate.Diagnostic

namespace Document

/-! ### Tokens into trees -/

/-- The element that an opening tag describes. -/
def elementOf (tag : String) (as : List SourceAttribute) : Element :=
  ⟨tag, as.map fun a => ⟨a.name, a.value⟩⟩

/-- The tokens spell the trees. -/
inductive Spells : List Token → List Tree → Prop
  | nil : Spells [] []
  | text {token : Token} {t : String} {tokens : List Token} {ts : List Tree}
      (h : token.content = .text t ∨ token.content = .rawText t) (hts : Spells tokens ts) :
      Spells (token :: tokens) (.node (.text t) none [] :: ts)
  | comment {token : Token} {t : String} {tokens : List Token} {ts : List Tree}
      (h : token.content = .comment t) (hts : Spells tokens ts) :
      Spells (token :: tokens) (.node (.comment t) none [] :: ts)
  | doctype {token : Token} {t : String} {tokens : List Token} {ts : List Tree}
      (h : token.content = .doctype t) (hts : Spells tokens ts) :
      Spells (token :: tokens) (.node (.doctype t) none [] :: ts)
  | void {token : Token} {tag : String} {tagSpan : Span} {as : List SourceAttribute}
      {tokens : List Token} {ts : List Tree} (h : token.content = .openTag tag tagSpan as false)
      (hr : repeated? [] as = none) (hv : isVoid tag = true) (hts : Spells tokens ts) :
      Spells (token :: tokens) (.node (.element (elementOf tag as)) none [] :: ts)
  | element {token close : Token} {tag : String} {tagSpan : Span} {as : List SourceAttribute}
      {inner tokens : List Token} {us ts : List Tree}
      (h : token.content = .openTag tag tagSpan as false) (hr : repeated? [] as = none)
      (hv : isVoid tag = false) (hus : Spells inner us) (hc : close.content = .closeTag tag)
      (hts : Spells tokens ts) :
      Spells (token :: (inner ++ close :: tokens))
        (.node (.element (elementOf tag as)) none us :: ts)

theorem Spells.append {tokens tokens' : List Token} {ts us : List Tree} (h : Spells tokens ts)
    (k : Spells tokens' us) : Spells (tokens ++ tokens') (ts ++ us) := by
  induction h with
  | nil => exact k
  | text h _ ih => exact .text h ih
  | comment h _ ih => exact .comment h ih
  | doctype h _ ih => exact .doctype h ih
  | void h hr hv _ ih => exact .void h hr hv ih
  | element h hr hv hus hc _ _ ih =>
      have := Spells.element h hr hv hus hc ih
      simpa using this

/-- Wherever the tokens stand, they are read into the trees, behind the children of the innermost open
element, and what follows them is read next. -/
def Builds (tokens : List Token) (ts : List Tree) : Prop :=
  ∀ ⦃fuel : Nat⦄ (opened : List OpenElement) (parent : NodeId) ⦃d : Document⦄ (rest : List Token)
    ⦃m : Node⦄, d.Sound → d.get? parent = some m → (tokens ++ rest).length < fuel →
    ∃ fuel' e us, readContent fuel opened parent d (tokens ++ rest) =
        readContent fuel' opened parent e rest ∧ rest.length < fuel' ∧
      Grown d e parent us ∧ Tree.bareAll (us.map Placed.tree) = ts

/-- A token that makes a leaf, before tokens that are read into trees. -/
theorem Builds.leaf {token : Token} {kind : NodeKind} {tokens : List Token} {ts : List Tree}
    (hstep : ∀ fuel opened parent d rest, readContent (fuel + 1) opened parent d (token :: rest) =
      readContent fuel opened parent (d.push parent kind token.span).1 rest)
    (h : Builds tokens ts) : Builds (token :: tokens) (.node kind none [] :: ts) := by
  intro fuel opened parent d rest m hd hm hf
  obtain ⟨fuel, rfl⟩ : ∃ k, fuel = k + 1 := ⟨fuel - 1, by simp at hf; omega⟩
  have hpush := hd.push hm kind token.span
  obtain ⟨fuel', e, us, hread, hf', hus, hts⟩ :=
    h opened parent rest hpush.sound (hpush.children m hm) (show _ < fuel by simpa using hf)
  refine ⟨fuel', e, _, ?_, hf', hpush.trans hm hus, ?_⟩
  · rw [List.cons_append, hstep, hread]
  · rw [List.singleton_append, List.map_cons, Tree.bareAll, hts, Placed.tree_node]
    rfl

/-- An opening tag, the tokens of the content, and the closing tag, before tokens that are read into
trees. -/
theorem Builds.element {token close : Token} {tag : String} {tagSpan : Span}
    {as : List SourceAttribute} {inner tokens : List Token} {us ts : List Tree}
    (h : token.content = .openTag tag tagSpan as false) (hr : repeated? [] as = none)
    (hv : isVoid tag = false) (hus : Builds inner us) (hc : close.content = .closeTag tag)
    (hts : Builds tokens ts) :
    Builds (token :: (inner ++ close :: tokens))
      (.node (.element (elementOf tag as)) none us :: ts) := by
  intro fuel opened parent d rest m hd hm hf
  obtain ⟨fuel, rfl⟩ : ∃ k, fuel = k + 1 := ⟨fuel - 1, by simp at hf; omega⟩
  have hlen : (inner ++ close :: (tokens ++ rest)).length < fuel := by simpa using hf
  have hpush := hd.push hm (.element (elementOf tag as)) token.span
  have hnode := (hpush.holds _ (List.mem_cons_self ..)).get?
  obtain ⟨fuel₁, e₁, vs, hread₁, hf₁, hvs, hbare₁⟩ :=
    hus (⟨tag, token.span⟩ :: opened) _ (close :: (tokens ++ rest)) hpush.sound hnode hlen
  obtain ⟨fuel₁, rfl⟩ : ∃ k, fuel₁ = k + 1 := ⟨fuel₁ - 1, by simp at hf₁; omega⟩
  have hend : ∀ id, readContent (fuel₁ + 1) (⟨tag, token.span⟩ :: opened) id e₁
      (close :: (tokens ++ rest)) = .ok (e₁, tokens ++ rest) := by
    intro id
    rw [readContent.eq_def]
    simp only [hc, ↓reduceIte]
  have hnest := hpush.nest hm hvs
  obtain ⟨fuel₂, e₂, ws, hread₂, hf₂, hws, hbare₂⟩ :=
    hts opened parent rest hnest.sound (hnest.children m hm) (show _ < fuel by
      simp only [List.length_append, List.length_cons] at hlen ⊢
      omega)
  refine ⟨fuel₂, e₂, _, ?_, hf₂, hnest.trans hm hws, ?_⟩
  · have happ : token :: (inner ++ close :: tokens) ++ rest =
        token :: (inner ++ close :: (tokens ++ rest)) := by simp
    rw [happ, readContent.eq_def]
    simp only [h, hr, hv, Bool.or_self, Bool.false_eq_true, ↓reduceIte]
    rw [elementOf, Placed.id_node] at hread₁
    rw [hread₁, hend]
    exact hread₂
  · rw [List.singleton_append, List.map_cons, Tree.bareAll, hbare₂, Placed.tree_node, Tree.bare,
      hbare₁]

/-- **Tokens are read into the trees that they spell.** -/
theorem Spells.builds {tokens : List Token} {ts : List Tree} (h : Spells tokens ts) :
    Builds tokens ts := by
  induction h with
  | nil =>
      intro fuel opened parent d rest m hd hm hf
      exact ⟨fuel, d, [], rfl, hf, hd.grown_nil parent, rfl⟩
  | text h _ ih =>
      refine ih.leaf fun fuel opened parent d rest => ?_
      rw [readContent.eq_def]
      rcases h with h | h
      · simp only [h]
      · simp only [h]
  | comment h _ ih =>
      refine ih.leaf fun fuel opened parent d rest => ?_
      rw [readContent.eq_def]
      simp only [h]
  | doctype h _ ih =>
      refine ih.leaf fun fuel opened parent d rest => ?_
      rw [readContent.eq_def]
      simp only [h]
  | void h hr hv _ ih =>
      refine ih.leaf fun fuel opened parent d rest => ?_
      rw [readContent.eq_def]
      simp only [h, hr, hv, Bool.or_true, ↓reduceIte, elementOf]
  | element h hr hv _ hc _ ihus ihts => exact .element h hr hv ihus hc ihts

/-! ### Markup into tokens -/

/-- Wherever the text stands before `rest`, it is read into tokens that spell the trees, and `rest` is
read next. -/
def ReadsAs (text rest : List Char) (ts : List Tree) : Prop :=
  ∀ ⦃c : Cursor⦄ ⦃rounds : Nat⦄, c.rest = text ++ rest → c.rest.length ≤ rounds →
    ∃ tokens d rounds', tokensFrom rounds c = tokens ++ tokensFrom rounds' d ∧ d.rest = rest ∧
      rest.length ≤ rounds' ∧ Spells tokens ts

theorem ReadsAs.nil (rest : List Char) : ReadsAs [] rest [] :=
  fun c rounds hc hr => ⟨[], c, rounds, rfl, hc, by simpa [hc] using hr, .nil⟩

theorem ReadsAs.append {text text' rest : List Char} {ts us : List Tree}
    (h : ReadsAs text (text' ++ rest) ts) (k : ReadsAs text' rest us) :
    ReadsAs (text ++ text') rest (ts ++ us) := by
  intro c rounds hc hr
  rw [List.append_assoc] at hc
  obtain ⟨tokens, d, rounds', hread, hd, hr', hts⟩ := h hc hr
  rw [← hd] at hr'
  obtain ⟨tokens', e, rounds'', hread', he, hr'', hus⟩ := k hd hr'
  refine ⟨tokens ++ tokens', e, rounds'', ?_, he, hr'', hts.append hus⟩
  rw [hread, hread', List.append_assoc]

/-- One round of reading. -/
theorem tokensFrom_round {c d : Cursor} {rounds : Nat} {text rest : List Char}
    {tokens : List Token} (ht : text ≠ []) (hc : c.rest = text ++ rest)
    (hr : c.rest.length ≤ rounds) (h : readTokens c = (tokens, d)) :
    ∃ rounds', tokensFrom rounds c = tokens ++ tokensFrom rounds' d ∧ rest.length ≤ rounds' := by
  have hlen : 0 < text.length := List.length_pos_of_ne_nil ht
  have hne : c.rest ≠ [] := by
    rw [hc]
    exact List.append_ne_nil_of_left_ne_nil ht rest
  rw [hc, List.length_append] at hr
  obtain ⟨rounds, rfl⟩ : ∃ k, rounds = k + 1 := ⟨rounds - 1, by omega⟩
  refine ⟨rounds, ?_, by omega⟩
  rw [tokensFrom, if_neg hne, h]

/-- A text that is read in one round. -/
theorem ReadsAs.ofReadTokens {text rest : List Char} {ts : List Tree} (ht : text ≠ [])
    (h : ∀ c : Cursor, c.rest = text ++ rest →
      ∃ tokens d, readTokens c = (tokens, d) ∧ d.rest = rest ∧ Spells tokens ts) :
    ReadsAs text rest ts := by
  intro c rounds hc hr
  obtain ⟨tokens, d, hread, hd, hts⟩ := h c hc
  obtain ⟨rounds', htokens, hr'⟩ := tokensFrom_round ht hc hr hread
  exact ⟨tokens, d, rounds', htokens, hd, hr', hts⟩

/-- Attributes with different names do not repeat a name. -/
theorem repeated?_eq_none {as seen : List SourceAttribute}
    (h : ((seen ++ as).map (·.name)).Nodup) : repeated? seen as = none := by
  induction as generalizing seen with
  | nil => rfl
  | cons a as ih =>
      have hnot : seen.find? (·.name == a.name) = none := by
        rw [List.find?_eq_none]
        intro b hb hname
        rw [List.map_append, List.nodup_append] at h
        exact h.2.2 b.name (List.mem_map_of_mem hb) a.name (by simp) (beq_iff_eq.1 hname)
      rw [repeated?, hnot]
      exact ih (by simpa using h)

theorem readsAs_text {text rest : List Char} (hrest : rest = [] ∨ startsMarkup rest = true) :
    ReadsAs (escapeText text) rest (Tree.joinText (String.ofList text) []) := by
  by_cases ht : text = []
  · subst ht
    exact .nil rest
  · have hj : Tree.joinText (String.ofList text) [] =
        [.node (.text (String.ofList text)) none []] := by
      rw [Tree.joinText_of_not_text _ rfl, if_neg]
      simpa [String.ext_iff] using ht
    rw [hj]
    refine .ofReadTokens (escapeText_ne_nil ht) fun c hc => ?_
    obtain ⟨token, d, htoken, hd, hread⟩ := readTokens_text ht hrest hc
    exact ⟨[token], d, hread, hd, .text (Or.inl htoken) .nil⟩

theorem readsAs_comment {t : String} (rest : List Char) (ht : ¬"-->".toList <:+: t.toList) :
    ReadsAs ("<!--".toList ++ t.toList ++ "-->".toList) rest [.node (.comment t) none []] := by
  refine .ofReadTokens (by simp) fun c hc => ?_
  obtain ⟨token, d, htoken, hd, hread⟩ := readTokens_comment ht hc
  rw [String.ofList_toList] at htoken
  exact ⟨[token], d, hread, hd, .comment htoken .nil⟩

theorem readsAs_doctype {t : String} (rest : List Char) (ht : '>' ∉ t.toList)
    (hd : ¬"--".toList <+: t.toList) :
    ReadsAs ("<!".toList ++ t.toList ++ ">".toList) rest [.node (.doctype t) none []] := by
  refine .ofReadTokens (by simp) fun c hc => ?_
  obtain ⟨token, d, htoken, hd, hread⟩ := readTokens_doctype ht hd hc
  rw [String.ofList_toList] at htoken
  exact ⟨[token], d, hread, hd, .doctype htoken .nil⟩

/-- The attributes of an element that can be written have different names. -/
theorem repeated?_of_writable {e : Element} (he : e.Writable)
    {bs : List SourceAttribute}
    (hbs : bs.map (fun b => (⟨b.name, b.value⟩ : Attribute)) = e.attributes) :
    repeated? [] bs = none := by
  have hmap : bs.map (·.name) = e.attributes.map (·.name) := by
    rw [← hbs, List.map_map]
    rfl
  refine repeated?_eq_none ?_
  rw [List.nil_append, hmap]
  exact he.distinct

/-- The tokens of an opening tag and the content of its element, before the closing tag. -/
theorem ReadsAs.close {e : Element} (he : e.Writable) (hv : isVoid e.tag = false)
    {front rest : List Char} {us : List Tree}
    (h : ∀ ⦃c : Cursor⦄ ⦃rounds : Nat⦄, c.rest = front ++ (Tree.closeTag e ++ rest) →
      c.rest.length ≤ rounds →
      ∃ (token : Token) (inner : List Token) (d : Cursor) (rounds' : Nat) (tagSpan : Span)
        (bs : List SourceAttribute),
        tokensFrom rounds c = token :: inner ++ tokensFrom rounds' d ∧
        d.rest = Tree.closeTag e ++ rest ∧ d.rest.length ≤ rounds' ∧
        token.content = .openTag e.tag tagSpan bs false ∧
        bs.map (fun b => (⟨b.name, b.value⟩ : Attribute)) = e.attributes ∧ Spells inner us) :
    ReadsAs (front ++ Tree.closeTag e) rest [.node (.element e) none us] := by
  intro c rounds hc hr
  rw [List.append_assoc] at hc
  obtain ⟨token, inner, d, rounds', tagSpan, bs, hread, hd, hr', htoken, hbs, hus⟩ := h hc hr
  obtain ⟨close, f, hclose, hf, hreadClose⟩ := readTokens_close he hd
  obtain ⟨rounds'', htokens, hr''⟩ := tokensFrom_round (by simp [Tree.closeTag]) hd hr' hreadClose
  have hnames : repeated? [] bs = none := repeated?_of_writable he hbs
  refine ⟨token :: (inner ++ [close]), f, rounds'', ?_, hf, hr'', ?_⟩
  · rw [hread, htokens]
    simp
  · have := Spells.element htoken hnames hv hus hclose .nil
    rwa [elementOf, hbs] at this

/-- The content of an element comes between its tags. -/
theorem readsAs_element {e : Element} (he : e.Writable) (hv : isVoid e.tag = false)
    (hraw : isRawText e.tag = false) {text rest : List Char} {us : List Tree}
    (h : ReadsAs text (Tree.closeTag e ++ rest) us) :
    ReadsAs (Tree.openTag e ++ text ++ Tree.closeTag e) rest [.node (.element e) none us] := by
  refine .close he hv fun c rounds hc hr => ?_
  rw [List.append_assoc] at hc
  obtain ⟨token, tagSpan, bs, d, htoken, hbs, hd, hread⟩ := readTokens_open he hc
  rw [hraw, if_neg (by simp)] at hread
  obtain ⟨rounds₁, htokens, hr₁⟩ := tokensFrom_round (by simp [Tree.openTag]) hc hr hread
  rw [← hd] at hr₁
  obtain ⟨inner, f, rounds₂, hinner, hf, hr₂, hus⟩ := h hd hr₁
  refine ⟨token, inner, f, rounds₂, tagSpan, bs, ?_, hf, by rw [hf]; exact hr₂, htoken, hbs, hus⟩
  rw [htokens, hinner, List.singleton_append, List.cons_append]

/-- The raw text of a script or style element comes between its tags. -/
theorem readsAs_raw {e : Element} (he : e.Writable) (hv : isVoid e.tag = false)
    (hraw : isRawText e.tag = true) {text : List Char} (rest : List Char)
    (ht : ¬HoldsClose e.tag.toList text) :
    ReadsAs (Tree.openTag e ++ text ++ Tree.closeTag e) rest
      [.node (.element e) none (Tree.joinText (String.ofList text) [])] := by
  refine .close he hv fun c rounds hc hr => ?_
  rw [List.append_assoc] at hc
  obtain ⟨token, tagSpan, bs, d, htoken, hbs, hd, hread⟩ := readTokens_open he hc
  rw [hraw, if_pos rfl] at hread
  obtain ⟨span, htext, hrest⟩ := readRawText_eq he ht hd
  have hcut : c.rest = (Tree.openTag e ++ text) ++ (Tree.closeTag e ++ rest) := by
    rw [hc, List.append_assoc]
  obtain ⟨rounds₁, htokens, hr₁⟩ := tokensFrom_round (by simp [Tree.openTag]) hcut hr hread
  refine ⟨token, _, _, rounds₁, tagSpan, bs, htokens, hrest, by rw [hrest]; exact hr₁, htoken, hbs,
    ?_⟩
  rw [htext, Tree.joinText_of_not_text _ rfl]
  by_cases hnil : text = []
  · rw [if_pos hnil, if_pos (by simp [hnil])]
    exact .nil
  · rw [if_neg hnil, if_neg (by simpa [String.ext_iff] using hnil)]
    exact .text (Or.inr rfl) .nil

/-- No tag is both that of a void element and that of one with raw text. -/
theorem isRawText_false_of_isVoid {tag : String} (h : isVoid tag = true) :
    isRawText tag = false := by
  have hall : ∀ t ∈ voidTags, rawTextTags.contains t = false := by decide
  exact hall _ (List.contains_iff_mem.1 h)

/-- A void element is only its opening tag. -/
theorem readsAs_void {e : Element} (he : e.Writable) (hv : isVoid e.tag = true)
    (rest : List Char) : ReadsAs (Tree.openTag e) rest [.node (.element e) none []] := by
  refine .ofReadTokens (by simp [Tree.openTag]) fun c hc => ?_
  obtain ⟨token, tagSpan, bs, d, htoken, hbs, hd, hread⟩ := readTokens_open he hc
  rw [isRawText_false_of_isVoid hv, if_neg (by simp)] at hread
  have hnames : repeated? [] bs = none := repeated?_of_writable he hbs
  refine ⟨[token], d, hread, hd, ?_⟩
  have := Spells.void htoken hnames hv .nil
  rwa [elementOf, hbs] at this

/-- Raw texts are their markup, and their normal form is one text. -/
theorem rawTexts_eq {us : List Tree} (hus : ∀ u ∈ us, u.text?.isSome = true) :
    Tree.markupAll true us = (us.filterMap Tree.text?).flatMap String.toList ∧
      Tree.normalAll us =
        Tree.joinText (String.ofList ((us.filterMap Tree.text?).flatMap String.toList)) [] := by
  induction us with
  | nil => exact ⟨by simp, rfl⟩
  | cons u us ih =>
      obtain ⟨ih₁, ih₂⟩ := ih fun v hv => hus v (List.mem_cons_of_mem _ hv)
      obtain ⟨k, span, cs⟩ := u
      cases k with
      | text t =>
          have ht : Tree.text? (.node (.text t) span cs) = some t := rfl
          rw [List.filterMap_cons_some ht, List.flatMap_cons, Tree.normalAll_text, ih₂,
            Tree.joinText_joinText, String.ofList_append, String.ofList_toList,
            Tree.markupAll_cons, ih₁]
          exact ⟨by rw [Tree.markup, if_pos rfl], rfl⟩
      | _ => exact absurd (hus _ (List.mem_cons_self ..)) (by simp [Tree.text?])

/-- The markup of a single tree that is no text: it opens markup, and it is read as the normal form of
the tree if the markup of its children is. -/
theorem readsAs_markup {k : NodeKind} {span : Option Span} {cs : List Tree} (hk : k.text? = none)
    (h : Tree.Writable (.node k span cs))
    (hcs : Tree.WritableAll cs → ∀ rest, rest = [] ∨ startsMarkup rest = true →
      ReadsAs (Tree.markupAll false cs) rest (Tree.normalAll cs)) (rest : List Char) :
    startsMarkup (Tree.markup false (.node k span cs) ++ rest) = true ∧
      ReadsAs (Tree.markup false (.node k span cs)) rest [.node k none (Tree.normalAll cs)] := by
  cases k with
  | text t => cases hk
  | document =>
      rw [Tree.Writable] at h
      exact h.elim
  | comment t =>
      rw [Tree.Writable] at h
      obtain ⟨ht, rfl⟩ := h
      rw [Tree.markup]
      exact ⟨rfl, readsAs_comment rest ht⟩
  | doctype t =>
      rw [Tree.Writable] at h
      obtain ⟨ht, hd, rfl⟩ := h
      rw [Tree.markup]
      exact ⟨rfl, readsAs_doctype rest ht hd⟩
  | element e =>
      rw [Tree.Writable] at h
      obtain ⟨he, hvoid, hraw, hcontent⟩ := h
      obtain ⟨_, first, tail, htag, hfirst⟩ := isTagName_chars he.tag
      have hopen : ∀ cs : List Char, startsMarkup (Tree.openTag e ++ cs) = true := by
        intro cs
        simp [Tree.openTag, htag, startsMarkup, startsOpen, hfirst]
      have hclose : startsMarkup (Tree.closeTag e ++ rest) = true := by
        simp [Tree.closeTag, htag, startsMarkup, startsClose, hfirst]
      rw [Tree.markup]
      by_cases hv : isVoid e.tag = true
      · rw [if_pos hv, hvoid hv]
        exact ⟨hopen rest, readsAs_void he hv rest⟩
      · rw [Bool.not_eq_true] at hv
        rw [if_neg (by simp [hv])]
        refine ⟨by rw [List.append_assoc, List.append_assoc]; exact hopen _, ?_⟩
        by_cases hr : isRawText e.tag = true
        · obtain ⟨hmarkup, hnormal⟩ := rawTexts_eq fun u hu => ((hraw hr).texts u hu).1
          rw [hr, hmarkup, hnormal]
          exact readsAs_raw he hv hr rest (hraw hr).noClose
        · rw [Bool.not_eq_true] at hr
          rw [hr]
          exact readsAs_element he hv hr (hcs (hcontent hr) _ (Or.inr hclose))

/-- **Markup is read into tokens that spell the normal form**, also behind the markup of a text. -/
theorem readsAs_markupAll (ts : List Tree) : Tree.WritableAll ts → ∀ (p rest : List Char),
    rest = [] ∨ startsMarkup rest = true →
    ReadsAs (escapeText p ++ Tree.markupAll false ts) rest
      (Tree.joinText (String.ofList p) (Tree.normalAll ts)) := by
  -- a text joins the texts that follow it, so the text read so far is carried along
  induction ts using Tree.forest_induction with
  | nil =>
      intro _ p rest hrest
      rw [Tree.markupAll_nil, List.append_nil]
      exact readsAs_text hrest
  | cons k span cs ts ihcs ihts =>
      intro h p rest hrest
      rw [Tree.WritableAll] at h
      have hnext := ihts h.2 [] rest hrest
      rw [escapeText_nil, List.nil_append, String.ofList_nil, Tree.joinText_empty_normalAll]
        at hnext
      have hcs : Tree.WritableAll cs → ∀ rest, rest = [] ∨ startsMarkup rest = true →
          ReadsAs (Tree.markupAll false cs) rest (Tree.normalAll cs) := by
        intro hw rest hrest
        have := ihcs hw [] rest hrest
        rwa [escapeText_nil, List.nil_append, String.ofList_nil, Tree.joinText_empty_normalAll]
          at this
      rw [Tree.markupAll_cons]
      by_cases hk : k.text? = none
      · obtain ⟨hstarts, hread⟩ := readsAs_markup hk h.1 hcs (Tree.markupAll false ts ++ rest)
        rw [← List.append_assoc] at hstarts
        have htext := @readsAs_text p _ (Or.inr hstarts)
        have hhead : (Tree.node k none (Tree.normalAll cs) :: Tree.normalAll ts).head?.bind
            Tree.text? = none := by
          cases k with
          | text t => cases hk
          | _ => rfl
        rw [Tree.normalAll_of_not_text hk, ← Tree.joinText_nil_append _ hhead]
        exact htext.append (hread.append hnext)
      · obtain ⟨t, ht⟩ := Option.ne_none_iff_exists'.1 hk
        cases k with
        | text u =>
            have hjoin := ihts h.2 (p ++ u.toList) rest hrest
            rw [Tree.normalAll_text, Tree.joinText_joinText, Tree.markup]
            rw [escapeText_append, List.append_assoc, String.ofList_append, String.ofList_toList]
              at hjoin
            exact hjoin
        | _ => cases ht

/-! ### Documents -/

/-- The document can be written and read back. -/
structure Writable (d : Document) : Prop where
  top : d.kind? root = some .document
  content : Tree.WritableAll (d.subtrees root)

theorem markup_of_writable {d : Document} (h : d.Writable) :
    d.markup = String.ofList (Tree.markupAll false (d.subtrees root)) := by
  have hraw : d.holdsRawText root = false := by
    simp [holdsRawText, element?, h.top, NodeKind.element?]
  rw [Document.markup, innerMarkup, hraw]

/-- The markup of trees that can be written is read without a fault, and the document that is read has
these trees, without empty texts and with texts side by side joined. -/
theorem parse_markupAll {ts : List Tree} (h : Tree.WritableAll ts) :
    ∃ e, parse (String.ofList (Tree.markupAll false ts)) = .ok e ∧
      e.kind? root = some .document ∧ Tree.bareAll (e.subtrees root) = Tree.normalAll ts := by
  have hread := readsAs_markupAll ts h [] [] (Or.inl rfl)
  rw [escapeText_nil, List.nil_append, String.ofList_nil, Tree.joinText_empty_normalAll] at hread
  set text := Tree.markupAll false ts with htext
  obtain ⟨tokens, c, rounds, htokens, hc, _, hspells⟩ :=
    hread (show (Cursor.ofSource text).rest = text ++ [] by simp [Cursor.ofSource]) le_rfl
  have hend : tokensFrom rounds c = [⟨.endOfInput, Span.empty c.pos⟩] := by
    cases rounds with
    | zero => rfl
    | succ rounds => rw [tokensFrom, if_pos hc]
  have htokenize : tokenize (String.ofList text) = tokens ++ [⟨.endOfInput, Span.empty c.pos⟩] := by
    rw [tokenize, String.toList_ofList, ← hend]
    exact htokens
  obtain ⟨fuel, e, us, hbuild, hfuel, hus, hbare⟩ :=
    hspells.builds [] root [⟨.endOfInput, Span.empty c.pos⟩] sound_empty get?_empty_root
      (Nat.lt_succ_self _)
  obtain ⟨fuel, rfl⟩ : ∃ k, fuel = k + 1 := ⟨fuel - 1, by simp at hfuel; omega⟩
  have hroot := hus.children _ get?_empty_root
  have hholds : e.Holds none (.node root .document none us) := .node hroot hus.holds
  have hnodup : (Placed.node root .document none us).ids.Nodup := by
    rw [Placed.ids_node, List.nodup_cons]
    exact ⟨hus.not_mem get?_empty_root, hus.nodup⟩
  refine ⟨e, ?_, by rw [kind?, hroot]; rfl, ?_⟩
  · rw [parse, htokenize, hbuild, readContent.eq_def]
    rfl
  · have := hholds.subtrees hnodup
    rw [Placed.id_node, Placed.children_node] at this
    rw [this, hbare]

/-- **Reading undoes writing.**  The markup of a document that can be written is read without a fault,
and the document that is read has, without empty texts and with texts side by side joined, the trees
that were written. -/
theorem parse_markup {d : Document} (h : d.Writable) :
    ∃ e, parse d.markup = .ok e ∧ e.kind? root = some .document ∧
      Tree.bareAll (e.subtrees root) = Tree.normalAll (d.subtrees root) := by
  rw [markup_of_writable h]
  exact parse_markupAll h.content

/-- A paragraph inside a paragraph, with texts side by side, an empty text, a value with quotes, a
comment that ends in a dash, and a script that looks like markup. -/
def sample : Document :=
  ⟨#[some ⟨.document, none, [1, 6], none⟩,
    some ⟨.element ⟨"p", [⟨"@on", none⟩, ⟨"title", some "a \"b\" &amp;"⟩]⟩, some 0, [2, 3, 4, 5], none⟩,
    some ⟨.text "x < y", some 1, [], none⟩, some ⟨.text "&lt;", some 1, [], none⟩,
    some ⟨.element ⟨"p", []⟩, some 1, [8], none⟩, some ⟨.comment "-", some 1, [], none⟩,
    some ⟨.element ⟨"script", []⟩, some 0, [7], none⟩, some ⟨.text "</p> &lt; </scrip", some 6, [], none⟩,
    some ⟨.text "", some 4, [], none⟩], []⟩

theorem sample_subtrees : sample.subtrees root =
    [.node (.element ⟨"p", [⟨"@on", none⟩, ⟨"title", some "a \"b\" &amp;"⟩]⟩) none
        [.node (.text "x < y") none [], .node (.text "&lt;") none [],
          .node (.element ⟨"p", []⟩) none [.node (.text "") none []], .node (.comment "-") none []],
      .node (.element ⟨"script", []⟩) none [.node (.text "</p> &lt; </scrip") none []]] := rfl

theorem sample_writable : sample.Writable where
  top := rfl
  content := by
    have hp : IsTagName ['p'] := ⟨'p', [], rfl, rfl, by simp⟩
    have hscript : IsTagName ['s', 'c', 'r', 'i', 'p', 't'] :=
      ⟨'s', ['c', 'r', 'i', 'p', 't'], rfl, rfl, by
        have hlower : ∀ x ∈ ['c', 'r', 'i', 'p', 't'], x.isLower = true :=
          List.all_eq_true.1 rfl
        exact fun x hx => .inl (hlower x hx)⟩
    have hon : IsAttributeName ['@', 'o', 'n'] :=
      ⟨'@', ['o', 'n'], rfl, by simp, by simp [show isAlphanumeric 'o' = true by decide,
        show isAlphanumeric 'n' = true by decide]⟩
    have htitle : IsAttributeName ['t', 'i', 't', 'l', 'e'] :=
      ⟨'t', ['i', 't', 'l', 'e'], rfl, by simp [show isAlphabetic 't' = true by decide],
        by simp [show isAlphanumeric 'i' = true by decide, show isAlphanumeric 't' = true by decide,
          show isAlphanumeric 'l' = true by decide, show isAlphanumeric 'e' = true by decide]⟩
    have inner : Tree.Writable (.node (.element ⟨"p", []⟩) none [.node (.text "") none []]) :=
      ⟨⟨hp, by simp, by simp⟩, fun h => absurd h (by decide +kernel), fun h => absurd h (by decide +kernel),
        fun _ => ⟨rfl, trivial⟩⟩
    have outer : (⟨"p", [⟨"@on", none⟩, ⟨"title", some "a \"b\" &amp;"⟩]⟩ : Element).Writable :=
      ⟨hp, by simpa using ⟨hon, htitle⟩, by decide⟩
    have raw : Tree.RawContent "script".toList [.node (.text "</p> &lt; </scrip") none []] :=
      ⟨by simp [Tree.text?, Tree.children], by decide⟩
    rw [sample_subtrees]
    exact ⟨⟨outer, fun h => absurd h (by decide +kernel), fun h => absurd h (by decide +kernel),
        fun _ => ⟨rfl, rfl, inner, ⟨by decide, rfl⟩, trivial⟩⟩,
      ⟨⟨hscript, by simp, by simp⟩, fun h => absurd h (by decide +kernel), fun _ => raw,
        fun h => absurd h (by decide +kernel)⟩, trivial⟩

theorem parse_markup_sample : sample.Writable ∧
    ∃ e, parse sample.markup = .ok e ∧ e.kind? root = some .document ∧
      Tree.bareAll (e.subtrees root) =
        [.node (.element ⟨"p", [⟨"@on", none⟩, ⟨"title", some "a \"b\" &amp;"⟩]⟩) none
            [.node (.text "x < y&lt;") none [], .node (.element ⟨"p", []⟩) none [],
              .node (.comment "-") none []],
          .node (.element ⟨"script", []⟩) none [.node (.text "</p> &lt; </scrip") none []]] :=
  ⟨sample_writable, parse_markup sample_writable⟩

end Document

end PageTemplate
