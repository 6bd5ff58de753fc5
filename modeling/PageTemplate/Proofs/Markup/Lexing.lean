/-
**Reading what was written.**

Each reader of the source, put before the markup of one construct, reads this construct and stops
right behind it, whatever comes next.

Main results:

* `PageTemplate.Text.splitWhere_eq` — a text is cut where the test holds first;
* `PageTemplate.Markup.readAttributes_markup` — the attributes of an opening tag are read back;
* `PageTemplate.Markup.readTokens_open`, `PageTemplate.Markup.readRawText_eq`,
  `PageTemplate.Markup.readTokens_close`, `PageTemplate.Markup.readTokens_text`,
  `PageTemplate.Markup.readTokens_comment`, `PageTemplate.Markup.readTokens_doctype` — so are the
  tokens.
-/

import Mathlib.Data.List.DropRight
import PageTemplate.Document.Tree
import PageTemplate.Markup.Token
import PageTemplate.Proofs.Document.NormalForm
import PageTemplate.Proofs.Markup.Escaping

set_option relaxedAutoImplicit false
set_option autoImplicit false

namespace PageTemplate

open PageTemplate.Text

namespace Text

/-- A text is cut where the test holds first. -/
theorem splitWhere_eq {stop : List Char → Bool} {xs ys : List Char}
    (hxs : ∀ as b bs, xs = as ++ b :: bs → stop (b :: bs ++ ys) = false)
    (hys : ys = [] ∨ stop ys = true) : splitWhere stop (xs ++ ys) = (xs, ys) := by
  induction xs with
  | nil =>
      rcases hys with rfl | hys
      · rfl
      · cases ys with
        | nil => rfl
        | cons y ys => exact splitWhere_cons_of_stop hys
  | cons x xs ih =>
      have hx : stop (x :: (xs ++ ys)) = false := hxs [] x xs rfl
      rw [List.cons_append, splitWhere_cons_of_not hx,
        ih fun as b bs h => hxs (x :: as) b bs (by rw [h, List.cons_append])]

namespace Cursor

theorem readUntil_eq {c : Cursor} (stop : List Char → Bool) {xs ys : List Char}
    (hc : c.rest = xs ++ ys) (hxs : ∀ as b bs, xs = as ++ b :: bs → stop (b :: bs ++ ys) = false)
    (hys : ys = [] ∨ stop ys = true) :
    (c.readUntil stop).1 = xs ∧ (c.readUntil stop).2.rest = ys := by
  simp only [readUntil, hc, splitWhere_eq hxs hys, and_self]

theorem readWhile_eq {c : Cursor} {p : Char → Bool} {xs ys : List Char} (hc : c.rest = xs ++ ys)
    (hxs : ∀ x ∈ xs, p x = true) (hys : ∀ y ∈ ys.head?, p y = false) :
    (c.readWhile p).1 = xs ∧ (c.readWhile p).2.rest = ys := by
  have htake : ys.takeWhile p = [] := by
    cases ys with
    | nil => rfl
    | cons y ys => simp [hys y rfl]
  have hdrop : ys.dropWhile p = ys := by
    cases ys with
    | nil => rfl
    | cons y ys => simp [hys y rfl]
  simp only [readWhile, hc, List.takeWhile_append_of_pos hxs, List.dropWhile_append_of_pos hxs,
    htake, hdrop, List.append_nil, and_self]

theorem rest_skip {c : Cursor} {n : Nat} (xs : List Char) {ys : List Char} (hc : c.rest = xs ++ ys)
    (hn : xs.length = n) : (c.skip n).rest = ys := by
  simp [skip, hc, ← hn]

theorem rest_skipBlanks (c : Cursor) : c.skipBlanks.rest = c.rest.dropWhile isBlank := rfl

end Cursor

end Text

namespace Markup

/-! ### Classes of characters -/

/-- No white space is alphabetic. -/
theorem alphabetic_whiteSpace :
    ∀ p ∈ whiteSpace, ∀ k < p.2 - p.1 + 1, alphabetic.hasCode (p.1 + k) = false := by
  decide +kernel

theorem isBlank_false_of_isAlphabetic {c : Char} (h : isAlphabetic c = true) :
    isBlank c = false := by
  cases hb : isBlank c with
  | false => rfl
  | true =>
      obtain ⟨p, hp, hlo, hhi⟩ := Ranges.exists_mem_of_hasCode hb
      have hnot := alphabetic_whiteSpace p hp (c.toNat - p.1) (by omega)
      have hcode : alphabetic.hasCode c.toNat = true := h
      rw [Nat.add_sub_cancel' hlo, hcode] at hnot
      cases hnot

/-- The name of an attribute does not start with a blank. -/
theorem isBlank_false_of_isNameStart {c : Char} (h : isNameStart c = true) :
    isBlank c = false := by
  simp only [isNameStart, Bool.or_eq_true, decide_eq_true_eq] at h
  rcases h with (((h | h) | h) | h) | h
  · exact isBlank_false_of_isAlphabetic h
  all_goals
    subst h
    decide

theorem isNameChar_of_isNameStart {c : Char} (h : isNameStart c = true) : isNameChar c = true := by
  simp only [isNameStart, isNameChar, isAlphanumeric, Bool.or_eq_true, decide_eq_true_eq] at h ⊢
  rcases h with (((h | h) | h) | h) | h
  all_goals simp [h]

/-- What opens markup starts with a less-than sign. -/
theorem startsMarkup_false {c : Char} (h : c ≠ '<') (cs : List Char) :
    startsMarkup (c :: cs) = false := by
  have hd : startsDeclaration (c :: cs) = false := by
    unfold startsDeclaration
    split
    · rename_i he
      exact absurd (List.cons.inj he).1 h
    · rfl
  have ho : startsOpen (c :: cs) = false := by
    unfold startsOpen
    split
    · rename_i he
      exact absurd (List.cons.inj he).1 h
    · rfl
  have hc : startsClose (c :: cs) = false := by
    unfold startsClose
    split
    · rename_i he
      exact absurd (List.cons.inj he).1 h
    · rfl
  simp [startsMarkup, hd, ho, hc]

/-! ### Attributes -/

theorem isNameStart_of_isAttributeName {c : Char} {cs : List Char}
    (h : IsAttributeName (c :: cs)) : isNameStart c = true ∧ ∀ x ∈ c :: cs, isNameChar x = true := by
  obtain ⟨c', cs', he, hc, hcs⟩ := h
  cases he
  have hstart : isNameStart c = true := by
    simp only [isNameStart, Bool.or_eq_true, decide_eq_true_eq]
    rcases hc with h | h | h | h | h
    all_goals simp [h]
  refine ⟨hstart, fun x hx => ?_⟩
  rcases List.mem_cons.1 hx with rfl | hx
  · exact isNameChar_of_isNameStart hstart
  · simp only [isNameChar, Bool.or_eq_true, decide_eq_true_eq]
    rcases hcs x hx with h | h | h | h | h | h
    all_goals simp [h]

/-- A value between double quotes is read up to its closing quote. -/
theorem readValue_quoted {c : Cursor} {v rest : List Char}
    (hc : c.rest = '"' :: escapeAttribute v ++ '"' :: rest) :
    (readValue c).1 = escapeAttribute v ∧ (readValue c).2.rest = rest := by
  have hskip : (c.skip 1).rest = escapeAttribute v ++ '"' :: rest :=
    Cursor.rest_skip ['"'] (by simp [hc]) rfl
  have hread := Cursor.readUntil_eq (['"'].isPrefixOf ·) hskip
    (fun as b bs hv => by
      have hb : b ≠ '"' := by
        rintro rfl
        exact quote_not_mem_escapeAttribute v (by simp [hv])
      simp [List.isPrefixOf, Ne.symm hb])
    (Or.inr (by simp [List.isPrefixOf]))
  have hval : readValue c =
      (((c.skip 1).readUntil (['"'].isPrefixOf ·)).1,
        ((c.skip 1).readUntil (['"'].isPrefixOf ·)).2.skip 1) := by
    unfold readValue
    simp only [hc, List.cons_append]
  rw [hval]
  exact ⟨hread.1, Cursor.rest_skip ['"'] (by simp [hread.2]) rfl⟩

/-- Behind a name comes an equals sign and the value, or nothing. -/
theorem readAttribute?_eq {c : Cursor} {name behind : List Char} (hname : IsAttributeName name)
    (hbehind : ∀ y ∈ behind.head?, isNameChar y = false) (hc : c.rest = name ++ behind) :
    ∃ d : Cursor, d.rest = behind.dropWhile isBlank ∧ readAttribute? c =
      match d.rest with
      | '=' :: _ =>
          some (⟨String.ofList name, some (String.ofList (decode (readValue (d.skip 1).skipBlanks).1)),
            c.spanTo (readValue (d.skip 1).skipBlanks).2⟩, (readValue (d.skip 1).skipBlanks).2)
      | _ => some (⟨String.ofList name, none, c.spanTo (c.readWhile isNameChar).2⟩, d) := by
  obtain ⟨first, cs, rfl, _, _⟩ := id hname
  obtain ⟨hstart, hall⟩ := isNameStart_of_isAttributeName hname
  obtain ⟨hread, hafter⟩ := Cursor.readWhile_eq hc hall hbehind
  refine ⟨(c.readWhile isNameChar).2.skipBlanks, by rw [Cursor.rest_skipBlanks, hafter], ?_⟩
  rw [readAttribute?, hc]
  exact (if_pos hstart).trans (hread ▸ rfl)

/-- An attribute is read back.  What blanks come behind it does not matter. -/
theorem readAttribute?_markup {c : Cursor} {a : Attribute} (ha : IsAttributeName a.name.toList)
    {rest : List Char} (hrest : ∀ y ∈ rest.head?, isNameChar y = false)
    (heq : (rest.dropWhile isBlank).head? ≠ some '=')
    (hc : ' ' :: c.rest = Tree.attributeMarkup a ++ rest) :
    ∃ b d, readAttribute? c = some (b, d) ∧ (⟨b.name, b.value⟩ : Attribute) = a ∧
      d.rest.dropWhile isBlank = rest.dropWhile isBlank := by
  obtain ⟨name, value⟩ := a
  cases value with
  | none =>
      have hc' : c.rest = name.toList ++ rest := by
        simpa [Tree.attributeMarkup] using hc
      obtain ⟨d, hd, hread⟩ := readAttribute?_eq ha hrest hc'
      split at hread
      · rename_i hcase
        rw [← hd, hcase] at heq
        exact absurd rfl heq
      · refine ⟨_, _, hread, by simp, ?_⟩
        rw [hd, List.dropWhile_idempotent]
  | some v =>
      have hc' : c.rest = name.toList ++ ('=' :: '"' :: escapeAttribute v.toList ++ '"' :: rest) := by
        simpa [Tree.attributeMarkup] using hc
      obtain ⟨d, hd, hread⟩ := readAttribute?_eq ha (by
        intro y hy
        cases hy
        decide) hc'
      have hd' : d.rest = '=' :: '"' :: escapeAttribute v.toList ++ '"' :: rest := by
        rw [hd, List.cons_append, List.dropWhile_cons_of_neg (by decide)]
      have hquote : (d.skip 1).skipBlanks.rest = '"' :: escapeAttribute v.toList ++ '"' :: rest := by
        rw [Cursor.rest_skipBlanks, Cursor.rest_skip ['='] (n := 1) (by simpa using hd') rfl,
          List.cons_append, List.dropWhile_cons_of_neg (by decide)]
      obtain ⟨hval, hrestval⟩ := readValue_quoted hquote
      rw [hd'] at hread
      refine ⟨_, _, hread, ?_, by rw [hrestval]⟩
      have hdecode := decode_escapeAttribute v.toList []
      rw [List.append_nil, decode_nil, List.append_nil] at hdecode
      simp [hval, hdecode]

/-- The markup of an attribute is a blank and a name, which starts as names do. -/
theorem attributeMarkup_eq_cons {a : Attribute} (ha : IsAttributeName a.name.toList) :
    ∃ first tail, isNameStart first = true ∧ Tree.attributeMarkup a = ' ' :: first :: tail := by
  obtain ⟨first, cs, hname, _, _⟩ := id ha
  refine ⟨first, (Tree.attributeMarkup a).drop 2,
    (isNameStart_of_isAttributeName (hname ▸ ha)).1, ?_⟩
  simp [Tree.attributeMarkup, hname]

/-- Behind an attribute come the blank of the next one or the end of the tag. -/
theorem behind_attribute {as : List Attribute} (has : ∀ a ∈ as, IsAttributeName a.name.toList)
    (rest : List Char) :
    (∀ y ∈ (as.flatMap Tree.attributeMarkup ++ '>' :: rest).head?, isNameChar y = false) ∧
      ((as.flatMap Tree.attributeMarkup ++ '>' :: rest).dropWhile isBlank).head? ≠ some '=' := by
  cases as with
  | nil =>
      rw [List.flatMap_nil, List.nil_append, List.dropWhile_cons_of_neg (by decide)]
      refine ⟨fun y hy => ?_, by simp⟩
      cases hy
      decide
  | cons b bs =>
      obtain ⟨first, tail, hstart, htail⟩ := attributeMarkup_eq_cons (has b (List.mem_cons_self ..))
      rw [List.flatMap_cons, List.append_assoc, htail, List.cons_append, List.cons_append,
        List.dropWhile_cons_of_pos (by decide),
        List.dropWhile_cons_of_neg (by simp [isBlank_false_of_isNameStart hstart])]
      refine ⟨fun y hy => ?_, fun h => ?_⟩
      · cases hy
        decide
      · cases h
        exact absurd hstart (by decide)

/-- **The attributes of an opening tag are read back**, up to and including its end. -/
theorem readAttributes_markup {as : List Attribute} (has : ∀ a ∈ as, IsAttributeName a.name.toList)
    {rest : List Char} {rounds : Nat} {c : Cursor} (hr : as.length < rounds)
    (hc : c.rest.dropWhile isBlank =
      (as.flatMap Tree.attributeMarkup ++ '>' :: rest).dropWhile isBlank) :
    ∃ bs e, readAttributes rounds c = (bs, false, e) ∧ e.rest = rest ∧
      bs.map (fun b => (⟨b.name, b.value⟩ : Attribute)) = as := by
  induction as generalizing rounds c with
  | nil =>
      obtain ⟨rounds, rfl⟩ : ∃ k, rounds = k + 1 := ⟨rounds - 1, by simp at hr; omega⟩
      have hd : c.skipBlanks.rest = '>' :: rest := by
        rw [Cursor.rest_skipBlanks, hc, List.flatMap_nil, List.nil_append,
          List.dropWhile_cons_of_neg (by decide)]
      refine ⟨[], c.skipBlanks.skip 1, ?_, Cursor.rest_skip ['>'] (by simpa using hd) rfl,
        rfl⟩
      rw [readAttributes]
      simp only [hd]
  | cons a as ih =>
      obtain ⟨rounds, rfl⟩ : ∃ k, rounds = k + 1 := ⟨rounds - 1, by simp at hr; omega⟩
      have ha := has a (List.mem_cons_self ..)
      obtain ⟨first, tail, hstart, htail⟩ := attributeMarkup_eq_cons ha
      set behind := as.flatMap Tree.attributeMarkup ++ '>' :: rest with hbehind
      have hd : ' ' :: c.skipBlanks.rest = Tree.attributeMarkup a ++ behind := by
        rw [Cursor.rest_skipBlanks, hc, List.flatMap_cons, List.append_assoc, htail,
          List.cons_append, List.dropWhile_cons_of_pos (by decide), List.cons_append,
          List.dropWhile_cons_of_neg (by simp [isBlank_false_of_isNameStart hstart])]
      have hfirst : c.skipBlanks.rest = first :: (tail ++ behind) := by
        rw [htail, List.cons_append, List.cons_append] at hd
        exact (List.cons.inj hd).2
      obtain ⟨hrest, heq⟩ := behind_attribute (fun b hb => has b (List.mem_cons_of_mem _ hb)) rest
      obtain ⟨b, e, hread, hab, he⟩ := readAttribute?_markup ha hrest heq hd
      obtain ⟨bs, f, hreads, hf, hbs⟩ := ih (fun b hb => has b (List.mem_cons_of_mem _ hb))
        (show as.length < rounds by simpa using hr) he
      refine ⟨b :: bs, f, ?_, hf, by rw [List.map_cons, hab, hbs]⟩
      rw [readAttributes]
      simp only [hread, hreads]
      split
      · rename_i h
        rw [hfirst] at h
        cases h
      · rename_i h
        rw [hfirst] at h
        rw [(List.cons.inj h).1] at hstart
        exact absurd hstart (by decide)
      · rename_i h
        rw [hfirst] at h
        rw [(List.cons.inj h).1] at hstart
        exact absurd hstart (by decide)
      · rfl

/-! ### Tags -/

/-- Only the letters from `A` to `Z` have a lower case of their own. -/
theorem toLower_of_not_upper {c : Char} (h : c.toNat < 65 ∨ 90 < c.toNat) : c.toLower = c := by
  refine dif_neg ?_
  rintro ⟨hle, hge⟩
  rw [ge_iff_le, UInt32.le_iff_toNat_le] at hle
  rw [UInt32.le_iff_toNat_le] at hge
  have hA : ('A' : Char).val.toNat = 65 := rfl
  have hZ : ('Z' : Char).val.toNat = 90 := rfl
  rw [← Char.toNat_val] at h
  omega

theorem toLower_of_isLower {c : Char} (h : c.isLower = true) : c.toLower = c := by
  replace h : (decide (c.val ≥ 'a'.val) && decide (c.val ≤ 'z'.val)) = true := h
  simp only [Bool.and_eq_true, decide_eq_true_eq, UInt32.le_iff_toNat_le, ge_iff_le] at h
  have ha : ('a' : Char).val.toNat = 97 := rfl
  refine toLower_of_not_upper (.inr ?_)
  rw [← Char.toNat_val]
  omega

theorem toLower_of_isDigit {c : Char} (h : c.isDigit = true) : c.toLower = c := by
  simp only [Char.isDigit, Bool.and_eq_true, decide_eq_true_eq, UInt32.le_iff_toNat_le] at h
  have h9 : ('9' : Char).val.toNat = 57 := rfl
  refine toLower_of_not_upper (.inl ?_)
  rw [← Char.toNat_val]
  omega

theorem isAlpha_of_isLower {c : Char} (h : c.isLower = true) : c.isAlpha = true := by
  show (c.isUpper || c.isLower) = true
  rw [h, Bool.or_true]

/-- The name of a tag is written with the characters for it, is in lower case, and starts with a
letter. -/
theorem isTagName_chars {tag : List Char} (h : IsTagName tag) :
    (∀ x ∈ tag, isTagChar x = true ∧ x.toLower = x) ∧ ∃ c cs, tag = c :: cs ∧ c.isAlpha = true := by
  obtain ⟨c, cs, rfl, hc, hcs⟩ := h
  refine ⟨fun x hx => ?_, c, cs, rfl, isAlpha_of_isLower hc⟩
  have hlower : ∀ y : Char, y.isLower = true → isTagChar y = true ∧ y.toLower = y := fun y hy =>
    ⟨by simp [isTagChar, Char.isAlphanum, isAlpha_of_isLower hy], toLower_of_isLower hy⟩
  rcases List.mem_cons.1 hx with rfl | hx
  · exact hlower x hc
  · rcases hcs x hx with h | h | h | h | h
    · exact hlower x h
    · exact ⟨by simp [isTagChar, Char.isAlphanum, h], toLower_of_isDigit h⟩
    all_goals
      subst h
      decide

theorem map_toLower_of_isTagName {tag : List Char} (h : IsTagName tag) :
    tag.map Char.toLower = tag := by
  conv_rhs => rw [← List.map_id tag]
  exact List.map_congr_left fun x hx => ((isTagName_chars h).1 x hx).2

theorem lowerTag_of_isTagName {tag : String} (h : IsTagName tag.toList) :
    lowerTag tag.toList = tag := by
  rw [lowerTag, map_toLower_of_isTagName h, String.ofList_toList]

/-- What follows the name of an opening tag does not go on with the name. -/
theorem isTagChar_behind_name {as : List Attribute} (has : ∀ a ∈ as, IsAttributeName a.name.toList)
    (rest : List Char) :
    ∀ y ∈ (as.flatMap Tree.attributeMarkup ++ '>' :: rest).head?, isTagChar y = false := by
  intro y hy
  cases as with
  | nil =>
      cases hy
      decide
  | cons a as =>
      obtain ⟨_, tail, _, htail⟩ := attributeMarkup_eq_cons (has a (List.mem_cons_self ..))
      rw [List.flatMap_cons, htail] at hy
      cases hy
      decide

theorem length_le_attributes (as : List Attribute) :
    as.length ≤ (as.flatMap Tree.attributeMarkup).length := by
  induction as with
  | nil => simp
  | cons a as ih =>
      rw [List.flatMap_cons, List.length_append, List.length_cons]
      have : 1 ≤ (Tree.attributeMarkup a).length := by simp [Tree.attributeMarkup]
      omega

/-- **An opening tag is read back**, and the raw text behind it is read if it opens a script or style
element. -/
theorem readTokens_open {c : Cursor} {e : Element} (he : e.Writable) {rest : List Char}
    (hc : c.rest = Tree.openTag e ++ rest) :
    ∃ (token : Token) (tagSpan : Span) (bs : List SourceAttribute) (d : Cursor),
      token.content = .openTag e.tag tagSpan bs false ∧
      bs.map (fun b => (⟨b.name, b.value⟩ : Attribute)) = e.attributes ∧ d.rest = rest ∧
      readTokens c =
        if isRawText e.tag then
          (token :: (readRawText e.tag.toList d).1, (readRawText e.tag.toList d).2)
        else ([token], d) := by
  obtain ⟨hchars, first, cs, htag, hfirst⟩ := isTagName_chars he.tag
  set behind := e.attributes.flatMap Tree.attributeMarkup ++ '>' :: rest with hbehind
  have hc' : c.rest = '<' :: (e.tag.toList ++ behind) := by
    simp [hc, Tree.openTag, hbehind]
  have hopen : startsOpen c.rest = true := by
    rw [hc', htag]
    exact hfirst
  have hskip : (c.skip 1).rest = e.tag.toList ++ behind :=
    Cursor.rest_skip ['<'] (by simpa using hc') rfl
  obtain ⟨hname, hafter⟩ := Cursor.readWhile_eq hskip (fun x hx => (hchars x hx).1)
    (isTagChar_behind_name he.names rest)
  have hrounds : e.attributes.length < ((c.skip 1).readWhile isTagChar).2.rest.length + 1 := by
    have := length_le_attributes e.attributes
    rw [hafter, hbehind, List.length_append]
    omega
  obtain ⟨bs, d, hread, hd, hbs⟩ := readAttributes_markup he.names hrounds (by rw [hafter])
  refine ⟨⟨.openTag e.tag (c.spanTo ((c.skip 1).readWhile isTagChar).2) bs false, c.spanTo d⟩,
    _, bs, d, rfl, hbs, hd, ?_⟩
  rw [readTokens, if_pos hopen]
  unfold readOpen
  simp only [hname, hread, lowerTag_of_isTagName he.tag, Bool.not_false, Bool.true_and]

/-- **A closing tag is read back.** -/
theorem readTokens_close {c : Cursor} {e : Element} (he : e.Writable) {rest : List Char}
    (hc : c.rest = Tree.closeTag e ++ rest) :
    ∃ (token : Token) (d : Cursor), token.content = .closeTag e.tag ∧ d.rest = rest ∧
      readTokens c = ([token], d) := by
  obtain ⟨hchars, first, cs, htag, hfirst⟩ := isTagName_chars he.tag
  have hc' : c.rest = '<' :: '/' :: (e.tag.toList ++ '>' :: rest) := by
    simp [hc, Tree.closeTag]
  have hskip : (c.skip 2).rest = e.tag.toList ++ '>' :: rest :=
    Cursor.rest_skip ['<', '/'] (by simpa using hc') rfl
  obtain ⟨hname, hafter⟩ := Cursor.readWhile_eq hskip (fun x hx => (hchars x hx).1) (by
    intro y hy
    cases hy
    decide)
  have huntil := Cursor.readUntil_eq (['>'].isPrefixOf ·)
    (show _ = [] ++ '>' :: rest by simpa using hafter)
    (by simp) (Or.inr (by simp [List.isPrefixOf]))
  have hclose : readClose c =
      (⟨.closeTag e.tag, c.spanTo
        ((((c.skip 2).readWhile isTagChar).2.readUntil (['>'].isPrefixOf ·)).2.skip 1)⟩,
        (((c.skip 2).readWhile isTagChar).2.readUntil (['>'].isPrefixOf ·)).2.skip 1) := by
    unfold readClose
    simp only [hname, lowerTag_of_isTagName he.tag]
  refine ⟨(readClose c).1, (readClose c).2, by rw [hclose], ?_, ?_⟩
  · rw [hclose]
    exact Cursor.rest_skip ['>'] (by simpa using huntil.2) rfl
  rw [readTokens, hc', if_neg (by rw [startsOpen]; decide)]
  simp [startsComment, startsDeclaration, startsClose, htag, hfirst]

/-! ### Text -/

/-- **A text is read back** up to the next markup or the end of the input. -/
theorem readTokens_text {c : Cursor} {text rest : List Char} (ht : text ≠ [])
    (hrest : rest = [] ∨ startsMarkup rest = true) (hc : c.rest = escapeText text ++ rest) :
    ∃ (token : Token) (d : Cursor), token.content = .text (String.ofList text) ∧ d.rest = rest ∧
      readTokens c = ([token], d) := by
  have hlt := lt_not_mem_escapeText text
  have hdecode := decode_escapeText text []
  rw [List.append_nil, decode_nil, List.append_nil] at hdecode
  cases hesc : escapeText text with
  | nil => exact absurd hesc (escapeText_ne_nil ht)
  | cons x xs =>
      rw [hesc] at hc hlt hdecode
      have hx : x ≠ '<' := fun h => hlt (by simp [h])
      have hskip : (c.skip 1).rest = xs ++ rest := Cursor.rest_skip [x] (by simpa using hc) rfl
      obtain ⟨hmore, hd⟩ := Cursor.readUntil_eq startsMarkup hskip
        (fun as b bs h => startsMarkup_false (fun hb => hlt (by simp [h, hb])) _) hrest
      refine ⟨⟨.text (String.ofList text), c.spanTo ((c.skip 1).readUntil startsMarkup).2⟩, _, rfl,
        hd, ?_⟩
      have hno := startsMarkup_false hx (xs ++ rest)
      rw [startsMarkup, Bool.or_eq_false_iff, Bool.or_eq_false_iff] at hno
      have hcomment : startsComment (x :: (xs ++ rest)) = false := by
        unfold startsComment
        split
        · rename_i h
          exact absurd (List.cons.inj h).1 hx
        · rfl
      have hread : readText c = (⟨.text (String.ofList text),
          c.spanTo ((c.skip 1).readUntil startsMarkup).2⟩, ((c.skip 1).readUntil startsMarkup).2) := by
        unfold readText
        simp only [hmore, hc, List.cons_append, List.take_succ_cons, List.take_zero, List.nil_append,
          hdecode]
      rw [readTokens, hc, List.cons_append, if_neg (by simp [hno])]
      simp [hcomment, hno, hread]

/-! ### Comments, doctypes and raw text -/

/-- **A comment is read back** if it does not hold its own end. -/
theorem readTokens_comment {c : Cursor} {text rest : List Char} (ht : ¬"-->".toList <:+: text)
    (hc : c.rest = "<!--".toList ++ text ++ "-->".toList ++ rest) :
    ∃ (token : Token) (d : Cursor), token.content = .comment (String.ofList text) ∧
      d.rest = rest ∧ readTokens c = ([token], d) := by
  have hc' : c.rest = '<' :: '!' :: '-' :: '-' :: (text ++ '-' :: '-' :: '>' :: rest) := by
    simpa using hc
  have hskip : (c.skip 4).rest = text ++ '-' :: '-' :: '>' :: rest :=
    Cursor.rest_skip ['<', '!', '-', '-'] (by simpa using hc') rfl
  -- an end that starts in the text and reaches beyond it would need a dash where `>` stands
  have hstop : ∀ as b bs, text = as ++ b :: bs →
      ['-', '-', '>'].isPrefixOf (b :: bs ++ '-' :: '-' :: '>' :: rest) = false := by
    intro as b bs h
    rw [Bool.eq_false_iff]
    intro hp
    rw [List.isPrefixOf_iff_prefix] at hp
    match bs with
    | [] => simp at hp
    | [x] => simp at hp
    | x :: y :: zs =>
        simp only [List.cons_append, List.cons_prefix_cons] at hp
        obtain ⟨rfl, rfl, rfl, _⟩ := hp
        exact ht ⟨as, zs, by simp [h]⟩
  obtain ⟨htext, hd⟩ := Cursor.readUntil_eq (['-', '-', '>'].isPrefixOf ·) hskip hstop
    (Or.inr (by simp [List.isPrefixOf]))
  refine ⟨(readComment c).1, (readComment c).2, ?_, ?_, ?_⟩
  · unfold readComment
    simp only [htext]
  · exact Cursor.rest_skip ['-', '-', '>'] (n := 3) hd rfl
  · rw [readTokens, hc', if_neg (by rw [startsOpen]; decide)]
    simp [startsComment]

/-- **A doctype is read back** if it does not hold its own end and does not look like a comment. -/
theorem readTokens_doctype {c : Cursor} {text rest : List Char} (ht : '>' ∉ text)
    (hd : ¬"--".toList <+: text) (hc : c.rest = "<!".toList ++ text ++ ">".toList ++ rest) :
    ∃ (token : Token) (d : Cursor), token.content = .doctype (String.ofList text) ∧
      d.rest = rest ∧ readTokens c = ([token], d) := by
  have hc' : c.rest = '<' :: '!' :: (text ++ '>' :: rest) := by
    simpa using hc
  have hskip : (c.skip 2).rest = text ++ '>' :: rest :=
    Cursor.rest_skip ['<', '!'] (by simpa using hc') rfl
  have hstop : ∀ as b bs, text = as ++ b :: bs →
      ['>'].isPrefixOf (b :: bs ++ '>' :: rest) = false := by
    intro as b bs h
    have hb : b ≠ '>' := fun hb => ht (by simp [h, hb])
    simp [List.isPrefixOf, Ne.symm hb]
  obtain ⟨htext, hrest⟩ := Cursor.readUntil_eq (['>'].isPrefixOf ·) hskip hstop
    (Or.inr (by simp [List.isPrefixOf]))
  have hcomment : startsComment ('<' :: '!' :: (text ++ '>' :: rest)) = false := by
    unfold startsComment
    split
    · rename_i zs h
      simp only [List.cons.injEq, true_and] at h
      match text with
      | [] => simp at h
      | [x] => simp at h
      | x :: y :: zs =>
          simp only [List.cons_append, List.cons.injEq] at h
          exact absurd ⟨zs, by simp [h.1, h.2.1]⟩ hd
    · rfl
  refine ⟨(readDoctype c).1, (readDoctype c).2, ?_, ?_, ?_⟩
  · unfold readDoctype
    simp only [htext]
  · exact Cursor.rest_skip ['>'] (n := 1) hrest rfl
  · rw [readTokens, hc', if_neg (by rw [startsOpen]; decide)]
    simp [hcomment, startsDeclaration]

/-- **Raw text is read back** up to the closing tag, if it does not hold one. -/
theorem readRawText_eq {c : Cursor} {e : Element} (he : e.Writable) {text rest : List Char}
    (ht : ¬HoldsClose e.tag.toList text) (hc : c.rest = text ++ (Tree.closeTag e ++ rest)) :
    ∃ span, (readRawText e.tag.toList c).1 =
        (if text = [] then [] else [⟨.rawText (String.ofList text), span⟩]) ∧
      (readRawText e.tag.toList c).2.rest = Tree.closeTag e ++ rest := by
  have hlower := map_toLower_of_isTagName he.tag
  have hclose : Tree.closeTag e ++ rest = '<' :: '/' :: (e.tag.toList ++ '>' :: rest) := by
    simp [Tree.closeTag]
  have hlt : '<' ∉ e.tag.toList := fun h =>
    absurd ((isTagName_chars he.tag).1 _ h).1 (by decide)
  have hstop : ∀ as b bs, text = as ++ b :: bs →
      startsRawClose e.tag.toList (b :: bs ++ (Tree.closeTag e ++ rest)) = false := by
    intro as b bs h
    rw [Bool.eq_false_iff]
    intro hp
    rw [hclose] at hp
    unfold startsRawClose at hp
    split at hp
    · rename_i zs heq
      rw [beq_iff_eq] at hp
      cases bs with
      | nil => simp at heq
      | cons x bs =>
          simp only [List.cons_append, List.cons.injEq] at heq
          obtain ⟨rfl, rfl, rfl⟩ := heq
          rw [List.take_append, List.map_append] at hp
          cases hn : e.tag.toList.length - bs.length with
          | zero =>
              rw [hn, List.take_zero, List.map_nil, List.append_nil] at hp
              refine ht ⟨as, bs.take e.tag.toList.length, bs.drop e.tag.toList.length, ?_, hp⟩
              simp [h]
          | succ n =>
              -- the less-than sign of the closing tag would be a character of its name
              rw [hn, List.take_succ_cons, List.map_cons] at hp
              have hmem : ('<' : Char).toLower ∈ e.tag.toList := by
                rw [← hp]
                simp
              exact hlt hmem
    · cases hp
  have hend : startsRawClose e.tag.toList (Tree.closeTag e ++ rest) = true := by
    rw [hclose, startsRawClose, List.take_left', hlower, beq_self_eq_true]
    rfl
  obtain ⟨htext, hrest⟩ := Cursor.readUntil_eq (startsRawClose e.tag.toList) hc hstop (Or.inr hend)
  refine ⟨c.spanTo (c.readUntil (startsRawClose e.tag.toList)).2, ?_, ?_⟩
  · unfold readRawText
    simp only [htext]
  · exact hrest

end Markup

end PageTemplate
