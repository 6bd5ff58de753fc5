/-
**What a repeat directive can say.**

A directive is read character by character: blanks, a word, blanks, the letters `in`, blanks, a word, and
blanks.  Seen as a whole, a text is a sequence of words, the longest runs of characters that are not
blank, and there is one such sequence for each text.  A directive can be read exactly if there are three
words, the second one is `in`, and the others have no characters but those of names, or of paths.  What
the blanks are does not matter.

Main definitions:

* `PageTemplate.Text.Worded` — a text with its words;
* `PageTemplate.Binding.RepeatExpression.IsNameChar` — the characters of the name of an item;
* `PageTemplate.Binding.RepeatExpression.Layout` — the ways to lay a text out as a directive.

Main results:

* `PageTemplate.Text.Worded.unique`, `PageTemplate.Text.exists_worded` — a text has one sequence of words;
* `PageTemplate.Binding.RepeatExpression.word?_eq_some_iff`,
  `PageTemplate.Binding.RepeatExpression.afterBlanks?_eq_some_iff` — what each reader takes;
* `PageTemplate.Binding.RepeatExpression.parse?_eq_some_iff` — the directives that can be read;
* `PageTemplate.Binding.RepeatExpression.parse?_grammar` — they are these, whatever the blanks are.
-/

import PageTemplate.Proofs.Binding.Markers

set_option relaxedAutoImplicit false
set_option autoImplicit false

namespace PageTemplate

namespace Text

/-! ### Words -/

/-- There is nothing but blanks. -/
def Blanks (cs : List Char) : Prop := ∀ c ∈ cs, isBlank c = true

/-- A run of characters that are not blank, as long as can be where `rest` comes behind it. -/
structure Word (word rest : List Char) : Prop where
  ne_nil : word ≠ []
  dense : ∀ c ∈ word, isBlank c = false
  longest : ∀ c ∈ rest.head?, isBlank c = true

/-- A text with its words, in their order.  What stands before, between and behind them are blanks. -/
inductive Worded : List Char → List (List Char) → Prop
  | nil {gap : List Char} (h : Blanks gap) : Worded gap []
  | cons {gap word rest : List Char} {words : List (List Char)} (hgap : Blanks gap)
      (hword : Word word rest) (h : Worded rest words) :
      Worded (gap ++ (word ++ rest)) (word :: words)

variable {cs gap word rest : List Char} {words : List (List Char)} {p : Char → Bool}

theorem dropWhile_of_blanks (h : Blanks gap) (cs : List Char) :
    (gap ++ cs).dropWhile isBlank = cs.dropWhile isBlank :=
  List.dropWhile_append_of_pos h

theorem blanks_of_dropWhile (h : cs.dropWhile isBlank = []) : Blanks cs := by
  have hcut := List.takeWhile_append_dropWhile (p := isBlank) (l := cs)
  rw [h, List.append_nil] at hcut
  rw [← hcut]
  exact List.all_eq_true.1 List.all_takeWhile

/-- A word stops what skips blanks. -/
theorem Word.dropWhile_blank (h : Word word rest) :
    (word ++ rest).dropWhile isBlank = word ++ rest := by
  obtain ⟨c, word', rfl⟩ := List.exists_cons_of_ne_nil h.ne_nil
  have hc := h.dense c (List.mem_cons_self ..)
  rw [List.cons_append, List.dropWhile_cons_of_neg (by simp [hc])]

/-- A run of some characters ends where the next one is none of them. -/
theorem takeWhile_append_of_head? (hword : ∀ c ∈ word, p c = true)
    (hrest : ∀ c ∈ rest.head?, p c = false) :
    (word ++ rest).takeWhile p = word ∧ (word ++ rest).dropWhile p = rest := by
  rw [List.takeWhile_append_of_pos hword, List.dropWhile_append_of_pos hword]
  cases rest with
  | nil => simp
  | cons c rest =>
      have hc : p c = false := hrest c rfl
      simp [hc]

/-- What is dropped from the front of a text ends where the next character is not dropped. -/
theorem head?_dropWhile (p : Char → Bool) (cs : List Char) :
    ∀ c ∈ (cs.dropWhile p).head?, p c = false := by
  intro c hc
  have hstop := List.head?_dropWhile_not p cs
  rw [Option.mem_def.1 hc] at hstop
  exact hstop

/-- A word ends where a blank or nothing comes. -/
theorem Word.takeWhile (h : Word word rest) :
    (word ++ rest).takeWhile (fun c => !isBlank c) = word ∧
      (word ++ rest).dropWhile (fun c => !isBlank c) = rest :=
  takeWhile_append_of_head? (fun c hc => by simp [h.dense c hc])
    fun c hc => by simp [h.longest c hc]

/-- **A text has no more than one sequence of words.** -/
theorem Worded.unique {words' : List (List Char)} (h : Worded cs words) (h' : Worded cs words') :
    words = words' := by
  induction h generalizing words' with
  | nil hgap =>
      cases h' with
      | nil => rfl
      | cons hgap' hword' _ =>
          have hnone := dropWhile_of_blanks hgap []
          rw [List.append_nil, dropWhile_of_blanks hgap', hword'.dropWhile_blank] at hnone
          exact absurd (List.append_eq_nil_iff.1 hnone).1 hword'.ne_nil
  | @cons gap word rest words hgap hword _ ih =>
      -- the first word stands where the blanks at the front end
      have hfirst := dropWhile_of_blanks hgap (word ++ rest)
      rw [hword.dropWhile_blank] at hfirst
      generalize hcs : gap ++ (word ++ rest) = cs at h' hfirst
      cases h' with
      | nil hgap' =>
          have hnone := dropWhile_of_blanks hgap' []
          rw [List.append_nil, hfirst] at hnone
          exact absurd (List.append_eq_nil_iff.1 hnone).1 hword.ne_nil
      | @cons gap' word' rest' words' hgap' hword' h' =>
          rw [dropWhile_of_blanks hgap', hword'.dropWhile_blank] at hfirst
          have htake := hword.takeWhile
          rw [← hfirst, hword'.takeWhile.1, hword'.takeWhile.2] at htake
          obtain ⟨rfl, rfl⟩ := htake
          rw [ih h']

/-- **Every text has a sequence of words.** -/
theorem exists_worded (cs : List Char) : ∃ words, Worded cs words := by
  induction hlen : cs.length using Nat.strong_induction_on generalizing cs with
  | _ n ih =>
      subst hlen
      have hcut := List.takeWhile_append_dropWhile (p := isBlank) (l := cs)
      have hgap : Blanks (cs.takeWhile isBlank) := List.all_eq_true.1 List.all_takeWhile
      cases hbehind : cs.dropWhile isBlank with
      | nil => exact ⟨[], .nil (blanks_of_dropWhile hbehind)⟩
      | cons c ds =>
          have hc : isBlank c = false := head?_dropWhile isBlank cs c (by rw [hbehind]; rfl)
          have hword := List.takeWhile_append_dropWhile (p := fun c => !isBlank c) (l := c :: ds)
          have hne : (c :: ds).takeWhile (fun c => !isBlank c) ≠ [] := by simp [hc]
          have hshorter : ((c :: ds).dropWhile fun c => !isBlank c).length < cs.length := by
            rw [← hcut, hbehind, List.length_append]
            have := congrArg List.length hword
            rw [List.length_append] at this
            have := List.length_pos_iff.2 hne
            omega
          obtain ⟨words, hwords⟩ := ih _ hshorter _ rfl
          rw [hbehind, ← hword] at hcut
          rw [← hcut]
          refine ⟨_, .cons hgap ⟨hne, fun c hc => ?_, fun c hc => ?_⟩ hwords⟩
          · simpa using List.all_eq_true.1 List.all_takeWhile c hc
          · simpa using head?_dropWhile _ _ c hc

end Text

namespace Binding.RepeatExpression

open PageTemplate.Text

variable {cs rest : List Char} {p : Char → Bool}

/-! ### What each reader takes -/

/-- A letter of the English alphabet, a digit, or the low line. -/
def IsNameChar (c : Char) : Prop :=
  ('a' ≤ c ∧ c ≤ 'z') ∨ ('A' ≤ c ∧ c ≤ 'Z') ∨ ('0' ≤ c ∧ c ≤ '9') ∨ c = '_'

theorem isItemChar_iff (c : Char) : isItemChar c = true ↔ IsNameChar c := by
  unfold isItemChar Char.isAlphanum Char.isAlpha Char.isUpper Char.isLower Char.isDigit IsNameChar
  simp only [Bool.or_eq_true, Bool.and_eq_true, decide_eq_true_eq]
  constructor
  · rintro (((h | h) | h) | h)
    · exact .inr (.inl h)
    · exact .inl h
    · exact .inr (.inr (.inl h))
    · exact .inr (.inr (.inr h))
  · rintro (h | h | h | h)
    · exact .inl (.inl (.inr h))
    · exact .inl (.inl (.inl h))
    · exact .inl (.inr h)
    · exact .inr h

theorem isCollectionChar_iff (c : Char) : isCollectionChar c = true ↔ IsNameChar c ∨ c = '.' := by
  rw [isCollectionChar, Bool.or_eq_true, isItemChar_iff, decide_eq_true_eq]

/-- No character of a word is blank. -/
theorem not_isBlank_of_isCollectionChar {c : Char} (h : isCollectionChar c = true) :
    isBlank c = false := by
  refine not_isBlank_of_isPathChar ?_
  simp only [isCollectionChar, isItemChar, Bool.or_eq_true] at h
  simp only [isPathChar, Bool.or_eq_true]
  exact .inl h

theorem not_isBlank_of_isItemChar {c : Char} (h : isItemChar c = true) : isBlank c = false :=
  not_isBlank_of_isCollectionChar (by simp [isCollectionChar, h])

/-- A word of some characters is taken as far as they go. -/
theorem word?_eq_some_iff {word : List Char} : word? p cs = some (word, rest) ↔
    cs = word ++ rest ∧ word ≠ [] ∧ (∀ c ∈ word, p c = true) ∧ ∀ c ∈ rest.head?, p c = false := by
  constructor
  · intro h
    have hcut := List.takeWhile_append_dropWhile (p := p) (l := cs)
    unfold word? at h
    split at h
    · cases h
    · rename_i hne
      obtain ⟨rfl, rfl⟩ := Prod.mk.inj (Option.some.inj h)
      exact ⟨hcut.symm, hne, List.all_eq_true.1 List.all_takeWhile, head?_dropWhile p cs⟩
  · rintro ⟨rfl, hne, hword, hrest⟩
    obtain ⟨htake, hdrop⟩ := takeWhile_append_of_head? hword hrest
    unfold word?
    split
    · rename_i hnil
      rw [htake] at hnil
      exact absurd hnil hne
    · rw [htake, hdrop]

/-- Blanks are passed over, and there has to be one. -/
theorem afterBlanks?_eq_some_iff : afterBlanks? cs = some rest ↔
    ∃ gap, cs = gap ++ rest ∧ gap ≠ [] ∧ Blanks gap ∧ ∀ c ∈ rest.head?, isBlank c = false := by
  constructor
  · intro h
    cases cs with
    | nil => cases h
    | cons c cs =>
        rw [afterBlanks?] at h
        split at h
        · rename_i hc
          cases h
          refine ⟨c :: cs.takeWhile isBlank, ?_, List.cons_ne_nil _ _, fun b hb => ?_,
            head?_dropWhile isBlank cs⟩
          · rw [List.cons_append, List.takeWhile_append_dropWhile]
          · rcases List.mem_cons.1 hb with rfl | hb
            · exact hc
            · exact List.all_eq_true.1 List.all_takeWhile b hb
        · cases h
  · rintro ⟨gap, rfl, hne, hgap, hrest⟩
    obtain ⟨c, gap, rfl⟩ := List.exists_cons_of_ne_nil hne
    have hc : isBlank c = true := hgap c (List.mem_cons_self ..)
    have hbehind : Blanks gap := fun b hb => hgap b (List.mem_cons_of_mem _ hb)
    rw [List.cons_append, afterBlanks?, if_pos hc,
      (takeWhile_append_of_head? (p := isBlank) hbehind hrest).2]

theorem afterIn?_eq_some_iff : afterIn? cs = some rest ↔ cs = 'i' :: 'n' :: rest := by
  unfold afterIn?
  split
  · simp
  · rename_i hno
    refine iff_of_false (by simp) ?_
    rintro rfl
    exact hno rest rfl

/-! ### The directives that can be read -/

variable {text : String} {gap word : List Char} {x : RepeatExpression}

/-- A run of characters that are not blank ends at a blank. -/
theorem Word.of_gap (hne : word ≠ []) (hword : ∀ c ∈ word, isBlank c = false) (hgapNe : gap ≠ [])
    (hgap : Blanks gap) (cs : List Char) : Word word (gap ++ cs) := by
  obtain ⟨b, gap, rfl⟩ := List.exists_cons_of_ne_nil hgapNe
  refine ⟨hne, hword, fun c hc => hgap c ?_⟩
  rw [← Option.some.inj hc]
  exact List.mem_cons_self ..

/-- A way to lay a text out as a directive: a name, the letters `in` and a path, with blanks between
them, and more blanks or none at either end. -/
inductive Layout : List Char → List Char → List Char → Prop
  | intro {front item gap gap' collection behind : List Char} (hfront : Blanks front)
      (hitem : item ≠ [] ∧ ∀ c ∈ item, IsNameChar c) (hgap : gap ≠ [] ∧ Blanks gap)
      (hgap' : gap' ≠ [] ∧ Blanks gap')
      (hcollection : collection ≠ [] ∧ ∀ c ∈ collection, IsNameChar c ∨ c = '.')
      (hbehind : Blanks behind) :
      Layout (front ++ (item ++ (gap ++ (['i', 'n'] ++ (gap' ++ (collection ++ behind))))))
        item collection

/-- What is read has a layout. -/
theorem layout_of_parse? (h : parse? text = some x) :
    Layout text.toList x.item.toList x.collection.toList := by
  simp only [parse?, Option.bind_eq_bind, Option.bind_eq_some_iff] at h
  obtain ⟨⟨item, _⟩, hitem, _, hfirst, _, hin, _, hsecond, ⟨collection, rest⟩, hcollection, h⟩ := h
  split at h
  · rename_i hend
    cases h
    rw [String.toList_ofList, String.toList_ofList]
    obtain ⟨hcs, hitemNe, hitemChars, -⟩ := word?_eq_some_iff.1 hitem
    obtain ⟨gap, rfl, hne, hgap, -⟩ := afterBlanks?_eq_some_iff.1 hfirst
    obtain rfl := afterIn?_eq_some_iff.1 hin
    obtain ⟨gap', rfl, hne', hgap', -⟩ := afterBlanks?_eq_some_iff.1 hsecond
    obtain ⟨rfl, hcollectionNe, hcollectionChars, -⟩ := word?_eq_some_iff.1 hcollection
    have hcut := List.takeWhile_append_dropWhile (p := isBlank) (l := text.toList)
    rw [hcs] at hcut
    rw [← hcut]
    exact .intro (List.all_eq_true.1 List.all_takeWhile)
      ⟨hitemNe, fun c hc => (isItemChar_iff c).1 (hitemChars c hc)⟩ ⟨hne, hgap⟩ ⟨hne', hgap'⟩
      ⟨hcollectionNe, fun c hc => (isCollectionChar_iff c).1 (hcollectionChars c hc)⟩
      (blanks_of_dropWhile hend)
  · cases h

/-- In a layout the name, the letters `in` and the path are the words of the text. -/
theorem Layout.worded {item collection : List Char} (h : Layout cs item collection) :
    Worded cs [item, ['i', 'n'], collection] ∧ (∀ c ∈ item, IsNameChar c) ∧
      ∀ c ∈ collection, IsNameChar c ∨ c = '.' := by
  obtain ⟨hfront, hitem, hgap, hgap', hcollection, hbehind⟩ := h
  -- a word ends at the blanks behind it
  have hthird := Word.mk hcollection.1
    (fun c hc => not_isBlank_of_isCollectionChar ((isCollectionChar_iff c).2 (hcollection.2 c hc)))
    fun c hc => hbehind c (List.mem_of_mem_head? hc)
  have hin : ∀ c ∈ ['i', 'n'], isBlank c = false := by
    intro c hc
    rcases List.mem_pair.1 hc with rfl | rfl <;> decide
  have hmiddle := Word.of_gap (List.cons_ne_nil 'i' ['n']) hin hgap'.1 hgap'.2
  have hleft := Word.of_gap hitem.1
    (fun c hc => not_isBlank_of_isItemChar ((isItemChar_iff c).2 (hitem.2 c hc))) hgap.1 hgap.2
  exact ⟨.cons hfront (hleft _) (.cons hgap.2 (hmiddle _) (.cons hgap'.2 hthird (.nil hbehind))),
    hitem.2, hcollection.2⟩

/-- A word is taken as a whole by what takes all of its characters and no blanks. -/
theorem word?_of_word (hp : ∀ c, p c = true → isBlank c = false) (hword : Word word rest)
    (hchars : ∀ c ∈ word, p c = true) : word? p (word ++ rest) = some (word, rest) := by
  refine word?_eq_some_iff.2 ⟨rfl, hword.ne_nil, hchars, fun c hc => ?_⟩
  by_contra hpc
  have hblank := hword.longest c hc
  rw [hp c (Bool.of_not_eq_false hpc)] at hblank
  cases hblank

/-- What stands between two words is passed over. -/
theorem afterBlanks?_of_word {before : List Char} (hbefore : Word before (gap ++ (word ++ rest)))
    (hgap : Blanks gap) (hword : Word word rest) :
    afterBlanks? (gap ++ (word ++ rest)) = some (word ++ rest) := by
  obtain ⟨c, word, rfl⟩ := List.exists_cons_of_ne_nil hword.ne_nil
  have hc : isBlank c = false := hword.dense c (List.mem_cons_self ..)
  refine afterBlanks?_eq_some_iff.2 ⟨gap, rfl, ?_, hgap, fun b hb => ?_⟩
  · -- without a blank the word before would go on
    rintro rfl
    rw [hbefore.longest c rfl] at hc
    cases hc
  · rwa [← Option.some.inj hb]

/-- Three words with blanks between them are read. -/
theorem parse?_of_worded
    (h : Worded text.toList [x.item.toList, ['i', 'n'], x.collection.toList])
    (hitem : ∀ c ∈ x.item.toList, IsNameChar c)
    (hcollection : ∀ c ∈ x.collection.toList, IsNameChar c ∨ c = '.') : parse? text = some x := by
  generalize hcs : text.toList = cs at h
  -- the words one by one, with what stands before each of them
  obtain _ | ⟨hfront, hleft, h⟩ := h
  obtain _ | ⟨hgap, hmiddle, h⟩ := h
  obtain _ | ⟨hgap', hthird, h⟩ := h
  obtain ⟨hbehind⟩ := h
  have hitem' := word?_of_word (fun _ => not_isBlank_of_isItemChar) hleft
    fun c hc => (isItemChar_iff c).2 (hitem c hc)
  have hfirst := afterBlanks?_of_word hleft hgap hmiddle
  have hin : ∀ rest, afterIn? (['i', 'n'] ++ rest) = some rest := fun _ => rfl
  have hsecond := afterBlanks?_of_word hmiddle hgap' hthird
  have hcollection' := word?_of_word (fun _ => not_isBlank_of_isCollectionChar) hthird
    fun c hc => (isCollectionChar_iff c).2 (hcollection c hc)
  have hend := dropWhile_of_blanks hbehind []
  rw [List.append_nil, List.dropWhile_nil] at hend
  simp only [parse?, Option.bind_eq_bind, Option.bind_eq_some_iff]
  rw [hcs, dropWhile_of_blanks hfront, hleft.dropWhile_blank]
  refine ⟨_, hitem', _, hfirst, _, hin _, _, hsecond, _, hcollection', ?_⟩
  rw [if_pos hend, String.ofList_toList, String.ofList_toList]

/-- **The directives that can be read** are three words, of which the second is `in`. -/
theorem parse?_eq_some_iff : parse? text = some x ↔
    Worded text.toList [x.item.toList, ['i', 'n'], x.collection.toList] ∧
      (∀ c ∈ x.item.toList, IsNameChar c) ∧ ∀ c ∈ x.collection.toList, IsNameChar c ∨ c = '.' :=
  ⟨fun h => (layout_of_parse? h).worded, fun h => parse?_of_worded h.1 h.2.1 h.2.2⟩

/-- The word `in` itself can be the item, and the collection as well. -/
example : parse? "in\tin\n in " = some ⟨"in", "in"⟩ := by decide

/-- Whatever can be laid out as a directive is read, and as it is laid out. -/
theorem layout_iff_parse? : Layout text.toList x.item.toList x.collection.toList ↔
    parse? text = some x :=
  ⟨fun h => parse?_eq_some_iff.2 h.worded, layout_of_parse?⟩

/-- **What a repeat directive can say.**  A text has one sequence of words.  It can be read exactly if
these are three, the second one is `in`, the first one has letters, digits and low lines only, and the
third one these and full stops; then the first is the item and the third the collection.  This is also
the only way to lay the text out.  So texts with the same words say the same, whatever the blanks around
them are. -/
theorem parse?_grammar (text : String) : (∃! words, Worded text.toList words) ∧
    (∀ item collection, parse? text = some ⟨item, collection⟩ ↔
      Worded text.toList [item.toList, ['i', 'n'], collection.toList] ∧
        (∀ c ∈ item.toList, IsNameChar c) ∧ ∀ c ∈ collection.toList, IsNameChar c ∨ c = '.') ∧
    (∀ item collection, Layout text.toList item collection ↔
      parse? text = some ⟨String.ofList item, String.ofList collection⟩) ∧
    ∀ other words, Worded text.toList words → Worded other.toList words →
      parse? other = parse? text := by
  refine ⟨?_, fun item collection => parse?_eq_some_iff, fun item collection => ?_,
    fun other words h h' => ?_⟩
  · obtain ⟨words, hwords⟩ := exists_worded text.toList
    exact ⟨words, hwords, fun words' h => h.unique hwords⟩
  · rw [← layout_iff_parse?, String.toList_ofList, String.toList_ofList]
  · -- both have these words, so each of them says what the other one says
    have hsame : ∀ ws, Worded other.toList ws ↔ Worded text.toList ws := fun ws =>
      ⟨fun k => k.unique h' ▸ h, fun k => k.unique h ▸ h'⟩
    refine Option.ext fun x => ?_
    rw [parse?_eq_some_iff, parse?_eq_some_iff, hsame]

/-- A directive on several lines says what it says on one. -/
theorem parse?_grammar_lines :
    Worded "item in shop.items".toList ["item".toList, ['i', 'n'], "shop.items".toList] ∧
      Worded "\n item\n\tin\u00a0shop.items\r\n".toList
        ["item".toList, ['i', 'n'], "shop.items".toList] ∧
      parse? "\n item\n\tin\u00a0shop.items\r\n" = parse? "item in shop.items" :=
  have h : parse? "item in shop.items" = some ⟨"item", "shop.items"⟩ := by decide
  have h' : parse? "\n item\n\tin\u00a0shop.items\r\n" = some ⟨"item", "shop.items"⟩ := by
    decide
  have hwords := (parse?_eq_some_iff.1 h).1
  have hwords' := (parse?_eq_some_iff.1 h').1
  ⟨hwords, hwords', (parse?_grammar "item in shop.items").2.2.2 _ _ hwords hwords'⟩

end Binding.RepeatExpression

end PageTemplate
