/-
**What is read can be written.**

A reader does not check what it reads, but stops where it does not fit: the name of a tag ends before
the first character that is in no such name, a comment before its end, a doctype before a greater-than
sign.  So each token is one that can be written down and read back.

Main definitions:

* `PageTemplate.Markup.Token.Content.Writable` — the token can be written down and read back.

Main results:

* `PageTemplate.Markup.isTagName_lowerTag`, `PageTemplate.Markup.isAttributeName_takeWhile` — the names
  that are read;
* `PageTemplate.Markup.readTokens_writable` — one round of reading;
* `PageTemplate.Markup.tokenize_writable` — all tokens of a source text.
-/

import PageTemplate.Proofs.Markup.Lexing

set_option relaxedAutoImplicit false
set_option autoImplicit false

namespace PageTemplate.Markup

open PageTemplate.Text

/-- The token can be written down and read back. -/
def Token.Content.Writable : Token.Content → Prop
  | .comment t => ¬"-->".toList <:+: t.toList
  | .doctype t => '>' ∉ t.toList ∧ ¬"--".toList <+: t.toList
  | .openTag tag _ attributes _ =>
      IsTagName tag.toList ∧ ∀ a ∈ attributes, IsAttributeName a.name.toList
  | .text _ | .rawText _ | .closeTag _ | .endOfInput => True

/-! ### Names -/

/-- The lower case of the letters from `A` to `Z` is 32 places behind them. -/
theorem isLower_toLower_of_isUpper {c : Char} (h : c.isUpper = true) : c.toLower.isLower = true := by
  have hupper : c.val ≥ 'A'.val ∧ c.val ≤ 'Z'.val := of_decide_eq_true h
  have hlower : c.toLower.val = c.val + ('a'.val - 'A'.val) := congrArg Char.val (dif_pos hupper)
  have hA : ('A' : Char).val.toNat = 65 := rfl
  have hZ : ('Z' : Char).val.toNat = 90 := rfl
  have ha : ('a' : Char).val.toNat = 97 := rfl
  have hz : ('z' : Char).val.toNat = 122 := rfl
  rw [ge_iff_le, UInt32.le_iff_toNat_le, UInt32.le_iff_toNat_le, hA, hZ] at hupper
  have hshift : c.toLower.val.toNat = c.val.toNat + 32 := by
    rw [hlower, UInt32.toNat_add, show ('a'.val - 'A'.val).toNat = 32 from rfl]
    omega
  refine Bool.and_eq_true_iff.2 ⟨decide_eq_true ?_, decide_eq_true ?_⟩
  · rw [ge_iff_le, UInt32.le_iff_toNat_le, ha, hshift]
    omega
  · rw [UInt32.le_iff_toNat_le, hz, hshift]
    omega

theorem isLower_toLower_of_isAlpha {c : Char} (h : c.isAlpha = true) : c.toLower.isLower = true := by
  rcases (Bool.or_eq_true c.isUpper c.isLower).mp h with h | h
  · exact isLower_toLower_of_isUpper h
  · rwa [toLower_of_isLower h]

theorem toLower_of_isTagChar {c : Char} (h : isTagChar c = true) :
    c.toLower.isLower = true ∨ c.toLower.isDigit = true ∨ c.toLower = '-' ∨ c.toLower = '_' ∨
      c.toLower = ':' := by
  simp only [isTagChar, Char.isAlphanum, Bool.or_eq_true, decide_eq_true_eq] at h
  rcases h with (((h | h) | rfl) | rfl) | rfl
  · left
    exact isLower_toLower_of_isAlpha h
  · right
    left
    rwa [toLower_of_isDigit h]
  all_goals decide

/-- The name of a tag that is read is one that can be written. -/
theorem isTagName_lowerTag {c : Char} {cs : List Char} (hc : c.isAlpha = true)
    (hcs : ∀ x ∈ cs, isTagChar x = true) : IsTagName (lowerTag (c :: cs)).toList := by
  refine ⟨c.toLower, cs.map Char.toLower, by simp [lowerTag], ?_, fun x hx => ?_⟩
  · exact isLower_toLower_of_isAlpha hc
  · obtain ⟨y, hy, rfl⟩ := List.mem_map.1 hx
    exact toLower_of_isTagChar (hcs y hy)

/-- The name of an attribute that is read is one that can be written. -/
theorem isAttributeName_takeWhile {c : Char} {cs : List Char} (hc : isNameStart c = true) :
    IsAttributeName ((c :: cs).takeWhile isNameChar) := by
  rw [List.takeWhile_cons, if_pos (isNameChar_of_isNameStart hc)]
  refine ⟨c, cs.takeWhile isNameChar, rfl, ?_, fun x hx => ?_⟩
  · simp only [isNameStart, Bool.or_eq_true, decide_eq_true_eq] at hc
    tauto
  · have hx' := List.mem_takeWhile_imp hx
    simp only [isNameChar, Bool.or_eq_true, decide_eq_true_eq] at hx'
    tauto

theorem readAttribute?_name {c d : Cursor} {a : SourceAttribute}
    (h : readAttribute? c = some (a, d)) : IsAttributeName a.name.toList := by
  unfold readAttribute? at h
  split at h
  · cases h
  · rename_i first cs hrest
    split at h
    · rename_i hfirst
      have hname : IsAttributeName (c.readWhile isNameChar).1 := by
        rw [Cursor.readWhile, hrest]
        exact isAttributeName_takeWhile hfirst
      simp only at h
      split at h <;>
      · cases h
        rwa [String.toList_ofList]
    · cases h

/-- The attributes that are read have names that can be written. -/
theorem readAttributes_names (rounds : Nat) (c : Cursor) :
    ∀ a ∈ (readAttributes rounds c).1, IsAttributeName a.name.toList := by
  induction rounds generalizing c with
  | zero => simp [readAttributes]
  | succ rounds ih =>
      unfold readAttributes
      simp only
      split
      · simp
      · simp
      · simp
      · split
        · rename_i a d hread
          intro b hb
          rcases List.mem_cons.1 hb with rfl | hb
          · exact readAttribute?_name hread
          · exact ih d b hb
        · exact ih _

/-! ### Stretches -/

theorem readOpen_writable {c : Cursor} (h : startsOpen c.rest = true) :
    ∀ token ∈ (readOpen c).1, token.content.Writable := by
  obtain ⟨first, cs, hrest, hfirst⟩ : ∃ first cs, c.rest = '<' :: first :: cs ∧
      first.isAlpha = true := by
    unfold startsOpen at h
    split at h
    · rename_i first cs hrest
      exact ⟨first, cs, hrest, h⟩
    · cases h
  have hname : ((c.skip 1).readWhile isTagChar).1 = first :: cs.takeWhile isTagChar := by
    have hskip : (c.skip 1).rest = first :: cs := Cursor.rest_skip ['<'] hrest rfl
    rw [Cursor.readWhile, hskip, List.takeWhile_cons,
      if_pos (by simp [isTagChar, Char.isAlphanum, hfirst])]
  have htag : IsTagName (lowerTag ((c.skip 1).readWhile isTagChar).1).toList := by
    rw [hname]
    exact isTagName_lowerTag hfirst fun x hx => List.mem_takeWhile_imp hx
  intro token htoken
  unfold readOpen at htoken
  simp only at htoken
  split at htoken
  · rcases List.mem_cons.1 htoken with rfl | htoken
    · exact ⟨htag, readAttributes_names _ _⟩
    · -- the raw text behind the tag
      unfold readRawText at htoken
      simp only at htoken
      split at htoken
      · cases htoken
      · rw [List.mem_singleton] at htoken
        rw [htoken]
        trivial
  · rw [List.mem_singleton] at htoken
    rw [htoken]
    exact ⟨htag, readAttributes_names _ _⟩

/-- A comment ends before its own end. -/
theorem readComment_writable (c : Cursor) : (readComment c).1.content.Writable := by
  unfold readComment
  simp only [Token.Content.Writable, String.toList_ofList]
  rintro ⟨before, behind, h⟩
  have hsplit : (splitWhere (['-', '-', '>'].isPrefixOf ·) (c.skip 4).rest).1 =
      before ++ '-' :: ('-' :: '>' :: behind) := by
    rw [List.append_assoc] at h
    exact h.symm
  have hstop := splitWhere_before hsplit
  simp [List.isPrefixOf] at hstop

/-- A doctype ends before a greater-than sign, and it is no comment. -/
theorem readDoctype_writable {c : Cursor} (h : startsDeclaration c.rest = true)
    (hno : startsComment c.rest = false) : (readDoctype c).1.content.Writable := by
  obtain ⟨cs, hrest⟩ : ∃ cs, c.rest = '<' :: '!' :: cs := by
    unfold startsDeclaration at h
    split at h
    · rename_i cs hrest
      exact ⟨cs, hrest⟩
    · cases h
  have hskip : (c.skip 2).rest = cs := Cursor.rest_skip ['<', '!'] hrest rfl
  unfold readDoctype
  simp only [Token.Content.Writable, String.toList_ofList, Cursor.readUntil, hskip]
  refine ⟨fun hmem => ?_, ?_⟩
  · obtain ⟨before, behind, h⟩ := List.append_of_mem hmem
    have hstop := splitWhere_before h
    simp [List.isPrefixOf] at hstop
  · rintro ⟨behind, h⟩
    have hcs := splitWhere_append (['>'].isPrefixOf ·) cs
    rw [← h] at hcs
    rw [hrest, ← hcs] at hno
    simp [startsComment] at hno

/-- What one round reads can be written. -/
theorem readTokens_writable (c : Cursor) : ∀ token ∈ (readTokens c).1, token.content.Writable := by
  intro token htoken
  unfold readTokens at htoken
  split at htoken
  · rename_i hopen
    exact readOpen_writable hopen token htoken
  · rw [List.mem_singleton] at htoken
    rw [htoken]
    split
    · exact readComment_writable c
    · rename_i hcomment
      split
      · rename_i hdeclaration
        exact readDoctype_writable hdeclaration (by simpa using hcomment)
      · split
        · trivial
        · trivial

theorem tokensFrom_writable (rounds : Nat) (c : Cursor) :
    ∀ token ∈ tokensFrom rounds c, token.content.Writable := by
  induction rounds generalizing c with
  | zero =>
      intro token htoken
      rw [tokensFrom, List.mem_singleton] at htoken
      rw [htoken]
      trivial
  | succ rounds ih =>
      intro token htoken
      rw [tokensFrom] at htoken
      split at htoken
      · rw [List.mem_singleton] at htoken
        rw [htoken]
        trivial
      · rcases List.mem_append.1 htoken with htoken | htoken
        · exact readTokens_writable c token htoken
        · exact ih _ token htoken

/-- **Each token of a source text can be written down and read back.** -/
theorem tokenize_writable (source : String) :
    ∀ token ∈ tokenize source, token.content.Writable :=
  tokensFrom_writable _ _

end PageTemplate.Markup
