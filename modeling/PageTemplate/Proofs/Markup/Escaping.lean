/-
**Decoding undoes escaping.**

Escaping writes a text so that no character of it can be taken for markup, and decoding gives the
text back, whatever stands behind it.

Main results:

* `PageTemplate.Markup.decode_escapeText`, `PageTemplate.Markup.decode_escapeAttribute` — decoding
  undoes escaping;
* `PageTemplate.Markup.angle_not_mem_escapeText`,
  `PageTemplate.Markup.quote_not_mem_escapeAttribute` — nothing in an escaped text ends it;
* `PageTemplate.Markup.decode_escaped` — both together, for texts and for attribute values.
-/

import PageTemplate.Markup.Reference

set_option relaxedAutoImplicit false
set_option autoImplicit false

namespace PageTemplate.Markup

/-! ### The references that escaping writes -/

theorem reference?_amp (cs : List Char) :
    reference? ('a' :: 'm' :: 'p' :: ';' :: cs) = some ('&', cs) := rfl

theorem reference?_lt (cs : List Char) : reference? ('l' :: 't' :: ';' :: cs) = some ('<', cs) :=
  rfl

theorem reference?_gt (cs : List Char) : reference? ('g' :: 't' :: ';' :: cs) = some ('>', cs) :=
  rfl

theorem reference?_quot (cs : List Char) :
    reference? ('q' :: 'u' :: 'o' :: 't' :: ';' :: cs) = some ('"', cs) := rfl

/-! ### Text -/

theorem decode_escapeTextChar (c : Char) (cs : List Char) :
    decode (escapeTextChar c ++ cs) = c :: decode cs := by
  unfold escapeTextChar
  split
  · rename_i h
    rw [h]
    exact decode_reference (reference?_amp cs)
  · rename_i hamp
    split
    · rename_i h
      rw [h]
      exact decode_reference (reference?_lt cs)
    · split
      · rename_i h
        rw [h]
        exact decode_reference (reference?_gt cs)
      · exact decode_cons_of_ne cs hamp

/-- **Decoding undoes the escaping of a text**, whatever stands behind it. -/
theorem decode_escapeText (cs ds : List Char) :
    decode (escapeText cs ++ ds) = cs ++ decode ds := by
  induction cs with
  | nil => rfl
  | cons c cs ih =>
      have h : escapeText (c :: cs) = escapeTextChar c ++ escapeText cs := rfl
      rw [h, List.append_assoc, decode_escapeTextChar, ih, List.cons_append]

/-- The markup for a character has no angle bracket: where the character is one, it is named. -/
theorem angle_not_mem_escapeTextChar {bracket : Char} (h : bracket = '<' ∨ bracket = '>') (c : Char) :
    bracket ∉ escapeTextChar c := by
  unfold escapeTextChar
  split
  · rcases h with rfl | rfl <;> decide
  · split
    · rcases h with rfl | rfl <;> decide
    · rename_i hlt
      split
      · rcases h with rfl | rfl <;> decide
      · rename_i hgt
        rw [List.mem_singleton]
        rintro rfl
        exact h.elim hlt hgt

/-- An escaped text has no angle bracket. -/
theorem angle_not_mem_escapeText {bracket : Char} (h : bracket = '<' ∨ bracket = '>')
    (cs : List Char) : bracket ∉ escapeText cs := by
  intro hmem
  obtain ⟨c, _, hc⟩ := List.mem_flatMap.1 hmem
  exact angle_not_mem_escapeTextChar h c hc

/-- An escaped text opens no markup. -/
theorem lt_not_mem_escapeText (cs : List Char) : '<' ∉ escapeText cs :=
  angle_not_mem_escapeText (.inl rfl) cs

theorem escapeText_ne_nil {cs : List Char} (h : cs ≠ []) : escapeText cs ≠ [] := by
  intro he
  have := decode_escapeText cs []
  rw [he] at this
  simp only [decode_nil, List.append_nil] at this
  exact h this.symm

/-- Escaping makes no text shorter. -/
theorem length_le_escapeText (cs : List Char) : cs.length ≤ (escapeText cs).length := by
  induction cs with
  | nil => exact Nat.le_refl 0
  | cons c cs ih =>
      have h : escapeText (c :: cs) = escapeTextChar c ++ escapeText cs := rfl
      have hc : 1 ≤ (escapeTextChar c).length := by
        unfold escapeTextChar
        split
        · decide
        · split
          · decide
          · split
            · decide
            · exact Nat.le_refl 1
      rw [h, List.length_append, List.length_cons]
      omega

/-! ### Attribute values -/

theorem decode_escapeAttributeChar (c : Char) (cs : List Char) :
    decode (escapeAttributeChar c ++ cs) = c :: decode cs := by
  unfold escapeAttributeChar
  split
  · rename_i h
    rw [h]
    exact decode_reference (reference?_amp cs)
  · rename_i hamp
    split
    · rename_i h
      rw [h]
      exact decode_reference (reference?_quot cs)
    · exact decode_cons_of_ne cs hamp

/-- **Decoding undoes the escaping of an attribute value**, whatever stands behind it. -/
theorem decode_escapeAttribute (cs ds : List Char) :
    decode (escapeAttribute cs ++ ds) = cs ++ decode ds := by
  induction cs with
  | nil => rfl
  | cons c cs ih =>
      have h : escapeAttribute (c :: cs) = escapeAttributeChar c ++ escapeAttribute cs := rfl
      rw [h, List.append_assoc, decode_escapeAttributeChar, ih, List.cons_append]

/-- An escaped attribute value does not end at a quote of its own. -/
theorem quote_not_mem_escapeAttribute (cs : List Char) : '"' ∉ escapeAttribute cs := by
  intro h
  obtain ⟨c, _, hc⟩ := List.mem_flatMap.1 h
  unfold escapeAttributeChar at hc
  split at hc
  · simp at hc
  · split at hc
    · simp at hc
    · rename_i hquote
      exact hquote (List.mem_singleton.1 hc).symm

/-! ### In any context -/

/-- **What has been escaped is read back, and nothing of it fuses with what stands behind it**: a text,
and an attribute value, are decoded to what they were, and what follows is decoded as if it stood alone.
The escaped text has no angle bracket, and the escaped attribute value no quote. -/
theorem decode_escaped (cs ds : List Char) :
    decode (escapeText cs ++ ds) = cs ++ decode ds ∧
      decode (escapeAttribute cs ++ ds) = cs ++ decode ds ∧
      '<' ∉ escapeText cs ∧ '>' ∉ escapeText cs ∧ '"' ∉ escapeAttribute cs :=
  ⟨decode_escapeText cs ds, decode_escapeAttribute cs ds, lt_not_mem_escapeText cs,
    angle_not_mem_escapeText (.inr rfl) cs, quote_not_mem_escapeAttribute cs⟩

end PageTemplate.Markup
