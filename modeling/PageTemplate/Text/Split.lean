/-
**Splitting a text at a separator.**

The parts of a text are the stretches between the places where the separator stands, so there is
one part more than there are separators, and parts may be empty.

Main definitions:

* `PageTemplate.Text.split` — the parts of a text.

Main results:

* `PageTemplate.Text.split_of_not_mem` — a text without a separator is one part;
* `PageTemplate.Text.intercalate_split` — the parts with the separator between them are the text.
-/

set_option relaxedAutoImplicit false
set_option autoImplicit false

namespace PageTemplate.Text

/-- The parts of a text between the separators. -/
def split (separator : Char) : List Char → List (List Char)
  | [] => [[]]
  | c :: cs =>
      if c = separator then [] :: split separator cs
      else
        match split separator cs with
        | [] => [[c]]
        | part :: parts => (c :: part) :: parts

@[simp] theorem split_nil (separator : Char) : split separator [] = [[]] := rfl

@[simp] theorem split_separator (separator : Char) (cs : List Char) :
    split separator (separator :: cs) = [] :: split separator cs := by
  simp [split]

/-- Every text has a first part. -/
theorem split_ne_nil (separator : Char) (cs : List Char) : split separator cs ≠ [] := by
  cases cs with
  | nil => simp
  | cons c cs =>
      rw [split]
      split
      · simp
      · split <;> simp

/-- A character that is no separator belongs to the first part. -/
theorem split_cons_of_ne {separator c : Char} (cs : List Char) (h : c ≠ separator) :
    ∃ part parts, split separator cs = part :: parts ∧
      split separator (c :: cs) = (c :: part) :: parts := by
  rw [split, if_neg h]
  split
  · rename_i hcs
    exact absurd hcs (split_ne_nil separator cs)
  · rename_i part parts hcs
    exact ⟨part, parts, hcs, rfl⟩

/-- A text without a separator is one part. -/
theorem split_of_not_mem {separator : Char} {cs : List Char} (h : separator ∉ cs) :
    split separator cs = [cs] := by
  induction cs with
  | nil => rfl
  | cons c cs ih =>
      rw [List.mem_cons, not_or] at h
      obtain ⟨part, parts, hsplit, hcons⟩ := split_cons_of_ne cs (Ne.symm h.1)
      rw [ih h.2] at hsplit
      cases hsplit
      exact hcons

/-- The parts with the separator between them are the text. -/
theorem intercalate_split (separator : Char) (cs : List Char) :
    [separator].intercalate (split separator cs) = cs := by
  induction cs with
  | nil => rfl
  | cons c cs ih =>
      by_cases h : c = separator
      · subst h
        rw [split_separator]
        cases hcs : split c cs with
        | nil => exact absurd hcs (split_ne_nil c cs)
        | cons part parts =>
            rw [hcs] at ih
            simpa [List.intercalate] using ih
      · obtain ⟨part, parts, hsplit, hcons⟩ := split_cons_of_ne cs h
        rw [hsplit] at ih
        rw [hcons]
        cases parts with
        | nil => simpa [List.intercalate] using ih
        | cons next parts => simpa [List.intercalate] using ih

end PageTemplate.Text
