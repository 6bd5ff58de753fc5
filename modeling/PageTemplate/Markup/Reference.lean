/-
**Character references, and escaping.**

A character reference is an ampersand, a body and a semicolon, and stands for one character.  The
body is one of six names or a number sign with the character's code point, in decimal, or in
hexadecimal after an `x`.  At most ten bytes lie between the ampersand and the semicolon, the
ampersand counted.  Whatever is no reference stands for itself.

Main definitions:

* `PageTemplate.Markup.referent?` — the character that the body of a reference stands for;
* `PageTemplate.Markup.reference?` — the reference that an ampersand starts;
* `PageTemplate.Markup.decode` — a text with its references replaced;
* `PageTemplate.Markup.escapeText`, `PageTemplate.Markup.escapeAttribute` — the text that a
  document holds for given characters.

Main results:

* `PageTemplate.Markup.length_of_reference?` — a reference uses up at least its semicolon;
* `PageTemplate.Markup.decode_cons_of_ne`, `PageTemplate.Markup.decode_reference`,
  `PageTemplate.Markup.decode_ampersand` — the three steps of decoding;
* `PageTemplate.Markup.escapeText_append`, `PageTemplate.Markup.escapeAttribute_append` — escaping
  goes character by character.
-/

import PageTemplate.Text.Digits
import PageTemplate.Text.Position

set_option relaxedAutoImplicit false
set_option autoImplicit false

namespace PageTemplate.Markup

open PageTemplate.Text

/-! ### References -/

/-- The character with the code point `n`, if there is one. -/
def charOfCode? (n : Nat) : Option Char :=
  if n.isValidChar then some (Char.ofNat n) else none

/-- The characters that have a name. -/
def namedCharacters : List (List Char × Char) :=
  [("amp".toList, '&'), ("lt".toList, '<'), ("gt".toList, '>'), ("quot".toList, '"'),
    ("apos".toList, '\''), ("nbsp".toList, '\u00a0')]

/-- The code point that the body of a numeric reference writes. -/
def bodyCode? : List Char → Option Nat
  | '#' :: 'x' :: digits => readNat 16 digits
  | '#' :: 'X' :: digits => readNat 16 digits
  | '#' :: digits => readNat 10 digits
  | _ => none

/-- The character that the body of a reference stands for. -/
def referent? (body : List Char) : Option Char :=
  match namedCharacters.lookup body with
  | some c => some c
  | none => (bodyCode? body).bind charOfCode?

/-- The characters up to the first semicolon, and those behind it, if at most `budget` bytes stand
before the semicolon. -/
def bodyWithin : Nat → List Char → Option (List Char × List Char)
  | _, [] => none
  | budget, c :: cs =>
      if c = ';' then some ([], cs)
      else if c.utf8Size ≤ budget then
        (bodyWithin (budget - c.utf8Size) cs).map fun p => (c :: p.1, p.2)
      else none

/-- The most bytes that the body of a reference may have. -/
def bodyLimit : Nat := 9

/-- The character that a reference with this text behind its ampersand stands for, and the text
behind the reference. -/
def reference? (cs : List Char) : Option (Char × List Char) :=
  (bodyWithin bodyLimit cs).bind fun p => (referent? p.1).map fun c => (c, p.2)

theorem length_of_bodyWithin {budget : Nat} {cs : List Char} {p : List Char × List Char}
    (h : bodyWithin budget cs = some p) : p.2.length < cs.length := by
  induction cs generalizing budget p with
  | nil => simp [bodyWithin] at h
  | cons c cs ih =>
      rw [bodyWithin] at h
      split at h
      · cases h
        simp
      · split at h
        · obtain ⟨q, hq, rfl⟩ := Option.map_eq_some_iff.1 h
          have := ih hq
          simp only [List.length_cons]
          omega
        · simp at h

/-- What stands behind a reference is shorter than what stands behind its ampersand. -/
theorem length_of_reference? {cs : List Char} {p : Char × List Char}
    (h : reference? cs = some p) : p.2.length < cs.length := by
  obtain ⟨q, hq, h⟩ := Option.bind_eq_some_iff.1 h
  obtain ⟨c, _, rfl⟩ := Option.map_eq_some_iff.1 h
  exact length_of_bodyWithin hq

/-- The text with each character reference, from left to right, replaced by its character.  A
replaced character is not looked at again. -/
def decode : List Char → List Char
  | [] => []
  | c :: cs =>
      if c = '&' then
        match _h : reference? cs with
        | some (d, rest) => d :: decode rest
        | none => '&' :: decode cs
      else c :: decode cs
termination_by cs => cs.length
decreasing_by
  · have := length_of_reference? _h
    simp only [List.length_cons] at *
    omega
  · simp
  · simp

@[simp] theorem decode_nil : decode [] = [] := by
  rw [decode]

/-- A character other than an ampersand stands for itself. -/
theorem decode_cons_of_ne {c : Char} (cs : List Char) (h : c ≠ '&') :
    decode (c :: cs) = c :: decode cs := by
  rw [decode]
  simp [h]

/-- A reference is replaced by its character. -/
theorem decode_reference {cs rest : List Char} {d : Char} (h : reference? cs = some (d, rest)) :
    decode ('&' :: cs) = d :: decode rest := by
  rw [decode]
  simp only [↓reduceIte]
  split
  · rename_i h'
    rw [h] at h'
    cases h'
    rfl
  · rename_i h'
    rw [h] at h'
    cases h'

/-- An ampersand that starts no reference stands for itself. -/
theorem decode_ampersand {cs : List Char} (h : reference? cs = none) :
    decode ('&' :: cs) = '&' :: decode cs := by
  rw [decode]
  simp only [↓reduceIte]
  split
  · rename_i h'
    rw [h] at h'
    cases h'
  · rfl

/-! ### Escaping -/

/-- The markup for one character of a text. -/
def escapeTextChar (c : Char) : List Char :=
  if c = '&' then "&amp;".toList
  else if c = '<' then "&lt;".toList
  else if c = '>' then "&gt;".toList
  else [c]

/-- The markup for a text. -/
def escapeText (cs : List Char) : List Char :=
  cs.flatMap escapeTextChar

/-- The markup for one character of an attribute value between double quotes. -/
def escapeAttributeChar (c : Char) : List Char :=
  if c = '&' then "&amp;".toList
  else if c = '"' then "&quot;".toList
  else [c]

/-- The markup for an attribute value between double quotes. -/
def escapeAttribute (cs : List Char) : List Char :=
  cs.flatMap escapeAttributeChar

@[simp] theorem escapeText_nil : escapeText [] = [] := rfl

@[simp] theorem escapeText_append (cs ds : List Char) :
    escapeText (cs ++ ds) = escapeText cs ++ escapeText ds := by
  simp [escapeText]

@[simp] theorem escapeAttribute_nil : escapeAttribute [] = [] := rfl

@[simp] theorem escapeAttribute_append (cs ds : List Char) :
    escapeAttribute (cs ++ ds) = escapeAttribute cs ++ escapeAttribute ds := by
  simp [escapeAttribute]

end PageTemplate.Markup
