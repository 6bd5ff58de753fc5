/-
**Placeholders in text.**

A placeholder is a path between two opening and two closing braces.  One blank may stand on either
side of the path.  A text is read from left to right as pieces: the placeholders, and what stands
before, between and behind them.

Main definitions:

* `PageTemplate.Binding.placeholderAt?` — the placeholder that a text starts with;
* `PageTemplate.Binding.findPlaceholder?` — the first placeholder in a text;
* `PageTemplate.Binding.pieces` — a text as pieces.

Main results:

* `PageTemplate.Binding.length_of_findPlaceholder?` — what is left behind a placeholder is shorter;
* `PageTemplate.Binding.pieces_of_none`, `PageTemplate.Binding.pieces_of_some` — the pieces of a
  text without a placeholder, and of one with a first placeholder.
-/

import PageTemplate.Text.Blank

set_option relaxedAutoImplicit false
set_option autoImplicit false

namespace PageTemplate.Binding

open PageTemplate.Text

/-- The characters of which the path of a placeholder consists. -/
def isPathChar (c : Char) : Bool :=
  c.isAlphanum || c = '_' || c = '.' || c = '?'

/-- The text without the blank at its front, if there is one. -/
def dropBlank : List Char → List Char
  | [] => []
  | c :: cs => if isBlank c then cs else c :: cs

/-- The path of the placeholder that a text starts with, and the text behind the placeholder. -/
def placeholderAt? : List Char → Option (List Char × List Char)
  | '{' :: '{' :: cs =>
      let inner := dropBlank cs
      let path := inner.takeWhile isPathChar
      match dropBlank (inner.dropWhile isPathChar) with
      | '}' :: '}' :: rest => if path = [] then none else some (path, rest)
      | _ => none
  | _ => none

/-- A placeholder in a text: what stands before it, its path, and what stands behind it. -/
structure Placeholder where
  before : List Char
  path : List Char
  rest : List Char
  deriving DecidableEq, Repr

/-- The first placeholder in a text. -/
def findPlaceholder? : List Char → Option Placeholder
  | [] => none
  | c :: cs =>
      match placeholderAt? (c :: cs) with
      | some (path, rest) => some ⟨[], path, rest⟩
      | none => (findPlaceholder? cs).map fun p => { p with before := c :: p.before }

theorem length_dropBlank (cs : List Char) : (dropBlank cs).length ≤ cs.length := by
  cases cs with
  | nil => simp [dropBlank]
  | cons c cs =>
      rw [dropBlank]
      split <;> simp

theorem length_dropWhile (p : Char → Bool) (cs : List Char) :
    (cs.dropWhile p).length ≤ cs.length := by
  induction cs with
  | nil => simp
  | cons c cs ih =>
      rw [List.dropWhile_cons]
      split
      · simp only [List.length_cons]
        omega
      · simp

theorem length_of_placeholderAt? {cs : List Char} {p : List Char × List Char}
    (h : placeholderAt? cs = some p) : p.2.length < cs.length := by
  unfold placeholderAt? at h
  split at h
  · rename_i cs
    simp only at h
    split at h
    · rename_i rest hrest
      split at h
      · simp at h
      · cases h
        have h₁ := length_dropBlank ((dropBlank cs).dropWhile isPathChar)
        have h₂ := length_dropWhile isPathChar (dropBlank cs)
        have h₃ := length_dropBlank cs
        rw [hrest] at h₁
        simp only [List.length_cons] at *
        omega
    · simp at h
  · simp at h

/-- What stands behind a placeholder is shorter than the text. -/
theorem length_of_findPlaceholder? {cs : List Char} {p : Placeholder}
    (h : findPlaceholder? cs = some p) : p.rest.length < cs.length := by
  induction cs generalizing p with
  | nil => simp [findPlaceholder?] at h
  | cons c cs ih =>
      rw [findPlaceholder?] at h
      split at h
      · rename_i path rest hp
        cases h
        exact length_of_placeholderAt? hp
      · obtain ⟨q, hq, rfl⟩ := Option.map_eq_some_iff.1 h
        have := ih hq
        simp only [List.length_cons]
        omega

/-! ### Pieces -/

/-- A part of a text: characters that stand for themselves, or a placeholder with its path. -/
inductive Piece where
  | literal (cs : List Char)
  | slot (path : List Char)
  deriving DecidableEq, Repr

namespace Piece

/-- The text that a piece starts out with.  A placeholder starts out empty. -/
def text : Piece → List Char
  | literal cs => cs
  | slot _ => []

/-- The piece of characters that stand for themselves, unless there are none. -/
def ofLiteral (cs : List Char) : List Piece :=
  if cs = [] then [] else [literal cs]

end Piece

/-- The pieces of a text, from left to right. -/
def pieces (cs : List Char) : List Piece :=
  match _h : findPlaceholder? cs with
  | none => Piece.ofLiteral cs
  | some p => Piece.ofLiteral p.before ++ .slot p.path :: pieces p.rest
termination_by cs.length
decreasing_by exact length_of_findPlaceholder? _h

/-- A text without a placeholder is one piece, or none if it is empty. -/
theorem pieces_of_none {cs : List Char} (h : findPlaceholder? cs = none) :
    pieces cs = Piece.ofLiteral cs := by
  rw [pieces]
  split
  · rfl
  · rename_i h'
    rw [h] at h'
    cases h'

/-- The first placeholder is a piece between what stands before it and what stands behind it. -/
theorem pieces_of_some {cs : List Char} {p : Placeholder} (h : findPlaceholder? cs = some p) :
    pieces cs = Piece.ofLiteral p.before ++ .slot p.path :: pieces p.rest := by
  rw [pieces]
  split
  · rename_i h'
    rw [h] at h'
    cases h'
  · rename_i h'
    rw [h] at h'
    cases h'
    rfl

end PageTemplate.Binding
