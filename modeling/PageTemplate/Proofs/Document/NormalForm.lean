/-
**Trees that can be written, and what is read back.**

Not every tree can be written down and read back.  A tag has to be a name in lower case, a comment
must not hold its own end, only elements have content, and the raw text of a script or style element
must not hold the closing tag.  Two things are lost even then: an empty text leaves no trace in the
markup, and two texts side by side are one.  The normal form of a tree is without both.

Main definitions:

* `PageTemplate.Markup.IsTagName`, `PageTemplate.Markup.IsAttributeName`,
  `PageTemplate.Markup.Element.Writable` — opening tags that can be read back;
* `PageTemplate.Tree.Writable`, `PageTemplate.Tree.WritableAll` — trees that can be read back;
* `PageTemplate.Tree.bare` — a tree without the places it was read from;
* `PageTemplate.Tree.normal`, `PageTemplate.Tree.normalAll` — the normal form.
-/

import Mathlib.Data.List.Infix
import PageTemplate.Document.Tree
import PageTemplate.Markup.Token

set_option relaxedAutoImplicit false
set_option autoImplicit false

namespace PageTemplate

open PageTemplate.Markup PageTemplate.Text

namespace Markup

/-- A small letter of the English alphabet, and behind it such letters, digits and three signs. -/
def IsTagName (name : List Char) : Prop :=
  ∃ c cs, name = c :: cs ∧ c.isLower = true ∧
    ∀ x ∈ cs, x.isLower = true ∨ x.isDigit = true ∨ x = '-' ∨ x = '_' ∨ x = ':'

/-- An alphabetic character or one of four signs, and behind it alphanumeric characters, these
signs and dots. -/
def IsAttributeName (name : List Char) : Prop :=
  ∃ c cs, name = c :: cs ∧ (isAlphabetic c = true ∨ c = '_' ∨ c = '-' ∨ c = '@' ∨ c = ':') ∧
    ∀ x ∈ cs, isAlphanumeric x = true ∨ x = '_' ∨ x = '-' ∨ x = '@' ∨ x = ':' ∨ x = '.'

/-- The opening tag of the element can be read back. -/
structure Element.Writable (e : Element) : Prop where
  tag : IsTagName e.tag.toList
  names : ∀ a ∈ e.attributes, IsAttributeName a.name.toList
  distinct : (e.attributes.map (·.name)).Nodup

/-- Somewhere in the text the closing tag begins, in whatever letter case. -/
def HoldsClose (tag : List Char) (text : List Char) : Prop :=
  ∃ before name behind, text = before ++ '<' :: '/' :: name ++ behind ∧
    name.map Char.toLower = tag

/-- Whether a text holds a closing tag can be found out by looking at each place of it. -/
theorem holdsClose_iff (tag text : List Char) :
    HoldsClose tag text ↔ text.tails.any (startsRawClose tag) = true := by
  rw [List.any_eq_true]
  constructor
  · rintro ⟨before, name, behind, rfl, hname⟩
    refine ⟨'<' :: '/' :: (name ++ behind), (List.mem_tails _ _).2 ⟨before, by simp⟩, ?_⟩
    rw [startsRawClose, beq_iff_eq, ← hname, List.length_map, List.take_left']
    rfl
  · rintro ⟨tail, htail, hstarts⟩
    obtain ⟨before, rfl⟩ := (List.mem_tails _ _).1 htail
    unfold startsRawClose at hstarts
    split at hstarts
    · rename_i cs
      exact ⟨before, cs.take tag.length, cs.drop tag.length, by simp, beq_iff_eq.1 hstarts⟩
    · cases hstarts

instance (tag text : List Char) : Decidable (HoldsClose tag text) :=
  decidable_of_iff _ (holdsClose_iff tag text).symm

end Markup

namespace Tree

/-- The text of a text node. -/
def text? : Tree → Option String
  | node (.text t) _ _ => some t
  | _ => none

/-- The trees are text nodes without children, and their text together does not hold the closing
tag. -/
structure RawContent (tag : List Char) (ts : List Tree) : Prop where
  texts : ∀ t ∈ ts, t.text?.isSome = true ∧ t.children = []
  noClose : ¬HoldsClose tag ((ts.filterMap text?).flatMap String.toList)

mutual

/-- The tree can be written and read back, up to its normal form. -/
def Writable : Tree → Prop
  | node (.document) _ _ => False
  | node (.text _) _ ts => ts = []
  | node (.comment t) _ ts => ¬"-->".toList <:+: t.toList ∧ ts = []
  | node (.doctype t) _ ts => '>' ∉ t.toList ∧ ¬"--".toList <+: t.toList ∧ ts = []
  | node (.element e) _ ts =>
      e.Writable ∧ (isVoid e.tag = true → ts = []) ∧
        (isRawText e.tag = true → RawContent e.tag.toList ts) ∧
        (isRawText e.tag = false → WritableAll ts)

/-- The trees can be written side by side and read back, up to their normal form. -/
def WritableAll : List Tree → Prop
  | [] => True
  | t :: ts => Writable t ∧ WritableAll ts

end

mutual

/-- The tree without the places that it was read from. -/
def bare : Tree → Tree
  | node k _ ts => node k none (bareAll ts)

/-- The trees without the places that they were read from. -/
def bareAll : List Tree → List Tree
  | [] => []
  | t :: ts => bare t :: bareAll ts

end

/-- Puts a text before trees, where it joins a text that comes first, and is nothing if it is
empty. -/
def joinText (t : String) : List Tree → List Tree
  | node (.text u) _ _ :: ts => node (.text (t ++ u)) none [] :: ts
  | ts => if t = "" then ts else node (.text t) none [] :: ts

/-- Puts a tree before trees, where texts are joined. -/
def joinTo : Tree → List Tree → List Tree
  | node (.text t) _ _, ts => joinText t ts
  | t, ts => t :: ts

mutual

/-- The normal form of a tree. -/
def normal : Tree → Tree
  | node k _ ts => node k none (normalAll ts)

/-- The normal form of trees side by side: no empty text, and no text next to another one. -/
def normalAll : List Tree → List Tree
  | [] => []
  | t :: ts => (normal t).joinTo (normalAll ts)

end

/-! ### Laws -/

/-- To prove something of all lists of trees, prove it of a tree before others, where it holds of the
children of the tree and of the others. -/
@[elab_as_elim]
theorem forest_induction {P : List Tree → Prop} (nil : P [])
    (cons : ∀ k span cs ts, P cs → P ts → P (node k span cs :: ts)) : ∀ ts, P ts
  | [] => nil
  | node k span cs :: ts =>
      cons k span cs ts (forest_induction nil cons cs) (forest_induction nil cons ts)

theorem normalAll_text (t : String) (span : Option Span) (cs ts : List Tree) :
    normalAll (node (.text t) span cs :: ts) = joinText t (normalAll ts) := by
  rw [normalAll, normal, joinTo]

/-- Anything but a text stays where it is. -/
theorem normalAll_of_not_text {k : NodeKind} (hk : k.text? = none) (span : Option Span)
    (cs ts : List Tree) :
    normalAll (node k span cs :: ts) = node k none (normalAll cs) :: normalAll ts := by
  rw [normalAll, normal]
  cases k with
  | text t => cases hk
  | _ => rfl

theorem joinText_text (t u : String) (span : Option Span) (cs ts : List Tree) :
    joinText t (node (.text u) span cs :: ts) = node (.text (t ++ u)) none [] :: ts := rfl

theorem joinText_of_not_text (t : String) {ts : List Tree} (h : ts.head?.bind text? = none) :
    joinText t ts = if t = "" then ts else node (.text t) none [] :: ts := by
  unfold joinText
  split
  · cases h
  · rfl

/-- A text before a text is one text. -/
theorem joinText_joinText (t u : String) (ts : List Tree) :
    joinText t (joinText u ts) = joinText (t ++ u) ts := by
  by_cases hts : ts.head?.bind text? = none
  · rw [joinText_of_not_text u hts, joinText_of_not_text (t ++ u) hts]
    by_cases hu : u = ""
    · rw [if_pos hu, joinText_of_not_text t hts, hu, String.append_empty]
    · have htu : t ++ u ≠ "" := by simp [hu]
      rw [if_neg hu, joinText_text, if_neg htu]
  · cases ts with
    | nil => simp at hts
    | cons v ts =>
        obtain ⟨k, span, cs⟩ := v
        cases k with
        | text v => rw [joinText_text, joinText_text, joinText_text, String.append_assoc]
        | _ => simp [text?] at hts

/-- Before anything but a text, a text is what it is alone. -/
theorem joinText_nil_append (t : String) {ts : List Tree} (h : ts.head?.bind text? = none) :
    joinText t [] ++ ts = joinText t ts := by
  rw [joinText_of_not_text t rfl, joinText_of_not_text t h]
  split <;> rfl

/-- A normal form has no empty text first, so nothing is joined to it by an empty text. -/
theorem joinText_empty_normalAll (ts : List Tree) : joinText "" (normalAll ts) = normalAll ts := by
  cases ts with
  | nil => rfl
  | cons t ts =>
      obtain ⟨k, span, cs⟩ := t
      cases k with
      | text t => rw [normalAll_text, joinText_joinText, String.empty_append]
      | _ =>
          rw [normalAll_of_not_text rfl]
          rfl

end Tree

end PageTemplate
