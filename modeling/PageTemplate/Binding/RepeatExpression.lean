/-
**The values of repeat directives.**

A repeat directive names an item and a collection with the word `in` between them, and blanks
between the three words.  Blanks at either end have no meaning.

Main definitions:

* `PageTemplate.Binding.RepeatExpression` — the name of the item and the path of the collection;
* `PageTemplate.Binding.RepeatExpression.parse?` — what the value of a directive says.
-/

import PageTemplate.Text.Blank

set_option relaxedAutoImplicit false
set_option autoImplicit false

namespace PageTemplate.Binding

open PageTemplate.Text

/-- What a repeat directive says: the name that each item goes by, and the path of the
collection. -/
structure RepeatExpression where
  item : String
  collection : String
  deriving DecidableEq, Repr

namespace RepeatExpression

/-- The characters of which the name of an item consists. -/
def isItemChar (c : Char) : Bool :=
  c.isAlphanum || c = '_'

/-- The characters of which the path of a collection consists. -/
def isCollectionChar (c : Char) : Bool :=
  isItemChar c || c = '.'

/-- The text behind the blanks at its front, of which there is at least one. -/
def afterBlanks? : List Char → Option (List Char)
  | [] => none
  | c :: cs => if isBlank c then some (cs.dropWhile isBlank) else none

/-- The text behind the word `in` at its front. -/
def afterIn? : List Char → Option (List Char)
  | 'i' :: 'n' :: cs => some cs
  | _ => none

/-- A word at the front of a text, which has at least one character, and the text behind it. -/
def word? (p : Char → Bool) (cs : List Char) : Option (List Char × List Char) :=
  match cs.takeWhile p with
  | [] => none
  | w => some (w, cs.dropWhile p)

/-- What the value of a directive says. -/
def parse? (text : String) : Option RepeatExpression := do
  let (item, rest) ← word? isItemChar (text.toList.dropWhile isBlank)
  let rest ← afterBlanks? rest
  let rest ← afterIn? rest
  let rest ← afterBlanks? rest
  let (collection, rest) ← word? isCollectionChar rest
  if rest.dropWhile isBlank = [] then some ⟨String.ofList item, String.ofList collection⟩ else none

end RepeatExpression

end PageTemplate.Binding
