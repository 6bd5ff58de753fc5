/-
**Elements, and the two kinds of tags that are special.**

Main definitions:

* `PageTemplate.Markup.Attribute`, `PageTemplate.Markup.Element` — an element without its content;
* `PageTemplate.Markup.isVoid` — tags of elements that never have content;
* `PageTemplate.Markup.isRawText` — tags of elements whose content is not markup.
-/

set_option relaxedAutoImplicit false
set_option autoImplicit false

namespace PageTemplate.Markup

/-- An attribute.  One that is written without a value has none. -/
structure Attribute where
  name : String
  value : Option String
  deriving DecidableEq, Repr

/-- The tag and the attributes of an element, in the order in which they are written. -/
structure Element where
  tag : String
  attributes : List Attribute
  deriving DecidableEq, Repr

namespace Element

/-- The value of the first attribute of this name.  An attribute without a value has the empty
one. -/
def attribute? (e : Element) (name : String) : Option String :=
  (e.attributes.find? (·.name == name)).map fun a => a.value.getD ""

/-- Whether the element has an attribute of this name. -/
def hasAttribute (e : Element) (name : String) : Bool :=
  e.attributes.any (·.name == name)

/-- The element without the attributes of this name. -/
def eraseAttribute (e : Element) (name : String) : Element :=
  { e with attributes := e.attributes.filter (·.name != name) }

end Element

/-- The tags of the void elements, which have neither content nor a closing tag. -/
def voidTags : List String :=
  ["area", "base", "br", "col", "embed", "hr", "img", "input", "link", "meta", "param", "source",
    "track", "wbr"]

/-- The tags of the elements whose content is kept as it is written. -/
def rawTextTags : List String := ["script", "style"]

/-- Whether a tag, in whatever letter case, is that of a void element. -/
def isVoid (tag : String) : Bool :=
  voidTags.contains tag.toLower

/-- Whether a tag, in whatever letter case, is that of an element with raw text. -/
def isRawText (tag : String) : Bool :=
  rawTextTags.contains tag.toLower

end PageTemplate.Markup
