/-
**White space.**

Main definitions:

* `PageTemplate.Text.whiteSpace` — the ranges of the characters with the Unicode property
  White_Space;
* `PageTemplate.Text.isBlank` — the property.
-/

import PageTemplate.Text.Ranges

set_option relaxedAutoImplicit false
set_option autoImplicit false

namespace PageTemplate.Text

/-- The characters with the Unicode property White_Space. -/
def whiteSpace : Ranges :=
  [(0x9, 0xD), (0x20, 0x20), (0x85, 0x85), (0xA0, 0xA0), (0x1680, 0x1680), (0x2000, 0x200A),
    (0x2028, 0x2029), (0x202F, 0x202F), (0x205F, 0x205F), (0x3000, 0x3000)]

/-- Whether a character has the Unicode property White_Space. -/
def isBlank (c : Char) : Bool :=
  whiteSpace.has c

end PageTemplate.Text
