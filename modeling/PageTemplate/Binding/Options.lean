/-
**The names of the directives.**

Main definitions:

* `PageTemplate.Binding.Options` — the attributes that mark repeated elements and controller
  elements.
-/

set_option relaxedAutoImplicit false
set_option autoImplicit false

namespace PageTemplate.Binding

/-- The attributes that are directives. -/
structure Options where
  /-- Marks an element that is repeated for each item of a collection. -/
  repeatAttribute : String := "hb-repeat"
  /-- Marks an element whose content has a controller of its own. -/
  controllerAttribute : String := "hb-controller"
  deriving DecidableEq, Repr

end PageTemplate.Binding
