/-
**Durations for a reader.**

Main definitions:

* `PageTemplate.Command.duration` — a number of nanoseconds in the unit that suits it.
-/

import PageTemplate.Data.Double

set_option relaxedAutoImplicit false
set_option autoImplicit false

namespace PageTemplate.Command

open PageTemplate.Data

/-- The double nearest to a quotient, which is not too large for one. -/
def quotient (num den : Nat) : Double :=
  (Double.ofRatio? false num den).getD (.zero false)

/-- A number of nanoseconds: whole microseconds below a millisecond, milliseconds with one decimal
below a second, and seconds with two decimals from there on.  Decimals are those of the nearest
double, and seconds are the sum of two doubles, the whole ones and the fraction. -/
def duration (nanos : Nat) : String :=
  let micros := nanos / 1000
  if micros < 1000 then toString micros ++ "μs"
  else if micros < 1000000 then (quotient micros 1000).fixed 1 ++ "ms"
  else
    let seconds := (quotient (nanos / 1000000000) 1).addSizes?
      (quotient (nanos % 1000000000) 1000000000)
    (seconds.getD (.zero false)).fixed 2 ++ "s"

end PageTemplate.Command
