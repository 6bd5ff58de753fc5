/-
**Finding values by paths.**

A path is a sequence of names between dots.  A question mark at the end of a name has no meaning.
Each name but the last leads to a value that is not null, and the last one to any value, null
included.

Main definitions:

* `PageTemplate.Data.segments` — the names of a path;
* `PageTemplate.Data.Value.member?` — what a name leads to;
* `PageTemplate.Data.Value.lookup?` — what a sequence of names leads to;
* `PageTemplate.Data.items?` — the items of a collection.

Main results:

* `PageTemplate.Data.segments_ne_nil`, `PageTemplate.Data.segments_of_no_dot` — every path has a
  name, and one without dots has only one;
* `PageTemplate.Data.Value.lookup?_singleton`, `PageTemplate.Data.Value.lookup?_cons_cons` — one
  name, and one name before others.
-/

import PageTemplate.Data.Value
import PageTemplate.Text.Digits
import PageTemplate.Text.Split

set_option relaxedAutoImplicit false
set_option autoImplicit false

namespace PageTemplate.Data

open PageTemplate.Text

/-! ### Paths -/

/-- A name without the question marks at its end. -/
def dropMarks (name : List Char) : List Char :=
  (name.reverse.dropWhile (· = '?')).reverse

/-- The names of a path. -/
def segments (path : String) : List String :=
  (split '.' path.toList).map fun name => String.ofList (dropMarks name)

/-- Every path has at least one name, the empty path the empty one. -/
theorem segments_ne_nil (path : String) : segments path ≠ [] := by
  simp [segments, split_ne_nil]

/-- A path without dots is one name. -/
theorem segments_of_no_dot {path : String} (h : '.' ∉ path.toList) :
    segments path = [String.ofList (dropMarks path.toList)] := by
  simp [segments, split_of_not_mem h]

/-! ### Values -/

namespace Value

/-- The member of a value with this name.  The members of a list are named by their numbers, from
zero on, and other values than lists and objects have none. -/
def member? (v : Value) (key : String) : Option Value :=
  match v with
  | object fields => Fields.get? fields key
  | array items => (readNat 10 key.toList).bind fun i => items[i]?
  | _ => none

/-- What a sequence of names leads to. -/
def lookup? (v : Value) : List String → Option Value
  | [] => none
  | [last] => v.member? last
  | key :: next :: rest =>
      ((v.member? key).filter fun w => !w.isNull).bind fun w => lookup? w (next :: rest)

@[simp] theorem lookup?_nil (v : Value) : v.lookup? [] = none := rfl

@[simp] theorem lookup?_singleton (v : Value) (key : String) :
    v.lookup? [key] = v.member? key := rfl

theorem lookup?_cons_cons (v : Value) (key next : String) (rest : List String) :
    v.lookup? (key :: next :: rest) =
      ((v.member? key).filter fun w => !w.isNull).bind fun w => w.lookup? (next :: rest) := rfl

end Value

/-- The items of a collection: those of a list, or the values of an object in the order of its
fields. -/
def items? : Option Value → Option (List Value)
  | some (.array items) => some items
  | some (.object fields) => some (fields.map (·.2))
  | _ => none

end PageTemplate.Data
