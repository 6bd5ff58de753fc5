/-
**How values show in a page.**

Main definitions:

* `PageTemplate.Data.Number.display`, `PageTemplate.Data.Value.display` — the text that a value is
  shown as;
* `PageTemplate.Data.display` — the same for a value that may be absent.

Main results:

* `PageTemplate.Data.display_none`, `PageTemplate.Data.display_null` — what is absent or null does
  not show.
-/

import PageTemplate.Data.Json

set_option relaxedAutoImplicit false
set_option autoImplicit false

namespace PageTemplate.Data

/-- Doubles that are whole and below this size are shown without a fraction. -/
def wholeLimit : Nat := Nat.pow 10 21

/-- The text that a number is shown as.  A zero is shown without a sign. -/
def Number.display : Number → List Char
  | int n => (toString n).toList
  | double x =>
      match x.whole? with
      | some n =>
          if n < wholeLimit then
            (if x.negative && n != 0 then ['-'] else []) ++ (toString n).toList
          else x.text
      | none => x.text

namespace Value

mutual

/-- The text that a value is shown as: a list with commas between its items, an object as its JSON
text. -/
def display : Value → List Char
  | null => []
  | bool true => "true".toList
  | bool false => "false".toList
  | number n => n.display
  | string s => s.toList
  | array items => displayItems items
  | object fields => (object fields).json
termination_by structural v => v

/-- The items of a list as they are shown, with commas between them. -/
def displayItems : List Value → List Char
  | [] => []
  | [v] => display v
  | v :: w :: rest => display v ++ ',' :: displayItems (w :: rest)
termination_by structural vs => vs

end

end Value

/-- The text that a value is shown as.  An absent value does not show. -/
def display (v : Option Value) : String :=
  match v with
  | some v => String.ofList v.display
  | none => ""

@[simp] theorem display_none : display none = "" := rfl

@[simp] theorem display_null : display (some .null) = "" := by
  rw [display, Value.display]

end PageTemplate.Data
