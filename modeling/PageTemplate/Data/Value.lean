/-
**Data values.**

The data that a page is rendered against is a value of the JSON data model.  Objects keep their
fields in the order in which they were first set, and numbers are whole numbers or doubles.

Main definitions:

* `PageTemplate.Data.Number`, `PageTemplate.Data.Value` — the values;
* `PageTemplate.Data.Fields.get?`, `PageTemplate.Data.Fields.set` — the fields of an object;
* `PageTemplate.Data.Value.objectOrEmpty` — the object that stands for any value.

Main results:

* `PageTemplate.Data.Fields.get?_set` — what setting a field does to every field;
* `PageTemplate.Data.Fields.keys_set` — and to the order of the keys.
-/

import PageTemplate.Data.Double

set_option relaxedAutoImplicit false
set_option autoImplicit false

namespace PageTemplate.Data

/-- A number: a whole one, or a double. -/
inductive Number where
  | int (n : Int)
  | double (x : Double)
  deriving DecidableEq, Repr

/-- A data value. -/
inductive Value where
  | null
  | bool (b : Bool)
  | number (n : Number)
  | string (s : String)
  | array (items : List Value)
  | object (fields : List (String × Value))
  deriving BEq, Repr

/-- The fields of an object, in order. -/
abbrev Fields := List (String × Value)

namespace Fields

/-- The value of a field. -/
def get? (fields : Fields) (key : String) : Option Value :=
  (fields.find? (·.1 == key)).map (·.2)

/-- Sets a field.  One that is there keeps its place, and a new one comes last. -/
def set (key : String) (v : Value) : Fields → Fields
  | [] => [(key, v)]
  | (k, w) :: rest => if k = key then (k, v) :: rest else (k, w) :: set key v rest

@[simp] theorem get?_nil (key : String) : get? [] key = none := rfl

theorem get?_cons (k : String) (w : Value) (rest : Fields) (key : String) :
    get? ((k, w) :: rest) key = if k = key then some w else get? rest key := by
  by_cases h : k = key <;> simp [get?, h]

/-- Setting a field changes that field alone. -/
theorem get?_set (key other : String) (v : Value) (fields : Fields) :
    get? (set key v fields) other = if key = other then some v else get? fields other := by
  induction fields with
  | nil => simp [set, get?_cons]
  | cons p rest ih =>
      obtain ⟨k, w⟩ := p
      rw [set]
      by_cases h : k = key
      · subst h
        by_cases ho : k = other <;> simp [get?_cons, ho]
      · simp only [h, ↓reduceIte, get?_cons, ih]
        by_cases ho : k = other
        · have : key ≠ other := fun e => h (ho.trans e.symm)
          simp [ho, this]
        · simp [ho]

/-- Setting a field keeps the keys in their order, with a new one last. -/
theorem keys_set (key : String) (v : Value) (fields : Fields) :
    (set key v fields).map (·.1) =
      if key ∈ fields.map (·.1) then fields.map (·.1) else fields.map (·.1) ++ [key] := by
  induction fields with
  | nil => simp [set]
  | cons p rest ih =>
      obtain ⟨k, w⟩ := p
      rw [set]
      by_cases h : k = key
      · simp [h]
      · have h' : key ≠ k := fun e => h e.symm
        simp only [h, ↓reduceIte, List.map_cons, ih, List.mem_cons, h', false_or]
        split <;> simp

/-- There is a field for each key, and for no other name. -/
theorem get?_ne_none_iff (fields : Fields) (key : String) :
    fields.get? key ≠ none ↔ key ∈ fields.map (·.1) := by
  induction fields with
  | nil => simp
  | cons p rest ih =>
      obtain ⟨k, w⟩ := p
      rw [get?_cons, List.map_cons, List.mem_cons, ← ih]
      by_cases h : k = key
      · simp [h]
      · simp [h, Ne.symm h]

end Fields

namespace Value

/-- Whether a value is null. -/
def isNull : Value → Bool
  | null => true
  | _ => false

/-- The fields of an object. -/
def fields? : Value → Option Fields
  | object fields => some fields
  | _ => none

/-- The object without fields. -/
def emptyObject : Value := object []

/-- An object itself, and the object without fields instead of any other value. -/
def objectOrEmpty : Value → Value
  | object fields => object fields
  | _ => emptyObject

end Value

end PageTemplate.Data
