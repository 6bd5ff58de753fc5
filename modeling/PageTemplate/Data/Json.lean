/-
**Data values as JSON texts.**

The text of a value has no blanks, keeps the order of fields, and escapes only what has to be
escaped: quotes, backslashes, and the characters below the space.

Main definitions:

* `PageTemplate.Data.jsonString` — a string between quotes;
* `PageTemplate.Data.Number.json`, `PageTemplate.Data.Value.json` — the text of a number and of a
  value.
-/

import PageTemplate.Data.Shortest
import PageTemplate.Data.Value

set_option relaxedAutoImplicit false
set_option autoImplicit false

namespace PageTemplate.Data

/-- The digit of a hexadecimal number, in lower case. -/
def hexDigit (n : Nat) : Char :=
  if n < 10 then Char.ofNat ('0'.toNat + n) else Char.ofNat ('a'.toNat + (n - 10))

/-- One character between quotes. -/
def jsonChar (c : Char) : List Char :=
  if c = '"' then ['\\', '"']
  else if c = '\\' then ['\\', '\\']
  else if c = '\x08' then ['\\', 'b']
  else if c = '\x0c' then ['\\', 'f']
  else if c = '\n' then ['\\', 'n']
  else if c = '\r' then ['\\', 'r']
  else if c = '\t' then ['\\', 't']
  else if c.toNat < 0x20 then
    ['\\', 'u', '0', '0', hexDigit (c.toNat / 16), hexDigit (c.toNat % 16)]
  else [c]

/-- A string between quotes. -/
def jsonString (s : String) : List Char :=
  '"' :: s.toList.flatMap jsonChar ++ ['"']

/-- The text of a number. -/
def Number.json : Number → List Char
  | int n => (toString n).toList
  | double x => x.text

namespace Value

mutual

/-- The text of a value. -/
def json : Value → List Char
  | null => "null".toList
  | bool true => "true".toList
  | bool false => "false".toList
  | number n => n.json
  | string s => jsonString s
  | array items => '[' :: jsonItems items ++ [']']
  | object fields => '{' :: jsonFields fields ++ ['}']
termination_by structural v => v

/-- The texts of the items of an array, with commas between them. -/
def jsonItems : List Value → List Char
  | [] => []
  | [v] => json v
  | v :: w :: rest => json v ++ ',' :: jsonItems (w :: rest)
termination_by structural vs => vs

/-- The texts of the fields of an object, with commas between them. -/
def jsonFields : List (String × Value) → List Char
  | [] => []
  | [p] => jsonField p
  | p :: q :: rest => jsonField p ++ ',' :: jsonFields (q :: rest)
termination_by structural fields => fields

/-- The text of a field. -/
def jsonField : String × Value → List Char
  | (k, v) => jsonString k ++ ':' :: json v
termination_by structural p => p

end

/-- The text of a value, as a string. -/
def jsonText (v : Value) : String :=
  String.ofList v.json

end Value

end PageTemplate.Data
