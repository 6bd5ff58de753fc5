/-
**Reading natural numbers.**

A written number is a run of at least one digit, and a plus sign may stand before it.

Main definitions:

* `PageTemplate.Text.digit?` — the value of a digit in a base up to sixteen;
* `PageTemplate.Text.readDigits` — the value of a run of digits behind a number read so far;
* `PageTemplate.Text.readNat` — the value of a written number.
-/

set_option relaxedAutoImplicit false
set_option autoImplicit false

namespace PageTemplate.Text

/-- The value of the digit `c` in `base`.  Letters count from ten, in either case. -/
def digit? (base : Nat) (c : Char) : Option Nat :=
  let value? :=
    if '0' ≤ c ∧ c ≤ '9' then some (c.toNat - '0'.toNat)
    else if 'a' ≤ c ∧ c ≤ 'f' then some (c.toNat - 'a'.toNat + 10)
    else if 'A' ≤ c ∧ c ≤ 'F' then some (c.toNat - 'A'.toNat + 10)
    else none
  value?.filter (· < base)

/-- Whether `c` is one of the ten decimal digits. -/
def isDigit (c : Char) : Bool :=
  '0' ≤ c && c ≤ '9'

/-- Reads digits to the end, where `n` is the number that the digits before them make. -/
def readDigits (base : Nat) (n : Nat) : List Char → Option Nat
  | [] => some n
  | c :: cs => (digit? base c).bind fun d => readDigits base (n * base + d) cs

/-- The value of a written number: at least one digit, and a plus sign before it or none. -/
def readNat (base : Nat) : List Char → Option Nat
  | [] => none
  | '+' :: c :: cs => readDigits base 0 (c :: cs)
  | cs => readDigits base 0 cs

theorem digit?_plus (base : Nat) : digit? base '+' = none := by
  simp [digit?]

@[simp] theorem readNat_nil (base : Nat) : readNat base [] = none := rfl

theorem readNat_cons (base : Nat) (c : Char) (cs : List Char) (h : c ≠ '+') :
    readNat base (c :: cs) = readDigits base 0 (c :: cs) := by
  unfold readNat
  split
  · rename_i h'
    simp at h'
  · rename_i h'
    simp [h] at h'
  · rfl

end PageTemplate.Text
