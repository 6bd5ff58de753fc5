/-
**Finite double-precision numbers.**

A finite double is a sign, a whole number below 2 ^ 53 and a power of two.  Here it is kept as these
three, so that every rule about doubles is a rule about whole numbers: rounding a quotient goes to
the nearest double, and to the even one if two are equally near.

Main definitions:

* `PageTemplate.Data.roundHalfEven` — the whole number nearest to a quotient;
* `PageTemplate.Data.Double` — a finite double;
* `PageTemplate.Data.Double.ofRatio?`, `PageTemplate.Data.Double.ofDecimal?` — the double nearest to
  a quotient, and to a decimal number, unless it is too large;
* `PageTemplate.Data.Double.numerator`, `PageTemplate.Data.Double.denominator` — the exact size of a
  double;
* `PageTemplate.Data.Double.whole?`, `PageTemplate.Data.Double.fixed` — the digits of a double that
  is whole, and a given number of decimal places of any.

Main results:

* `PageTemplate.Data.roundHalfEven_bounds` — rounding moves a quotient by at most one half.
-/

set_option relaxedAutoImplicit false
set_option autoImplicit false

namespace PageTemplate.Data

/-! ### Rounding -/

/-- The whole number nearest to `num / den`, the even one of two that are equally near. -/
def roundHalfEven (num den : Nat) : Nat :=
  let q := num / den
  let r := num % den
  if 2 * r < den then q
  else if den < 2 * r then q + 1
  else if q % 2 = 0 then q
  else q + 1

/-- Rounding moves a quotient by at most one half. -/
theorem roundHalfEven_bounds (num den : Nat) (h : 0 < den) :
    2 * num ≤ 2 * (roundHalfEven num den * den) + den ∧
      2 * (roundHalfEven num den * den) ≤ 2 * num + den := by
  have hd := Nat.div_add_mod num den
  have hr := Nat.mod_lt num h
  have hq : den * (num / den) = num / den * den := Nat.mul_comm ..
  unfold roundHalfEven
  simp only
  split
  · omega
  · split
    · rw [Nat.add_mul]
      omega
    · split
      · omega
      · rw [Nat.add_mul]
        omega

/-! ### Doubles -/

/-- A finite double: `mantissa * 2 ^ exponent`, with a sign that zero has as well.  The mantissa is
below 2 ^ 53, and at least 2 ^ 52 unless the exponent is the least one. -/
structure Double where
  negative : Bool
  mantissa : Nat
  exponent : Int
  deriving DecidableEq, Repr

namespace Double

/-- The least exponent. -/
def minExponent : Int := -1074

/-- The greatest exponent. -/
def maxExponent : Int := 971

/-- The mantissas from here on have 53 binary digits. -/
def hiddenBit : Nat := Nat.pow 2 52

/-- Zero with a sign. -/
def zero (negative : Bool) : Double := ⟨negative, 0, minExponent⟩

/-- The factor `base ^ e` of a numerator. -/
def powNum (base : Nat) (e : Int) : Nat := Nat.pow base e.toNat

/-- The factor `base ^ (-e)` of a denominator. -/
def powDen (base : Nat) (e : Int) : Nat := Nat.pow base (-e).toNat

/-- The exponent that makes `num / den` a mantissa of 53 binary digits, or the least exponent if the
quotient is too small for that. -/
def exponentFor (num den : Nat) : Int :=
  let guess : Int := num.log2 - den.log2
  let lead := if den * powNum 2 guess ≤ num * powDen 2 guess then guess else guess - 1
  max (lead - 52) minExponent

/-- The double nearest to `num / den`.  There is none if it would be 2 ^ 1024 or more. -/
def ofRatio? (negative : Bool) (num den : Nat) : Option Double :=
  if num = 0 then some (zero negative)
  else
    let e := exponentFor num den
    let m := roundHalfEven (num * powDen 2 e) (den * powNum 2 e)
    let (m, e) := if m = 2 * hiddenBit then (hiddenBit, e + 1) else (m, e)
    if maxExponent < e then none else some ⟨negative, m, e⟩

/-- The double nearest to `digits * 10 ^ exponent`.  A number of 10 ^ 400 or more is too large, and
one below 10 ^ (-400) is nearest to zero, so that powers of ten stay small. -/
def ofDecimal? (negative : Bool) (digits : Nat) (exponent : Int) : Option Double :=
  let places := (Nat.toDigits 10 digits).length + exponent
  if digits = 0 ∨ places < -400 then some (zero negative)
  else if 400 < places then none
  else ofRatio? negative (digits * powNum 10 exponent) (powDen 10 exponent)

/-- The numerator of the size of a double. -/
def numerator (x : Double) : Nat := x.mantissa * powNum 2 x.exponent

/-- The denominator of the size of a double. -/
def denominator (x : Double) : Nat := powDen 2 x.exponent

/-- The size of a double that is a whole number. -/
def whole? (x : Double) : Option Nat :=
  if x.numerator % x.denominator = 0 then some (x.numerator / x.denominator) else none

/-- The double nearest to the sum of the sizes of two doubles. -/
def addSizes? (x y : Double) : Option Double :=
  ofRatio? false (x.numerator * y.denominator + y.numerator * x.denominator)
    (x.denominator * y.denominator)

/-- The size of a double with `places` decimals, rounded from its exact value, ties to even. -/
def fixed (x : Double) (places : Nat) : String :=
  let one := Nat.pow 10 places
  let n := roundHalfEven (x.numerator * one) x.denominator
  let fraction := toString (n % one)
  toString (n / one) ++ "." ++
    String.ofList (List.replicate (places - fraction.length) '0') ++ fraction

end Double

end PageTemplate.Data
