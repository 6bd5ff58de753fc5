/-
**The shortest decimals of doubles.**

The decimal numbers that are nearer to a double than to any other make up an interval around it, to
which the ends belong if the mantissa is even.  A double is written with the fewest digits that some
number in the interval has, and of two such numbers with those of the nearer one.  On the grid of
numbers with a given number of digits, only the two neighbours of the double have to be tried: if
any point of the grid lies in the interval, so does one of them.

Main definitions:

* `PageTemplate.Data.Decimal` — digits and the power of ten of the last one;
* `PageTemplate.Data.Double.shortest` — the shortest decimal of a double;
* `PageTemplate.Data.Double.text` — how a double is written: positional for moderate sizes, and then
  always with a fraction, else with an exponent that has a sign.
-/

import PageTemplate.Data.Double

set_option relaxedAutoImplicit false
set_option autoImplicit false

namespace PageTemplate.Data

/-- The number `digits * 10 ^ exponent`. -/
structure Decimal where
  digits : Nat
  exponent : Int
  deriving DecidableEq, Repr

namespace Double

/-- The place of the first digit of `num / den`, which is below one, where `zeros` zeros are known
to stand behind the point. -/
def placeBelowOne (den : Nat) : Nat → Nat → Nat → Int
  | 0, zeros, _ => -(zeros : Int)
  | fuel + 1, zeros, num =>
      if den ≤ num * 10 then -(zeros : Int) else placeBelowOne den fuel (zeros + 1) (num * 10)

/-- The least power of ten that `num / den` is below.  No double has more than 400 zeros behind the
point. -/
def decimalPlace (num den : Nat) : Int :=
  if den ≤ num then (Nat.toDigits 10 (num / den)).length else placeBelowOne den 400 0 num

/-- The interval of the numbers that are nearest to a double, and the double itself, as multiples of
2 ^ (exponent - 2).  Below a power of two the numbers are twice as dense. -/
def neighbourhood (x : Double) : Nat × Nat × Nat :=
  let lower := if x.mantissa = hiddenBit ∧ minExponent < x.exponent then 1 else 2
  (4 * x.mantissa - lower, 4 * x.mantissa, 4 * x.mantissa + 2)

/-- The decimals among the neighbours of a double on the grid with step 10 ^ `step` that are nearest
to the double and to no other, the nearer one first. -/
def candidates (x : Double) (step : Int) : List Decimal :=
  let (low, mid, high) := x.neighbourhood
  let two := x.exponent - 2
  -- a multiple of 2 ^ two and one of 10 ^ step, over a common denominator
  let bin (n : Nat) := n * powNum 2 two * powDen 10 step
  let dec (n : Nat) := n * powNum 10 step * powDen 2 two
  let closed := x.mantissa % 2 == 0
  let floor := bin mid / dec 1
  let ceil := floor + 1
  let down := bin mid - dec floor
  let up := dec ceil - bin mid
  let below := if bin low < dec floor || (closed && bin low == dec floor) then [floor] else []
  let above := if dec ceil < bin high || (closed && dec ceil == bin high) then [ceil] else []
  let floorFirst := down < up || (down == up && floor % 2 == 0)
  (if floorFirst then below ++ above else above ++ below).map fun n => ⟨n, step⟩

/-- The first candidate on grids that become finer step by step. -/
def search (x : Double) : Nat → Int → Decimal
  | 0, step => ⟨0, step⟩
  | fuel + 1, step =>
      match x.candidates step with
      | best :: _ => best
      | [] => search x fuel (step - 1)

/-- The shortest decimal of a double.  Seventeen digits are enough for every one. -/
def shortest (x : Double) : Decimal :=
  if x.mantissa = 0 then ⟨0, 0⟩
  else search x 18 (decimalPlace x.numerator x.denominator - 1)

/-- Digits without the zeros at their end. -/
def trimZeros (digits : List Char) : List Char :=
  (digits.reverse.dropWhile (· = '0')).reverse

/-- Zeros in a row. -/
def zeros (n : Int) : List Char := List.replicate n.toNat '0'

/-- The least scientific exponent of a number that is written positionally. -/
def positionalFrom : Int := -5

/-- The scientific exponents from here on are written. -/
def positionalBelow : Int := 16

/-- The number with the given digits, the first one before the point, times 10 ^ `e`, written
without an exponent. -/
def positional (digits : List Char) (e : Int) : List Char :=
  if e < 0 then "0.".toList ++ zeros (-e - 1) ++ digits
  else
    let whole := digits.take (e.toNat + 1)
    let fraction := digits.drop (e.toNat + 1)
    whole ++ zeros (e + 1 - digits.length) ++ ['.'] ++ (if fraction = [] then ['0'] else fraction)

/-- The same number, written with an exponent. -/
def scientific (digits : List Char) (e : Int) : List Char :=
  let fraction := digits.drop 1
  digits.take 1 ++ (if fraction = [] then [] else '.' :: fraction) ++
    ['e', if e < 0 then '-' else '+'] ++ (toString e.natAbs).toList

/-- How a double is written. -/
def text (x : Double) : List Char :=
  let sign := if x.negative then ['-'] else []
  if x.mantissa = 0 then sign ++ "0.0".toList
  else
    let d := x.shortest
    let all := Nat.toDigits 10 d.digits
    let digits := trimZeros all
    let e : Int := d.exponent + all.length - 1
    sign ++
      if positionalFrom ≤ e ∧ e < positionalBelow then positional digits e else scientific digits e

end Double

end PageTemplate.Data
