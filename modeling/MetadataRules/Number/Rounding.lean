/-
MetadataRules/Number/Rounding.lean

Exact results rounded to a number, and the arithmetic that follows from it.

An exact result is a quotient of natural numbers, in units of `2 ^ -1074`.
`ofUnits` keeps its 53 leading binary digits and rounds the rest to the
nearest number, a tie to the even one.  Integers, decimals, sums, products and
quotients are all this one rounding of their exact value.
-/
import MetadataRules.Number.Basic

namespace MetadataRules

namespace Number

/-! ### Rounding -/

/-- The integer nearest to `num / den`, the even one when two are equally near. -/
def roundHalfEven (num den : Nat) : Nat :=
  let q := num / den
  let r := num % den
  if 2 * r < den then q
  else if den < 2 * r then q + 1
  else q + q % 2

/-- The integer nearest to `num / den`, the larger one when two are equally near. -/
def roundHalfUp (num den : Nat) : Nat := (2 * num + den) / (2 * den)

/-- The number nearest to `num / den` units of `2 ^ -1074`.  Below `2 ^ 53`
units every whole unit is a number; above, the last place is worth a power of
two, and a result that rounds past the largest number is infinite. -/
def ofUnits (negative : Bool) (num den : Nat) : Number :=
  let shift := Nat.log2 (num / den) - 52
  let m := shift * binade + roundHalfEven num (den * twoPow shift)
  if m < infinityMagnitude then ofMagnitude negative m else infinity negative

/-! ### Integers and decimals -/

def ofNat (n : Nat) : Number := ofUnits false (n * unitsPerOne) 1

/-- The number nearest to an integer. -/
def ofInt (i : Int) : Number := ofUnits (decide (i < 0)) (i.natAbs * unitsPerOne) 1

/-- The number nearest to `digits * 10 ^ exponent`.  Powers that surely leave
the range of numbers are not computed. -/
def ofDecimal (negative : Bool) (digits : Nat) (exponent : Int) : Number :=
  let size := (Nat.toDigits 10 digits).length + exponent
  if digits = 0 ∨ size < -400 then ofMagnitude negative 0
  else if 400 < size then infinity negative
  else if 0 ≤ exponent then
    ofUnits negative (digits * tenPow exponent.toNat * unitsPerOne) 1
  else
    ofUnits negative (digits * unitsPerOne) (tenPow (-exponent).toNat)

/-! ### Arithmetic -/

/-- The result of taking an infinity from itself: not a number, sign bit set. -/
def undefined : Number := ofMagnitude true (infinityMagnitude + binade / 2)

/-- The sum of finite numbers; a sum of zero is negative only for two negative zeros. -/
def addFinite (x y : Number) : Number :=
  let sum := x.scaled + y.scaled
  if sum = 0 then ofMagnitude (x.isNegative && y.isNegative) 0
  else ofUnits (decide (sum < 0)) sum.natAbs 1

/-- The sum of two numbers, rounded. -/
def add (x y : Number) : Number :=
  if x.isNaN then x
  else if y.isNaN then y
  else if x.isFinite && y.isFinite then addFinite x y
  else if x.isInfinite && y.isInfinite && x.isNegative != y.isNegative then undefined
  else if x.isInfinite then x
  else y

/-- The product of the absolute values of finite numbers, rounded. -/
def mulAbs (x y : Number) : Number := ofUnits false (x.units * y.units) unitsPerOne

/-- The quotient of the absolute values of finite numbers, rounded. -/
def divAbs (x y : Number) : Number := ofUnits false (x.units * unitsPerOne) y.units

/-- The absolute value of a finite number, rounded to the nearest integer, a half away from zero. -/
def roundAbs (x : Number) : Number := ofNat (roundHalfUp x.units unitsPerOne)

end Number

end MetadataRules
