/-
MetadataRules/Json/Number.lean

The number that the digits of a JSON text stand for.

An integer that fits 64 bits is kept.  Any other number is read in two steps,
each rounded: the leading digits that fit an unsigned integer of 64 bits, and
then a factor of a power of ten.  For numbers of everyday length both steps
are exact or the result is the nearest number; a result beyond the largest
number is refused.
-/
import MetadataRules.Json.Basic
import MetadataRules.Number.Reader

namespace MetadataRules

/-- The pieces of a number in JSON text. -/
structure NumberText where
  negative : Bool
  whole : List Char
  fraction : Option (List Char)
  exponent : Option Int

namespace NumberText

/-- Unsigned integers of 64 bits stay below this bound. -/
def unsignedBound : Nat := twoPow 64

/-- Appends digits to an integer while it fits 64 bits: the integer and the
digits that are left. -/
def appendDigits (n : Nat) : List Char → Nat × List Char
  | [] => (n, [])
  | c :: cs =>
    let longer := 10 * n + (c.toNat - '0'.toNat)
    if longer < unsignedBound then appendDigits longer cs else (n, c :: cs)

/-- A number times a power of ten, each factor rounded; none beyond the largest number. -/
def scale? (x : Number) (exponent : Int) : Option Number :=
  if x.isZero then some x
  else if 308 < exponent then none
  else if 0 ≤ exponent then
    let y := x.mulAbs (.ofNat (tenPow exponent.toNat))
    if y.isFinite then some y else none
  else if -308 ≤ exponent then some (x.divAbs (.ofNat (tenPow exponent.natAbs)))
  else if -616 ≤ exponent then
    some ((x.divAbs (.ofNat (tenPow 308))).divAbs (.ofNat (tenPow (exponent.natAbs - 308))))
  else some .zero

/-- The number in two steps: leading digits, then a power of ten. -/
def twoStep? (t : NumberText) : Option Number :=
  let (wholeDigits, wholeLeft) := appendDigits 0 t.whole
  let fraction := t.fraction.getD []
  let (digits, fractionLeft) := appendDigits wholeDigits fraction
  let places : Int := (fraction.length - fractionLeft.length : Nat)
  let exponent := wholeLeft.length - places + t.exponent.getD 0
  (scale? (.ofNat digits) exponent).map fun x => if t.negative then -x else x

/-- The JSON number of the pieces. -/
def toJson? (t : NumberText) : Option Json :=
  let n := digitsValue t.whole
  let fits := if t.negative then 0 < n ∧ n ≤ twoPow 63 else n < unsignedBound
  if t.fraction.isNone ∧ t.exponent.isNone ∧ fits then
    some (.integer (if t.negative then -(n : Int) else n))
  else t.twoStep?.map .float

end NumberText

end MetadataRules
