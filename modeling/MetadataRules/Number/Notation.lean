/-
MetadataRules/Number/Notation.lean

How a number is written.

Three texts are needed: the plain one of change lines and messages, the one of
JSON and the one of YAML.  All use the fewest digits that read back.  The plain
text has no exponents; the file formats do beyond certain sizes, and differ in
the look of an exponent and in the words for what is not finite.
-/
import MetadataRules.Number.Shortest

namespace MetadataRules

/-! ### Digits -/

/-- The decimal digits of a natural number. -/
def natDigits (n : Nat) : List Char := Nat.toDigits 10 n

/-- An integer in decimal, a minus sign before a negative one. -/
def intDigits (i : Int) : List Char :=
  if i < 0 then '-' :: natDigits i.natAbs else natDigits i.natAbs

namespace Decimal

/-- The power of ten of the first digit. -/
def leading (d : Decimal) : Int := (natDigits d.digits).length + d.exponent - 1

/-- The digits before the point; a value below one starts with a zero. -/
def wholeDigits (d : Decimal) : List Char :=
  let ds := natDigits d.digits
  if 0 ≤ d.exponent then ds ++ List.replicate d.exponent.toNat '0'
  else
    let n := ds.length - (-d.exponent).toNat
    if n = 0 then ['0'] else ds.take n

/-- The digits after the point. -/
def fractionDigits (d : Decimal) : List Char :=
  let ds := natDigits d.digits
  if 0 ≤ d.exponent then []
  else
    let places := (-d.exponent).toNat
    List.replicate (places - ds.length) '0' ++ ds.drop (ds.length - places)

/-- A decimal written with its point, and without one when there is no fraction. -/
def positional (d : Decimal) : List Char :=
  match d.fractionDigits with
  | [] => d.wholeDigits
  | fraction => d.wholeDigits ++ '.' :: fraction

/-- A decimal written as a digit, a fraction and a power of ten. -/
def exponential (d : Decimal) (plus : Bool) : List Char :=
  let e := d.leading
  let sign := if 0 ≤ e ∧ plus then ['+'] else []
  let power := 'e' :: (sign ++ intDigits e)
  match natDigits d.digits with
  | first :: second :: rest => first :: '.' :: second :: (rest ++ power)
  | single => single ++ power

end Decimal

/-! ### The three texts -/

namespace Number

/-- A number with a minus sign before a negative one. -/
def signed (x : Number) (text : List Char) : List Char :=
  if x.isNegative then '-' :: text else text

/-- The text of change lines and messages.  Whole numbers below `10 ^ 15` are
integers; any other number is written with its point and never with an
exponent. -/
def plainText (x : Number) : List Char :=
  match x.wholeBelow? (tenPow 15) with
  | some i => intDigits i
  | none =>
    if x.isNaN then ['N', 'a', 'N']
    else if x.isInfinite then x.signed ['i', 'n', 'f']
    else x.signed (x.shortest .up).positional

/-- The choices of a file format for a number that is no integer. -/
structure FloatStyle where
  /-- A plus sign stands before a positive exponent. -/
  plus : Bool
  /-- What is written for a missing value, for infinity and for its negative. -/
  missing : List Char
  infinite : List Char
  negativeInfinite : List Char

/-- A number that is no integer in a file format.  From `10 ^ -5` up to `10 ^ 16` it is
written with its point and always with a fraction, and beyond with an exponent. -/
def floatText (style : FloatStyle) (x : Number) : List Char :=
  if x.isNaN then style.missing
  else if x.isInfinite then (if x.isNegative then style.negativeInfinite else style.infinite)
  else
    let d := x.shortest .even
    if -5 ≤ d.leading ∧ d.leading < 16 then
      match d.fractionDigits with
      | [] => x.signed (d.wholeDigits ++ ['.', '0'])
      | _ => x.signed d.positional
    else x.signed (d.exponential style.plus)

/-- Whole numbers below this bound are integers in every file format. -/
def integerBound : Nat := 9 * tenPow 15

end Number

end MetadataRules
