/-
MetadataRules/Number/Reader.lean

Numbers read from decimal text.

The pieces of a decimal (its digits before and after the point and its power
of ten) are collected by whoever knows the surrounding grammar, and `ofDigits`
rounds the exact value once.  `ofText?` is the grammar for text that is meant
to be a number as a whole, such as the string `"-1.5"` in a comparison.
-/
import MetadataRules.Number.Rounding

namespace MetadataRules

/-! ### Digits -/

/-- The ten decimal digits of ASCII. -/
def isDigit (c : Char) : Bool := decide ('0' ≤ c) && decide (c ≤ '9')

/-- The value of a hexadecimal digit. -/
def hexValue? (c : Char) : Option Nat :=
  if isDigit c then some (c.toNat - '0'.toNat)
  else if 'a' ≤ c ∧ c ≤ 'f' then some (c.toNat - 'a'.toNat + 10)
  else if 'A' ≤ c ∧ c ≤ 'F' then some (c.toNat - 'A'.toNat + 10)
  else none

/-- The value of a row of digits. -/
def digitsValue (ds : List Char) : Nat :=
  ds.foldl (fun n c => 10 * n + (c.toNat - '0'.toNat)) 0

/-- The sign in front of a text: a minus, a plus or none. -/
def splitSign : List Char → Bool × List Char
  | '-' :: rest => (true, rest)
  | '+' :: rest => (false, rest)
  | rest => (false, rest)

namespace Number

/-- The number nearest to the decimal with the given digits before and after
the point and the given power of ten. -/
def ofDigits (negative : Bool) (whole fraction : List Char) (exponent : Int) : Number :=
  ofDecimal negative (digitsValue (whole ++ fraction)) (exponent - fraction.length)

/-- An exponent part, which may be missing: its value and the text behind it, or
the text that stands where its digits should. -/
def splitExponent : List Char → Except (List Char) (Int × List Char)
  | [] => .ok (0, [])
  | c :: cs =>
    if c = 'e' ∨ c = 'E' then
      let (negative, rest) := splitSign cs
      let ds := rest.takeWhile isDigit
      let power : Int := digitsValue ds
      if ds.isEmpty then .error rest
      else .ok (if negative then -power else power, rest.dropWhile isDigit)
    else .ok (0, c :: cs)

/-- The number that a whole text is: an optional sign, digits with an optional
point among, before or after them, and an optional exponent. -/
def ofText? (text : List Char) : Option Number :=
  let (negative, body) := splitSign text
  let whole := body.takeWhile isDigit
  let (fraction, rest) := match body.dropWhile isDigit with
    | '.' :: r => (r.takeWhile isDigit, r.dropWhile isDigit)
    | r => ([], r)
  if whole.isEmpty && fraction.isEmpty then none
  else match splitExponent rest with
    | .ok (exponent, []) => some (ofDigits negative whole fraction exponent)
    | _ => none

end Number

end MetadataRules
