/-
MetadataRules/Clock.lean

A reading of the local clock, and its two texts.

Rules see the clock only through the strings of `NOW` and `TODAY`.  Years from
`0` to `9999` have four digits and any other year a sign, so the strings of
such years compare as the dates do.  A leap second is a nanosecond count of
one second or more, and is written as the second after.
-/
import MetadataRules.Number.Notation

namespace MetadataRules

/-- A date and a time of day. -/
structure Clock where
  year : Int
  month : Nat
  day : Nat
  hour : Nat
  minute : Nat
  second : Nat
  nanosecond : Nat
deriving DecidableEq

namespace Clock

/-- A number with zeros before it, up to the given width. -/
def padded (width n : Nat) : List Char :=
  let ds := natDigits n
  List.replicate (width - ds.length) '0' ++ ds

/-- A year: four digits, and a sign where four digits are not enough. -/
def yearText (year : Int) : List Char :=
  if 0 ≤ year ∧ year ≤ 9999 then padded 4 year.toNat
  else (if year < 0 then '-' else '+') :: padded 4 year.natAbs

/-- The second as it is written: a leap second is the second after. -/
def shownSecond (c : Clock) : Nat := c.second + c.nanosecond / tenPow 9

/-- The date, year first. -/
def dateChars (c : Clock) : List Char :=
  yearText c.year ++ '-' :: (padded 2 c.month ++ '-' :: padded 2 c.day)

/-- The date and the time of day in whole seconds. -/
def dateTimeChars (c : Clock) : List Char :=
  c.dateChars ++ 'T' :: (padded 2 c.hour ++ ':' :: (padded 2 c.minute ++
    ':' :: padded 2 c.shownSecond))

def date (c : Clock) : String := String.ofList c.dateChars

def dateTime (c : Clock) : String := String.ofList c.dateTimeChars

end Clock

end MetadataRules
