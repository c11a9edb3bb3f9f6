/-
MetadataRules/Number/Shortest.lean

The fewest decimal digits that read back as a given number.

The reals that round to a finite number form an interval around it, its ends
included exactly when the significand is even.  A decimal with one more digit
comes from a finer grid of multiples of a power of ten, so the search walks
from coarse grids to fine ones and stops at the first grid with a point in the
interval.  Such a point is one of the two neighbours of the number on the grid,
and of two hits the nearer is taken.  All of it is exact arithmetic on natural
numbers: the interval is held in quarters of `2 ^ -1074`.
-/
import MetadataRules.Number.Rounding

namespace MetadataRules

/-- The decimal `digits * 10 ^ exponent`. -/
structure Decimal where
  digits : Nat
  exponent : Int
deriving DecidableEq

namespace Number

/-- What becomes of two decimals equally near to a number. -/
inductive Tie where
  | up
  | even
deriving DecidableEq

/-- The reals that round to a number, in quarters of `2 ^ -1074`. -/
structure Interval where
  low : Nat
  middle : Nat
  high : Nat
  closed : Bool

/-- The interval around the absolute value of a finite number.  Below a power
of two the numbers lie twice as dense, so the lower half is shorter there. -/
def interval (x : Number) : Interval :=
  let step := twoPow x.exponent
  let below := if x.significand = binade ∧ 0 < x.exponent then step else 2 * step
  { low := 4 * x.units - below, middle := 4 * x.units, high := 4 * x.units + 2 * step,
    closed := x.significand % 2 = 0 }

/-- The point of an interval on the multiples of `unit / scale` nearest to its middle. -/
def Interval.onGrid? (i : Interval) (tie : Tie) (unit scale : Nat) : Option Nat :=
  let inside (d : Nat) : Bool :=
    if i.closed then i.low * scale ≤ d * unit && d * unit ≤ i.high * scale
    else i.low * scale < d * unit && d * unit < i.high * scale
  let below := i.middle * scale / unit
  let above := below + 1
  let rest := i.middle * scale - below * unit
  let takeAbove := match compare (2 * rest) unit with
    | .lt => false
    | .gt => true
    | .eq => match tie with
      | .up => true
      | .even => below % 2 = 1
  match 0 < below && inside below, inside above with
  | true, true => some (if takeAbove then above else below)
  | true, false => some below
  | false, true => some above
  | false, false => none

/-- The nearest multiple of `10 ^ exponent` in an interval. -/
def Interval.atExponent? (i : Interval) (tie : Tie) (exponent : Int) : Option Decimal :=
  let one := 4 * unitsPerOne
  let hit := if 0 ≤ exponent then i.onGrid? tie (one * tenPow exponent.toNat) 1
    else i.onGrid? tie one (tenPow (-exponent).toNat)
  hit.map fun d => { digits := d, exponent := exponent }

/-- The first hit on the grids `10 ^ exponent`, `10 ^ (exponent - 1)` and so on. -/
def Interval.search (i : Interval) (tie : Tie) (exponent : Int) : Nat → Option Decimal
  | 0 => none
  | tries + 1 => match i.atExponent? tie exponent with
    | some d => some d
    | none => i.search tie (exponent - 1) tries

/-- An exponent of ten above every decimal near a number: `30103 / 100000` is just above
the logarithm of two. -/
def topExponent (x : Number) : Int :=
  ((Nat.log2 x.units : Int) + 1 - 1074) * 30103 / 100000 + 1

/-- The decimal with the fewest digits that rounds to the absolute value of a
finite number, and of those the nearest.  Zero is `0`.  Seventeen digits always
suffice, and the search starts at most two places above the first. -/
def shortest (tie : Tie) (x : Number) : Decimal :=
  if x.isZero then ⟨0, 0⟩
  else (x.interval.search tie x.topExponent 20).getD ⟨x.units, -1074⟩

end Number

end MetadataRules
