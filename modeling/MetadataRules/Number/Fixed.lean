/-
MetadataRules/Number/Fixed.lean

Decimals of at most 28 places and 96 bits.

They are the decimals that the program steps its counters in: both terms are
turned into decimals (`ofNumber?`) and added (`add?`), and the sum is turned back
(`toNumber`).  A number too large for 96 bits has no decimal, and neither has
such a sum; a sum that is only too fine loses places.

The decimal of a number keeps at most 52 bits when it has places at all: that
drops the digits beyond the precision of the number, and so turns the binary
neighbour of `0.1` into `0.1`.
-/
import MetadataRules.Number.Step

namespace MetadataRules

/-- The decimal `digits * 10 ^ -places`, with a sign.  The digits have at most
96 bits and there are at most 28 places. -/
structure Fixed where
  isNegative : Bool
  digits : Nat
  places : Nat
deriving DecidableEq

namespace Fixed

/-- The digits of a fixed decimal stay below this bound. -/
def limit : Nat := twoPow 96

def maxPlaces : Nat := 28

/-! ### From numbers -/

/-- Digits and a power of ten, on the way to a fixed decimal. -/
structure Scaled where
  digits : Nat
  power : Int

/-- Removes `halvings` factors of two: each is a halving, exact where the digits
are even; odd digits are multiplied by five in place of it, one power of ten
down, and halved with loss only where five times as many do not fit. -/
def Scaled.halve (s : Scaled) : Nat → Scaled
  | 0 => s
  | halvings + 1 =>
    if s.digits % 2 = 0 then Scaled.halve ⟨s.digits / 2, s.power + 1⟩ halvings
    else if s.digits * 5 < limit then Scaled.halve ⟨s.digits * 5, s.power⟩ halvings
    else Scaled.halve ⟨s.digits / 2, s.power + 1⟩ halvings

/-- Drops the last digit, a dropped five or more counting up. -/
def Scaled.dropDigit (s : Scaled) : Scaled :=
  ⟨s.digits / 10 + (if 5 ≤ s.digits % 10 then 1 else 0), s.power + 1⟩

/-- Drops places until at most 28 are left; nothing is left of digits that run out. -/
def Scaled.shorten (s : Scaled) : Nat → Scaled
  | 0 => s
  | n + 1 =>
    if -(maxPlaces : Int) ≤ s.power then s
    else if s.digits < 10 then ⟨0, 0⟩
    else Scaled.shorten s.dropDigit n

/-- Drops places while the digits have more bits than a number does. -/
def Scaled.trimBits (s : Scaled) : Nat → Scaled
  | 0 => s
  | n + 1 =>
    if s.power < 0 ∧ Number.binade ≤ s.digits then Scaled.trimBits s.dropDigit n else s

/-- Drops zeros at the end of the places. -/
def Scaled.trimZeros (s : Scaled) : Nat → Scaled
  | 0 => s
  | n + 1 =>
    if s.power < 0 ∧ s.digits % 10 = 0 then Scaled.trimZeros ⟨s.digits / 10, s.power + 1⟩ n
    else s

/-- The fixed decimal of a number: none for what is not finite, and none for a
number too large for 96 bits.  A whole number is kept as it is. -/
def ofNumber? (x : Number) : Option Fixed :=
  if !x.isFinite then none
  else if x.isZero then some ⟨x.isNegative, 0, 0⟩
  else
    let two : Int := x.exponent - 1074
    if 0 ≤ two then
      let digits := x.significand * twoPow two.toNat
      if digits < limit then some ⟨x.isNegative, digits, 0⟩ else none
    else
      let s := Scaled.halve ⟨x.significand, two⟩ two.natAbs
      let s := s.shorten s.power.natAbs
      let s := s.trimBits maxPlaces
      let s := s.trimZeros maxPlaces
      some ⟨x.isNegative, s.digits, s.power.natAbs⟩

/-! ### Sums -/

/-- The value times `10 ^ places`, for `places` at least those of the decimal. -/
def scaledTo (d : Fixed) (places : Nat) : Int :=
  let n : Nat := d.digits * tenPow (places - d.places)
  if d.isNegative then -(n : Int) else n

/-- Digits fitted into 96 bits by dropping places: as few as possible, a half
going to the even neighbour.  None when there are no places left to drop. -/
def fit? (isNegative : Bool) (digits : Nat) (dropped : Nat) : Nat → Option Fixed
  | 0 =>
    let n := Number.roundHalfEven digits (tenPow dropped)
    if n < limit then some ⟨isNegative, n, 0⟩ else none
  | places + 1 =>
    let n := Number.roundHalfEven digits (tenPow dropped)
    if n < limit then some ⟨isNegative, n, places + 1⟩
    else fit? isNegative digits (dropped + 1) places

/-- The sum, with the places of the finer term.  A sum of zero is not negative. -/
def add? (a b : Fixed) : Option Fixed :=
  let places := max a.places b.places
  let sum := a.scaledTo places + b.scaledTo places
  fit? (decide (sum < 0)) sum.natAbs 0 places

/-! ### Back to numbers -/

/-- The number of a fixed decimal: its whole part plus its fraction, rounded
again to its places, which removes what the addition let creep in. -/
def toNumber (d : Fixed) : Number :=
  let power := tenPow d.places
  let whole := Number.ofNat (d.digits / power)
  let fraction := (Number.ofNat (d.digits % power)).divAbs (Number.ofNat power)
  let value :=
    if d.places = 0 ∨ fraction.isZero then whole
    else
      let scale := Number.ofNat power
      ((whole.addFinite fraction).mulAbs scale).roundAbs.divAbs scale
  if d.isNegative then -value else value

/-- Fixed decimals to add in. -/
instance decimals : Decimals where
  Decimal := Fixed
  ofNumber? := ofNumber?
  add? := add?
  toNumber? d := some d.toNumber

end Fixed

end MetadataRules
