/-
MetadataRules/Number/Basic.lean

The numbers of a document: binary floating point numbers of 64 bits, held as
their bit pattern.

A pattern is read through a sign and a *magnitude*, the lower 63 bits taken as
a natural number.  Magnitudes grow with the absolute value, so every
comparison is a comparison of two integers:

* `key`, the signed magnitude, in which both zeros are `0`; the comparisons
  `equal`, `less` and `lessEq` compare keys and refuse what is not a number;
* `totalKey`, in which the negative zero lies below the positive one and the
  numbers that are not a number lie at the ends; sorting uses it.

The value of a finite number is `scaled`, a whole multiple of `2 ^ -1074`.
-/
namespace MetadataRules

/-- A binary floating point number of 64 bits, held as its bit pattern. -/
structure Number where
  bits : UInt64
deriving DecidableEq

/-- Two to the power of `n`. -/
def twoPow (n : Nat) : Nat := Nat.pow 2 n

/-- Ten to the power of `n`. -/
def tenPow (n : Nat) : Nat := Nat.pow 10 n

namespace Number

/-! ### Sign and magnitude -/

/-- The weight of the sign bit; every magnitude lies below it. -/
def signBit : Nat := twoPow 63

/-- How many magnitudes there are from one power of two to the next. -/
def binade : Nat := twoPow 52

/-- The magnitude of the infinities; larger magnitudes are not a number. -/
def infinityMagnitude : Nat := 2047 * binade

/-- True when the sign bit is set, as it is for the negative zero. -/
def isNegative (x : Number) : Bool := decide (signBit ≤ x.bits.toNat)

/-- The bits below the sign, as a natural number. -/
def magnitude (x : Number) : Nat := x.bits.toNat % signBit

/-- The number with the given sign and magnitude. -/
def ofMagnitude (negative : Bool) (magnitude : Nat) : Number :=
  ⟨UInt64.ofNat ((if negative then signBit else 0) + magnitude)⟩

theorem signBit_eq : signBit = 9223372036854775808 := rfl

theorem toNat_ofMagnitude {s : Bool} {m : Nat} (h : m < signBit) :
    (ofMagnitude s m).bits.toNat = (if s then signBit else 0) + m := by
  have hlt : (if s then signBit else 0) + m < UInt64.size := by
    rw [signBit_eq] at *
    cases s <;> simp only [if_true, Bool.false_eq_true, if_false, UInt64.size] <;> omega
  exact UInt64.toNat_ofNat_of_lt' hlt

theorem magnitude_ofMagnitude {s : Bool} {m : Nat} (h : m < signBit) :
    (ofMagnitude s m).magnitude = m := by
  rw [magnitude, toNat_ofMagnitude h]
  rw [signBit_eq] at *
  cases s <;> simp only [if_true, Bool.false_eq_true, if_false] <;> omega

theorem isNegative_ofMagnitude {s : Bool} {m : Nat} (h : m < signBit) :
    (ofMagnitude s m).isNegative = s := by
  rw [isNegative, toNat_ofMagnitude h]
  rw [signBit_eq] at *
  cases s <;>
    simp only [if_true, Bool.false_eq_true, if_false, decide_eq_true_eq,
      decide_eq_false_iff_not] <;>
    omega

/-- The bit pattern of a number is the weight of its sign and its magnitude. -/
theorem sign_add_magnitude (x : Number) :
    (if x.isNegative then signBit else 0) + x.magnitude = x.bits.toNat := by
  have hlt : x.bits.toNat < UInt64.size := x.bits.toNat_lt_size
  rw [isNegative, magnitude]
  rw [UInt64.size] at hlt
  rw [signBit_eq]
  by_cases h : 9223372036854775808 ≤ x.bits.toNat <;>
    simp only [h, decide_true, decide_false, if_true, Bool.false_eq_true, if_false] <;>
    omega

/-- A number is its sign and its magnitude. -/
theorem ofMagnitude_magnitude (x : Number) :
    ofMagnitude x.isNegative x.magnitude = x := by
  rw [ofMagnitude, sign_add_magnitude, UInt64.ofNat_toNat]

/-! ### Classes and constants -/

/-- Not a number: the result of an operation without a value. -/
def isNaN (x : Number) : Bool := decide (infinityMagnitude < x.magnitude)

/-- Neither an infinity nor a missing value. -/
def isFinite (x : Number) : Bool := decide (x.magnitude < infinityMagnitude)

/-- One of the two infinities. -/
def isInfinite (x : Number) : Bool := decide (x.magnitude = infinityMagnitude)

/-- One of the two zeros. -/
def isZero (x : Number) : Bool := decide (x.magnitude = 0)

def zero : Number := ofMagnitude false 0

def one : Number := ofMagnitude false (1023 * binade)

def infinity (negative : Bool) : Number := ofMagnitude negative infinityMagnitude

/-- The value written for any number that is not a number. -/
def nan : Number := ofMagnitude false (infinityMagnitude + binade / 2)

instance : Inhabited Number := ⟨zero⟩

/-- The number with the other sign; zeros and missing values change sign too. -/
def neg (x : Number) : Number := ofMagnitude (!x.isNegative) x.magnitude

instance : Neg Number := ⟨neg⟩

/-! ### Value -/

/-- The power of two, above `2 ^ -1074`, that a step of the last binary place is worth. -/
def exponent (x : Number) : Nat := x.magnitude / binade - 1

/-- The digits of the number in binary, as a natural number below `2 ^ 53`. -/
def significand (x : Number) : Nat := x.magnitude - x.exponent * binade

/-- The absolute value in units of `2 ^ -1074`. -/
def units (x : Number) : Nat := x.significand * twoPow x.exponent

/-- One in units of `2 ^ -1074`. -/
def unitsPerOne : Nat := twoPow 1074

/-- The value of a finite number in units of `2 ^ -1074`; both zeros have value `0`. -/
def scaled (x : Number) : Int :=
  if x.isNegative then -(x.units : Int) else x.units

/-! ### Comparisons -/

/-- The signed magnitude, which grows with the value; both zeros have key `0`. -/
def key (x : Number) : Int :=
  if x.isNegative then -(x.magnitude : Int) else x.magnitude

/-- Equality of values: the zeros are equal and what is not a number equals nothing. -/
def equal (x y : Number) : Bool :=
  !x.isNaN && !y.isNaN && decide (x.key = y.key)

/-- Smaller in value; false when either side is not a number. -/
def less (x y : Number) : Bool :=
  !x.isNaN && !y.isNaN && decide (x.key < y.key)

/-- Smaller in value or equal; false when either side is not a number. -/
def lessEq (x y : Number) : Bool :=
  !x.isNaN && !y.isNaN && decide (x.key ≤ y.key)

/-- The place of a number among all bit patterns: below every number lie the
negative missing values, above every number the positive ones, and the
negative zero lies right below the positive zero. -/
def totalKey (x : Number) : Int :=
  if x.isNegative then -(x.magnitude : Int) - 1 else x.magnitude

/-- The total order of bit patterns, by `totalKey`. -/
def totalOrder (x y : Number) : Ordering := compare x.totalKey y.totalKey

/-! ### Whole numbers -/

/-- Finite and without a fraction. -/
def isWhole (x : Number) : Bool :=
  x.isFinite && decide (x.units % unitsPerOne = 0)

/-- The value of a finite number without its fraction. -/
def truncate (x : Number) : Int :=
  let whole : Nat := x.units / unitsPerOne
  if x.isNegative then -(whole : Int) else whole

/-- The integer that a whole number of absolute value below `bound` is. -/
def wholeBelow? (bound : Nat) (x : Number) : Option Int :=
  if x.isWhole && decide (x.truncate.natAbs < bound) then some x.truncate else none

/-- Positions are integers of 64 bits: below this bound and not below its negative. -/
def positionBound : Int := twoPow 63

/-- The position that a whole number stands for; a number beyond the range
of positions is the last position on its side. -/
def position? (x : Number) : Option Int :=
  if x.isWhole then some (max (-positionBound) (min x.truncate (positionBound - 1))) else none

end Number

end MetadataRules
