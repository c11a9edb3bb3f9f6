/-
MetadataRules/Number/Step.lean

Counters that are stepped by an amount.

`0.1 + 0.2` is `0.3` for the writer of a rule, so a step is taken in decimals
where it can be.  Any kind of decimals will do (`Decimals`): what is asked of
them is how they are read off a number, added and turned back.  Where one of
these has no answer, the step is the sum of the binary numbers
(`Number.stepBy`).
-/
import MetadataRules.Number.Rounding

namespace MetadataRules

/-- Decimals to add in, of any range and precision. -/
class Decimals where
  Decimal : Type
  /-- The decimal of a number, where it has one. -/
  ofNumber? : Number → Option Decimal
  /-- The sum, where it is in range. -/
  add? : Decimal → Decimal → Option Decimal
  /-- The number of a decimal, where it has one. -/
  toNumber? : Decimal → Option Number

namespace Decimals

variable [Decimals]

/-- The sum of two numbers in decimal. -/
def sum? (x y : Number) : Option Number := do
  let a ← ofNumber? x
  let b ← ofNumber? y
  let sum ← add? a b
  toNumber? sum

/-- A decimal sum that exists is a finite number. -/
def SumsFinite : Prop := ∀ x y n, sum? x y = some n → n.isFinite = true

end Decimals

namespace Number

/-- A number stepped by an amount: their sum in decimal, or as binary numbers where there is no
decimal sum. -/
def stepBy [Decimals] (current amount : Number) : Number :=
  match Decimals.sum? current amount with
  | some sum => sum
  | none => add current amount

end Number

end MetadataRules
