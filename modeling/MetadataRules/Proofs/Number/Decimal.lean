/-
MetadataRules/Proofs/Number/Decimal.lean

Rounded decimals.

What digits stand for is a number or an infinity, and never a number that is not
a number (`Number.isNaN_ofDigits`).  The numbers of rule text and the strings that
look numeric are such decimals.
-/
import MetadataRules.Number.Reader

namespace MetadataRules

namespace Number

theorem isNaN_ofMagnitude {negative : Bool} {m : Nat} (h : m ≤ infinityMagnitude) :
    (ofMagnitude negative m).isNaN = false := by
  have hlt : m < signBit := Nat.lt_of_le_of_lt h (by decide)
  rw [isNaN, magnitude_ofMagnitude hlt]
  exact decide_eq_false (Nat.not_lt_of_le h)

/-- What is too large to round to a number is an infinity. -/
theorem isNaN_ofUnits (negative : Bool) (num den : Nat) :
    (ofUnits negative num den).isNaN = false := by
  simp only [ofUnits]
  split
  · rename_i h
    exact isNaN_ofMagnitude (Nat.le_of_lt h)
  · exact isNaN_ofMagnitude (Nat.le_refl _)

theorem isNaN_ofDigits (negative : Bool) (whole fraction : List Char) (exponent : Int) :
    (ofDigits negative whole fraction exponent).isNaN = false := by
  simp only [ofDigits, ofDecimal]
  split
  · exact isNaN_ofMagnitude (Nat.zero_le _)
  · split
    · exact isNaN_ofMagnitude (Nat.le_refl _)
    · split <;> exact isNaN_ofUnits _ _ _

/-- A number that digits stand for. -/
def IsDecimal (n : Number) : Prop :=
  ∃ negative whole fraction exponent, ofDigits negative whole fraction exponent = n

theorem IsDecimal.isNaN_eq_false {n : Number} (h : n.IsDecimal) : n.isNaN = false := by
  obtain ⟨negative, whole, fraction, exponent, rfl⟩ := h
  exact isNaN_ofDigits negative whole fraction exponent

/-- A text that looks numeric is a decimal. -/
theorem isDecimal_of_ofText? {text : List Char} {n : Number} (h : ofText? text = some n) :
    n.IsDecimal := by
  unfold ofText? at h
  dsimp only at h
  -- with a point among the digits or without
  split at h
  all_goals
    split at h
    · cases h
    · split at h
      · exact ⟨_, _, _, _, Option.some.inj h⟩
      · cases h

end Number

end MetadataRules
