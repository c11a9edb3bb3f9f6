/-
MetadataRules/Proofs/Number/Whole.lean

Whole numbers and the integers that they are.

A finite number has at most 53 binary digits, so rounding its exact value gives
the number again (`Number.ofUnits_units`).  Hence the integer that a whole
number is gives the number back, of any size and up to the sign of a zero
(`ofInt_of_wholeBelow?`).  The other way a bound is needed: an integer below
`2 ^ 53` is a number exactly (`units_ofInt`), and is read off that number again
(`wholeBelow?_ofInt`).
-/
import MetadataRules.Number.Notation
import MetadataRules.Proofs.Number.Range

namespace MetadataRules

namespace Number

variable {x : Number} {num n r shift bound : Nat} {negative : Bool}

/-- The number, with the positive zero in the place of the negative one. -/
def withoutNegativeZero (x : Number) : Number := if x.isZero then zero else x

/-! ### Digits and exponent -/

theorem significand_lt (x : Number) : x.significand < 2 * binade := by
  rw [significand, exponent, binade_eq]
  omega

/-- Only the smallest numbers have fewer than 53 digits. -/
theorem exponent_eq_zero_or (x : Number) : x.exponent = 0 ∨ binade ≤ x.significand := by
  rw [significand, exponent, binade_eq]
  omega

theorem exponent_mul_add_significand (x : Number) :
    x.exponent * binade + x.significand = x.magnitude := by
  rw [significand, exponent, binade_eq]
  omega

theorem units_eq (x : Number) : x.units = x.significand * 2 ^ x.exponent := by
  rw [units, twoPow_eq]

theorem units_eq_zero_iff : x.units = 0 ↔ x.isZero = true := by
  have hmagnitude := exponent_mul_add_significand x
  have hpow : 2 ^ x.exponent ≠ 0 := by positivity
  rw [units_eq, isZero, decide_eq_true_iff, Nat.mul_eq_zero, or_iff_left hpow]
  rcases exponent_eq_zero_or x with hexponent | hdigits
  · rw [hexponent] at hmagnitude
    omega
  · rw [binade_eq] at hdigits hmagnitude
    omega

/-! ### Exact results -/

theorem roundHalfEven_mul (n : Nat) {den : Nat} (hden : 0 < den) :
    roundHalfEven (n * den) den = n := by
  simp only [roundHalfEven, Nat.mul_mod_left, Nat.mul_div_cancel n hden]
  rw [if_pos (by omega)]

/-- The last place of 53 digits times a power of two is worth that power. -/
theorem log2_sub_eq (hr : r < 2 * binade) (hshift : shift = 0 ∨ binade ≤ r) :
    Nat.log2 (r * 2 ^ shift) - 52 = shift := by
  have hlt : r * 2 ^ shift < 2 ^ (53 + shift) := by
    rw [pow_add]
    exact Nat.mul_lt_mul_of_pos_right hr (by positivity)
  have hle : Nat.log2 (r * 2 ^ shift) - 52 ≤ shift := by
    have hplaces : Nat.log2 (r * 2 ^ shift / 1) - 52 ≤ 53 + shift - 53 :=
      log2_sub_le (by rwa [Nat.one_mul])
    rwa [Nat.div_one, Nat.add_sub_cancel_left] at hplaces
  -- only that the shift is no larger than the place is left, and without a shift it cannot be
  rcases hshift with rfl | hdigits
  · omega
  · have hge : 2 ^ (52 + shift) ≤ r * 2 ^ shift := by
      rw [pow_add]
      exact Nat.mul_le_mul_right _ hdigits
    have hne : r * 2 ^ shift ≠ 0 := Nat.ne_zero_of_lt (Nat.lt_of_lt_of_le (by positivity) hge)
    have hlog := (Nat.le_log2 hne).2 hge
    omega

/-- **The exact value of a finite number is rounded to the number.** -/
theorem ofUnits_units (hx : x.isFinite = true) (negative : Bool) :
    ofUnits negative x.units 1 = ofMagnitude negative x.magnitude := by
  have hshift := log2_sub_eq (significand_lt x) (exponent_eq_zero_or x)
  have hfinite : x.magnitude < infinityMagnitude := of_decide_eq_true hx
  simp only [ofUnits, Nat.div_one, Nat.one_mul, twoPow_eq, units_eq, hshift]
  rw [roundHalfEven_mul _ (by positivity), exponent_mul_add_significand, if_pos hfinite]

theorem isNegative_ofUnits (negative : Bool) (num den : Nat) :
    (ofUnits negative num den).isNegative = negative := by
  simp only [ofUnits]
  split
  · rename_i hlt
    exact isNegative_ofMagnitude (Nat.lt_trans hlt (by decide))
  · exact isNegative_ofMagnitude (by decide)

/-- A result of at most 53 digits is not rounded. -/
theorem units_ofUnits_of_dvd (h : num < 2 ^ rangePower) (hdvd : 2 ^ (Nat.log2 num - 52) ∣ num) :
    (ofUnits negative num 1).units = num := by
  have hplace : 0 < 2 ^ (Nat.log2 num - 52) := by positivity
  rw [units_ofUnits (by rwa [Nat.one_mul]), Nat.div_one, Nat.one_mul]
  generalize 2 ^ (Nat.log2 num - 52) = place at hdvd hplace ⊢
  obtain ⟨q, rfl⟩ := hdvd
  rw [Nat.mul_comm place q, roundHalfEven_mul q hplace]

/-! ### Integers -/

theorem truncate_eq (x : Number) :
    x.truncate =
      if x.isNegative then -((x.units / unitsPerOne : Nat) : Int)
      else (x.units / unitsPerOne : Nat) :=
  rfl

theorem natAbs_truncate (x : Number) : x.truncate.natAbs = x.units / unitsPerOne := by
  rw [truncate_eq]
  split
  · rw [Int.natAbs_neg, Int.natAbs_natCast]
  · rw [Int.natAbs_natCast]

/-- **The integer that a whole number is stands for that number**, whatever its size. -/
theorem ofInt_truncate (h : x.isWhole = true) : ofInt x.truncate = x.withoutNegativeZero := by
  obtain ⟨hfinite, hwhole⟩ : x.isFinite = true ∧ x.units % unitsPerOne = 0 := by
    simpa [isWhole] using h
  have hunits : x.truncate.natAbs * unitsPerOne = x.units := by
    rw [natAbs_truncate]
    exact Nat.div_mul_cancel (Nat.dvd_of_mod_eq_zero hwhole)
  rw [ofInt, hunits, ofUnits_units hfinite, withoutNegativeZero]
  by_cases hzero : x.isZero = true
  · have hnone : x.units = 0 := units_eq_zero_iff.2 hzero
    have htruncate : x.truncate = 0 := by
      rw [← Int.natAbs_eq_zero, natAbs_truncate, hnone, Nat.zero_div]
    have hmagnitude : x.magnitude = 0 := of_decide_eq_true hzero
    rw [if_pos hzero, htruncate, hmagnitude]
    rfl
  · -- the sign is that of the number, since its integer is not zero
    have hsign : decide (x.truncate < 0) = x.isNegative := by
      have hpos : 0 < x.units / unitsPerOne := by
        rw [← natAbs_truncate, Nat.pos_iff_ne_zero]
        intro hnone
        rw [hnone, Nat.zero_mul] at hunits
        exact hzero (units_eq_zero_iff.1 hunits.symm)
      rw [truncate_eq]
      cases x.isNegative with
      | false =>
        rw [if_neg Bool.false_ne_true]
        exact decide_eq_false (Int.not_lt.2 (Int.natCast_nonneg _))
      | true =>
        rw [if_pos rfl]
        exact decide_eq_true (Int.neg_neg_of_pos (Int.natCast_pos.2 hpos))
    rw [if_neg hzero, hsign, ofMagnitude_magnitude]

theorem ofInt_of_wholeBelow? {i : Int} (h : x.wholeBelow? bound = some i) :
    ofInt i = x.withoutNegativeZero := by
  unfold wholeBelow? at h
  split at h
  · rename_i hwhole
    rw [← Option.some.inj h]
    exact ofInt_truncate (Bool.and_eq_true_iff.1 hwhole).1
  · cases h

theorem natAbs_lt_of_wholeBelow? {i : Int} (h : x.wholeBelow? bound = some i) :
    i.natAbs < bound := by
  unfold wholeBelow? at h
  split at h
  · rename_i hwhole
    rw [← Option.some.inj h]
    exact of_decide_eq_true (Bool.and_eq_true_iff.1 hwhole).2
  · cases h

theorem wholeBelow?_eq_none_iff :
    x.wholeBelow? bound = none ↔ ¬ (x.isWhole = true ∧ x.truncate.natAbs < bound) := by
  rw [← decide_eq_true_iff (p := x.truncate.natAbs < bound), ← Bool.and_eq_true, wholeBelow?]
  split
  · rename_i h
    exact iff_of_false (Option.some_ne_none _) (not_not_intro h)
  · rename_i h
    exact iff_of_true rfl h

/-- The zeros are whole, so a number that is not written as an integer is none of them. -/
theorem isZero_eq_false_of_wholeBelow? (hbound : 0 < bound) (h : x.wholeBelow? bound = none) :
    x.isZero = false := by
  rw [Bool.eq_false_iff]
  intro hzero
  refine wholeBelow?_eq_none_iff.1 h ?_
  have hunits : x.units = 0 := units_eq_zero_iff.2 hzero
  have hmagnitude : x.magnitude = 0 := of_decide_eq_true hzero
  constructor
  · rw [isWhole, isFinite, hunits, hmagnitude, Nat.zero_mod]
    rfl
  · rwa [natAbs_truncate, hunits, Nat.zero_div]

theorem withoutNegativeZero_eq_self (hbound : 0 < bound) (h : x.wholeBelow? bound = none) :
    x.withoutNegativeZero = x :=
  if_neg (Bool.eq_false_iff.1 (isZero_eq_false_of_wholeBelow? hbound h))

theorem pow_dvd_unitsPerOne (h : n ≤ 1074) : 2 ^ n ∣ unitsPerOne := by
  rw [unitsPerOne_eq]
  exact pow_dvd_pow 2 h

theorem natAbs_mul_lt {i : Int} (h : i.natAbs < 2 ^ 53) :
    i.natAbs * unitsPerOne < 1 * 2 ^ (53 + 1074) :=
  ofNat_lt h

theorem isFinite_ofInt {i : Int} (h : i.natAbs < 2 ^ 53) : (ofInt i).isFinite = true :=
  isFinite_ofUnits (by decide) (natAbs_mul_lt h)

/-- **An integer of 53 binary digits is a number.** -/
theorem units_ofInt {i : Int} (h : i.natAbs < 2 ^ 53) :
    (ofInt i).units = i.natAbs * unitsPerOne := by
  have hlt := natAbs_mul_lt h
  have hshift := log2_sub_le hlt
  rw [Nat.div_one, Nat.add_sub_cancel_left] at hshift
  refine units_ofUnits_of_dvd ?_ ?_
  · have hrange := lt_range (by decide) hlt
    rwa [Nat.one_mul] at hrange
  · -- the places that are dropped are among those of a whole number
    exact Dvd.dvd.mul_left (pow_dvd_unitsPerOne hshift) _

theorem truncate_ofInt {i : Int} (h : i.natAbs < 2 ^ 53) : (ofInt i).truncate = i := by
  have hsign : (ofInt i).isNegative = decide (i < 0) := isNegative_ofUnits _ _ _
  rw [truncate_eq, units_ofInt h, Nat.mul_div_cancel _ unitsPerOne_pos, hsign]
  by_cases hi : i < 0
  · rw [decide_eq_true hi, if_pos rfl]
    omega
  · rw [decide_eq_false hi, if_neg Bool.false_ne_true]
    omega

/-- A small integer is read off the number that it is. -/
theorem wholeBelow?_ofInt {i : Int} (hbound : bound ≤ 2 ^ 53) (h : i.natAbs < bound) :
    (ofInt i).wholeBelow? bound = some i := by
  have hi : i.natAbs < 2 ^ 53 := Nat.lt_of_lt_of_le h hbound
  have hwhole : (ofInt i).isWhole = true := by
    rw [isWhole, isFinite_ofInt hi, units_ofInt hi, Nat.mul_mod_left]
    rfl
  rw [wholeBelow?, hwhole, truncate_ofInt hi, decide_eq_true h]
  rfl

/-- Integers in files are small enough to be numbers. -/
theorem integerBound_le : integerBound ≤ 2 ^ 53 := by decide

end Number

end MetadataRules
