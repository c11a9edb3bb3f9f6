/-
MetadataRules/Proofs/Number/Range.lean

How large a rounded result is.

Sizes are measured in powers of two, which are numbers themselves: what lies
below `2 ^ k` units rounds to at most `2 ^ k` units, and what does not lie below
it to at least `2 ^ k` (`isWithin_ofUnits`, `le_units_ofUnits`).  So a bound is
carried through a chain of rounded operations by adding exponents.

Where sums in decimal are finite, a number that is stepped leaves the range of
numbers only where the sum of the binary numbers does (`isFinite_stepBy`).
-/
import Mathlib.Tactic.Positivity
import Mathlib.Tactic.Ring
import MetadataRules.Number.Step

namespace MetadataRules

namespace Number

variable {num den n k shift r : Nat} {negative : Bool}

theorem twoPow_eq (n : Nat) : twoPow n = 2 ^ n := rfl

theorem binade_eq : binade = 4503599627370496 := rfl

/-- The absolute value is at most `2 ^ k` units. -/
def IsWithin (x : Number) (k : Nat) : Prop := x.units ≤ 2 ^ k

theorem IsWithin.mono {x : Number} {l : Nat} (h : x.IsWithin k) (hkl : k ≤ l) : x.IsWithin l :=
  Nat.le_trans h (Nat.pow_le_pow_right (by decide) hkl)

/-- An exact result below this power of two, in units, is a finite number when it is rounded. -/
def rangePower : Nat := 2097

/-! ### Rounding to an integer -/

theorem roundHalfEven_le (h : num < den * n) : roundHalfEven num den ≤ n := by
  have hq : num / den < n := Nat.div_lt_of_lt_mul h
  simp only [roundHalfEven]
  split
  · omega
  · split <;> omega

theorem le_roundHalfEven (hden : 0 < den) (h : den * n ≤ num) : n ≤ roundHalfEven num den := by
  have hq : n ≤ num / den := (Nat.le_div_iff_mul_le hden).2 (Nat.mul_comm den n ▸ h)
  simp only [roundHalfEven]
  split
  · exact hq
  · split <;> omega

/-! ### Rounding to a number -/

/-- The units of a number that is put together from a power of two and 53 digits. -/
theorem units_ofMagnitude (hr : r ≤ 2 * binade) (hshift : shift = 0 ∨ binade ≤ r)
    (hlt : shift * binade + r < signBit) :
    (ofMagnitude negative (shift * binade + r)).units = r * 2 ^ shift := by
  rw [units, significand, exponent, magnitude_ofMagnitude hlt, twoPow_eq]
  rw [binade_eq] at *
  by_cases htop : r = 2 * 4503599627370496
  · -- the digits have carried into the next power of two
    subst htop
    have hquot : (shift * 4503599627370496 + 2 * 4503599627370496) / 4503599627370496 - 1 =
        shift + 1 := by omega
    rw [hquot, pow_succ]
    have hdigits : shift * 4503599627370496 + 2 * 4503599627370496 -
        (shift + 1) * 4503599627370496 = 4503599627370496 := by omega
    rw [hdigits]
    ring
  · have hquot : (shift * 4503599627370496 + r) / 4503599627370496 - 1 = shift := by omega
    rw [hquot, Nat.add_sub_cancel_left]

/-- The power of two that the last place of a result is worth. -/
theorem log2_sub_le (h : num < den * 2 ^ k) : Nat.log2 (num / den) - 52 ≤ k - 53 := by
  have hq : num / den < 2 ^ k := Nat.div_lt_of_lt_mul h
  by_cases hzero : num / den = 0
  · rw [hzero]
    exact Nat.zero_le _
  · have hlog := (Nat.log2_lt hzero).2 hq
    omega

/-- A result within the range of numbers: 53 digits times a power of two. -/
theorem ofUnits_eq (negative : Bool) (h : num < den * 2 ^ rangePower) :
    let shift := Nat.log2 (num / den) - 52
    let r := roundHalfEven num (den * 2 ^ shift)
    r ≤ 2 * binade ∧ (shift = 0 ∨ binade ≤ r) ∧ shift ≤ 2044 ∧
      ofUnits negative num den = ofMagnitude negative (shift * binade + r) := by
  intro shift r
  have hden : 0 < den := by
    rcases Nat.eq_zero_or_pos den with rfl | hden
    · rw [Nat.zero_mul] at h
      exact absurd h (Nat.not_lt_zero _)
    · exact hden
  have hshift : shift ≤ 2044 := log2_sub_le h
  -- the shift leaves 53 digits of the quotient, or all of them if there are fewer
  have hr : r ≤ 2 * binade := by
    refine roundHalfEven_le ?_
    have hq : num / den < 2 ^ (Nat.log2 (num / den) + 1) := Nat.lt_log2_self
    have hexp : Nat.log2 (num / den) + 1 ≤ shift + 53 := by omega
    have hle : num / den < 2 ^ (shift + 53) :=
      Nat.lt_of_lt_of_le hq (Nat.pow_le_pow_right (by decide) hexp)
    rw [Nat.div_lt_iff_lt_mul hden, pow_add] at hle
    rw [binade_eq]
    calc num < 2 ^ shift * 2 ^ 53 * den := hle
      _ = den * 2 ^ shift * (2 * 4503599627370496) := by ring
  have hlow : shift = 0 ∨ binade ≤ r := by
    rcases Nat.eq_zero_or_pos shift with hzero | hpos
    · exact .inl hzero
    · right
      refine le_roundHalfEven (Nat.mul_pos hden (by positivity)) ?_
      have hne : num / den ≠ 0 := by
        intro hzero
        have hnone : shift = 0 := by simp only [shift, hzero, Nat.log2_zero, Nat.zero_sub]
        omega
      have hq : 2 ^ (Nat.log2 (num / den)) ≤ num / den := Nat.log2_self_le hne
      have hexp : Nat.log2 (num / den) = shift + 52 := by omega
      rw [hexp, pow_add, Nat.le_div_iff_mul_le hden] at hq
      rw [binade_eq]
      calc den * 2 ^ shift * 4503599627370496 = 2 ^ shift * 2 ^ 52 * den := by ring
        _ ≤ num := hq
  refine ⟨hr, hlow, hshift, ?_⟩
  have hlt : shift * binade + r < infinityMagnitude := by
    rw [infinityMagnitude]
    rw [binade_eq] at *
    omega
  exact if_pos hlt

theorem lt_range (hk : k ≤ rangePower) (h : num < den * 2 ^ k) : num < den * 2 ^ rangePower :=
  Nat.lt_of_lt_of_le h (Nat.mul_le_mul_left _ (Nat.pow_le_pow_right (by decide) hk))

theorem isNaN_eq_false_of_isFinite {x : Number} (h : x.isFinite = true) : x.isNaN = false :=
  decide_eq_false (Nat.not_lt_of_lt (of_decide_eq_true h))

theorem isInfinite_eq_false_of_isFinite {x : Number} (h : x.isFinite = true) :
    x.isInfinite = false :=
  decide_eq_false (Nat.ne_of_lt (of_decide_eq_true h))

theorem isFinite_ofMagnitude {m : Nat} (h : m < infinityMagnitude) :
    (ofMagnitude negative m).isFinite = true := by
  have hlt : m < signBit := Nat.lt_trans h (by decide)
  rw [isFinite, magnitude_ofMagnitude hlt]
  exact decide_eq_true h

theorem isFinite_ofUnits (hk : k ≤ rangePower) (h : num < den * 2 ^ k) :
    (ofUnits negative num den).isFinite = true := by
  obtain ⟨hr, -, hshift, heq⟩ := ofUnits_eq negative (lt_range hk h)
  rw [heq]
  apply isFinite_ofMagnitude
  rw [infinityMagnitude]
  rw [binade_eq] at *
  omega

theorem units_ofUnits (h : num < den * 2 ^ rangePower) :
    (ofUnits negative num den).units =
      roundHalfEven num (den * 2 ^ (Nat.log2 (num / den) - 52)) *
        2 ^ (Nat.log2 (num / den) - 52) := by
  obtain ⟨hr, hlow, hshift, heq⟩ := ofUnits_eq negative h
  rw [heq]
  refine units_ofMagnitude hr hlow ?_
  rw [signBit_eq]
  rw [binade_eq] at *
  omega

/-- **What lies below a power of two does not round past it.** -/
theorem isWithin_ofUnits (hk : k ≤ rangePower) (h : num < den * 2 ^ k) :
    (ofUnits negative num den).IsWithin k := by
  rw [IsWithin, units_ofUnits (lt_range hk h)]
  have hshift : Nat.log2 (num / den) - 52 ≤ k := Nat.le_trans (log2_sub_le h) (Nat.sub_le _ _)
  generalize Nat.log2 (num / den) - 52 = shift at hshift ⊢
  -- the bound is a whole number of last places
  have hsplit : 2 ^ k = 2 ^ (k - shift) * 2 ^ shift := by
    rw [← pow_add, Nat.sub_add_cancel hshift]
  rw [hsplit] at h ⊢
  refine Nat.mul_le_mul_right _ (roundHalfEven_le ?_)
  rwa [Nat.mul_assoc, Nat.mul_comm (2 ^ shift)]

/-- **What does not lie below a power of two does not round below it.** -/
theorem le_units_ofUnits (hden : 0 < den) (hrange : num < den * 2 ^ rangePower)
    (h : den * 2 ^ k ≤ num) : 2 ^ k ≤ (ofUnits negative num den).units := by
  obtain ⟨-, hlow, -, -⟩ := ofUnits_eq negative hrange
  rw [units_ofUnits hrange]
  generalize Nat.log2 (num / den) - 52 = shift at hlow ⊢
  rcases Nat.lt_or_ge k shift with hlt | hle
  · -- the last place alone is worth more
    have hpow : 2 ^ k ≤ 2 ^ shift := Nat.pow_le_pow_right (by decide) (Nat.le_of_lt hlt)
    have hr := hlow.resolve_left (Nat.ne_zero_of_lt hlt)
    exact Nat.le_trans hpow (Nat.le_mul_of_pos_left _ (Nat.lt_of_lt_of_le (by decide) hr))
  · have hsplit : 2 ^ k = 2 ^ (k - shift) * 2 ^ shift := by
      rw [← pow_add, Nat.sub_add_cancel hle]
    rw [hsplit] at h ⊢
    refine Nat.mul_le_mul_right _ (le_roundHalfEven (by positivity) ?_)
    rwa [Nat.mul_assoc, Nat.mul_comm (2 ^ shift)]

/-! ### Whole numbers -/

theorem unitsPerOne_eq : unitsPerOne = 2 ^ 1074 := twoPow_eq 1074

theorem unitsPerOne_pos : 0 < unitsPerOne := by
  rw [unitsPerOne_eq]
  positivity

theorem ofNat_lt (h : n < 2 ^ k) : n * unitsPerOne < 1 * 2 ^ (k + 1074) := by
  rw [Nat.one_mul, pow_add, ← unitsPerOne_eq]
  exact Nat.mul_lt_mul_of_pos_right h unitsPerOne_pos

theorem isFinite_ofNat (hk : k ≤ 1023) (h : n < 2 ^ k) : (ofNat n).isFinite = true :=
  isFinite_ofUnits (Nat.add_le_add_right hk 1074) (ofNat_lt h)

theorem isWithin_ofNat (hk : k ≤ 1023) (h : n < 2 ^ k) : (ofNat n).IsWithin (k + 1074) :=
  isWithin_ofUnits (Nat.add_le_add_right hk 1074) (ofNat_lt h)

theorem le_units_ofNat (hpos : 0 < n) (hk : k ≤ 1023) (h : n < 2 ^ k) :
    unitsPerOne ≤ (ofNat n).units := by
  have hrange := lt_range (Nat.add_le_add_right hk 1074) (ofNat_lt h)
  have hle : 1 * 2 ^ 1074 ≤ n * unitsPerOne := by
    rw [Nat.one_mul, ← unitsPerOne_eq]
    exact Nat.le_mul_of_pos_left _ hpos
  rw [unitsPerOne_eq]
  exact le_units_ofUnits Nat.one_pos hrange hle

/-! ### Sums, products and quotients -/

variable {x y : Number} {a b : Nat}

theorem natAbs_scaled (x : Number) : x.scaled.natAbs = x.units := by
  rw [scaled]
  split <;> omega

/-- A sum of finite numbers is rounded from at most the sum of their sizes. -/
theorem addFinite_lt (hx : x.IsWithin k) (hy : y.IsWithin k) :
    (x.scaled + y.scaled).natAbs < 1 * 2 ^ (k + 2) := by
  have habs := Int.natAbs_add_le x.scaled y.scaled
  rw [natAbs_scaled, natAbs_scaled] at habs
  rw [IsWithin] at hx hy
  have hpos : 0 < 2 ^ k := by positivity
  rw [Nat.one_mul, pow_add]
  omega

theorem isWithin_addFinite (hk : k + 2 ≤ rangePower) (hx : x.IsWithin k) (hy : y.IsWithin k) :
    (x.addFinite y).IsWithin (k + 2) := by
  simp only [addFinite]
  split
  · rw [IsWithin, units, significand, magnitude_ofMagnitude (by decide), Nat.zero_sub,
      Nat.zero_mul]
    exact Nat.zero_le _
  · exact isWithin_ofUnits hk (addFinite_lt hx hy)

theorem isWithin_mulAbs (h : a + b + 1 ≤ rangePower) (hx : x.IsWithin a)
    (hy : y.IsWithin (b + 1074)) : (x.mulAbs y).IsWithin (a + b + 1) := by
  refine isWithin_ofUnits h ?_
  have hpos : 0 < 2 ^ (a + b) * unitsPerOne := Nat.mul_pos (by positivity) unitsPerOne_pos
  calc x.units * y.units ≤ 2 ^ a * 2 ^ (b + 1074) := Nat.mul_le_mul hx hy
    _ = 2 ^ (a + b) * unitsPerOne := by rw [unitsPerOne_eq, ← pow_add, ← pow_add, Nat.add_assoc]
    _ < 2 * (2 ^ (a + b) * unitsPerOne) := by omega
    _ = unitsPerOne * 2 ^ (a + b + 1) := by rw [pow_succ (n := a + b)]; ring

theorem divAbs_lt (hx : x.IsWithin a) (hy : unitsPerOne ≤ y.units) :
    x.units * unitsPerOne < y.units * 2 ^ (a + 1) := by
  have hpos : 0 < y.units := Nat.lt_of_lt_of_le unitsPerOne_pos hy
  calc x.units * unitsPerOne ≤ 2 ^ a * y.units := Nat.mul_le_mul hx hy
    _ < 2 ^ (a + 1) * y.units :=
        Nat.mul_lt_mul_of_pos_right (Nat.pow_lt_pow_right (by decide) (Nat.lt_succ_self a)) hpos
    _ = y.units * 2 ^ (a + 1) := Nat.mul_comm _ _

theorem isWithin_divAbs (ha : a + 1 ≤ rangePower) (hx : x.IsWithin a)
    (hy : unitsPerOne ≤ y.units) : (x.divAbs y).IsWithin (a + 1) :=
  isWithin_ofUnits ha (divAbs_lt hx hy)

theorem isFinite_divAbs (ha : a + 1 ≤ rangePower) (hx : x.IsWithin a)
    (hy : unitsPerOne ≤ y.units) : (x.divAbs y).isFinite = true :=
  isFinite_ofUnits ha (divAbs_lt hx hy)

theorem isWithin_roundAbs (ha : a + 1 ≤ 1023) (hx : x.IsWithin (a + 1074)) :
    x.roundAbs.IsWithin (a + 1 + 1074) := by
  refine isWithin_ofNat ha ?_
  rw [IsWithin, pow_add, ← unitsPerOne_eq] at hx
  rw [roundHalfUp, Nat.div_lt_iff_lt_mul (Nat.mul_pos Nat.two_pos unitsPerOne_pos), pow_succ]
  have hpos : 0 < 2 ^ a := by positivity
  have hone : unitsPerOne ≤ 2 ^ a * unitsPerOne := Nat.le_mul_of_pos_left _ hpos
  have hunits := unitsPerOne_pos
  calc 2 * x.units + unitsPerOne ≤ 3 * (2 ^ a * unitsPerOne) := by omega
    _ < 4 * (2 ^ a * unitsPerOne) := by omega
    _ = 2 ^ a * 2 * (2 * unitsPerOne) := by ring

theorem isFinite_neg (h : x.isFinite = true) : (-x).isFinite = true :=
  isFinite_ofMagnitude (of_decide_eq_true h)

/-! ### Stepping a number -/

/-- **A number that is stepped stays finite where the binary sum does**, if decimal sums are
finite. -/
theorem isFinite_stepBy [Decimals] (hsums : Decimals.SumsFinite) {current amount : Number}
    (h : (current.add amount).isFinite = true) : (current.stepBy amount).isFinite = true := by
  rw [stepBy]
  split
  · rename_i sum hsum
    exact hsums current amount sum hsum
  · exact h

end Number

end MetadataRules
