/-
MetadataRules/Proofs/Number/Text.lean

Digits that are written and read again.

The digits of a natural number stand for it again.  With its point written a
decimal keeps its digits, and zeros stand in front of them or behind them
(`Decimal.digitsValue_positional`), so the shortest decimal of a number is
rounded to the number when it is read (`Number.ofDigits_shortest`).
-/
import MetadataRules.Number.Reader
import MetadataRules.Proofs.Number.Shortest

namespace MetadataRules

/-! ### Digits -/

theorem isDigit_of_mem_natDigits {n : Nat} {c : Char} (h : c ∈ natDigits n) : isDigit c = true := by
  have hc := Nat.isDigit_of_mem_toDigits (by decide) (by decide) h
  simp only [Char.isDigit, Bool.and_eq_true, decide_eq_true_eq] at hc
  simp only [isDigit, Bool.and_eq_true, decide_eq_true_eq, Char.le_def]
  exact hc

theorem natDigits_ne_nil (n : Nat) : natDigits n ≠ [] := Nat.toDigits_ne_nil

theorem digitsValue_natDigits (n : Nat) : digitsValue (natDigits n) = n :=
  Nat.ofDigitChars_toDigits (by decide) (by decide)

/-- A digit is no sign. -/
theorem splitSign_of_isDigit {d : Char} (h : isDigit d = true) (cs : List Char) :
    splitSign (d :: cs) = (false, d :: cs) := by
  have hminus : d ≠ '-' := by
    rintro rfl
    cases h
  have hplus : d ≠ '+' := by
    rintro rfl
    cases h
  simp [splitSign, hminus, hplus]

/-- The digits of a number below a power of ten. -/
theorem length_natDigits_le {n k : Nat} (hk : 0 < k) (h : n < 10 ^ k) :
    (natDigits n).length ≤ k :=
  (Nat.length_toDigits_le_iff (by decide) hk).2 h

/-! ### Decimals -/

namespace Decimal

variable (d : Decimal)

/-- Zeros in front of the digits are all that a point adds to them. -/
theorem wholeDigits_append_fractionDigits (h : d.exponent < 0) :
    ∃ n, d.wholeDigits ++ d.fractionDigits = List.replicate n '0' ++ natDigits d.digits := by
  have hplaces : ¬0 ≤ d.exponent := Int.not_le.2 h
  simp only [wholeDigits, fractionDigits, if_neg hplaces]
  generalize natDigits d.digits = digits
  generalize (-d.exponent).toNat = places
  split
  · rename_i hnone
    refine ⟨places - digits.length + 1, ?_⟩
    rw [hnone, List.drop_zero]
    rfl
  · rename_i hsome
    have hzeros : places - digits.length = 0 := by omega
    refine ⟨0, ?_⟩
    rw [hzeros, List.replicate_zero, List.nil_append, List.nil_append, List.take_append_drop]

theorem length_fractionDigits : d.fractionDigits.length = (-d.exponent).toNat := by
  by_cases h : 0 ≤ d.exponent
  · rw [fractionDigits, if_pos h, List.length_nil]
    omega
  · simp only [fractionDigits, if_neg h, List.length_append, List.length_replicate,
      List.length_drop]
    omega

/-- **The digits around the point stand for the decimal**, places of the fraction apart. -/
theorem digitsValue_positional : digitsValue (d.wholeDigits ++ d.fractionDigits) = d.num := by
  rw [num]
  by_cases h : 0 ≤ d.exponent
  · rw [wholeDigits, fractionDigits, if_pos h, if_pos h, List.append_nil]
    calc digitsValue (natDigits d.digits ++ List.replicate d.exponent.toNat '0')
        = Nat.ofDigitChars 10 (List.replicate d.exponent.toNat '0')
            (digitsValue (natDigits d.digits)) := Nat.ofDigitChars_append 0
      _ = 10 ^ d.exponent.toNat * digitsValue (natDigits d.digits) :=
          Nat.ofDigitChars_replicate_zero
      _ = d.digits * 10 ^ d.exponent.toNat := by rw [digitsValue_natDigits, Nat.mul_comm]
  · have hnone : d.exponent.toNat = 0 := by omega
    obtain ⟨n, hn⟩ := d.wholeDigits_append_fractionDigits (Int.not_le.1 h)
    rw [hn, hnone, pow_zero, Nat.mul_one]
    calc digitsValue (List.replicate n '0' ++ natDigits d.digits)
        = Nat.ofDigitChars 10 (natDigits d.digits)
            (Nat.ofDigitChars 10 (List.replicate n '0') 0) := Nat.ofDigitChars_append 0
      _ = digitsValue (natDigits d.digits) := by
          rw [Nat.ofDigitChars_replicate_zero, Nat.mul_zero]
          rfl
      _ = d.digits := digitsValue_natDigits d.digits

theorem isDigit_of_mem_positional {c : Char} (h : c ∈ d.wholeDigits ++ d.fractionDigits) :
    isDigit c = true := by
  have hzero {n : Nat} (h : c ∈ List.replicate n '0') : isDigit c = true := by
    rw [List.eq_of_mem_replicate h]
    decide
  by_cases hexponent : 0 ≤ d.exponent
  · rw [wholeDigits, fractionDigits, if_pos hexponent, if_pos hexponent, List.append_nil] at h
    exact (List.mem_append.1 h).elim isDigit_of_mem_natDigits hzero
  · obtain ⟨n, hn⟩ := d.wholeDigits_append_fractionDigits (Int.not_le.1 hexponent)
    rw [hn] at h
    exact (List.mem_append.1 h).elim hzero isDigit_of_mem_natDigits

theorem wholeDigits_ne_nil : d.wholeDigits ≠ [] := by
  simp only [wholeDigits]
  split
  · exact List.append_ne_nil_of_left_ne_nil (natDigits_ne_nil _) _
  · split
    · exact List.cons_ne_nil _ _
    · rename_i hsome
      exact fun h => (List.take_eq_nil_iff.1 h).elim hsome (natDigits_ne_nil _)

end Decimal

namespace Number

variable {x : Number} {i : Int}

/-! ### Rounding -/

/-- A decimal that is neither too large nor too small is rounded. -/
theorem ofDecimal_eq_ofUnits {digits places : Nat} (negative : Bool) (hpos : 0 < digits)
    (hplaces : places ≤ 400) (hdigits : digits < 10 ^ (400 + places)) :
    ofDecimal negative digits (-(places : Int)) =
      ofUnits negative (digits * unitsPerOne) (10 ^ places) := by
  have hlength : (Nat.toDigits 10 digits).length ≤ 400 + places :=
    length_natDigits_le (by omega) hdigits
  simp only [ofDecimal]
  rw [if_neg (by omega), if_neg (by omega)]
  split
  · have hnone : places = 0 := by omega
    subst hnone
    show ofUnits _ (digits * 1 * unitsPerOne) 1 = _
    rw [Nat.mul_one, pow_zero]
  · rw [Int.neg_neg, Int.toNat_natCast]
    rfl

/-! ### Integers -/

/-- The digits of an integer stand for the number that it is rounded to. -/
theorem ofDigits_natAbs (h : i.natAbs < 10 ^ 400) :
    ofDigits (decide (i < 0)) (natDigits i.natAbs) [] 0 = ofInt i := by
  rw [ofDigits, List.append_nil, digitsValue_natDigits]
  by_cases hzero : i = 0
  · subst hzero
    decide +kernel
  · have hround : ofDecimal (decide (i < 0)) i.natAbs (-(0 : Nat)) =
        ofUnits (decide (i < 0)) (i.natAbs * unitsPerOne) (10 ^ 0) :=
      ofDecimal_eq_ofUnits _ (Int.natAbs_pos.2 hzero) (Nat.zero_le _) (by rwa [Nat.add_zero])
    exact hround

theorem position?_withoutNegativeZero (h : x.isWhole = true) :
    x.withoutNegativeZero.position? = x.position? := by
  rw [withoutNegativeZero]
  split
  · rename_i hzero
    have hunits : x.units = 0 := units_eq_zero_iff.2 hzero
    have htruncate : x.truncate = 0 := by
      rw [← Int.natAbs_eq_zero, natAbs_truncate, hunits, Nat.zero_div]
    have hfirst : zero.position? = some 0 := by decide +kernel
    rw [hfirst, position?, if_pos h, htruncate]
    rfl
  · rfl

/-- **The position that a number stands for is read again as itself**, though the number beyond
the last position is another one. -/
theorem position?_ofInt (h : x.position? = some i) : (ofInt i).position? = some i := by
  have hposition := h
  unfold position? at h
  split at h
  · rename_i hwhole
    have hi := Option.some.inj h
    by_cases hbelow : x.truncate < -positionBound
    · have hlast : i = -positionBound := by omega
      subst hlast
      decide +kernel
    · by_cases habove : positionBound - 1 < x.truncate
      · have hlast : i = positionBound - 1 := by
          have hbound : positionBound = 9223372036854775808 := rfl
          omega
        subst hlast
        decide +kernel
      · have hsame : i = x.truncate := by omega
        rw [hsame, ofInt_truncate hwhole, position?_withoutNegativeZero hwhole, hposition, hsame]
  · cases h

/-- Positions have few digits. -/
theorem natAbs_lt_of_position? (h : x.position? = some i) : i.natAbs < 10 ^ 400 := by
  have hbound : positionBound = 9223372036854775808 := rfl
  have hle : i.natAbs ≤ 9223372036854775808 := by
    unfold position? at h
    split at h
    · have hi := Option.some.inj h
      omega
    · cases h
  exact Nat.lt_of_le_of_lt hle (by decide +kernel)

/-! ### Decimals -/

/-- A decimal close to a number is not too large. -/
theorem num_lt_of_isHit (hx : x.isFinite = true) {d : Decimal} (h : x.interval.IsHit d) :
    d.num < 10 ^ 400 * d.den := by
  have hsignificand : 4 * x.significand + 2 ≤ 2 ^ 56 := by
    have hlt := significand_lt x
    rw [binade_eq] at hlt
    omega
  have hhigh : x.interval.high ≤ 4 * unitsPerOne * 2 ^ 1025 := by
    calc x.interval.high
        = 4 * (x.significand * 2 ^ x.exponent) + 2 * 2 ^ x.exponent := by rw [← units_eq]; rfl
      _ = (4 * x.significand + 2) * 2 ^ x.exponent := by ring
      _ ≤ 2 ^ 56 * 2 ^ 2045 :=
          Nat.mul_le_mul hsignificand
            (Nat.pow_le_pow_right (by decide) (Nat.le_of_lt_succ (exponent_lt hx)))
      _ = 4 * unitsPerOne * 2 ^ 1025 := by decide +kernel
  have hnum : d.num ≤ 2 ^ 1025 * d.den := by
    refine Nat.le_of_mul_le_mul_left ?_ (Nat.mul_pos (by decide : 0 < 4) unitsPerOne_pos)
    calc 4 * unitsPerOne * d.num = 4 * (d.num * unitsPerOne) := by ring
      _ ≤ x.interval.high * d.den := h.contains.high
      _ ≤ 4 * unitsPerOne * 2 ^ 1025 * d.den := Nat.mul_le_mul_right _ hhigh
      _ = 4 * unitsPerOne * (2 ^ 1025 * d.den) := Nat.mul_assoc _ _ _
  exact Nat.lt_of_le_of_lt hnum (Nat.mul_lt_mul_of_pos_right (by decide +kernel) d.den_pos)

/-- **The digits of the shortest decimal of a number are rounded to the number.** -/
theorem ofDigits_shortest (tie : Tie) (negative : Bool) (hx : x.isFinite = true)
    (hzero : x.isZero = false) :
    ofDigits negative (x.shortest tie).wholeDigits (x.shortest tie).fractionDigits 0 =
      ofMagnitude negative x.magnitude := by
  obtain ⟨hhit, hexponent⟩ := isHit_shortest tie hx hzero
  generalize x.shortest tie = d at hhit hexponent
  have hplaces : (-d.exponent).toNat ≤ 400 := by
    rw [topExponent] at hexponent
    omega
  have hpos : 0 < d.num := Nat.mul_pos hhit.pos (by positivity)
  have hdigits : d.num < 10 ^ (400 + (-d.exponent).toNat) := by
    rw [pow_add]
    exact num_lt_of_isHit hx hhit
  rw [ofDigits, d.digitsValue_positional, d.length_fractionDigits, Int.zero_sub,
    ofDecimal_eq_ofUnits negative hpos hplaces hdigits]
  exact ofUnits_of_contains hx d.den_pos hhit.contains

end Number

end MetadataRules
