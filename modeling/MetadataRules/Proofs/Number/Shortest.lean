/-
MetadataRules/Proofs/Number/Shortest.lean

Shortest decimals stand for their numbers.

The interval of a number holds the points that round to it: `Interval.Contains`
says that a quotient lies in it, and `Number.ofUnits_of_contains` that every such
quotient is rounded to the number.  Below a power of two the quotient is rounded
in the finer steps of the numbers there, and comes out as the power of two.

The search for a decimal ends with a hit.  A grid with a step below half of the
interval has a point right above the number, and the last grid that is tried has
such a step (`Number.exists_atExponent?`); all of it is a comparison of powers of
ten and of two, for which `ten_pow_le` and `le_ten_pow` are exact enough.
-/
import MetadataRules.Number.Shortest
import MetadataRules.Proofs.Number.Whole

namespace MetadataRules

/-! ### Powers of ten and of two -/

/-- Three powers of ten are a little less than ten powers of two. -/
theorem ten_pow_le (n : Nat) : 10 ^ n ≤ 2 ^ (10 * n / 3 + 1) := by
  have hfirst : ∀ n < 3, 10 ^ n ≤ 2 ^ (10 * n / 3 + 1) := by decide
  induction n using Nat.strong_induction_on with
  | _ n ih =>
    rcases Nat.lt_or_ge n 3 with hn | hn
    · exact hfirst n hn
    · obtain ⟨k, rfl⟩ := Nat.exists_eq_add_of_le hn
      have hexponent : 10 * (3 + k) / 3 + 1 = 10 + (10 * k / 3 + 1) := by omega
      rw [hexponent, pow_add, pow_add]
      exact Nat.mul_le_mul (by decide) (ih k (by omega))

/-- Nineteen powers of ten are a little more than `63` powers of two. -/
theorem le_ten_pow (n : Nat) : 2 ^ (63 * n / 19) ≤ 10 ^ n := by
  have hfirst : ∀ n < 19, 2 ^ (63 * n / 19) ≤ 10 ^ n := by decide
  induction n using Nat.strong_induction_on with
  | _ n ih =>
    rcases Nat.lt_or_ge n 19 with hn | hn
    · exact hfirst n hn
    · obtain ⟨k, rfl⟩ := Nat.exists_eq_add_of_le hn
      have hexponent : 63 * (19 + k) / 19 = 63 + 63 * k / 19 := by omega
      rw [hexponent, pow_add, pow_add]
      exact Nat.mul_le_mul (by decide) (ih k (by omega))

namespace Decimal

/-- A decimal as a quotient. -/
def num (d : Decimal) : Nat := d.digits * 10 ^ d.exponent.toNat

def den (d : Decimal) : Nat := 10 ^ (-d.exponent).toNat

theorem den_pos (d : Decimal) : 0 < d.den := Nat.pow_pos (by decide)

end Decimal

namespace Number

variable {x : Number} {num den n shift : Nat} {negative : Bool}

/-! ### Rounding back -/

/-- A quotient at most half a step away from an integer is rounded to it, and one that is half a
step away only to an even one. -/
theorem roundHalfEven_eq (hden : 0 < den) (hlow : 2 * (den * n) ≤ 2 * num + den)
    (hhigh : 2 * num ≤ 2 * (den * n) + den)
    (htie : n % 2 = 0 ∨ 2 * (den * n) < 2 * num + den ∧ 2 * num < 2 * (den * n) + den) :
    roundHalfEven num den = n := by
  have hdiv := Nat.div_add_mod num den
  have hmod := Nat.mod_lt num hden
  simp only [roundHalfEven]
  generalize num / den = q at hdiv
  generalize num % den = r at hdiv hmod
  obtain hlt | rfl | rfl | hgt : n < q ∨ n = q ∨ n = q + 1 ∨ q + 2 ≤ n := by omega
  · have hmul : den * (n + 1) ≤ den * q := Nat.mul_le_mul_left den hlt
    rw [Nat.mul_succ] at hmul
    omega
  · split
    · rfl
    · split <;> omega
  · rw [Nat.mul_succ] at hlow hhigh htie
    split
    · omega
    · split <;> omega
  · have hmul : den * (q + 2) ≤ den * n := Nat.mul_le_mul_left den hgt
    rw [Nat.mul_add] at hmul
    omega

/-- A quotient between two powers of two is rounded in the steps of the numbers there. -/
theorem ofUnits_eq_of_between (hden : 0 < den)
    (hlow : shift = 0 ∨ den * 2 ^ shift * binade ≤ num)
    (hhigh : num < den * 2 ^ shift * (2 * binade))
    (hround : roundHalfEven num (den * 2 ^ shift) = n)
    (hfinite : shift * binade + n < infinityMagnitude) :
    ofUnits negative num den = ofMagnitude negative (shift * binade + n) := by
  have hlog : Nat.log2 (num / den) - 52 = shift := by
    have hle : Nat.log2 (num / den) - 52 ≤ 53 + shift - 53 := by
      refine log2_sub_le ?_
      rw [pow_add]
      calc num < den * 2 ^ shift * (2 * binade) := hhigh
        _ = den * (2 ^ 53 * 2 ^ shift) := by rw [binade_eq]; ring
    rcases hlow with rfl | hlow
    · omega
    · have hquot : 2 ^ (52 + shift) ≤ num / den := by
        rw [Nat.le_div_iff_mul_le hden, pow_add]
        calc 2 ^ 52 * 2 ^ shift * den = den * 2 ^ shift * binade := by rw [binade_eq]; ring
          _ ≤ num := hlow
      have hne : num / den ≠ 0 := Nat.ne_zero_of_lt (Nat.lt_of_lt_of_le (by positivity) hquot)
      have hlog := (Nat.le_log2 hne).2 hquot
      omega
  simp only [ofUnits, hlog, twoPow_eq, hround, if_pos hfinite]

/-- A quotient, in quarters of `2 ^ -1074`, lies in an interval. -/
structure Interval.Contains (i : Interval) (num den : Nat) : Prop where
  low : i.low * den ≤ num
  high : num ≤ i.high * den
  inside : i.closed = true ∨ i.low * den < num ∧ num < i.high * den

/-- What half of a step of the last place is worth to a quotient. -/
theorem Interval.Contains.bounds (h : x.interval.Contains (4 * num) den) (hden : 0 < den) :
    let step := den * 2 ^ x.exponent
    let middle := step * x.significand
    2 * middle ≤ 2 * num + step ∧ 2 * num ≤ 2 * middle + step ∧
      (x.significand % 2 = 0 ∨ 2 * middle < 2 * num + step ∧ 2 * num < 2 * middle + step) ∧
      (x.significand = binade ∧ 0 < x.exponent → 4 * middle ≤ 4 * num + step) := by
  intro step middle
  obtain ⟨hlow, hhigh, hinside⟩ := h
  have hstep : 0 < step := Nat.mul_pos hden (by positivity)
  have hunits : 4 * x.units * den = 4 * middle := by
    rw [units_eq]
    ring
  have hone : 2 ^ x.exponent * den = step := Nat.mul_comm _ _
  have htwo : 2 * 2 ^ x.exponent * den = 2 * step := by rw [Nat.mul_assoc, hone]
  simp only [interval, twoPow_eq, Nat.sub_mul, Nat.add_mul, hunits, htwo, decide_eq_true_eq]
    at hlow hhigh hinside
  split at hlow
  · rename_i hbinade
    rw [if_pos hbinade] at hinside
    rw [hone] at hlow hinside
    omega
  · rename_i hbinade
    rw [if_neg hbinade] at hinside
    rw [htwo] at hlow hinside
    refine ⟨?_, ?_, ?_, fun h => absurd h hbinade⟩ <;> omega

/-- **Every point of the interval around a number is rounded to the number.** -/
theorem ofUnits_of_contains (hx : x.isFinite = true) (hden : 0 < den)
    (h : x.interval.Contains (4 * num) den) :
    ofUnits negative num den = ofMagnitude negative x.magnitude := by
  have hdigits := significand_lt x
  have hsmall := exponent_eq_zero_or x
  have hmagnitude := exponent_mul_add_significand x
  have hfinite : x.magnitude < infinityMagnitude := of_decide_eq_true hx
  obtain ⟨hlow, hhigh, hinside, hbelow⟩ := h.bounds hden
  have hstep : 0 < den * 2 ^ x.exponent := Nat.mul_pos hden (by positivity)
  rw [← hmagnitude] at hfinite ⊢
  generalize x.significand = digits at *
  by_cases hfine : digits = binade ∧ 0 < x.exponent ∧ num < den * 2 ^ x.exponent * digits
  · -- below a power of two the numbers lie twice as dense
    obtain ⟨rfl, hpos, hlt⟩ := hfine
    obtain ⟨shift, hshift⟩ := Nat.exists_eq_add_of_lt hpos
    rw [Nat.zero_add] at hshift
    have hdouble : den * 2 ^ x.exponent = 2 * (den * 2 ^ shift) := by
      rw [hshift, pow_succ]
      ring
    have hhalf : 0 < den * 2 ^ shift := Nat.mul_pos hden (by positivity)
    have hquarter := hbelow ⟨rfl, hpos⟩
    rw [hdouble] at hlt hquarter
    have hsame : x.exponent * binade + binade = shift * binade + 2 * binade := by
      rw [hshift]
      ring
    rw [hsame] at hfinite ⊢
    have htwice : den * 2 ^ shift * (2 * binade) = 2 * (den * 2 ^ shift * binade) := by ring
    have hhalves : 2 * (den * 2 ^ shift) * binade = 2 * (den * 2 ^ shift * binade) := by ring
    have hplace : den * 2 ^ shift ≤ den * 2 ^ shift * binade :=
      Nat.le_mul_of_pos_right _ (by decide)
    rw [hhalves] at hlt hquarter
    refine ofUnits_eq_of_between hden (.inr ?_) ?_ (roundHalfEven_eq hhalf ?_ ?_ (.inl ?_)) hfinite
    · omega
    · omega
    · omega
    · omega
    · rfl
  · refine ofUnits_eq_of_between hden ?_ ?_ (roundHalfEven_eq hstep hlow hhigh hinside) hfinite
    · rcases Nat.eq_zero_or_pos x.exponent with hzero | hpos
      · exact .inl hzero
      · right
        have hbinade : binade ≤ digits := hsmall.resolve_left (Nat.ne_of_gt hpos)
        rcases Nat.eq_or_lt_of_le hbinade with rfl | hlt
        · exact Nat.le_of_not_lt fun hlt => hfine ⟨rfl, hpos, hlt⟩
        · have hmul := Nat.mul_le_mul_left (den * 2 ^ x.exponent) (Nat.succ_le_of_lt hlt)
          rw [Nat.mul_succ] at hmul
          omega
    · have hmul := Nat.mul_le_mul_left (den * 2 ^ x.exponent) (Nat.succ_le_of_lt hdigits)
      rw [Nat.mul_succ] at hmul
      omega

/-! ### Grids -/

namespace Interval

variable {i : Interval} {tie : Tie} {unit scale d : Nat} {exponent : Int}

/-- The test of a point of a grid. -/
def holds (i : Interval) (unit scale d : Nat) : Bool :=
  if i.closed then i.low * scale ≤ d * unit && d * unit ≤ i.high * scale
  else i.low * scale < d * unit && d * unit < i.high * scale

theorem holds_iff : i.holds unit scale d = true ↔ i.Contains (d * unit) scale := by
  unfold holds
  split
  · rename_i hclosed
    rw [Bool.and_eq_true, decide_eq_true_eq, decide_eq_true_eq]
    exact ⟨fun h => ⟨h.1, h.2, .inl hclosed⟩, fun h => ⟨h.low, h.high⟩⟩
  · rename_i hopen
    rw [Bool.and_eq_true, decide_eq_true_eq, decide_eq_true_eq]
    exact ⟨fun h => ⟨Nat.le_of_lt h.1, Nat.le_of_lt h.2, .inr h⟩,
      fun h => h.inside.resolve_left hopen⟩

/-- A hit on a grid is a point above zero that lies in the interval. -/
theorem contains_of_onGrid? (h : i.onGrid? tie unit scale = some d) :
    0 < d ∧ i.Contains (d * unit) scale := by
  rw [← holds_iff]
  simp only [onGrid?] at h
  generalize i.middle * scale / unit = below at h
  split at h
  · rename_i hbelow habove
    obtain ⟨hpos, hbelow⟩ := Bool.and_eq_true_iff.1 hbelow
    obtain rfl := Option.some.inj h
    -- both neighbours lie in the interval, so it does not matter which is taken
    have hboth : ∀ takeAbove : Bool,
        0 < (if takeAbove then below + 1 else below) ∧
          i.holds unit scale (if takeAbove then below + 1 else below) = true := by
      intro takeAbove
      cases takeAbove
      · exact ⟨of_decide_eq_true hpos, hbelow⟩
      · exact ⟨Nat.succ_pos _, habove⟩
    exact hboth _
  · rename_i hbelow habove
    obtain ⟨hpos, hbelow⟩ := Bool.and_eq_true_iff.1 hbelow
    obtain rfl := Option.some.inj h
    exact ⟨of_decide_eq_true hpos, hbelow⟩
  · rename_i hbelow habove
    obtain rfl := Option.some.inj h
    exact ⟨Nat.succ_pos _, habove⟩
  · cases h

/-- A grid with a step below half of the interval has a point in it. -/
theorem exists_onGrid? (hunit : 0 < unit) (hlow : i.low ≤ i.middle)
    (hhigh : i.middle * scale + unit < i.high * scale) :
    ∃ d, i.onGrid? tie unit scale = some d := by
  -- the point right above the middle
  have habove : i.holds unit scale (i.middle * scale / unit + 1) = true := by
    have hle : i.low * scale ≤ i.middle * scale := Nat.mul_le_mul_right _ hlow
    have hdiv := Nat.div_add_mod (i.middle * scale) unit
    have hmod := Nat.mod_lt (i.middle * scale) hunit
    have hpoint : (i.middle * scale / unit + 1) * unit =
        unit * (i.middle * scale / unit) + unit := by ring
    rw [holds_iff]
    refine ⟨?_, ?_, .inr ⟨?_, ?_⟩⟩ <;> rw [hpoint] <;> omega
  simp only [onGrid?]
  split
  · exact ⟨_, rfl⟩
  · exact ⟨_, rfl⟩
  · exact ⟨_, rfl⟩
  · rename_i hbelow hnone
    exact absurd habove (Bool.eq_false_iff.1 hnone)

/-! ### The search -/

/-- A decimal that was hit: it is above zero and lies in the interval. -/
structure IsHit (i : Interval) (d : Decimal) : Prop where
  pos : 0 < d.digits
  contains : i.Contains (4 * (d.num * unitsPerOne)) d.den

theorem atExponent?_eq (i : Interval) (tie : Tie) (exponent : Int) :
    i.atExponent? tie exponent =
      (i.onGrid? tie (4 * unitsPerOne * 10 ^ exponent.toNat) (10 ^ (-exponent).toNat)).map
        fun d => ⟨d, exponent⟩ := by
  unfold atExponent?
  split
  · rename_i hle
    have hscale : (-exponent).toNat = 0 := by omega
    rw [hscale]
    rfl
  · rename_i hlt
    have hunit : exponent.toNat = 0 := by omega
    rw [hunit, pow_zero, Nat.mul_one]
    rfl

theorem isHit_of_atExponent? {d : Decimal} (h : i.atExponent? tie exponent = some d) :
    i.IsHit d ∧ d.exponent = exponent := by
  rw [atExponent?_eq] at h
  obtain ⟨digits, hgrid, rfl⟩ := Option.map_eq_some_iff.1 h
  obtain ⟨hpos, hcontains⟩ := contains_of_onGrid? hgrid
  have hnum : 4 * (Decimal.num ⟨digits, exponent⟩ * unitsPerOne) =
      digits * (4 * unitsPerOne * 10 ^ exponent.toNat) := by
    rw [Decimal.num]
    ring
  refine ⟨⟨hpos, ?_⟩, rfl⟩
  rw [hnum]
  exact hcontains

/-- What is found was a hit on one of the grids. -/
theorem isHit_of_search {tries : Nat} {d : Decimal} (h : i.search tie exponent tries = some d) :
    i.IsHit d ∧ exponent - tries < d.exponent ∧ d.exponent ≤ exponent := by
  induction tries generalizing exponent with
  | zero => cases h
  | succ tries ih =>
    rw [search] at h
    split at h
    · rename_i hat
      obtain rfl := Option.some.inj h
      obtain ⟨hhit, hexponent⟩ := isHit_of_atExponent? hat
      exact ⟨hhit, by omega, by omega⟩
    · obtain ⟨hhit, hlow, hhigh⟩ := ih h
      exact ⟨hhit, by omega, by omega⟩

/-- The search ends at the latest where there is a hit. -/
theorem exists_search {tries : Nat} {d : Decimal}
    (h : i.atExponent? tie (exponent - tries) = some d) :
    ∃ d, i.search tie exponent (tries + 1) = some d := by
  induction tries generalizing exponent with
  | zero =>
    rw [Int.natCast_zero, Int.sub_zero] at h
    refine ⟨d, ?_⟩
    rw [search, h]
  | succ tries ih =>
    rw [search]
    split
    · exact ⟨_, rfl⟩
    · have hnext : exponent - (tries + 1 : Nat) = exponent - 1 - tries := by omega
      rw [hnext] at h
      exact ih h

end Interval

/-! ### Shortest decimals -/

variable (tie : Tie)

/-- The first digit of a number lies 52 places above its last one, if it has 53 digits. -/
theorem log2_units (x : Number) : Nat.log2 x.units - 52 = x.exponent := by
  rw [units_eq]
  exact log2_sub_eq (significand_lt x) (exponent_eq_zero_or x)

theorem exponent_lt (hx : x.isFinite = true) : x.exponent < 2046 := by
  have hfinite : x.magnitude < infinityMagnitude := of_decide_eq_true hx
  rw [infinityMagnitude, binade_eq] at hfinite
  rw [exponent, binade_eq]
  omega

/-- The step of the last grid that is tried is below half of the interval. -/
theorem four_units_lt {place : Int} (hx : x.isFinite = true) (hplace : place = x.topExponent - 19) :
    4 * unitsPerOne * 10 ^ place.toNat < 2 * 2 ^ x.exponent * 10 ^ (-place).toNat := by
  have hlog := log2_units x
  have hbound := exponent_lt hx
  rw [topExponent] at hplace
  obtain ⟨top, htop, hunit⟩ : ∃ top, top = 2 + 1074 ∧ 4 * unitsPerOne = 2 ^ top := by
    refine ⟨_, rfl, ?_⟩
    rw [show 4 = 2 ^ 2 from rfl, unitsPerOne_eq, pow_add]
  have hstep : 2 * 2 ^ x.exponent = 2 ^ (1 + x.exponent) := by rw [pow_add, pow_one]
  rw [hunit, hstep]
  rcases Int.le_total 0 place with hcoarse | hfine
  · have hscale : (-place).toNat = 0 := by omega
    rw [hscale, pow_zero, Nat.mul_one]
    calc 2 ^ top * 10 ^ place.toNat
        ≤ 2 ^ top * 2 ^ (10 * place.toNat / 3 + 1) := Nat.mul_le_mul_left _ (ten_pow_le _)
      _ = 2 ^ (top + (10 * place.toNat / 3 + 1)) := (pow_add _ _ _).symm
      _ < 2 ^ (1 + x.exponent) := Nat.pow_lt_pow_right (by decide) (by omega)
  · have hunit : place.toNat = 0 := by omega
    rw [hunit, pow_zero, Nat.mul_one]
    calc 2 ^ top
        < 2 ^ (1 + x.exponent + 63 * (-place).toNat / 19) :=
          Nat.pow_lt_pow_right (by decide) (by omega)
      _ = 2 ^ (1 + x.exponent) * 2 ^ (63 * (-place).toNat / 19) := pow_add _ _ _
      _ ≤ 2 ^ (1 + x.exponent) * 10 ^ (-place).toNat :=
          Nat.mul_le_mul_left _ (le_ten_pow _)

/-- The last grid that is tried has a point in the interval. -/
theorem exists_atExponent? (hx : x.isFinite = true) :
    ∃ d, x.interval.atExponent? tie (x.topExponent - 19) = some d := by
  have hlt := four_units_lt hx rfl
  generalize x.topExponent - 19 = place at hlt
  have hunit : 0 < 4 * unitsPerOne * 10 ^ place.toNat :=
    Nat.mul_pos (Nat.mul_pos (by decide) unitsPerOne_pos) (by positivity)
  have hlow : x.interval.low ≤ x.interval.middle := Nat.sub_le _ _
  have hhigh : x.interval.middle * 10 ^ (-place).toNat + 4 * unitsPerOne * 10 ^ place.toNat <
      x.interval.high * 10 ^ (-place).toNat := by
    rw [show x.interval.high = x.interval.middle + 2 * 2 ^ x.exponent from rfl, Nat.add_mul]
    exact Nat.add_lt_add_left hlt _
  obtain ⟨digits, hgrid⟩ : ∃ digits, x.interval.onGrid? tie _ _ = some digits :=
    Interval.exists_onGrid? hunit hlow hhigh
  rw [Interval.atExponent?_eq, hgrid]
  exact ⟨_, rfl⟩

/-- **The shortest decimal of a number lies among the points that round to it.** -/
theorem isHit_shortest (hx : x.isFinite = true) (hzero : x.isZero = false) :
    x.interval.IsHit (x.shortest tie) ∧ x.topExponent - 20 < (x.shortest tie).exponent := by
  obtain ⟨last, hlast⟩ := exists_atExponent? tie hx
  obtain ⟨d, hd⟩ := Interval.exists_search hlast
  have hshortest : x.shortest tie = d := by
    rw [shortest, if_neg (Bool.eq_false_iff.1 hzero), hd]
    rfl
  obtain ⟨hhit, hexponent, -⟩ := Interval.isHit_of_search hd
  rw [hshortest]
  exact ⟨hhit, hexponent⟩

end Number

end MetadataRules
