/-
MetadataRules/Proofs/Number/Fixed.lean

Sums of fixed decimals.

A decimal of 96 bits is far from the largest number, however often it is rounded
on its way back to binary (`Fixed.isFinite_toNumber`).  A number has a decimal of
at most 28 places (`Fixed.places_ofNumber?_le`) and a sum is fitted into 96 bits
(`Fixed.of_fit?`), so the sums of such decimals are finite (`Fixed.sumsFinite`).
-/
import MetadataRules.Number.Fixed
import MetadataRules.Proofs.Number.Range

namespace MetadataRules

namespace Fixed

theorem tenPow_pos (n : Nat) : 0 < tenPow n := Nat.pow_pos (by decide)

theorem tenPow_lt {n : Nat} (h : n ≤ maxPlaces) : tenPow n < 2 ^ 94 :=
  Nat.lt_of_le_of_lt (Nat.pow_le_pow_right (by decide) h) (by decide)

/-- The rounding of a decimal to its places, on the way back to binary, stays in range. -/
theorem isFinite_rounded {whole rest power : Nat} (hwhole : whole < 2 ^ 96) (hrest : rest < 2 ^ 94)
    (hpos : 0 < power) (hpower : power < 2 ^ 94) :
    ((((Number.ofNat whole).addFinite ((Number.ofNat rest).divAbs (Number.ofNat power))).mulAbs
      (Number.ofNat power)).roundAbs.divAbs (Number.ofNat power)).isFinite = true := by
  have hscale : (Number.ofNat power).IsWithin (94 + 1074) :=
    Number.isWithin_ofNat (by decide) hpower
  have hone : Number.unitsPerOne ≤ (Number.ofNat power).units :=
    Number.le_units_ofNat hpos (by decide) hpower
  generalize Number.ofNat power = scale at hscale hone ⊢
  have hleft : (Number.ofNat whole).IsWithin (96 + 1074) :=
    Number.isWithin_ofNat (by decide) hwhole
  have hright : ((Number.ofNat rest).divAbs scale).IsWithin (96 + 1074) := by
    have hrest : (Number.ofNat rest).IsWithin (94 + 1074) :=
      Number.isWithin_ofNat (by decide) hrest
    exact (Number.isWithin_divAbs (by decide) hrest hone).mono (by decide)
  -- sum, product, rounding and quotient each add to the exponent, which stays below 1300
  generalize (Number.ofNat rest).divAbs scale = fraction at hright ⊢
  generalize Number.ofNat whole = whole at hleft ⊢
  have hsum : (whole.addFinite fraction).IsWithin (96 + 1074 + 2) :=
    Number.isWithin_addFinite (by decide) hleft hright
  have hproduct : ((whole.addFinite fraction).mulAbs scale).IsWithin (193 + 1074) :=
    (Number.isWithin_mulAbs (by decide) hsum hscale).mono (by decide)
  have hrounded := Number.isWithin_roundAbs (by decide) hproduct
  exact Number.isFinite_divAbs (by decide) hrounded hone

/-- **A decimal of 96 bits stays finite on its way back to binary.** -/
theorem isFinite_toNumber {d : Fixed} (hdigits : d.digits < limit)
    (hplaces : d.places ≤ maxPlaces) :
    d.toNumber.isFinite = true := by
  have hpower := tenPow_lt hplaces
  have hpos := tenPow_pos d.places
  have hquot : d.digits / tenPow d.places < 2 ^ 96 :=
    Nat.lt_of_le_of_lt (Nat.div_le_self _ _) hdigits
  have hrest : d.digits % tenPow d.places < 2 ^ 94 := Nat.lt_trans (Nat.mod_lt _ hpos) hpower
  have hwhole := Number.isFinite_ofNat (by decide) hquot
  have hrounded := isFinite_rounded hquot hrest hpos hpower
  have hvalue : ∀ {p : Prop} [Decidable p] {x y : Number}, x.isFinite = true → y.isFinite = true →
      (if p then x else y).isFinite = true := by
    intro p _ x y hx hy
    split
    · exact hx
    · exact hy
  unfold toNumber
  exact hvalue (Number.isFinite_neg (hvalue hwhole hrounded)) (hvalue hwhole hrounded)

/-! ### The places of a decimal -/

/-- The power of ten is that of some places, and there are not more places than there may be. -/
def Scaled.IsPlaced (s : Scaled) : Prop := -(maxPlaces : Int) ≤ s.power ∧ s.power ≤ 0

theorem Scaled.power_halve (s : Scaled) (n : Nat) (h : s.power + n ≤ 0) :
    (s.halve n).power ≤ 0 := by
  induction n generalizing s with
  | zero => simpa [halve] using h
  | succ n ih =>
    rw [halve]
    split
    · exact ih _ (by dsimp only; omega)
    · split <;> exact ih _ (by dsimp only; omega)

/-- Enough digits are dropped to leave as many places as there may be. -/
theorem Scaled.isPlaced_shorten (s : Scaled) (n : Nat) (h : s.power ≤ 0)
    (hn : -(n : Int) ≤ s.power) : (s.shorten n).IsPlaced := by
  induction n generalizing s with
  | zero =>
    rw [shorten]
    exact ⟨by omega, h⟩
  | succ n ih =>
    rw [shorten]
    split
    · rename_i hplaced
      exact ⟨hplaced, h⟩
    · rename_i hmore
      split
      · exact ⟨by decide, Int.le_refl 0⟩
      · refine ih s.dropDigit ?_ ?_ <;> (dsimp only [dropDigit]; omega)

theorem Scaled.isPlaced_trimBits (s : Scaled) (n : Nat) (h : s.IsPlaced) :
    (s.trimBits n).IsPlaced := by
  induction n generalizing s with
  | zero => exact h
  | succ n ih =>
    rw [trimBits]
    split
    · rename_i hmore
      obtain ⟨hlow, -⟩ := h
      refine ih s.dropDigit ⟨?_, ?_⟩ <;> (dsimp only [dropDigit]; omega)
    · exact h

theorem Scaled.isPlaced_trimZeros (s : Scaled) (n : Nat) (h : s.IsPlaced) :
    (s.trimZeros n).IsPlaced := by
  induction n generalizing s with
  | zero => exact h
  | succ n ih =>
    rw [trimZeros]
    split
    · rename_i hmore
      obtain ⟨hlow, -⟩ := h
      refine ih _ ⟨?_, ?_⟩ <;> (dsimp only; omega)
    · exact h

theorem places_ofNumber?_le {x : Number} {d : Fixed} (h : ofNumber? x = some d) :
    d.places ≤ maxPlaces := by
  unfold ofNumber? at h
  split at h
  · cases h
  · split at h
    · obtain rfl := Option.some.inj h
      exact Nat.zero_le _
    · dsimp only at h
      split at h
      · split at h
        · obtain rfl := Option.some.inj h
          exact Nat.zero_le _
        · cases h
      · rename_i htwo
        obtain rfl := Option.some.inj h
        have hhalved := Scaled.power_halve ⟨x.significand, (x.exponent : Int) - 1074⟩
          ((x.exponent : Int) - 1074).natAbs (by dsimp only; omega)
        generalize Scaled.halve _ _ = s at hhalved ⊢
        -- shortening leaves few enough places, and the trimming after it only takes more away
        have hshort := Scaled.isPlaced_shorten s s.power.natAbs hhalved (by omega)
        obtain ⟨hlow, hhigh⟩ :=
          Scaled.isPlaced_trimZeros _ maxPlaces (Scaled.isPlaced_trimBits _ maxPlaces hshort)
        dsimp only
        omega

/-- A sum that was fitted has 96 bits and not more places than were asked for. -/
theorem of_fit? {isNegative : Bool} {digits dropped places : Nat} {d : Fixed}
    (h : fit? isNegative digits dropped places = some d) :
    d.digits < limit ∧ d.places ≤ places := by
  induction places generalizing dropped with
  | zero =>
    simp only [fit?] at h
    split at h
    · rename_i hfits
      obtain rfl := Option.some.inj h
      exact ⟨hfits, Nat.le_refl _⟩
    · cases h
  | succ places ih =>
    simp only [fit?] at h
    split at h
    · rename_i hfits
      obtain rfl := Option.some.inj h
      exact ⟨hfits, Nat.le_refl _⟩
    · obtain ⟨hdigits, hplaces⟩ := ih h
      exact ⟨hdigits, Nat.le_succ_of_le hplaces⟩

/-! ### Sums -/

/-- **A sum of fixed decimals is a finite number.** -/
theorem sumsFinite : Decimals.SumsFinite := by
  intro x y n h
  obtain ⟨a, ha, h⟩ := Option.bind_eq_some_iff.1 h
  obtain ⟨b, hb, h⟩ := Option.bind_eq_some_iff.1 h
  obtain ⟨sum, hadd, h⟩ := Option.bind_eq_some_iff.1 h
  obtain rfl := Option.some.inj h
  obtain ⟨hdigits, hplaces⟩ := of_fit? hadd
  refine isFinite_toNumber hdigits (Nat.le_trans hplaces ?_)
  exact Nat.max_le.2 ⟨places_ofNumber?_le ha, places_ofNumber?_le hb⟩

end Fixed

end MetadataRules
