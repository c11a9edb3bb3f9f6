/-
MetadataRules/Proofs/Token/Number.lean

Numbers that are written and read again as tokens.

A number begins behind its sign (`Lexer.begins_signed`), with the digits of an
integer or with the digits around a point.  The plain text of a finite number
has one of these two forms and no exponent, so it is the token for that number,
with the positive zero in the place of the negative one
(`Lexer.begins_plainText`).
-/
import MetadataRules.Proofs.Number.Text
import MetadataRules.Proofs.Token.Spelling

namespace MetadataRules

namespace Lexer

variable {afterDot negative : Bool} {cs more : List Char} {c : Char} {n x : Number} {i : Int}

/-- A sign in front of a text, or none. -/
theorem begins_signed (hne : cs ≠ []) (hdigits : ∀ c ∈ cs.head?, isDigit c = true)
    (h : unsignedText afterDot negative (cs ++ more) = .ok (n, more)) :
    Begins afterDot ((if negative then '-' :: cs else cs) ++ more) (.number n) more := by
  obtain ⟨c, cs, rfl⟩ := List.exists_cons_of_ne_nil hne
  have hc : isDigit c = true := hdigits c rfl
  cases negative with
  | true =>
    rw [← numberText_minus] at h
    exact begins_number (by simp [hc]) h
  | false =>
    have hminus : (c :: cs ++ more).head? ≠ some '-' := by
      intro h
      exact absurd (Option.some.inj h) (ne_of_class isDigit hc (by decide))
    rw [← numberText_of_ne_minus hminus] at h
    exact begins_number (by simp [hc]) h

/-- The digits of an integer, where a number takes no fraction or no point stands behind it. -/
theorem begins_intDigits (hi : i.natAbs < 10 ^ 400) (hmore : IsApart more)
    (hpoint : afterDot = true ∨ more.head? ≠ some '.') :
    Begins afterDot (intDigits i ++ more) (.number (.ofInt i)) more := by
  have hnumber : unsignedText afterDot (decide (i < 0)) (natDigits i.natAbs ++ more) =
      .ok (.ofInt i, more) := by
    rw [← Number.ofDigits_natAbs hi]
    exact unsignedText_whole hmore (fun c hc => isDigit_of_mem_natDigits hc) hpoint
  have hbegins := begins_signed (natDigits_ne_nil _)
    (fun c hc => isDigit_of_mem_natDigits (List.mem_of_mem_head? hc)) hnumber
  unfold intDigits
  simpa only [decide_eq_true_eq] using hbegins

theorem unsignedText_positional (d : Decimal) (hmore : IsApart more)
    (hpoint : more.head? ≠ some '.') :
    unsignedText false negative (d.positional ++ more) =
      .ok (Number.ofDigits negative d.wholeDigits d.fractionDigits 0, more) := by
  have hdigits {c : Char} := d.isDigit_of_mem_positional (c := c)
  have hwhole : ∀ c ∈ d.wholeDigits, isDigit c = true := fun c hc =>
    hdigits (List.mem_append_left _ hc)
  have hfraction : ∀ c ∈ d.fractionDigits, isDigit c = true := fun c hc =>
    hdigits (List.mem_append_right _ hc)
  unfold Decimal.positional
  split
  · rename_i hnone
    rw [hnone]
    exact unsignedText_whole hmore hwhole (.inr hpoint)
  · rename_i hne
    rw [List.append_assoc]
    exact unsignedText_fraction hmore hwhole hfraction hne hpoint

theorem head?_positional (d : Decimal) :
    d.positional ≠ [] ∧ ∀ c ∈ d.positional.head?, isDigit c = true := by
  obtain ⟨c, cs, hcs⟩ := List.exists_cons_of_ne_nil d.wholeDigits_ne_nil
  have hc : isDigit c = true := by
    refine d.isDigit_of_mem_positional (List.mem_append_left _ ?_)
    rw [hcs]
    exact List.mem_cons_self
  unfold Decimal.positional
  rw [hcs]
  split
  all_goals
    refine ⟨List.cons_ne_nil _ _, ?_⟩
    rintro c ⟨⟩
    exact hc

/-- **The plain text of a finite number is read again as the number.** -/
theorem begins_plainText (hx : x.isFinite = true) (hmore : IsApart more)
    (hpoint : more.head? ≠ some '.') :
    Begins false (x.plainText ++ more) (.number x.withoutNegativeZero) more := by
  unfold Number.plainText
  split
  · rename_i i hwhole
    have hsmall := Number.natAbs_lt_of_wholeBelow? hwhole
    rw [← Number.ofInt_of_wholeBelow? hwhole]
    exact begins_intDigits (Nat.lt_trans hsmall (by decide +kernel)) hmore (.inr hpoint)
  · rename_i hnone
    have hzero := Number.isZero_eq_false_of_wholeBelow? (by decide) hnone
    have hnan := Number.isNaN_eq_false_of_isFinite hx
    have hinfinite := Number.isInfinite_eq_false_of_isFinite hx
    rw [if_neg (Bool.eq_false_iff.1 hnan), if_neg (Bool.eq_false_iff.1 hinfinite),
      Number.withoutNegativeZero_eq_self (by decide) hnone]
    obtain ⟨hne, hfirst⟩ := head?_positional (x.shortest .up)
    refine begins_signed hne hfirst ?_
    rw [unsignedText_positional _ hmore hpoint, Number.ofDigits_shortest .up _ hx hzero,
      Number.ofMagnitude_magnitude]

end Lexer

end MetadataRules
