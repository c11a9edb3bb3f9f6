/-
MetadataRules/Proofs/Alike/Condition.lean

Conditions on values that are alike.

Every test that a condition makes of a value gives the same answer on a value
that lists its keys in another order, or that has another zero in it
(`Condition.holds_congr`).  The value of a literal never repeats a key
(`Literal.hasUniqueKeys_resolve`), so it is like itself.
-/
import MetadataRules.Condition.Basic
import MetadataRules.Proofs.Alike.Path

namespace MetadataRules

/-! ### Literals -/

namespace Literal

variable {P : Value → Prop}

mutual

/-- A literal stands for a value with any property that edits keep and that numbers have. -/
theorem stable_resolve (hP : Value.Stable P) (hnumber : ∀ n, P (.number n)) (clock : Clock) :
    ∀ l : Literal, P (l.resolve clock)
  | .null => hP.null
  | .boolean b => hP.boolean b
  | .number n => hnumber n
  | .string s => hP.string s
  | .array items => hP.array_iff.2 (stable_resolveItems hP hnumber clock items)
  | .object pairs => hP.ofPairs (stable_resolvePairs hP hnumber clock pairs)
  | .now => hP.string _
  | .today => hP.string _

theorem stable_resolveItems (hP : Value.Stable P) (hnumber : ∀ n, P (.number n)) (clock : Clock) :
    ∀ items : List Literal, ∀ v ∈ resolveItems clock items, P v
  | [] => fun _ hv => absurd hv List.not_mem_nil
  | l :: rest => List.forall_mem_cons.2
      ⟨stable_resolve hP hnumber clock l, stable_resolveItems hP hnumber clock rest⟩

theorem stable_resolvePairs (hP : Value.Stable P) (hnumber : ∀ n, P (.number n)) (clock : Clock) :
    ∀ pairs : List (String × Literal), ∀ e ∈ resolvePairs clock pairs, P e.2
  | [] => fun _ he => absurd he List.not_mem_nil
  | (_, l) :: rest => List.forall_mem_cons.2
      ⟨stable_resolve hP hnumber clock l, stable_resolvePairs hP hnumber clock rest⟩

end

/-- No object in the value of a literal holds a key twice. -/
theorem hasUniqueKeys_resolve (clock : Clock) (l : Literal) :
    (l.resolve clock).hasUniqueKeys = true :=
  stable_resolve Value.stable_hasUniqueKeys (fun _ => rfl) clock l

/-- The value of a literal is like itself. -/
theorem alike_resolve {same : Number → Number → Prop} (hsame : ∀ n, same n n) (clock : Clock)
    (l : Literal) : Value.Alike same (l.resolve clock) (l.resolve clock) :=
  .refl hsame (hasUniqueKeys_resolve clock l)

end Literal

/-! ### Lists -/

/-- Tests that agree on related elements find an element in both lists or in neither. -/
theorem any_congr_of_forall₂ {α β : Type} {R : α → β → Prop} {as : List α} {bs : List β}
    {p : α → Bool} {q : β → Bool} (h : List.Forall₂ R as bs) (hpq : ∀ a b, R a b → p a = q b) :
    as.any p = bs.any q := by
  induction h with
  | nil => rfl
  | cons hab _ ih => rw [List.any_cons, List.any_cons, hpq _ _ hab, ih]

namespace Value

variable {a a' b b' : Value}

/-! ### Tests of a value -/

theorem asNumber?_congr (h : Alike Number.Tied a a') :
    Option.Rel Number.Tied a.asNumber? a'.asNumber? := by
  have hself : ∀ x : Option Number, Option.Rel Number.Tied x x := by
    intro x
    cases x with
    | none => exact .none
    | some n => exact .some (.refl n)
  cases h with
  | number h => exact .some h
  | string s => exact hself _
  | _ => exact .none

theorem isTruthy_congr (h : Alike Number.Tied a a') : a.isTruthy = a'.isTruthy := by
  cases h with
  | number h => rw [isTruthy, isTruthy, h.isZero, h.isNaN]
  | array h => cases h <;> rfl
  | object hleft hright h =>
    have hlength := Fields.length_eq_of_rel hleft hright h
    have hempty : ∀ fields : Fields Value, fields.isEmpty = (fields.length == 0) := by
      intro fields
      cases fields <;> rfl
    rw [isTruthy, isTruthy, hempty, hempty, hlength]
  | _ => rfl

theorem looseEqual_congr (ha : Alike Number.Tied a a') (hb : Alike Number.Tied b b') :
    a.looseEqual b = a'.looseEqual b' := by
  have hequal := equal_congr ha hb
  unfold looseEqual
  rcases optionRel_iff.1 (asNumber?_congr ha) with ⟨hx, hx'⟩ | ⟨x, x', hx, hx', hxx⟩ <;>
    rw [hx, hx']
  · exact hequal
  · rcases optionRel_iff.1 (asNumber?_congr hb) with ⟨hy, hy'⟩ | ⟨y, y', hy, hy', hyy⟩ <;>
      rw [hy, hy']
    · exact hequal
    · exact hxx.equal hyy

theorem isAmong_congr {items items' : List Value} (ha : Alike Number.Tied a a')
    (hitems : List.Forall₂ (Alike Number.Tied) items items') :
    a.isAmong items = a'.isAmong items' :=
  any_congr_of_forall₂ hitems fun _ _ h => equal_congr h ha

/-- The needle is the same on both sides: the text of a value does show the order of its keys. -/
theorem contains_congr (ha : Alike Number.Tied a a') (hb : Alike Number.Tied b b) :
    a.contains b = a'.contains b := by
  cases ha with
  | array h => exact isAmong_congr hb h
  | _ => rfl

end Value

/-- A comparison looks at two numbers, at equality or at two strings. -/
theorem Comparison.holds_congr {a a' b b' : Value} (ha : Value.Alike Number.Tied a a')
    (hb : Value.Alike Number.Tied b b') (op : Comparison) : op.holds a b = op.holds a' b' := by
  have hequal := Value.equal_congr ha hb
  unfold Comparison.holds
  rcases optionRel_iff.1 (Value.asNumber?_congr ha) with ⟨hx, hx'⟩ | ⟨x, x', hx, hx', hxx⟩ <;>
    rcases optionRel_iff.1 (Value.asNumber?_congr hb) with ⟨hy, hy'⟩ | ⟨y, y', hy, hy', hyy⟩ <;>
      rw [hx, hx', hy, hy'] <;> dsimp only
  case inr.inr => exact hxx.ofNumbers hyy op
  all_goals
    cases op with
    | equal => exact hequal
    | notEqual => exact congrArg (!·) hequal
    | _ => cases ha <;> cases hb <;> rfl

/-! ### Conditions -/

/-- **Conditions do not look at the order of keys**, nor at the sign of a zero. -/
theorem Condition.holds_congr {a b : Value} (h : Value.Alike Number.Tied a b) (clock : Clock)
    (c : Condition) : c.holds clock a = c.holds clock b := by
  induction c generalizing a b with
  | compare p op l =>
    have hl := l.alike_resolve Number.Tied.refl clock
    simp only [holds, Path.get?]
    rcases optionRel_iff.1 (Steps.get?_alike h p.steps) with ⟨ha, hb⟩ | ⟨v, w, ha, hb, hvw⟩ <;>
      rw [ha, hb]
    exact Comparison.holds_congr hvw hl op
  | present p negated =>
    simp only [holds, Path.get?]
    rcases optionRel_iff.1 (Steps.get?_alike h p.steps) with ⟨ha, hb⟩ | ⟨v, w, ha, hb, hvw⟩ <;>
      rw [ha, hb]
    rfl
  | contains p l =>
    have hl := l.alike_resolve Number.Tied.refl clock
    simp only [holds, Path.get?]
    rcases optionRel_iff.1 (Steps.get?_alike h p.steps) with ⟨ha, hb⟩ | ⟨v, w, ha, hb, hvw⟩ <;>
      rw [ha, hb]
    exact Value.contains_congr hvw hl
  | oneOf p ls =>
    simp only [holds, Path.get?]
    rcases optionRel_iff.1 (Steps.get?_alike h p.steps) with ⟨ha, hb⟩ | ⟨v, w, ha, hb, hvw⟩ <;>
      rw [ha, hb]
    refine congrArg ls.any (funext fun l => ?_)
    exact Value.looseEqual_congr hvw (l.alike_resolve Number.Tied.refl clock)
  | anyElement p test ih =>
    simp only [holds, Path.get?]
    rcases optionRel_iff.1 (Steps.get?_alike h p.steps) with ⟨ha, hb⟩ | ⟨v, w, ha, hb, hvw⟩ <;>
      rw [ha, hb]
    cases hvw with
    | array hitems => exact any_congr_of_forall₂ hitems fun _ _ hab => ih hab
    | _ => rfl
  | and left right ihleft ihright => rw [holds, holds, ihleft h, ihright h]
  | or left right ihleft ihright => rw [holds, holds, ihleft h, ihright h]
  | not inner ih => rw [holds, holds, ih h]
  | truthy p =>
    simp only [holds, Path.get?]
    rcases optionRel_iff.1 (Steps.get?_alike h p.steps) with ⟨ha, hb⟩ | ⟨v, w, ha, hb, hvw⟩ <;>
      rw [ha, hb]
    exact Value.isTruthy_congr hvw

end MetadataRules
