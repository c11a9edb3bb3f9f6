/-
MetadataRules/Proofs/Run/Whole.lean

Effects without half-done work.

An effect is whole when it is one of four: the work is done without a word, it
is done and one line tells of it, it is left with a warning, or it fails; and
in the last two cases what was given is still there.  The specification of an
operation says that its effect is whole, and which values it may leave with
and without a line.  What failures, warnings and silence mean follows from that
alone.
-/
import MetadataRules.Run.Effect

namespace MetadataRules

namespace Effect

variable {α β : Type} {given : α} {quiet told : α → Prop} {e : Effect α}

/-- One of the four ends of an operation on `given`; `quiet` holds of what is left
without a line, and `told` of what is left with one. -/
inductive Whole (given : α) (quiet told : α → Prop) : Effect α → Prop
  | unchanged {a : α} (h : quiet a) : Whole given quiet told (.unchanged a)
  | changed {a : α} (h : told a) (line : String) : Whole given quiet told (.changed a line)
  | warned (line : String) : Whole given quiet told (.warned given line)
  | failed (failure : Failure) : Whole given quiet told (.failed given failure)

namespace Whole

/-- A failure leaves no trace. -/
theorem of_failure (h : Whole given quiet told e) (hf : e.failure.isSome) :
    e.after = given ∧ e.changes = [] ∧ e.warnings = [] := by
  cases h with
  | failed failure => exact ⟨rfl, rfl, rfl⟩
  | _ => simp [Effect.unchanged, Effect.changed, Effect.warned] at hf

/-- A warning stands for work that was left. -/
theorem of_warnings (h : Whole given quiet told e) (hw : e.warnings ≠ []) :
    e.failure = none ∧ e.after = given ∧ e.changes = [] := by
  cases h with
  | warned line => exact ⟨rfl, rfl, rfl⟩
  | _ => exact absurd rfl hw

/-- There is one warning at most. -/
theorem length_warnings (h : Whole given quiet told e) : e.warnings.length ≤ 1 := by
  cases h with
  | warned line => exact Nat.le_refl _
  | _ => exact Nat.zero_le _

/-- Without a line, what is left is what was given or something that needs no line. -/
theorem of_changes (h : Whole given quiet told e) (hc : e.changes = []) :
    e.after = given ∨ quiet e.after := by
  cases h with
  | unchanged h => exact .inr h
  | changed h line => cases hc
  | warned line => exact .inl rfl
  | failed failure => exact .inl rfl

/-- With a line, what is left is something that a line may tell of. -/
theorem told_of_changes (h : Whole given quiet told e) (hc : e.changes ≠ []) : told e.after := by
  cases h with
  | changed h line => exact h
  | _ => exact absurd rfl hc

/-- What holds of all that an effect may leave holds of what it leaves. -/
theorem after {P : α → Prop} (h : Whole given quiet told e) (hgiven : P given)
    (hquiet : ∀ a, quiet a → P a) (htold : ∀ a, told a → P a) : P e.after := by
  cases h with
  | unchanged h => exact hquiet _ h
  | changed h line => exact htold _ h
  | warned line => exact hgiven
  | failed failure => exact hgiven

theorem mono {quiet' told' : α → Prop} (h : Whole given quiet told e)
    (hquiet : ∀ a, quiet a → quiet' a) (htold : ∀ a, told a → told' a) :
    Whole given quiet' told' e := by
  cases h with
  | unchanged h => exact .unchanged (hquiet _ h)
  | changed h line => exact .changed (htold _ h) line
  | warned line => exact .warned line
  | failed failure => exact .failed failure

/-- The effect on a whole is whole where the effect on its part is. -/
theorem lift {quiet' told' : β → Prop} {f : α → β} (h : Whole given quiet told e)
    (hquiet : ∀ a, quiet a → quiet' (f a)) (htold : ∀ a, told a → told' (f a)) :
    Whole (f given) quiet' told' (e.lift f) := by
  cases h with
  | unchanged h => exact .unchanged (hquiet _ h)
  | changed h line => exact .changed (htold _ h) line
  | warned line => exact .warned line
  | failed failure => exact .failed failure

end Whole

end Effect

end MetadataRules
