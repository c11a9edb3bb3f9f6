/-
MetadataRules/Proofs/Run/Atomic.lean

Operations that fail or warn leave nothing behind.

For an operation on its own this is what it means that its effect is whole.
The exception is the write to matching elements: it keeps the elements that
were written before one was refused, and says so; but where it warns, it too
has done nothing.
-/
import MetadataRules.Number.Fixed
import MetadataRules.Proofs.Run.Operation

namespace MetadataRules

/-- **A failure leaves no trace, and a warning stands for work that was left**, in every
operation of rule text; and a refused write leaves the value as it was, whatever it
had made on its way. -/
theorem Operation.unchanged_of_failure_or_warning [Decimals] :
    (∀ (text : String) (action : Action), Action.ofText text = .ok action →
      ∀ op ∈ action.operations, ∀ (clock : Clock) (doc : Value),
        (op.isUpdate = false → (op.apply clock doc).failure.isSome →
          (op.apply clock doc).after = doc ∧ (op.apply clock doc).changes = [] ∧
            (op.apply clock doc).warnings = []) ∧
        ((op.apply clock doc).warnings ≠ [] →
          (op.apply clock doc).failure = none ∧ (op.apply clock doc).after = doc ∧
            (op.apply clock doc).changes = [])) ∧
      ∀ (p : Path) (root new : Value) (r : Refusal), .current ∉ p.segments.tail →
        (p.set root new).answer = .error r → (p.set root new).value = root := by
  refine ⟨fun text action htext op hop clock doc => ?_, fun p root new r hp hr => ?_⟩
  · have hwf : op.WellFormed := (Action.wellFormed_of_ofText htext).operations op hop
    constructor
    · intro hupdate hfailure
      exact (op.apply_whole hwf hupdate clock doc).of_failure hfailure
    · exact op.of_warnings_apply hwf
  · exact Path.value_set_of_error (Path.current_notMem_steps hp) hr

/-- A write below a string is refused, a removal of nothing warns, and a write
beyond the end of an array is refused with the `null` on its way untouched. -/
theorem Operation.unchanged_of_failure_or_warning_run :
    let clock : Clock := ⟨2024, 1, 1, 0, 0, 0, 0⟩
    let doc : Value := .object [("a", .string "x")]
    let set : Operation := .set ⟨[.key "a", .key "b"]⟩ (.boolean true)
    let delete : Operation := .delete ⟨[.key "b"]⟩
    let root : Value := .object [("a", .array [.null])]
    let p : Path := ⟨[.current, .key "a", .index 1, .key "b"]⟩
    (set.apply clock doc).after = doc ∧ (delete.apply clock doc).failure = none ∧
      (p.set root .null).value = root := by
  intro clock doc set delete root p
  refine ⟨?_, ?_, ?_⟩
  · exact ((unchanged_of_failure_or_warning.1 "SET a.b true" ⟨[set]⟩ (by decide +kernel) set
      List.mem_cons_self clock doc).1 rfl rfl).1
  · exact ((unchanged_of_failure_or_warning.1 "DELETE b" ⟨[delete]⟩ (by decide +kernel) delete
      List.mem_cons_self clock doc).2 nofun).1
  · exact unchanged_of_failure_or_warning.2 p root .null (.outOfRange 1 1) (by decide) rfl

end MetadataRules
