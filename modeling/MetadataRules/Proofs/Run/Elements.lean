/-
MetadataRules/Proofs/Run/Elements.lean

What the verbs of a collection may leave of the elements they were given.

Every verb but the writes to matching elements has a whole effect
(`Run.editElements_whole`), and where it says nothing the elements are the same
or equal in pairs: each verb compares in its own way, by positions, by
the number of elements or by the equality of values.

Writes to matching elements are no whole effect, since a refused write may come
after others.  But they warn only when no element matches, and then they have
done nothing (`Run.of_warnings_update`).
-/
import MetadataRules.Proofs.Elements
import MetadataRules.Proofs.Run.Whole
import MetadataRules.Run.Elements

namespace MetadataRules

/-- True of writes to matching elements. -/
def Verb.isUpdate : Verb → Bool
  | update _ => true
  | _ => false

namespace Elements

variable {items : List Value}

/-! ### Edits that leave the elements as they were -/

/-- Where no element was dropped, none has moved. -/
theorem deduplicate_eq_self (h : items.length - (deduplicate items).length = 0) :
    deduplicate items = items :=
  dedupAfter_sublist.eq_of_length_le (Nat.le_of_sub_eq_zero h)

/-- Where no element was removed, none passes the test. -/
theorem removeWhere_eq_self {test : Value → Bool}
    (h : items.length - (removeWhere items test).length = 0) : removeWhere items test = items :=
  List.filter_sublist.eq_of_length_le (Nat.le_of_sub_eq_zero h)

/-- An element that is put back where it was taken out leaves the others in place. -/
theorem items_moveIndex {source target : Int} {m : Moved}
    (h : moveIndex items source target = .ok m) (hm : m.source = m.target) :
    m.items = items := by
  obtain ⟨-, -, v, hv, hitems⟩ := moveIndex_eq_ok_iff.1 h
  obtain ⟨hlt, rfl⟩ := List.getElem?_eq_some_iff.1 hv
  rw [hitems, ← hm]
  exact List.insertIdx_eraseIdx_getElem hlt

end Elements

namespace Run

open Effect

/-! ### Verbs -/

theorem withFilter_whole {verb : Verb} {target : Path} {filter : Option Condition}
    {items : List Value} {effect : Condition → Effect (List Value)}
    {quiet told : List Value → Prop} (h : ∀ c, Whole items quiet told (effect c)) :
    Whole items quiet told (withFilter verb target filter items effect) := by
  rcases filter with - | c
  · exact .failed _
  · exact h c

/-- **Every verb but the writes to matching elements is whole**, and says nothing only of
elements that are the same or equal in pairs. -/
theorem editElements_whole (clock : Clock) (target : Path) (filter : Option Condition)
    {verb : Verb} (hverb : verb.isUpdate = false) (items : List Value) :
    Whole items (fun after => after = items ∨ Value.equalItems after items = true)
      (fun _ => True) (editElements clock target filter verb items) := by
  cases verb with
  | append l => exact .changed trivial _
  | prepend l => exact .changed trivial _
  | insert l index => exact .changed trivial _
  | removeAll l =>
    simp only [editElements]
    split
    · exact .warned _
    · exact .changed trivial _
  | removeFirst l =>
    simp only [editElements]
    split
    · exact .changed trivial _
    · exact .warned _
  | removeMatching =>
    refine withFilter_whole fun c => ?_
    dsimp only
    split
    · exact .warned _
    · exact .changed trivial _
  | sort by_ direction =>
    simp only [editElements, sort]
    split
    · rename_i heq
      exact .unchanged (.inr heq)
    · split <;> exact .changed trivial _
  | moveIndex source destination =>
    simp only [editElements, moveIndex]
    split
    · exact .failed _
    · rename_i m hm
      split
      · rename_i heq
        exact .unchanged (.inl (Elements.items_moveIndex hm heq))
      · exact .changed trivial _
  | moveMatching d =>
    refine withFilter_whole fun c => ?_
    simp only [moveMatching]
    split
    · split
      · rename_i heq
        exact .unchanged (.inr heq)
      · exact .changed trivial _
    · exact .warned _
    · exact .warned _
  | deduplicate =>
    simp only [editElements]
    split
    · rename_i heq
      exact .unchanged (.inl (Elements.deduplicate_eq_self heq))
    · exact .changed trivial _
  | merge l deep => exact .failed _
  | update assignments => cases hverb

/-! ### Writes to matching elements -/

variable {target : Path} {test : Value → Bool} {values : List (Path × Value)}

theorem warnings_updateFrom (index : Nat) (items : List Value) :
    (updateFrom target test values index items).warnings = [] := by
  induction items generalizing index with
  | nil => rfl
  | cons item rest ih =>
    rw [updateFrom]
    split
    · dsimp only
      split
      · rfl
      · exact ih (index + 1)
    · exact ih (index + 1)

/-- Writes to matching elements warn only when no element matches. -/
theorem of_warnings_update {items : List Value}
    (h : (update target test values items).warnings ≠ []) :
    (update target test values items).failure = none ∧
      (update target test values items).after = items ∧
      (update target test values items).changes = [] := by
  unfold update at h ⊢
  split
  · rename_i hany
    rw [if_pos hany, warnings_updateFrom] at h
    exact absurd rfl h
  · exact ⟨rfl, rfl, rfl⟩

end Run

end MetadataRules
