/-
MetadataRules/Proofs/Run/Rename.lean

What a rename does with the value that it moves.

A rename writes the value to its target, or finds an equal one there, and then
removes its source.  It compares the two paths step by step, and so does not
notice that the target comes through the very place that it removes.  In that
case, and in no other, the value is lost (`Operation.get?_target_rename_iff`).
-/
import MetadataRules.Number.Fixed
import MetadataRules.Proofs.Path.Overlap
import MetadataRules.Proofs.Run.Operation
import MetadataRules.Proofs.Value.Equality

namespace MetadataRules

namespace Run

variable {source target : Path} {doc v w : Value} {place : List Segment} {key : String}

/-! ### Removing the source -/

/-- A value that has an equal elsewhere does not lie inside it. -/
theorem not_passes_of_equal (hs : .current ∉ source.steps) (hv : source.get? doc = some v)
    (hw : target.get? doc = some w) (heq : w.equal v = true)
    (h : Steps.passes doc source.steps target.steps = false) :
    Steps.passes doc target.steps source.steps = false := by
  rw [Bool.eq_false_iff]
  intro hpasses
  obtain ⟨w', hw', hsource⟩ := Steps.get?_of_passes hpasses
  obtain rfl : w' = w := Option.some.inj (hw'.symm.trans hw)
  have hinside : Steps.get? w' (source.steps.drop target.steps.length) = some v :=
    hsource.symm.trans hv
  by_cases hnil : source.steps.drop target.steps.length = []
  · rw [List.drop_eq_nil_iff] at hnil
    rw [Steps.passes_symm hnil hpasses] at h
    cases h
  · have hcurrent : .current ∉ source.steps.drop target.steps.length := fun hmem =>
      hs (List.mem_of_mem_drop hmem)
    rw [Value.not_equal_of_get? hcurrent hnil hinside] at heq
    cases heq

/-- What is left at the target once the source is removed. -/
theorem get?_without (hs : .current ∉ source.steps) (ht : .current ∉ target.steps)
    (hkey : source.steps = place ++ [.key key]) (hu : doc.hasUniqueKeys = true)
    (hv : source.get? doc = some v) (hw : target.get? doc = some w)
    (habove : Steps.passes doc source.steps target.steps = false →
      Steps.passes doc target.steps source.steps = false) :
    target.get? (without source doc) =
      if Steps.passes doc source.steps target.steps then none else some w := by
  obtain ⟨after, herase⟩ := Steps.exists_erase? (by simp [hkey]) hs hv
  have hwithout : without source doc = after := by
    rw [without, Path.erase?, herase]
  rw [hkey] at hs habove herase ⊢
  rw [List.mem_append, not_or] at hs
  rw [hwithout]
  cases hpasses : Steps.passes doc (place ++ [.key key]) target.steps with
  | true => exact Steps.get?_erase_of_passes hu hpasses herase
  | false =>
    exact (Steps.get?_erase_of_not_passes hs.1 ht hpasses (habove hpasses) herase).trans hw

/-! ### Moving the value -/

/-- The value is found under its new key. -/
theorem get?_renameInPlace? {renamed : Value} (hs : .current ∉ source.steps)
    (ht : .current ∉ target.steps) (hv : source.get? doc = some v)
    (hmissing : target.get? doc = none) (h : renameInPlace? source target doc = some renamed) :
    target.get? renamed = some v ∧ Steps.passes doc source.steps target.steps = false := by
  obtain ⟨parent, old, new, fields, hsource, htarget, hparent, rfl⟩ :=
    renameInPlace?_eq_some hs ht h
  rw [Path.get?, hsource, Steps.get?_concat_key hparent] at hv
  constructor
  · rw [Path.get?, htarget, Steps.get?_concat_key hparent] at hmissing
    rw [Path.get?, htarget, Steps.get?_concat_key (Steps.get?_replace_self hparent),
      Fields.get?_rename_new hmissing, hv]
  · -- the paths are equally long, so the target would be the source
    rw [Bool.eq_false_iff]
    intro hpasses
    obtain ⟨w, -, hw⟩ := Steps.get?_of_passes hpasses
    have hlength : target.steps.drop source.steps.length = [] := by
      simp [hsource, htarget]
    rw [hlength] at hw
    rw [Path.get?, hw] at hmissing
    cases hmissing

/-- What is found at the target of a move. -/
theorem get?_moveValue (hs : .current ∉ source.steps) (ht : .current ∉ target.steps)
    (hkey : source.steps = place ++ [.key key]) (hu : doc.hasUniqueKeys = true)
    (hv : source.get? doc = some v) (hmissing : target.get? doc = none)
    (hfailure : (moveValue source target v doc).failure = none) :
    target.get? (moveValue source target v doc).after =
      if Steps.passes doc source.steps target.steps then none else some v := by
  simp only [moveValue] at hfailure ⊢
  split
  · rename_i renamed hrenamed
    obtain ⟨hget, hpasses⟩ := get?_renameInPlace? hs ht hv hmissing hrenamed
    rw [hpasses]
    exact hget
  · rename_i hrenamed
    rw [hrenamed] at hfailure
    dsimp only at hfailure
    split
    · rename_i r hr
      rw [hr] at hfailure
      cases hfailure
    · rename_i x hx
      obtain ⟨⟨v', hv'⟩, hpasses, habove⟩ :=
        Steps.get?_set_of_missing v hs ht hv hmissing
      have hwritten : target.get? (target.set doc v).value = some v := Steps.get?_set_self hx
      have huwritten := target.stable_set Value.stable_hasUniqueKeys hu
        (Value.stable_hasUniqueKeys.get? hu hv)
      -- the source is removed from the written document, where it still has its place
      show target.get? (without source (target.set doc v).value) = _
      rw [← hpasses]
      exact get?_without hs ht hkey huwritten hv' hwritten fun _ => habove

theorem changes_moveValue (h : (moveValue source target v doc).failure = none) :
    (moveValue source target v doc).changes =
      [s!"Renamed {source.text} → {target.text}"] := by
  simp only [moveValue] at h ⊢
  split
  · rfl
  · rename_i hrenamed
    rw [hrenamed] at h
    dsimp only at h
    split
    · rename_i r hr
      rw [hr] at h
      cases h
    · rfl

/-- A rename that reports a change has moved the value or found an equal one. -/
theorem rename_of_changes (hv : source.get? doc = some v)
    (hfailure : (rename source target doc).failure = none)
    (hchanges : (rename source target doc).changes ≠ []) :
    (target.get? doc = none ∧
      rename source target doc = moveValue source target v doc) ∨
    ∃ w, target.get? doc = some w ∧ w.equal v = true ∧
      rename source target doc =
        .changed (without source doc) s!"Renamed {source.text} → {target.text}" := by
  have h := renames source target doc
  generalize rename source target doc = effect at h hfailure hchanges ⊢
  cases h with
  | missing => exact absurd rfl hchanges
  | same => exact absurd rfl hchanges
  | intoSelf => cases hfailure
  | moved hv' hne hfree =>
    obtain rfl := Option.some.inj (hv.symm.trans hv')
    exact .inl ⟨hfree, rfl⟩
  | takenOver hv' hexisting hequal =>
    obtain rfl := Option.some.inj (hv.symm.trans hv')
    exact .inr ⟨_, hexisting, hequal, rfl⟩
  | taken => cases hfailure

end Run

/-! ### The operation -/

namespace Operation

variable {text : String} {action : Action} {source target : Path} {v : Value} {key : String}

theorem exists_ite_iff {lost : Bool} {P : Value → Prop} (h : P v) :
    (∃ w, (if lost then none else some v) = some w ∧ P w) ↔ lost = false := by
  cases lost with
  | true =>
    constructor
    · rintro ⟨w, hw, -⟩
      cases hw
    · nofun
  | false => exact iff_of_true ⟨v, rfl, h⟩ rfl

/-- **A rename that reports a change keeps the value unless its target comes through its
source.**  The value at the target is then the one that was moved, or the equal one
that was there before. -/
theorem get?_target_rename_iff [Decimals] (htext : Action.ofText text = .ok action)
    (hop : .rename source target ∈ action.operations) (clock : Clock) (doc : Value)
    (hu : doc.hasUniqueKeys = true) (hkey : source.steps.getLast? = some (.key key))
    (hv : source.get? doc = some v)
    (hfailure : ((rename source target).apply clock doc).failure = none)
    (hchanges : ((rename source target).apply clock doc).changes ≠ []) :
    ((rename source target).apply clock doc).changes =
        [s!"Renamed {source.text} → {target.text}"] ∧
      ((∃ w, target.get? ((rename source target).apply clock doc).after = some w ∧
          (w = v ∨ target.get? doc = some w ∧ w.equal v = true)) ↔
        Steps.passes doc source.steps target.steps = false) := by
  have hwf := (Action.wellFormed_of_ofText htext).operations _ hop
  have hs : .current ∉ source.steps := hwf.current_notMem (by simp [places])
  have ht : .current ∉ target.steps := hwf.current_notMem (by simp [places])
  obtain ⟨place, hplace⟩ := List.getLast?_eq_some_iff.1 hkey
  rcases Run.rename_of_changes hv hfailure hchanges with
    ⟨hmissing, hrename⟩ | ⟨x, hx, heq, hrename⟩
  · rw [apply, hrename] at hfailure ⊢
    refine ⟨Run.changes_moveValue hfailure, ?_⟩
    rw [Run.get?_moveValue hs ht hplace hu hv hmissing hfailure]
    exact exists_ite_iff (.inl rfl)
  · rw [apply, hrename]
    refine ⟨rfl, ?_⟩
    rw [Effect.changed,
      Run.get?_without hs ht hplace hu hv hx (Run.not_passes_of_equal hs hv hx heq)]
    exact exists_ite_iff (.inr ⟨hx, heq⟩)

/-- A key that is renamed beside another one takes its value along. -/
theorem get?_target_rename_iff_run :
    let clock : Clock := ⟨2024, 1, 1, 0, 0, 0, 0⟩
    let source : Path := ⟨[.key "items", .index 0, .key "a"]⟩
    let target : Path := ⟨[.key "items", .index (-1), .key "b"]⟩
    let doc : Value := .object [("items", .array [.object [("a", .boolean true)]])]
    ∃ w, target.get? ((rename source target).apply clock doc).after = some w ∧
      (w = .boolean true ∨ target.get? doc = some w ∧ w.equal (.boolean true) = true) := by
  intro clock source target doc
  have htext : Action.ofText "RENAME items.0.a TO items.-1.b" = .ok ⟨[.rename source target]⟩ := by
    decide +kernel
  exact (get?_target_rename_iff htext List.mem_cons_self clock doc rfl rfl rfl rfl
    (List.cons_ne_nil _ _)).2.2 rfl

/-- Two paths to one key, by the first position and by the last: the value is lost. -/
theorem rename_loses_value :
    let clock : Clock := ⟨2024, 1, 1, 0, 0, 0, 0⟩
    let source : Path := ⟨[.key "items", .index 0, .key "a"]⟩
    let target : Path := ⟨[.key "items", .index (-1), .key "a"]⟩
    let doc : Value := .object [("items", .array [.object [("a", .boolean true)]])]
    let effect := (rename source target).apply clock doc
    Action.ofText "RENAME items.0.a TO items.-1.a" = .ok ⟨[.rename source target]⟩ ∧
      effect.failure = none ∧
      effect.changes = ["Renamed items.0.a → items.-1.a"] ∧
      source.get? doc = some (.boolean true) ∧ target.get? effect.after = none := by
  intro clock source target doc effect
  refine ⟨?_, rfl, ?_, rfl, rfl⟩
  · decide +kernel
  · decide +kernel

end Operation

end MetadataRules
