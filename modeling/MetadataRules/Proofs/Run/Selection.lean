/-
MetadataRules/Proofs/Run/Selection.lean

The elements that a filter selects.

A filter and the condition `anyElement` ask the elements of an array the same
question, each in its own way.  A verb with a filter warns that nothing matched
exactly where the condition does not hold (`Run.warnings_collection_iff`), and a
removal leaves an array in which it does not hold any more.
-/
import MetadataRules.Number.Fixed
import MetadataRules.Proofs.Block
import MetadataRules.Proofs.Run.Silence

namespace MetadataRules

/-- The warning of a verb whose filter selects no element. -/
def Verb.unmatchedLine? (target : Path) : Verb → Option String
  | removeMatching => some s!"REMOVE: no elements of '{target.text}' matched WHERE"
  | moveMatching _ => some s!"MOVE: no elements of '{target.text}' matched WHERE"
  | update _ => some s!"SET: no elements of '{target.text}' matched WHERE"
  | _ => none

namespace Run

variable {clock : Clock} {target : Path} {test : Value → Bool} {items : List Value}

/-! ### Warnings -/

/-- A missing anchor is told of in other words than a filter that selects nothing. -/
theorem anchorLine_ne (target : Path) (label : String) :
    s!"MOVE: no element of '{target.text}' matched the {label} condition" ≠
      s!"MOVE: no elements of '{target.text}' matched WHERE" := by
  intro h
  -- the lines part behind the word "element"
  have hpart := congrArg (fun line => line.toList[16]?) h
  simp [ToString.toString, String.toList_append] at hpart

theorem warnings_moveMatching_iff (d : Destination) :
    (moveMatching clock target test d items).warnings =
        [s!"MOVE: no elements of '{target.text}' matched WHERE"] ↔ items.any test = false := by
  have hnone : Elements.moveWhere items test (placement clock d) = .noMatches ↔
      items.any test = false := by
    simp only [Elements.moveWhere_eq_noMatches_iff, List.any_eq_false, Bool.not_eq_true]
  rw [← hnone]
  simp only [moveMatching]
  cases Elements.moveWhere items test (placement clock d) with
  | moved moved n =>
    dsimp only
    split <;> exact iff_of_false (List.cons_ne_nil _ _).symm Elements.BlockMove.noConfusion
  | noMatches => exact iff_of_true rfl rfl
  | anchorNotFound =>
    exact iff_of_false (fun h => anchorLine_ne target _ (List.singleton_inj.1 h))
      Elements.BlockMove.noConfusion

theorem warnings_update_iff (values : List (Path × Value)) :
    (update target test values items).warnings =
        [s!"SET: no elements of '{target.text}' matched WHERE"] ↔ items.any test = false := by
  unfold update
  cases items.any test with
  | true =>
    rw [if_pos rfl, warnings_updateFrom]
    exact iff_of_false nofun nofun
  | false => exact iff_of_true rfl rfl

theorem length_sub_removeWhere :
    items.length - (Elements.removeWhere items test).length = 0 ↔ items.any test = false := by
  have hle : (Elements.removeWhere items test).length ≤ items.length := List.length_filter_le _ _
  have hall : (Elements.removeWhere items test).length = items.length ↔
      ∀ v ∈ items, (!test v) = true := List.length_filter_eq_length_iff
  rw [List.any_eq_false]
  simp only [Bool.not_eq_true'] at hall
  simp only [Bool.not_eq_true, ← hall]
  omega

/-- **A verb warns that its filter selects nothing exactly where no element passes it.** -/
theorem warnings_editElements_iff (c : Condition) {verb : Verb} {line : String}
    (hline : verb.unmatchedLine? target = some line) :
    (editElements clock target (some c) verb items).warnings = [line] ↔
      items.any (c.holds clock) = false := by
  cases verb with
  | removeMatching =>
    obtain rfl := Option.some.inj hline
    rw [← length_sub_removeWhere]
    simp only [editElements, withFilter]
    split
    · rename_i hnone
      exact iff_of_true rfl hnone
    · rename_i hsome
      exact iff_of_false (List.cons_ne_nil _ _).symm hsome
  | moveMatching d =>
    obtain rfl := Option.some.inj hline
    exact warnings_moveMatching_iff d
  | update assignments =>
    obtain rfl := Option.some.inj hline
    exact warnings_update_iff _
  | _ => cases hline

/-- A verb warns once at most. -/
theorem length_warnings_editElements (filter : Option Condition) (verb : Verb) :
    (editElements clock target filter verb items).warnings.length ≤ 1 := by
  cases hverb : verb.isUpdate with
  | false => exact (editElements_whole clock target filter hverb items).length_warnings
  | true =>
    cases verb with
    | update assignments =>
      rcases filter with - | c
      · exact Nat.zero_le _
      · simp only [editElements, withFilter, update]
        split
        · rw [warnings_updateFrom]
          exact Nat.zero_le _
        · exact Nat.le_refl _
    | _ => cases hverb

theorem joinWarnings_eq_some {warnings : List String} {line : String}
    (h : warnings.length ≤ 1) : joinWarnings warnings = some line ↔ warnings = [line] := by
  match warnings, h with
  | [], _ => exact iff_of_false nofun nofun
  | [warning], _ =>
    show some _ = some line ↔ _
    rw [String.intercalate_singleton, Option.some.injEq, List.singleton_inj]

end Run

/-! ### Runs -/

namespace Action

variable {clock : Clock} {p : Path} {doc : Value} {items : List Value}

/-- A verb that takes its filter runs on the elements of the array at its target. -/
theorem operations_of_get? [Decimals] (c : Condition) {verb : Verb}
    (hverb : verb.takesFilter = true) (h : p.get? doc = some (.array items)) :
    Run.operations clock [.collection p (some c) verb] doc =
      (Run.editElements clock p (some c) verb items).lift
        fun after => p.replace doc (.array after) := by
  have hfilter : ((some c).isSome && !verb.takesFilter) = false := by rw [hverb]; rfl
  have hmerge : ∀ l isDeep, verb ≠ .merge l isDeep := by
    rintro l isDeep rfl
    cases hverb
  exact Run.operations_collection clock hfilter hmerge h

theorem takesFilter_of_unmatchedLine? {verb : Verb} {line : String}
    (h : verb.unmatchedLine? p = some line) : verb.takesFilter = true := by
  cases verb with
  | removeMatching => rfl
  | moveMatching d => rfl
  | update assignments => rfl
  | _ => cases h

/-- What is left of an array after the removal of matching elements. -/
theorem get?_run_removeMatching [Decimals] (clock : Clock) (c : Condition)
    (h : p.get? doc = some (.array items)) :
    p.get? ((Action.mk [.collection p (some c) .removeMatching]).run clock doc).newData =
      some (.array (items.filter fun v => !c.holds clock v)) := by
  have hkept : (Run.editElements clock p (some c) .removeMatching items).after =
      items.filter fun v => !c.holds clock v := by
    simp only [Run.editElements, Run.withFilter]
    split
    · rename_i hnone
      exact (Elements.removeWhere_eq_self hnone).symm
    · rfl
  show p.get? (Run.operations clock _ doc).after = _
  rw [operations_of_get? c rfl h, Effect.lift, hkept]
  exact Steps.get?_replace_self h

/-- **A filter selects the elements that the condition on some element asks for.**  A verb
with a filter warns that nothing matched exactly where no element passes; after a removal no
element passes, what is left are the elements that did not pass, in their order, and there
are some exactly where some element did not pass. -/
theorem filter_agrees_anyElement [Decimals] (clock : Clock) (c : Condition)
    (h : p.get? doc = some (.array items)) :
    (∀ verb line, Verb.unmatchedLine? p verb = some line →
      (((Action.mk [.collection p (some c) verb]).run clock doc).warning = some line ↔
        (Condition.anyElement p c).holds clock doc = false)) ∧
    ∀ after, ((Action.mk [.collection p (some c) .removeMatching]).run clock doc).newData = after →
      (Condition.anyElement p c).holds clock after = false ∧
      p.get? after = some (.array (items.filter fun v => !c.holds clock v)) ∧
      (Condition.truthy p).holds clock after = (Condition.anyElement p (.not c)).holds clock doc := by
  constructor
  · intro verb line hline
    have hwarning : ((Action.mk [.collection p (some c) verb]).run clock doc).warning =
        Run.joinWarnings (Run.editElements clock p (some c) verb items).warnings := by
      show Run.joinWarnings (Run.operations clock _ doc).warnings = _
      rw [operations_of_get? c (takesFilter_of_unmatchedLine? hline) h]
      rfl
    rw [hwarning, Run.joinWarnings_eq_some (Run.length_warnings_editElements _ _),
      Run.warnings_editElements_iff c hline]
    simp only [Condition.holds, h]
  · rintro after rfl
    have hget := get?_run_removeMatching clock c h
    generalize ((Action.mk [.collection p (some c) .removeMatching]).run clock doc).newData =
      after at hget ⊢
    refine ⟨?_, hget, ?_⟩
    · simp only [Condition.holds, hget, List.any_eq_false, List.mem_filter]
      rintro v ⟨-, hfails⟩ hpasses
      rw [hpasses] at hfails
      cases hfails
    · simp only [Condition.holds, hget, h, Value.isTruthy]
      rw [Bool.eq_iff_iff, Bool.not_eq_true', List.isEmpty_eq_false_iff_exists_mem,
        List.any_eq_true]
      simp only [List.mem_filter]

/-- One of two elements is removed, and a filter that selects none is told of. -/
theorem filter_agrees_anyElement_items :
    let clock : Clock := ⟨2024, 1, 1, 0, 0, 0, 0⟩
    let p : Path := ⟨[.key "items"]⟩
    let c : Condition := .compare .current .equal (.string "a")
    let doc : Value := .object [("items", .array [.string "a", .string "b"])]
    let action : Action := ⟨[.collection p (some c) .removeMatching]⟩
    Action.ofText "FOR items WHERE @ = \"a\" REMOVE" = .ok action ∧
      ((action.run clock doc).warning = some "REMOVE: no elements of 'items' matched WHERE" ↔
        (Condition.anyElement p c).holds clock doc = false) ∧
      (Condition.anyElement p c).holds clock (action.run clock doc).newData = false := by
  intro clock p c doc action
  have hget : p.get? doc = some (.array [.string "a", .string "b"]) := rfl
  obtain ⟨hwarning, hafter⟩ := filter_agrees_anyElement clock c hget
  exact ⟨by decide +kernel, hwarning _ _ (by decide +kernel), (hafter _ rfl).1⟩

end Action

end MetadataRules
