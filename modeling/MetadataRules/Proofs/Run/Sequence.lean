/-
MetadataRules/Proofs/Run/Sequence.lean

Runs one behind the other.

An effect is followed by another one only if it did not fail, and what both
report stands in order (`Effect.andThen`).  This is associative, and the effect
of a list of operations is put together by it, so it does not matter where the
list is cut:

    operations (xs ++ ys) doc  =  (operations xs doc).andThen (operations ys)

An outcome has its warnings on one line.  Lines that are joined already are
joined further as the warnings in them would be (`Run.joinWarnings_append`), so
the equation holds of outcomes too.  Cut between any two operations it says that
an action is its operations as rules of their own, up to the first that fails
(`Action.runInTurn`).
-/
import MetadataRules.Number.Fixed
import MetadataRules.Run.Action

namespace MetadataRules

/-! ### Effects in sequence -/

namespace Effect

variable {α : Type} {first : Effect α} {next : α → Effect α}

/-- An effect and, unless it failed, the effect of the next step on what it left. -/
def andThen (first : Effect α) (next : α → Effect α) : Effect α :=
  match first.failure with
  | some _ => first
  | none =>
    let second := next first.after
    ⟨second.after, first.changes ++ second.changes, first.warnings ++ second.warnings,
      second.failure⟩

theorem andThen_of_failure (h : first.failure.isSome) : first.andThen next = first := by
  obtain ⟨failure, hfailure⟩ := Option.isSome_iff_exists.1 h
  rw [andThen, hfailure]

theorem andThen_of_success (h : first.failure = none) :
    first.andThen next =
      ⟨(next first.after).after, first.changes ++ (next first.after).changes,
        first.warnings ++ (next first.after).warnings, (next first.after).failure⟩ := by
  rw [andThen, h]

theorem unchanged_andThen (a : α) (next : α → Effect α) : (unchanged a).andThen next = next a := by
  rw [andThen_of_success rfl]
  rfl

/-- Three steps may be taken two at a time from either end. -/
theorem andThen_assoc (first : Effect α) (next last : α → Effect α) :
    (first.andThen next).andThen last = first.andThen fun a => (next a).andThen last := by
  obtain ⟨a, changes, warnings, failure⟩ := first
  cases failure with
  | some failure => rfl
  | none =>
    rcases hnext : next a with ⟨b, changes', warnings', failure'⟩
    cases failure' <;> simp [andThen, hnext]

end Effect

namespace Run

theorem operations_cons [Decimals] (clock : Clock) (op : Operation) (rest : List Operation)
    (doc : Value) :
    operations clock (op :: rest) doc = (op.apply clock doc).andThen (operations clock rest) :=
  rfl

/-- **Operations are run in two parts as in one.** -/
theorem operations_append [Decimals] (clock : Clock) (xs ys : List Operation) (doc : Value) :
    operations clock (xs ++ ys) doc = (operations clock xs doc).andThen (operations clock ys) := by
  induction xs generalizing doc with
  | nil => exact (Effect.unchanged_andThen doc _).symm
  | cons op rest ih =>
    rw [List.cons_append, operations_cons, operations_cons, Effect.andThen_assoc]
    congr 1
    funext mid
    exact ih mid

/-! ### Warnings on one line -/

theorem joinWarnings_of_ne_nil {as : List String} (h : as ≠ []) :
    joinWarnings as = some ("; ".intercalate as) := by
  cases as with
  | nil => exact absurd rfl h
  | cons a as => rfl

/-- A line of joined warnings counts as one warning. -/
theorem joinWarnings_toList (as : List String) :
    joinWarnings (joinWarnings as).toList = joinWarnings as := by
  by_cases has : as = []
  · rw [has]
    rfl
  · rw [joinWarnings_of_ne_nil has, Option.toList_some,
      joinWarnings_of_ne_nil (List.cons_ne_nil _ _), String.intercalate_singleton]

theorem joinWarnings_append_of_ne_nil {as bs : List String} (has : as ≠ []) (hbs : bs ≠ []) :
    joinWarnings (as ++ bs) = some ("; ".intercalate as ++ "; " ++ "; ".intercalate bs) := by
  rw [joinWarnings_of_ne_nil (List.append_ne_nil_of_left_ne_nil has bs),
    String.intercalate_append_of_ne_nil has hbs]

/-- Warnings on one line are those of a first part and those of a second part, each on its
line, on one line. -/
theorem joinWarnings_append (as bs : List String) :
    joinWarnings (as ++ bs) =
      joinWarnings ((joinWarnings as).toList ++ (joinWarnings bs).toList) := by
  by_cases has : as = []
  · rw [has]
    exact (joinWarnings_toList bs).symm
  by_cases hbs : bs = []
  · rw [hbs, List.append_nil]
    show joinWarnings as = joinWarnings ((joinWarnings as).toList ++ [])
    rw [List.append_nil, joinWarnings_toList]
  · rw [joinWarnings_append_of_ne_nil has hbs, joinWarnings_of_ne_nil has,
      joinWarnings_of_ne_nil hbs, Option.toList_some, Option.toList_some,
      joinWarnings_append_of_ne_nil (List.cons_ne_nil _ _) (List.cons_ne_nil _ _),
      String.intercalate_singleton, String.intercalate_singleton]

theorem joinWarnings_append_toList (as bs : List String) :
    joinWarnings (as ++ (joinWarnings bs).toList) = joinWarnings (as ++ bs) := by
  rw [joinWarnings_append, joinWarnings_toList, ← joinWarnings_append]

end Run

/-! ### Outcomes in sequence -/

namespace Action

section Parts

variable [Decimals] {clock : Clock} {xs : List Operation} {doc : Value}

/-- The outcomes of actions that are run one after another, each on the document that the one
before it left, up to the first that fails. -/
def runInTurn (clock : Clock) : List Action → Value → List Outcome
  | [], _ => []
  | action :: rest, doc =>
    let first := action.run clock doc
    if first.success then first :: runInTurn clock rest first.newData else [first]

theorem error_of_success {action : Action} (h : (run clock action doc).success = true) :
    (run clock action doc).error = none :=
  Option.map_eq_none_iff.2 (Option.isNone_iff_eq_none.1 h)

/-- The warning of an outcome is a line that may be joined further. -/
theorem joinWarnings_warning (clock : Clock) (action : Action) (doc : Value) :
    Run.joinWarnings (run clock action doc).warning.toList = (run clock action doc).warning :=
  Run.joinWarnings_toList _

/-- A run that fails is the run of every list that goes on from there. -/
theorem run_of_failure (ys : List Operation) (h : (run clock ⟨xs⟩ doc).success = false) :
    run clock ⟨xs ++ ys⟩ doc = run clock ⟨xs⟩ doc := by
  have hfailure : (Run.operations clock xs doc).failure.isSome := by
    rw [← Option.not_isNone]
    exact congrArg (!·) h
  have heffect : Run.operations clock (xs ++ ys) doc = Run.operations clock xs doc := by
    rw [Run.operations_append, Effect.andThen_of_failure hfailure]
  unfold run
  rw [heffect]

/-- What is reported of a run that goes on is what is reported of both parts. -/
theorem run_of_success (ys : List Operation) (h : (run clock ⟨xs⟩ doc).success = true) :
    let first := run clock ⟨xs⟩ doc
    let second := run clock ⟨ys⟩ first.newData
    let whole := run clock ⟨xs ++ ys⟩ doc
    whole.success = second.success ∧ whole.error = second.error ∧
      whole.newData = second.newData ∧ whole.changes = first.changes ++ second.changes ∧
      whole.warning = Run.joinWarnings (first.warning.toList ++ second.warning.toList) := by
  have hfailure : (Run.operations clock xs doc).failure = none := Option.isNone_iff_eq_none.1 h
  have heffect := Run.operations_append clock xs ys doc
  rw [Effect.andThen_of_success hfailure] at heffect
  refine ⟨congrArg (·.failure.isNone) heffect, congrArg (·.failure.map Failure.message) heffect,
    congrArg (·.after) heffect, congrArg (·.changes) heffect, ?_⟩
  exact (congrArg (Run.joinWarnings ·.warnings) heffect).trans (Run.joinWarnings_append _ _)

/-- One operation in front of others: the rule of its own comes first, and the others are run
in turn unless it fails. -/
theorem runInTurn_cons (action : Action) (rest : List Action) (doc : Value) :
    runInTurn clock (action :: rest) doc =
      if (action.run clock doc).success then
        action.run clock doc :: runInTurn clock rest (action.run clock doc).newData
      else [action.run clock doc] :=
  rfl

/-- **Runs compose.**  A list of operations that is cut in two is run as its first part and
then, if that succeeds, its second part on what is left: the second part decides about success
and about the document, and both report their changes and warnings in order.  If the first part
fails, its outcome is that of the whole.  Cut everywhere, an action is its operations as rules of
their own that are run in turn: it succeeds where all do, and ends with the error and the
document of the last that was run. -/
theorem run_append (clock : Clock) :
    (∀ (xs ys : List Operation) (doc : Value),
      let first := run clock ⟨xs⟩ doc
      let second := run clock ⟨ys⟩ first.newData
      let whole := run clock ⟨xs ++ ys⟩ doc
      (first.success = true →
        whole.success = second.success ∧ whole.error = second.error ∧
          whole.newData = second.newData ∧ whole.changes = first.changes ++ second.changes ∧
          whole.warning = Run.joinWarnings (first.warning.toList ++ second.warning.toList)) ∧
      (first.success = false → whole = first)) ∧
    ∀ (ops : List Operation) (doc : Value),
      let parts := runInTurn clock (ops.map fun op => ⟨[op]⟩) doc
      let whole := run clock ⟨ops⟩ doc
      whole.success = parts.all (·.success) ∧
        whole.error = parts.getLast?.bind (·.error) ∧
        whole.newData = (parts.getLast?.map (·.newData)).getD doc ∧
        whole.changes = parts.flatMap (·.changes) ∧
        whole.warning = Run.joinWarnings (parts.filterMap (·.warning)) := by
  refine ⟨fun xs ys doc => ⟨run_of_success ys, run_of_failure ys⟩, fun ops doc => ?_⟩
  -- the first operation is cut off, and the others start from what it left
  induction ops generalizing doc with
  | nil => exact ⟨rfl, rfl, rfl, rfl, rfl⟩
  | cons op rest ih =>
    simp only [List.map_cons, runInTurn_cons]
    cases hsuccess : (run clock ⟨[op]⟩ doc).success with
    | false =>
      -- the first operation is the last that is run
      have hwhole : run clock ⟨op :: rest⟩ doc = run clock ⟨[op]⟩ doc :=
        run_of_failure rest hsuccess
      rw [hwhole]
      exact ⟨by simp, rfl, rfl, by simp, (joinWarnings_warning clock ⟨[op]⟩ doc).symm⟩
    | true =>
      have hnone := error_of_success hsuccess
      obtain ⟨hwhole, herror, hdata, hchanges, hwarning⟩ := run_of_success rest hsuccess
      obtain ⟨isuccess, ierror, idata, ichanges, iwarning⟩ := ih (run clock ⟨[op]⟩ doc).newData
      generalize run clock ⟨[op]⟩ doc = first at *
      generalize runInTurn clock _ first.newData = parts at *
      have hlast : (first :: parts).getLast? = some (parts.getLast?.getD first) :=
        List.getLast?_cons
      rw [if_pos rfl, hlast]
      refine ⟨?_, herror.trans (ierror.trans ?_), hdata.trans (idata.trans ?_), ?_, ?_⟩
      · rw [List.all_cons, hsuccess, Bool.true_and, ← isuccess]
        exact hwhole
      · cases parts.getLast? with
        | none => exact hnone.symm
        | some last => rfl
      · cases parts.getLast? <;> rfl
      · rw [List.flatMap_cons, ← ichanges]
        exact hchanges
      · refine hwarning.trans ?_
        rw [iwarning, Run.joinWarnings_append_toList, List.filterMap_cons]
        cases first.warning <;> rfl

end Parts

/-- Two deletions that find nothing warn on one line before a write, and a write that is refused
keeps the one behind it from being run. -/
theorem run_append_run :
    let clock : Clock := ⟨2024, 1, 1, 0, 0, 0, 0⟩
    let doc : Value := .object [("a", .string "x")]
    let written : Value := .object [("a", .null)]
    let xs : List Operation := [.delete ⟨[.key "b"]⟩]
    let ys : List Operation := [.delete ⟨[.key "c"]⟩, .set ⟨[.key "a"]⟩ .null]
    let zs : List Operation := [.set ⟨[.key "a", .key "b"]⟩ .null]
    (run clock ⟨xs⟩ doc).success = true ∧ (run clock ⟨xs ++ ys⟩ doc).newData = written ∧
      (run clock ⟨xs ++ ys⟩ doc).warning =
        some "DELETE: 'b' does not exist; DELETE: 'c' does not exist" ∧
      (run clock ⟨zs⟩ doc).success = false ∧
      run clock ⟨zs ++ ys⟩ doc = run clock ⟨zs⟩ doc := by
  intro clock doc written xs ys zs
  have hsuccess : (run clock ⟨xs⟩ doc).success = true := rfl
  have hfailure : (run clock ⟨zs⟩ doc).success = false := rfl
  obtain ⟨-, -, hdata, -, hwarning⟩ := ((run_append clock).1 xs ys doc).1 hsuccess
  refine ⟨hsuccess, hdata.trans rfl, hwarning.trans ?_, hfailure, ?_⟩
  · decide +kernel
  · exact ((run_append clock).1 zs ys doc).2 hfailure

end Action

end MetadataRules
