/-
MetadataRules/Run/Action.lean

Running an action on a document.

The operations run in order on a working copy, up to the first failure; what
was done before it stays done.  An outcome tells whether the copy differs from
the document in the end, by the equality of values.
-/
import MetadataRules.Run.Operation

namespace MetadataRules

/-- What a run reports. -/
structure Outcome where
  /-- No operation failed. -/
  success : Bool
  /-- The metadata differs from what was given. -/
  modified : Bool
  /-- A line for each change, in order. -/
  changes : List String
  /-- What had no effect, on one line. -/
  warning : Option String
  /-- The message of the operation that failed. -/
  error : Option String
  /-- The metadata after the run, with what was done before a failure. -/
  newData : Value
  /-- The metadata as it was given. -/
  givenData : Value

namespace Run

/-- The effect of operations in order, up to the first failure. -/
def operations [Decimals] (clock : Clock) : List Operation → Value → Effect Value
  | [], doc => .unchanged doc
  | op :: rest, doc =>
    let first := op.apply clock doc
    match first.failure with
    | some _ => first
    | none =>
      let below := operations clock rest first.after
      ⟨below.after, first.changes ++ below.changes, first.warnings ++ below.warnings,
        below.failure⟩

/-- Warnings on one line; none when there are none. -/
def joinWarnings : List String → Option String
  | [] => none
  | warnings => some ("; ".intercalate warnings)

end Run

/-- Runs an action on a document under a clock. -/
def Action.run [Decimals] (clock : Clock) (action : Action) (doc : Value) : Outcome :=
  let effect := Run.operations clock action.operations doc
  { success := effect.failure.isNone
    modified := !effect.after.equal doc
    changes := effect.changes
    warning := Run.joinWarnings effect.warnings
    error := effect.failure.map Failure.message
    newData := effect.after
    givenData := doc }

end MetadataRules
