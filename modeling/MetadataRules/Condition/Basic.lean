/-
MetadataRules/Condition/Basic.lean

Conditions: boolean tests of a document.

Every path in a condition starts from the value under test, which is the
document itself or, inside `anyElement`, the element of an array.  `holds` is
defined for every document: a path that leads nowhere makes a test false, and
no test fails.
-/
import MetadataRules.Literal
import MetadataRules.Path.Access
import MetadataRules.Value.Comparison

namespace MetadataRules

/-- A boolean test of a document. -/
inductive Condition where
  /-- The value at a path compares to a literal. -/
  | compare (path : Path) (op : Comparison) (value : Literal)
  /-- A path names something; negated, it names nothing. -/
  | present (path : Path) (negated : Bool)
  /-- An array holds an element, or a string a part. -/
  | contains (path : Path) (value : Literal)
  /-- The value at a path is one of a list. -/
  | oneOf (path : Path) (values : List Literal)
  /-- Some element of an array passes a test. -/
  | anyElement (path : Path) (test : Condition)
  | and (left right : Condition)
  | or (left right : Condition)
  | not (inner : Condition)
  /-- The value at a path is present and truthy. -/
  | truthy (path : Path)
deriving DecidableEq

namespace Condition

/-- Whether a condition holds of a value under a clock. -/
def holds (clock : Clock) : Condition → Value → Bool
  | compare path op value, root =>
    match path.get? root with
    | some actual => op.holds actual (value.resolve clock)
    | none => false
  | present path negated, root => (path.get? root).isSome != negated
  | contains path value, root =>
    match path.get? root with
    | some actual => actual.contains (value.resolve clock)
    | none => false
  | oneOf path values, root =>
    match path.get? root with
    | some actual => values.any fun l => actual.looseEqual (l.resolve clock)
    | none => false
  | anyElement path test, root =>
    match path.get? root with
    | some (.array items) => items.any fun item => holds clock test item
    | _ => false
  | and left right, root => holds clock left root && holds clock right root
  | or left right, root => holds clock left root || holds clock right root
  | not inner, root => !holds clock inner root
  | truthy path, root =>
    match path.get? root with
    | some actual => actual.isTruthy
    | none => false

end Condition

end MetadataRules
