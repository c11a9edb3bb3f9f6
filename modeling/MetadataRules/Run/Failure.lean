/-
MetadataRules/Run/Failure.lean

Why an operation fails.

A failure holds what the message needs and nothing else: paths as they were
written, kinds of values, and the values themselves where they are shown.
-/
import MetadataRules.Elements

namespace MetadataRules

/-- The failure of a single operation. -/
inductive Failure where
  | refusedWrite (path : Path) (refusal : Refusal)
  /-- The target holds a value of another kind, or nothing. -/
  | notAnArray (verb : Keyword) (target : Path) (found : Option Kind)
  | notAnObject (verb : Keyword) (target : Path) (found : Kind)
  | valueNotAnObject (verb : Keyword) (found : Kind)
  | notNumeric (verb : Keyword) (path : Path) (value : Value)
  | renameTargetExists (source target : Path)
  | renameIntoSelf (source target : Path)
  | indexOutOfRange (verb : Keyword) (target : Path) (cause : Elements.OutOfRange)
  | elementWrite (target : Path) (index : Nat) (path : Path) (refusal : Refusal)
  | filterNotSupported (verb : Keyword)
  | filterRequired (verb : Keyword) (target : Path)
  /-- A merge among the verbs on elements.  Merges are done before the elements are looked
  at, so no operation fails like this. -/
  | mergeOfElements

/-- The word for what stands at a target. -/
def Failure.foundName : Option Kind → String
  | some found => found.name
  | none => "missing"

/-- A failure in words. -/
def Failure.message : Failure → String
  | refusedWrite p r => r.message p
  | notAnArray verb t found =>
    s!"{verb.name} requires an array, but '{t.text}' is {foundName found}"
  | notAnObject verb t found =>
    s!"{verb.name} requires an object, but '{t.text}' is {found.name}"
  | valueNotAnObject verb found => s!"{verb.name} expects an object value, got {found.name}"
  | notNumeric verb p v => s!"cannot {verb.name} '{p.text}': {v.compact} is not a number"
  | renameTargetExists source target =>
    s!"cannot rename '{source.text}' to '{target.text}': '{target.text}' already exists"
  | renameIntoSelf source target =>
    s!"cannot rename '{source.text}' to '{target.text}': the new path is inside the old one"
  | indexOutOfRange verb t cause => s!"{verb.name} on '{t.text}': {cause.message}"
  | elementWrite t index p r => s!"SET on element {index} of '{t.text}': {r.message p}"
  | filterNotSupported verb => s!"{verb.name} does not accept a WHERE clause"
  | filterRequired verb t => s!"{verb.name} on '{t.text}' requires a WHERE clause"
  | mergeOfElements => "merge is applied to objects before array resolution"

end MetadataRules
