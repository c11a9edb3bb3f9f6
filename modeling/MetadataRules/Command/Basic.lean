/-
MetadataRules/Command/Basic.lean

What can be done with rule texts and a document: check the rules, test a
condition, and apply an action.

Rule texts are read before the document, so an error in a rule wins over one in
the document.  Applying looks at the action first and checking at the condition
first.
-/
import MetadataRules.Document.Basic
import MetadataRules.Rule.Action
import MetadataRules.Run.Action

namespace MetadataRules

/-! ### Errors -/

/-- Why a command has no result. -/
inductive CommandError where
  | condition (cause : RuleError)
  | action (cause : RuleError)
  | document (cause : DocumentError)
  | noInput
  | nothingToCheck
  | unknownCategory (name : String)

/-- The error in words. -/
def CommandError.message : CommandError → String
  | condition cause => s!"Invalid condition: {cause.message}"
  | action cause => s!"Invalid action: {cause.message}"
  | document cause => cause.message
  | noInput => "No input provided. Use --input or pipe a document to stdin."
  | nothingToCheck => "Nothing to check. Pass --condition and/or --action."
  | unknownCategory name =>
    s!"Unknown category: '{name}'\nRun 'metarule docs' to see available categories."

namespace Command

/-! ### Reading what is given -/

/-- Reads the text of a condition. -/
def readCondition (text : String) : Except CommandError Condition :=
  (Condition.ofText text).mapError .condition

/-- Reads the text of an action. -/
def readAction (text : String) : Except CommandError Action :=
  (Action.ofText text).mapError .action

/-- Reads a text that may be missing. -/
def readOptional {α : Type} (read : String → Except CommandError α) :
    Option String → Except CommandError (Option α)
  | some text => (read text).map some
  | none => .ok none

/-- Reads the document that a command works on. -/
def readDocument (codec : Yaml.Codec) (input : Option String) : Except CommandError Document :=
  match input with
  | some text => (Document.ofText codec text).mapError .document
  | none => .error .noInput

/-! ### Checking -/

/-- The rules that were checked. -/
structure Checked where
  condition : Option Condition
  action : Option Action

/-- Reads a condition and an action, of which one may be missing. -/
def check (condition action : Option String) : Except CommandError Checked :=
  if condition.isNone && action.isNone then .error .nothingToCheck
  else do
    let c ← readOptional readCondition condition
    let a ← readOptional readAction action
    return ⟨c, a⟩

/-! ### Testing -/

/-- Whether a condition holds of a document. -/
def test (codec : Yaml.Codec) (clock : Clock) (condition : String) (input : Option String) :
    Except CommandError Bool := do
  let c ← readCondition condition
  let doc ← readDocument codec input
  return c.holds clock doc.data

/-! ### Applying -/

/-- What became of a document. -/
inductive Status where
  | success
  | warning
  | error
  | skipped
deriving DecidableEq

/-- The word for a status. -/
def Status.name : Status → String
  | success => "success"
  | warning => "warning"
  | error => "error"
  | skipped => "skipped"

/-- The status of a run, where there was one. -/
def Status.ofOutcome? : Option Outcome → Status
  | none => skipped
  | some outcome =>
    if !outcome.success then error
    else if outcome.warning.isSome then warning
    else success

/-- A document and what running an action on it gave. -/
structure Applied where
  document : Document
  /-- None when the condition did not hold. -/
  outcome : Option Outcome

namespace Applied

def status (r : Applied) : Status := .ofOutcome? r.outcome

/-- The document with its new metadata. -/
def result (r : Applied) : Document :=
  match r.outcome with
  | some outcome => { r.document with data := outcome.newData }
  | none => r.document

end Applied

/-- Runs an action on a document if a condition, where there is one, holds of it. -/
def apply [Decimals] (codec : Yaml.Codec) (clock : Clock) (action : String)
    (condition input : Option String) : Except CommandError Applied := do
  let a ← readAction action
  let c ← readOptional readCondition condition
  let doc ← readDocument codec input
  if c.all (·.holds clock doc.data) then return ⟨doc, some (a.run clock doc.data)⟩
  else return ⟨doc, none⟩

end Command

end MetadataRules
